import PlainScore.Playback
import PlainScore.Relay
import PlainScore.Score

/-! A producer and a consumer at work: all threads of a run together.
An event is a step of one thread, or the setting of the interrupt flag by somebody outside.
A sink may set the flag too, within a step of the consumer.
Any enabled event may come next, so that the order of the threads is left open. -/
namespace PlainScore

structure Listener where
  limit : Option Nat
  heard : List Chunk
  gone : Bool

namespace Listener

def new (limit : Option Nat) : Listener := ⟨limit, [], false⟩

def satisfied (l : Listener) : Bool := l.limit.any (· ≤ l.heard.length)

def canStep (l : Listener) (input : Handoff) : Bool :=
  !l.gone && (l.satisfied || input.canReceive)

def step (input : Handoff) (l : Listener) : Listener × Handoff :=
  if l.satisfied then ({ l with gone := true }, input.dropReceiver)
  else match input.tryReceive with
    | (.chunk c, input) => ({ l with heard := l.heard ++ [c] }, input)
    | (.disconnected, input) => ({ l with gone := true }, input.dropReceiver)
    | (.empty, input) => (l, input)

end Listener

namespace Session

inductive Producer where
  | lone (s : Synth)
  | relay (r : Relay)

inductive Consumer where
  | listener (l : Listener)
  | playback (p : Playback)

inductive Event where
  | consume
  | produce
  | produceChild (index : Nat)
  | interrupt
  deriving DecidableEq, Repr

end Session

structure Session where
  interrupted : Bool
  output : Handoff
  producer : Session.Producer
  consumer : Session.Consumer

namespace Session

def Producer.result? : Producer → Option Playback.Result
  | .lone s => s.result?.map fun r => r.map fun _ => ()
  | .relay r => r.result?.map fun r => r.map fun _ => ()

def Producer.canStep (output : Handoff) : Producer → Bool
  | .lone s => s.canStep output
  | .relay r => r.canStep output

def Producer.step (interrupted : Bool) (output : Handoff) : Producer → Producer × Handoff
  | .lone s => let (s, output) := s.step interrupted output; (.lone s, output)
  | .relay r => let (r, output) := r.step interrupted output; (.relay r, output)

def Consumer.canStep (input : Handoff) (produced : Option Playback.Result) : Consumer → Bool
  | .listener l => l.canStep input
  | .playback p => p.canStep input produced

def Consumer.step (input : Handoff) (produced : Option Playback.Result) :
    Consumer → Consumer × Handoff
  | .listener l => let (l, input) := l.step input; (.listener l, input)
  | .playback p => let (p, input) := p.step produced input; (.playback p, input)

def Consumer.interruptsNext : Consumer → Bool
  | .listener _ => false
  | .playback p => p.interruptsNext

def Enabled (s : Session) : Event → Prop
  | .consume => s.consumer.canStep s.output s.producer.result? = true
  | .produce => s.producer.canStep s.output = true
  | .produceChild i =>
    match s.producer with
    | .lone _ => False
    | .relay r => (r.child? i).any (·.canStep) = true
  | .interrupt => True

instance (s : Session) (e : Event) : Decidable (Enabled s e) := by
  cases e with
  | produceChild i =>
    simp only [Enabled]
    split <;> infer_instance
  | _ => simp only [Enabled]; infer_instance

def next (s : Session) : Event → Session
  | .consume =>
    let (consumer, output) := s.consumer.step s.output s.producer.result?
    { s with consumer, output, interrupted := s.interrupted || s.consumer.interruptsNext }
  | .produce =>
    let (producer, output) := s.producer.step s.interrupted s.output
    { s with producer, output }
  | .produceChild i =>
    match s.producer with
    | .lone _ => s
    | .relay r => { s with producer := .relay (r.stepChild s.interrupted i) }
  | .interrupt => { s with interrupted := true }

def Step (s : Session) (e : Event) (t : Session) : Prop := Enabled s e ∧ t = next s e

inductive Execution : Session → List Event → Session → Prop where
  | nil (s : Session) : Execution s [] s
  | cons {s t u : Session} {e : Event} {es : List Event} :
      Step s e t → Execution t es u → Execution s (e :: es) u

/-! ### Sessions before their first event -/

def ofSheet (sheet : Sheet) (params : Audio.Params) (consumer : Consumer) :
    Except Failure Session := do
  let synth ← Synth.new sheet params
  return ⟨false, {}, .lone synth, consumer⟩

def ofSheets (sheets : List Sheet) (params : Audio.Params) (consumer : Consumer)
    (spawnFault : Nat → Option FileFault := fun _ => none) : Session :=
  ⟨false, {}, .relay (.new sheets params spawnFault), consumer⟩

/-- A playback of a score, once the thread of its producer was started. -/
def ofScore (score : Score) (params : Audio.Params) (sink : Sink)
    (spawnFault : Nat → Option FileFault := fun _ => none) : Except Failure Session :=
  let consumer := Consumer.playback (.new params sink)
  match score with
  | .single sheet => ofSheet sheet params consumer
  | .medley sheets => .ok (ofSheets sheets params consumer spawnFault)

/-! ### One way to run a session -/

/-- The nearer a thread is to the sound, the sooner it gets its turn: the consumer before the
producer, and the producer before its children. -/
def promptEvent? (s : Session) : Option Event :=
  if Enabled s .consume then some .consume
  else if Enabled s .produce then some .produce
  else match s.producer with
    | .lone _ => none
    | .relay r =>
      (List.range r.children.length).reverse.findSome? fun i =>
        if Enabled s (.produceChild i) then some (.produceChild i) else none

def runFor : Nat → Session → Session
  | 0, s => s
  | fuel + 1, s =>
    match promptEvent? s with
    | none => s
    | some e => runFor fuel (next s e)

def trackSamples (sheet : Sheet) (params : Audio.Params) (t : Track) : Nat :=
  t.tokens.foldl (fun n token =>
    match Note.ofToken token with
    | .error _ => n
    | .ok note =>
      n + params.sampleCount
        (note.value * Float.ofNat sheet.meter.denominator * sheet.beatDuration)) 0

def sheetEvents (params : Audio.Params) (sheet : Sheet) : Nat :=
  let notes := sheet.tracks.foldl (fun n t => n + t.tokens.length) 0
  let capacity := max (params.sampleCount sheet.barDuration) 1
  let bars := (sheet.tracks.getLast?.map (trackSamples sheet params)).getD 0 / capacity
  notes + sheet.tracks.length + 8 * bars + 64

def Producer.sheets : Producer → List Sheet
  | .lone s => [s.sheet]
  | .relay r => r.sheets

def Producer.params : Producer → Audio.Params
  | .lone s => s.params
  | .relay r => r.params

def events (s : Session) : Nat :=
  s.producer.sheets.foldl (fun n sheet => n + sheetEvents s.producer.params sheet) 64

def run (s : Session) : Session := runFor s.events s

/-! ### What is left of a session at its end -/

def Producer.journal : Producer → Journal
  | .lone s => s.journal
  | .relay r => r.journal

def Producer.childJournals : Producer → List Journal
  | .lone _ => []
  | .relay r => r.children.map (·.synth.journal)

end Session

end PlainScore
