import PlainScore.Decimal.Fixed
import PlainScore.Handoff
import PlainScore.Journal

/-! The playing side: the thread that takes bars from a producer and writes them to a sink. -/
namespace PlainScore

/-- Where sound goes. Writes are numbered from zero; a sink says which of them it refuses,
and whether it refuses to finish. -/
structure Sink where
  writeFault : Nat → Option Error
  finishFault : Option Error
  interrupts : Nat → Bool

namespace Sink

def memory : Sink where
  writeFault := fun _ => none
  finishFault := none
  interrupts := fun _ => false

def interruptsIn (sink : Sink) (number : Nat) : Bool :=
  (sink.writeFault number).isNone && sink.interrupts number

end Sink

namespace Playback

abbrev Result := Except Failure Unit

inductive Phase where
  | receiving
  | writing (bar : List Sample)
  | finishing
  | hangingUp (consumed : Except Error Unit)
  | joining (consumed : Except Error Unit)
  | done (result : Except Error Unit)

end Playback

structure Playback where
  params : Audio.Params
  sink : Sink
  writes : List (List Sample)
  finishes : Nat
  phase : Playback.Phase
  journal : Journal

namespace Playback

def new (params : Audio.Params) (sink : Sink) : Playback where
  params := params
  sink := sink
  writes := []
  finishes := 0
  phase := .receiving
  journal := .empty

def write (p : Playback) (l : Line) : Playback := { p with journal := p.journal.write l }

def goTo (p : Playback) (phase : Phase) : Playback := { p with phase }

def receivedRemark (params : Audio.Params) (bar : List Sample) : Line :=
  let seconds := Decimal.fixed 3 (params.duration bar.length)
  .debug s!"Got {bar.length} samples ({seconds}s)"

/-- Whoever sets the interrupt flag writes this to the log of its own thread, also if the flag
was set before. -/
def interruptRemark : Line := .info "Interrupting synthesis"

def interruptsNext (p : Playback) : Bool :=
  match p.phase with
  | .writing _ => p.sink.interruptsIn p.writes.length
  | _ => false

def put (p : Playback) (bar : List Sample) : Playback :=
  let number := p.writes.length
  let p := if p.sink.interruptsIn number then p.write interruptRemark else p
  let p := { p with writes := p.writes ++ [bar] }
  match p.sink.writeFault number with
  | none => p.goTo .receiving
  | some e => p.goTo (.hangingUp (.error e))

def finish (p : Playback) : Playback :=
  let p := { p with finishes := p.finishes + 1 }
  match p.sink.finishFault with
  | none => p.goTo (.hangingUp (.ok ()))
  | some e => p.goTo (.hangingUp (.error e))

/-- The outcome of a playback: a lost producer goes before the sink's error, which goes before
the producer's own. -/
def combine (consumed : Except Error Unit) : Result → Except Error Unit
  | .error .outOfRoom => .error (.workerLost .producer)
  | .error (.reported e) => match consumed with
    | .ok () => .error e
    | .error e' => .error e'
  | .ok () => consumed

def canStep (p : Playback) (input : Handoff) (produced : Option Result) : Bool :=
  match p.phase with
  | .receiving => input.canReceive
  | .joining _ => produced.isSome
  | .done _ => false
  | _ => true

def step (produced : Option Result) (input : Handoff) (p : Playback) : Playback × Handoff :=
  match p.phase with
  | .receiving =>
    match input.tryReceive with
    | (.chunk (.samples bar), input) =>
      ((p.write (receivedRemark p.params bar)).goTo (.writing bar), input)
    | (.chunk .endOfStream, input) => ((p.write (.debug "End of stream")).goTo .finishing, input)
    | (.disconnected, input) => (p.goTo .finishing, input)
    | (.empty, input) => (p, input)
  | .writing bar => (p.put bar, input)
  | .finishing => (p.finish, input)
  | .hangingUp consumed => (p.goTo (.joining consumed), input.dropReceiver)
  | .joining consumed =>
    match produced with
    | some r => (p.goTo (.done (combine consumed r)), input)
    | none => (p, input)
  | .done _ => (p, input)

def result? (p : Playback) : Option (Except Error Unit) :=
  match p.phase with
  | .done r => some r
  | _ => none

def accepted (p : Playback) : List (List Sample) :=
  (p.writes.zipIdx.filter fun (_, number) => (p.sink.writeFault number).isNone).map (·.1)

def sinkFinished (p : Playback) : Bool := 0 < p.finishes && p.sink.finishFault.isNone

def outcome : Except Error Unit → Except Complaint Unit
  | .error .interrupted => .ok ()
  | .error e => .error (.ofError e)
  | .ok () => .ok ()

def outcomeRemarks : Except Error Unit → List Line
  | .error .interrupted => [.info "Playback interrupted"]
  | _ => []

end Playback

end PlainScore
