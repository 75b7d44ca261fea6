import PlainScore.Synth

/-! The relay of a medley, as a machine.
It starts one synthesizer after the other, each on a thread of its own, and passes their
bars on to a single output. When it stops, for whatever reason, it ends its own stream and
then empties the outputs of synthesizers that are still running, so that none of them waits
for ever. -/
namespace PlainScore

namespace Relay

abbrev Result := Except Failure (List Report)

inductive Phase where
  | starting (index : Nat)
  | receiving (index : Nat)
  | checking (index : Nat) (bar : List Sample)
  | sending (index : Nat) (bar : List Sample)
  | joining (index : Nat)
  | ending (result : Result)
  | draining (result : Result) (index : Nat)
  | discarding (result : Result) (index : Nat)
  | reaping (result : Result) (index : Nat)
  | leaving (result : Result)
  | done (result : Result)

structure Child where
  synth : Synth
  output : Handoff
  joined : Bool

namespace Child

def canStep (c : Child) : Bool := c.synth.canStep c.output

def step (interrupted : Bool) (c : Child) : Child :=
  let (synth, output) := c.synth.step interrupted c.output
  { c with synth, output }

def isPending (c : Child) : Bool := !c.joined && !c.synth.status.finished

end Child

end Relay

structure Relay where
  sheets : List Sheet
  params : Audio.Params
  spawnFault : Nat → Option FileFault
  children : List Relay.Child
  reports : List Report
  phase : Relay.Phase
  journal : Journal

namespace Relay

def new (sheets : List Sheet) (params : Audio.Params)
    (spawnFault : Nat → Option FileFault := fun _ => none) : Relay where
  sheets := sheets
  params := params
  spawnFault := spawnFault
  children := []
  reports := []
  phase := .starting 0
  journal := .empty

def write (r : Relay) (l : Line) : Relay := { r with journal := r.journal.write l }

def goTo (r : Relay) (p : Phase) : Relay := { r with phase := p }

def finish (r : Relay) (result : Result) : Relay :=
  (r.write (.debug "Serving end of stream")).goTo (.ending result)

def fail (r : Relay) (e : Error) : Relay :=
  (r.write (.error ("Stopping synthesizer hub: " ++ e.message))).finish (.error (.reported e))

def setChild (r : Relay) (index : Nat) (c : Child) : Relay :=
  { r with children := r.children.set index c }

/-- Building a synthesizer can lose the thread; no end marker is sent then. A synthesizer for
which there is no thread is given up before it runs. -/
def startChild (r : Relay) (index : Nat) : Relay :=
  match r.sheets[index]? with
  | none => r.finish (.ok r.reports)
  | some sheet =>
    match Synth.new sheet r.params with
    | .error f => r.goTo (.leaving (.error f))
    | .ok synth =>
      let r := r.write (.info s!"Starting subsheet {index}")
      match r.spawnFault index with
      | some fault => r.fail (.file fault)
      | none => { r with children := r.children ++ [⟨synth, {}, false⟩], phase := .receiving index }

def childError (index : Nat) : Failure → Error
  | .reported e => e
  | .outOfRoom => .workerLost (.child index)

def receiveFrom (r : Relay) (index : Nat) (c : Child) : Handoff.Received × Relay :=
  let (got, output) := c.output.tryReceive
  (got, r.setChild index { c with output })

def receive (r : Relay) (index : Nat) (c : Child) : Relay :=
  match r.receiveFrom index c with
  | (.chunk .endOfStream, r) => r.goTo (.joining index)
  | (.chunk (.samples bar), r) => r.goTo (.checking index bar)
  | (.disconnected, r) => r.fail (.closed (.endMarker (.child index)))
  | (.empty, r) => r

def join (r : Relay) (index : Nat) (c : Child) : Relay :=
  match c.synth.result? with
  | none => r
  | some result =>
    let r := r.setChild index { c with joined := true }
    match result with
    | .ok report => { r with reports := r.reports ++ [report], phase := .starting (index + 1) }
    | .error f => r.fail (childError index f)

/-- Looks at a child that was started: it may need to be emptied, or only to be waited for. -/
def inspect (r : Relay) (result : Result) (index : Nat) (c : Child) : Relay :=
  if c.isPending then
    (r.write (.debug s!"Synthesizer {index} has not finished. Draining it")).goTo
      (.discarding result index)
  else if c.joined then r.goTo (.draining result (index + 1))
  else r.goTo (.reaping result index)

def discard (r : Relay) (result : Result) (index : Nat) (c : Child) : Relay :=
  match r.receiveFrom index c with
  | (.chunk .endOfStream, r) | (.disconnected, r) => r.goTo (.reaping result index)
  | (.chunk (.samples _), r) | (.empty, r) => r

/-- Waits for a child whose result nobody wants any more. -/
def reap (r : Relay) (result : Result) (index : Nat) (c : Child) : Relay :=
  match c.synth.result? with
  | none => r
  | some childResult =>
    let r := (r.setChild index { c with joined := true }).goTo (.draining result (index + 1))
    match childResult with
    | .ok _ => r
    | .error f =>
      r.write (.debug ((Worker.child index).name ++ " stopped with: " ++
        (childError index f).message))

def child? (r : Relay) (index : Nat) : Option Child := r.children[index]?

def canStep (r : Relay) (output : Handoff) : Bool :=
  match r.phase with
  | .receiving i | .discarding _ i => (r.child? i).any (·.output.canReceive)
  | .joining i | .reaping _ i => (r.child? i).any (·.synth.result?.isSome)
  | .sending _ _ | .ending _ => output.canSend
  | .done _ => false
  | _ => true

def step (interrupted : Bool) (output : Handoff) (r : Relay) : Relay × Handoff :=
  match r.phase with
  | .starting i => (r.startChild i, output)
  | .receiving i => (((r.child? i).map (r.receive i)).getD r, output)
  | .checking i bar =>
    (if interrupted then r.fail .interrupted else r.goTo (.sending i bar), output)
  | .sending i bar =>
    match output.trySend (.samples bar) with
    | (.sent, output) => (r.goTo (.receiving i), output)
    | (.closed, output) => (r.fail (.closed .relayOutput), output)
    | (.full, output) => (r, output)
  | .joining i => (((r.child? i).map (r.join i)).getD r, output)
  | .ending result =>
    match output.trySend .endOfStream with
    | (.sent, output) => (r.goTo (.draining result 0), output)
    | (.closed, output) =>
      ((r.write (.debug "End of stream not delivered, receiver is gone")).goTo
        (.draining result 0), output)
    | (.full, output) => (r, output)
  | .draining result i =>
    match r.child? i with
    | none => (r.goTo (.leaving result), output)
    | some c => (r.inspect result i c, output)
  | .discarding result i => (((r.child? i).map (r.discard result i)).getD r, output)
  | .reaping result i => (((r.child? i).map (r.reap result i)).getD r, output)
  | .leaving result => (r.goTo (.done result), output.dropSender)
  | .done _ => (r, output)

def stepChild (interrupted : Bool) (index : Nat) (r : Relay) : Relay :=
  match r.child? index with
  | some c => r.setChild index (c.step interrupted)
  | none => r

def result? (r : Relay) : Option Result :=
  match r.phase with
  | .done result => some result
  | _ => none

end Relay

end PlainScore
