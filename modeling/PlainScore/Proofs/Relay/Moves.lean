import PlainScore.Proofs.Synth.Moves
import PlainScore.Relay

/-! What a single step of a relay can be.
As for a synthesizer, `Moved` lists the kinds of steps with what has to hold before each of
them. A step touches one child at most. -/
namespace PlainScore

namespace Relay

namespace Child

def emptied (c : Child) : Child := { c with output := { c.output with slot := none } }

def waitedFor (c : Child) : Child := { c with joined := true }

end Child

variable {r : Relay}

inductive Moved (r : Relay) (interrupted : Bool) (output : Handoff) : Relay → Handoff → Prop where
  | allPlayed {i : Nat} : r.phase = .starting i → r.sheets[i]? = none →
      Moved r interrupted output (r.finish (.ok r.reports)) output
  | lost {i : Nat} {sheet : Sheet} {f : Failure} : r.phase = .starting i →
      r.sheets[i]? = some sheet → Synth.new sheet r.params = .error f →
      Moved r interrupted output (r.goTo (.leaving (.error f))) output
  | notSpawned {i : Nat} {l : Line} {fault : FileFault} {sheet : Sheet} {synth : Synth} :
      r.phase = .starting i → r.spawnFault i = some fault → r.sheets[i]? = some sheet →
      Synth.new sheet r.params = .ok synth →
      Moved r interrupted output ((r.write l).fail (.file fault)) output
  | started {i : Nat} {sheet : Sheet} {synth : Synth} {l : Line} : r.phase = .starting i →
      r.sheets[i]? = some sheet → Synth.new sheet r.params = .ok synth → r.spawnFault i = none →
      Moved r interrupted output { r.write l with
        children := r.children ++ [⟨synth, {}, false⟩], phase := .receiving i } output
  | received {i : Nat} {c : Child} {bar : List Sample} : r.phase = .receiving i →
      r.child? i = some c → c.output.slot = some (.samples bar) →
      Moved r interrupted output ((r.setChild i c.emptied).goTo (.checking i bar)) output
  | receivedEnd {i : Nat} {c : Child} : r.phase = .receiving i → r.child? i = some c →
      c.output.slot = some .endOfStream →
      Moved r interrupted output ((r.setChild i c.emptied).goTo (.joining i)) output
  | cutOff {i : Nat} {c : Child} : r.phase = .receiving i → r.child? i = some c →
      c.output.slot = none → c.output.sender = false →
      Moved r interrupted output ((r.setChild i c).fail (.closed (.endMarker (.child i)))) output
  | passed {i : Nat} {bar : List Sample} : r.phase = .checking i bar → interrupted = false →
      Moved r interrupted output (r.goTo (.sending i bar)) output
  | stopped {i : Nat} {bar : List Sample} : r.phase = .checking i bar → interrupted = true →
      Moved r interrupted output (r.fail .interrupted) output
  | sent {i : Nat} {bar : List Sample} : r.phase = .sending i bar → output.receiver = true →
      output.slot = none →
      Moved r interrupted output (r.goTo (.receiving i))
        { output with slot := some (.samples bar) }
  | refused {i : Nat} {bar : List Sample} : r.phase = .sending i bar →
      output.receiver = false →
      Moved r interrupted output (r.fail (.closed .relayOutput)) output
  | joined {i : Nat} {c : Child} {report : Report} : r.phase = .joining i →
      r.child? i = some c → c.synth.phase = .done (.ok report) →
      Moved r interrupted output { r.setChild i c.waitedFor with
        reports := r.reports ++ [report], phase := .starting (i + 1) } output
  | failed {i : Nat} {c : Child} {f : Failure} : r.phase = .joining i → r.child? i = some c →
      c.synth.phase = .done (.error f) →
      Moved r interrupted output ((r.setChild i c.waitedFor).fail (childError i f)) output
  | ended {result : Result} : r.phase = .ending result → output.receiver = true →
      output.slot = none →
      Moved r interrupted output (r.goTo (.draining result 0))
        { output with slot := some .endOfStream }
  | unheard {result : Result} {l : Line} : r.phase = .ending result → output.receiver = false →
      Moved r interrupted output ((r.write l).goTo (.draining result 0)) output
  | drained {result : Result} {i : Nat} : r.phase = .draining result i → r.child? i = none →
      Moved r interrupted output (r.goTo (.leaving result)) output
  | foundPending {result : Result} {i : Nat} {c : Child} {l : Line} :
      r.phase = .draining result i → r.child? i = some c → c.isPending = true →
      Moved r interrupted output ((r.write l).goTo (.discarding result i)) output
  | foundJoined {result : Result} {i : Nat} {c : Child} : r.phase = .draining result i →
      r.child? i = some c → c.joined = true →
      Moved r interrupted output (r.goTo (.draining result (i + 1))) output
  | foundFinished {result : Result} {i : Nat} {c : Child} : r.phase = .draining result i →
      r.child? i = some c → c.joined = false → c.synth.status.finished = true →
      Moved r interrupted output (r.goTo (.reaping result i)) output
  | discarded {result : Result} {i : Nat} {c : Child} {bar : List Sample} :
      r.phase = .discarding result i → r.child? i = some c →
      c.output.slot = some (.samples bar) →
      Moved r interrupted output (r.setChild i c.emptied) output
  | discardedEnd {result : Result} {i : Nat} {c : Child} : r.phase = .discarding result i →
      r.child? i = some c → c.output.slot = some .endOfStream →
      Moved r interrupted output ((r.setChild i c.emptied).goTo (.reaping result i)) output
  | discardedAll {result : Result} {i : Nat} {c : Child} : r.phase = .discarding result i →
      r.child? i = some c → c.output.slot = none → c.output.sender = false →
      Moved r interrupted output ((r.setChild i c).goTo (.reaping result i)) output
  | reaped {result : Result} {i : Nat} {c : Child} {journal : Journal} :
      r.phase = .reaping result i → r.child? i = some c → c.synth.result?.isSome = true →
      Moved r interrupted output { (r.setChild i c.waitedFor).goTo (.draining result (i + 1)) with
        journal := journal } output
  | left {result : Result} : r.phase = .leaving result →
      Moved r interrupted output (r.goTo (.done result)) output.dropSender

variable {output : Handoff} {interrupted : Bool}

private theorem starting_moved {i : Nat} (hp : r.phase = .starting i) :
    Moved r interrupted output (r.startChild i) output := by
  unfold startChild
  cases hs : r.sheets[i]? with
  | none => exact .allPlayed hp hs
  | some sheet =>
    dsimp only
    cases hn : Synth.new sheet r.params with
    | error f => exact .lost hp hs hn
    | ok synth =>
      dsimp only
      split
      · exact .notSpawned hp ‹_› hs hn
      · exact .started hp hs hn ‹_›

private theorem receiving_moved {i : Nat} {c : Child} (hp : r.phase = .receiving i)
    (hchild : r.child? i = some c) (hc : c.output.canReceive = true) :
    Moved r interrupted output (r.receive i c) output := by
  unfold receive receiveFrom
  rcases Handoff.canReceive_cases hc with ⟨chunk, hs⟩ | ⟨hs, hd⟩
  · rw [Handoff.tryReceive_chunk hs]
    cases chunk with
    | samples bar => exact .received hp hchild hs
    | endOfStream => exact .receivedEnd hp hchild hs
  · rw [Handoff.tryReceive_disconnected hs hd]
    exact .cutOff hp hchild hs hd

private theorem joining_moved {i : Nat} {c : Child} (hp : r.phase = .joining i)
    (hchild : r.child? i = some c) (hc : c.synth.result?.isSome = true) :
    Moved r interrupted output (r.join i c) output := by
  obtain ⟨result, hr⟩ := Option.isSome_iff_exists.mp hc
  unfold join
  rw [hr]
  cases result with
  | ok report => exact .joined hp hchild (Synth.phase_of_result hr)
  | error f => exact .failed hp hchild (Synth.phase_of_result hr)

private theorem draining_moved {result : Result} {i : Nat} {c : Child}
    (hp : r.phase = .draining result i) (hchild : r.child? i = some c) :
    Moved r interrupted output (r.inspect result i c) output := by
  unfold inspect
  cases hpending : c.isPending with
  | true => exact .foundPending hp hchild hpending
  | false =>
    rw [if_neg Bool.false_ne_true]
    cases hj : c.joined with
    | true => exact .foundJoined hp hchild hj
    | false =>
      refine .foundFinished hp hchild hj ?_
      simpa [Child.isPending, hj] using hpending

private theorem discarding_moved {result : Result} {i : Nat} {c : Child}
    (hp : r.phase = .discarding result i) (hchild : r.child? i = some c)
    (hc : c.output.canReceive = true) :
    Moved r interrupted output (r.discard result i c) output := by
  unfold discard receiveFrom
  rcases Handoff.canReceive_cases hc with ⟨chunk, hs⟩ | ⟨hs, hd⟩
  · rw [Handoff.tryReceive_chunk hs]
    cases chunk with
    | samples bar => exact .discarded hp hchild hs
    | endOfStream => exact .discardedEnd hp hchild hs
  · rw [Handoff.tryReceive_disconnected hs hd]
    exact .discardedAll hp hchild hs hd

private theorem reaping_moved {result : Result} {i : Nat} {c : Child}
    (hp : r.phase = .reaping result i) (hchild : r.child? i = some c)
    (hc : c.synth.result?.isSome = true) :
    Moved r interrupted output (r.reap result i c) output := by
  obtain ⟨childResult, hr⟩ := Option.isSome_iff_exists.mp hc
  unfold reap
  rw [hr]
  cases childResult with
  | ok report => exact .reaped hp hchild hc
  | error f => exact .reaped hp hchild hc

theorem step_moved (hc : r.canStep output = true) (interrupted : Bool) :
    Moved r interrupted output (r.step interrupted output).1 (r.step interrupted output).2 := by
  rw [canStep] at hc
  cases hp : r.phase with
  | starting i =>
    simp only [step, hp]
    exact starting_moved hp
  | receiving i =>
    rw [hp] at hc
    obtain ⟨c, hchild, hc⟩ := (Option.any_eq_true _ _).mp hc
    simp only [step, hp, hchild, Option.map_some, Option.getD_some]
    exact receiving_moved hp hchild hc
  | checking i bar =>
    simp only [step, hp]
    cases interrupted with
    | true => exact .stopped hp rfl
    | false => exact .passed hp rfl
  | sending i bar =>
    rw [hp] at hc
    simp only [step, hp]
    rcases Handoff.canSend_cases hc with hr | ⟨hr, hs⟩
    · rw [Handoff.trySend_closed _ hr]
      exact .refused hp hr
    · rw [Handoff.trySend_sent _ hr hs]
      exact .sent hp hr hs
  | joining i =>
    rw [hp] at hc
    obtain ⟨c, hchild, hc⟩ := (Option.any_eq_true _ _).mp hc
    simp only [step, hp, hchild, Option.map_some, Option.getD_some]
    exact joining_moved hp hchild hc
  | ending result =>
    rw [hp] at hc
    simp only [step, hp]
    rcases Handoff.canSend_cases hc with hr | ⟨hr, hs⟩
    · rw [Handoff.trySend_closed _ hr]
      exact .unheard hp hr
    · rw [Handoff.trySend_sent _ hr hs]
      exact .ended hp hr hs
  | draining result i =>
    simp only [step, hp]
    cases hchild : r.child? i with
    | none => exact .drained hp hchild
    | some c => exact draining_moved hp hchild
  | discarding result i =>
    rw [hp] at hc
    obtain ⟨c, hchild, hc⟩ := (Option.any_eq_true _ _).mp hc
    simp only [step, hp, hchild, Option.map_some, Option.getD_some]
    exact discarding_moved hp hchild hc
  | reaping result i =>
    rw [hp] at hc
    obtain ⟨c, hchild, hc⟩ := (Option.any_eq_true _ _).mp hc
    simp only [step, hp, hchild, Option.map_some, Option.getD_some]
    exact reaping_moved hp hchild hc
  | leaving result =>
    simp only [step, hp]
    exact .left hp
  | done result =>
    rw [hp] at hc
    cases hc

end Relay

end PlainScore
