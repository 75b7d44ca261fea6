import PlainScore.Proofs.Handoff
import PlainScore.Session

/-! What a single step of a consumer can be, and what it does to the output. -/
namespace PlainScore

namespace Listener

inductive Moved (l : Listener) (input : Handoff) : Listener → Handoff → Prop where
  | left : l.gone = false → l.satisfied = true →
      Moved l input { l with gone := true } input.dropReceiver
  | heard {c : Chunk} : l.gone = false → l.satisfied = false → input.slot = some c →
      Moved l input { l with heard := l.heard ++ [c] } { input with slot := none }
  | ended : l.gone = false → l.satisfied = false → input.slot = none → input.sender = false →
      Moved l input { l with gone := true } input.dropReceiver

theorem step_moved {l : Listener} {input : Handoff} (hc : l.canStep input = true) :
    Moved l input (l.step input).1 (l.step input).2 := by
  simp only [canStep, Bool.and_eq_true, Bool.not_eq_true', Bool.or_eq_true] at hc
  obtain ⟨hg, hc⟩ := hc
  unfold step
  cases hs : l.satisfied with
  | true => exact .left hg hs
  | false =>
    rw [if_neg Bool.false_ne_true]
    rcases Handoff.canReceive_cases (hc.resolve_left (by simp [hs])) with ⟨c, hslot⟩ | ⟨hslot, hd⟩
    · rw [Handoff.tryReceive_chunk hslot]
      exact .heard hg hs hslot
    · rw [Handoff.tryReceive_disconnected hslot hd]
      exact .ended hg hs hslot hd

/-- A chunk that is heard only moves from the output to the listener. -/
theorem step_stream {l : Listener} {input : Handoff} (hn : l.limit = none)
    (hc : l.canStep input = true) :
    (l.step input).1.heard ++ (l.step input).2.slot.toList = l.heard ++ input.slot.toList := by
  have hm := step_moved hc
  generalize l.step input = after at hm ⊢
  obtain ⟨k, out⟩ := after
  dsimp only at hm ⊢
  cases hm with
  | left _ hs => simp [satisfied, hn] at hs
  | heard _ _ hslot => rw [hslot]; simp
  | ended _ _ hslot => rw [hslot]; rfl

end Listener

namespace Playback

variable {p : Playback} {input : Handoff} {produced : Option Result}

inductive Moved (p : Playback) (produced : Option Result) (input : Handoff) :
    Playback → Handoff → Prop where
  | received {bar : List Sample} {l : Line} : p.phase = .receiving →
      input.slot = some (.samples bar) →
      Moved p produced input ((p.write l).goTo (.writing bar)) { input with slot := none }
  | receivedEnd {l : Line} : p.phase = .receiving → input.slot = some .endOfStream →
      Moved p produced input ((p.write l).goTo .finishing) { input with slot := none }
  | cutOff : p.phase = .receiving → input.slot = none → input.sender = false →
      Moved p produced input (p.goTo .finishing) input
  | put {bar : List Sample} : p.phase = .writing bar → Moved p produced input (p.put bar) input
  | finished : p.phase = .finishing → Moved p produced input p.finish input
  | hungUp {consumed : Except Error Unit} : p.phase = .hangingUp consumed →
      Moved p produced input (p.goTo (.joining consumed)) input.dropReceiver
  | joined {consumed : Except Error Unit} {result : Result} : p.phase = .joining consumed →
      produced = some result →
      Moved p produced input (p.goTo (.done (combine consumed result))) input

theorem step_moved (hc : p.canStep input produced = true) :
    Moved p produced input (p.step produced input).1 (p.step produced input).2 := by
  rw [canStep] at hc
  cases hp : p.phase with
  | receiving =>
    rw [hp] at hc
    simp only [step, hp]
    rcases Handoff.canReceive_cases hc with ⟨c, hslot⟩ | ⟨hslot, hd⟩
    · rw [Handoff.tryReceive_chunk hslot]
      cases c with
      | samples bar => exact .received hp hslot
      | endOfStream => exact .receivedEnd hp hslot
    · rw [Handoff.tryReceive_disconnected hslot hd]
      exact .cutOff hp hslot hd
  | writing bar =>
    simp only [step, hp]
    exact .put hp
  | finishing =>
    simp only [step, hp]
    exact .finished hp
  | hangingUp consumed =>
    simp only [step, hp]
    exact .hungUp hp
  | joining consumed =>
    rw [hp] at hc
    obtain ⟨result, hr⟩ := Option.isSome_iff_exists.mp hc
    simp only [step, hp, hr]
    exact .joined hp rfl
  | done result =>
    rw [hp] at hc
    cases hc

theorem put_phase (p : Playback) (bar : List Sample) :
    (p.put bar).phase = .receiving ∨ ∃ consumed, (p.put bar).phase = .hangingUp consumed := by
  unfold put
  dsimp only
  split
  · exact .inl rfl
  · exact .inr ⟨_, rfl⟩

theorem finish_phase (p : Playback) : ∃ consumed, p.finish.phase = .hangingUp consumed := by
  unfold finish
  dsimp only
  split <;> exact ⟨_, rfl⟩

end Playback

namespace Session

def Consumer.listens : Consumer → Bool
  | .listener l => !l.gone
  | .playback p =>
    match p.phase with
    | .joining _ | .done _ => false
    | _ => true

def Consumer.isOver : Consumer → Bool
  | .listener l => l.gone
  | .playback p => p.result?.isSome

structure ConsumerStep (produced : Option Playback.Result) (input : Handoff)
    (after : Consumer × Handoff) : Prop where
  sender : after.2.sender = input.sender
  receiver : after.2.receiver = after.1.listens
  ended : (∃ p, after.1 = .playback p) → after.1.isOver = true → produced.isSome = true

theorem ConsumerStep.of_working {produced : Option Playback.Result} {input : Handoff}
    {q : Playback} (hr : input.receiver = true)
    (hq : q.phase = .receiving ∨ ∃ consumed, q.phase = .hangingUp consumed) :
    ConsumerStep produced input (.playback q, input) := by
  have hworking : (Consumer.playback q).listens = true ∧ q.result? = none := by
    rw [Consumer.listens, Playback.result?]
    rcases hq with hq | ⟨consumed, hq⟩
    · rw [hq]
      exact ⟨rfl, rfl⟩
    · rw [hq]
      exact ⟨rfl, rfl⟩
  obtain ⟨hl, hn⟩ := hworking
  refine ⟨rfl, hr.trans hl.symm, ?_⟩
  intro _ ho
  rw [Consumer.isOver, hn] at ho
  cases ho

theorem Consumer.step_spec {c : Consumer} {input : Handoff} {produced : Option Playback.Result}
    (hr : input.receiver = c.listens) (hc : c.canStep input produced = true) :
    ConsumerStep produced input (c.step input produced) := by
  cases c with
  | listener l =>
    have hm := Listener.step_moved (show l.canStep input = true from hc)
    simp only [Consumer.step]
    generalize l.step input = after at hm ⊢
    obtain ⟨k, out⟩ := after
    dsimp only at hm ⊢
    cases hm with
    | left => exact ⟨rfl, rfl, fun ⟨_, hp⟩ => by cases hp⟩
    | heard => exact ⟨rfl, hr, fun ⟨_, hp⟩ => by cases hp⟩
    | ended => exact ⟨rfl, rfl, fun ⟨_, hp⟩ => by cases hp⟩
  | playback p =>
    have hm := Playback.step_moved (show p.canStep input produced = true from hc)
    simp only [Consumer.step]
    generalize p.step produced input = after at hm ⊢
    obtain ⟨q, out⟩ := after
    dsimp only at hm ⊢
    rw [Consumer.listens] at hr
    cases hm with
    | received hp | receivedEnd hp | cutOff hp =>
      rw [hp] at hr
      exact ⟨rfl, hr, fun _ ho => by cases ho⟩
    | put hp =>
      rw [hp] at hr
      refine ConsumerStep.of_working hr ?_
      rcases p.put_phase _ with hq | ⟨consumed, hq⟩
      · exact .inl hq
      · exact .inr ⟨consumed, hq⟩
    | finished hp =>
      rw [hp] at hr
      exact ConsumerStep.of_working hr (.inr p.finish_phase)
    | hungUp => exact ⟨rfl, rfl, fun _ ho => by cases ho⟩
    | joined hp hj =>
      rw [hp] at hr
      exact ⟨rfl, hr, fun _ _ => by rw [hj]; rfl⟩

/-- A consumer only takes from the output. -/
theorem Consumer.step_put {c : Consumer} {input : Handoff} {produced : Option Playback.Result}
    (hc : c.canStep input produced = true) : input.put (c.step input produced).2 = [] := by
  cases c with
  | listener l =>
    have hm := Listener.step_moved (show l.canStep input = true from hc)
    simp only [Consumer.step]
    generalize l.step input = after at hm ⊢
    obtain ⟨k, out⟩ := after
    dsimp only at hm ⊢
    cases hm <;> exact Handoff.put_of_empty rfl
  | playback p =>
    have hm := Playback.step_moved (show p.canStep input produced = true from hc)
    simp only [Consumer.step]
    generalize p.step produced input = after at hm ⊢
    obtain ⟨q, out⟩ := after
    dsimp only at hm ⊢
    cases hm with
    | received | receivedEnd | hungUp => exact Handoff.put_of_empty rfl
    | _ => exact Handoff.put_self input

end Session

end PlainScore
