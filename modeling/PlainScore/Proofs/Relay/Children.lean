import PlainScore.Proofs.Relay.Moves
import PlainScore.Proofs.Synth.Rank

/-! The children of a relay and what it may expect of them.
The argument against waiting for ever rests on one fact: a child whose end marker was not
received keeps it in its output. `Phase.stance` says for every phase of the relay which of its
children are waited for and which still owe their end marker. -/
namespace PlainScore

namespace Relay

namespace Child

variable {c : Child}

structure Sound (c : Child) : Prop where
  linked : c.synth.Linked c.output
  receiver : c.output.receiver = true
  marker : c.output.slot = some .endOfStream → c.synth.hasEnded = true

def Unspent (c : Child) : Prop :=
  c.synth.hasEnded = true → c.output.slot = some .endOfStream

def Settled (c : Child) : Prop := c.joined = true ∧ c.synth.result?.isSome = true

/-- The thread was not waited for, and its end marker is still to be received. -/
def Open (c : Child) : Prop := c.joined = false ∧ c.Unspent

/-- The thread was not waited for, but it has nothing more to send. -/
def Closing (c : Child) : Prop := c.joined = false ∧ c.synth.hasEnded = true

theorem new_sound {sheet : Sheet} {params : Audio.Params} {s : Synth}
    (h : Synth.new sheet params = .ok s) : Sound ⟨s, {}, false⟩ :=
  ⟨Synth.new_linked h, rfl, fun hs => by cases hs⟩

theorem new_open {sheet : Sheet} {params : Audio.Params} {s : Synth}
    (h : Synth.new sheet params = .ok s) : Open ⟨s, {}, false⟩ := by
  refine ⟨rfl, ?_⟩
  intro he
  obtain ⟨rfl, -⟩ := Synth.new_sound h
  cases he

/-! ### Steps of a child -/

theorem step_sound (h : c.Sound) (hc : c.canStep = true) (interrupted : Bool) :
    (c.step interrupted).Sound := by
  have hl := h.linked.step hc interrupted
  have hm := Synth.step_moved hc interrupted
  unfold Child.step
  generalize c.synth.step interrupted c.output = next at hl hm ⊢
  obtain ⟨t, out⟩ := next
  dsimp only at hl hm ⊢
  cases hm with
  | worked hn hg => exact ⟨hl, h.receiver, fun hs => by rw [h.marker hs] at hn; cases hn⟩
  | stopped hp =>
    refine ⟨hl, h.receiver, ?_⟩
    intro hs
    have he := h.marker hs
    rw [Synth.hasEnded, hp] at he
    cases he
  | served => exact ⟨hl, h.receiver, fun hs => by cases hs⟩
  | refused _ hr => exact absurd (h.receiver.symm.trans hr) (by decide)
  | ended => exact ⟨hl, h.receiver, fun _ => rfl⟩
  | unheard _ hr => exact absurd (h.receiver.symm.trans hr) (by decide)
  | marked => exact ⟨hl, h.receiver, fun _ => rfl⟩
  | left => exact ⟨hl, h.receiver, fun _ => rfl⟩

theorem step_unspent (h : c.Sound) (hu : c.Unspent) (hc : c.canStep = true)
    (interrupted : Bool) : (c.step interrupted).Unspent := by
  have hm := Synth.step_moved hc interrupted
  unfold Child.step Unspent
  generalize c.synth.step interrupted c.output = next at hm ⊢
  obtain ⟨t, out⟩ := next
  dsimp only at hm ⊢
  intro he
  cases hm with
  | worked _ hg =>
    rw [hg.not_ended] at he
    cases he
  | stopped => cases he
  | served _ _ _ hg =>
    rw [hg.not_ended] at he
    cases he
  | refused _ hr => exact absurd (h.receiver.symm.trans hr) (by decide)
  | ended => rfl
  | unheard _ hr => exact absurd (h.receiver.symm.trans hr) (by decide)
  | marked hp => exact hu (by rw [Synth.hasEnded, hp])
  | left hp => exact hu (by rw [Synth.hasEnded, hp])

theorem step_ended (hn : c.synth.hasEnded = true) (hc : c.canStep = true)
    (interrupted : Bool) : (c.step interrupted).synth.hasEnded = true := by
  have hm := Synth.step_moved hc interrupted
  unfold Child.step
  generalize c.synth.step interrupted c.output = next at hm ⊢
  obtain ⟨t, out⟩ := next
  dsimp only at hm ⊢
  cases hm with
  | worked h =>
    rw [h] at hn
    cases hn
  | stopped hp | served hp | refused hp | ended hp | unheard hp =>
    rw [Synth.hasEnded, hp] at hn
    cases hn
  | marked | left => rfl

theorem Settled.cannotStep (h : c.Settled) : c.canStep = false := by
  obtain ⟨result, hr⟩ := Option.isSome_iff_exists.mp h.2
  rw [Child.canStep, Synth.canStep, Synth.phase_of_result hr]

theorem Open.step (h : c.Open) (hs : c.Sound) (hc : c.canStep = true) (interrupted : Bool) :
    (c.step interrupted).Open :=
  ⟨h.1, step_unspent hs h.2 hc interrupted⟩

theorem Closing.step (h : c.Closing) (hc : c.canStep = true) (interrupted : Bool) :
    (c.step interrupted).Closing :=
  ⟨h.1, step_ended h.2 hc interrupted⟩

/-! ### Steps of the relay on a child -/

theorem Sound.emptied (h : c.Sound) : c.emptied.Sound :=
  ⟨h.linked.of_sender rfl, h.receiver, fun hs => by cases hs⟩

theorem Open.emptied {bar : List Sample} (h : c.Open) (hs : c.output.slot = some (.samples bar)) :
    c.emptied.Open := by
  refine ⟨h.1, ?_⟩
  intro he
  cases hs.symm.trans (h.2 he)

theorem Open.closing (h : c.Open) (hs : c.Sound) (hm : c.output.slot = some .endOfStream) :
    c.emptied.Closing :=
  ⟨h.1, hs.marker hm⟩

theorem Sound.waitedFor (h : c.Sound) : c.waitedFor.Sound := ⟨h.linked, h.receiver, h.marker⟩

theorem waitedFor_settled (h : c.synth.result?.isSome = true) : c.waitedFor.Settled := ⟨rfl, h⟩

/-- An output cannot be found closed while its end marker is still to be received. -/
theorem Open.not_disconnected (h : c.Open) (hs : c.Sound) (hslot : c.output.slot = none)
    (hd : c.output.sender = false) : False := by
  have hr := hs.linked.sender
  rw [hd] at hr
  have hsome : c.synth.result?.isSome = true := by
    rw [← Option.not_isNone, ← hr]
    rfl
  have he := Synth.hasEnded_of_marked (Synth.marked_of_result hsome)
  cases hslot.symm.trans (h.2 he)

/-- A child that is not waited for and has set its finished flag has left its end marker in the
output, so that it can be waited for without emptying it first. -/
theorem Open.marker_of_finished (h : c.Open) (hs : c.Sound)
    (hf : c.synth.status.finished = true) :
    c.output.slot = some .endOfStream ∧ c.synth.hasEnded = true := by
  rw [hs.linked.finished] at hf
  have he := Synth.hasEnded_of_marked hf
  exact ⟨h.2 he, he⟩

theorem Sound.canStep_of_empty (hn : c.synth.result? = none) (hslot : c.output.slot = none) :
    c.canStep = true :=
  Synth.canStep_of_free hn (.inl hslot)

theorem Closing.canStep (h : c.Closing) (hn : c.synth.result? = none) : c.canStep = true :=
  Synth.canStep_of_free hn (.inr (.inr h.2))

end Child

end Relay

end PlainScore
