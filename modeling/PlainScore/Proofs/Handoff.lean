import PlainScore.Handoff

/-! Attempts that need not wait.
When an end may go on, its attempt has one of two outcomes, and which of them it is depends on
the slot and the other end alone. -/
namespace PlainScore

namespace Handoff

variable {h : Handoff}

theorem trySend_closed (c : Chunk) (hr : h.receiver = false) : h.trySend c = (.closed, h) := by
  simp [trySend, hr]

theorem trySend_sent (c : Chunk) (hr : h.receiver = true) (hs : h.slot = none) :
    h.trySend c = (.sent, { h with slot := some c }) := by
  simp [trySend, hr, hs]

theorem tryReceive_chunk {c : Chunk} (hs : h.slot = some c) :
    h.tryReceive = (.chunk c, { h with slot := none }) := by
  simp [tryReceive, hs]

theorem tryReceive_disconnected (hs : h.slot = none) (hd : h.sender = false) :
    h.tryReceive = (.disconnected, h) := by
  simp [tryReceive, hs, hd]

theorem canSend_cases (hc : h.canSend = true) :
    h.receiver = false ∨ h.receiver = true ∧ h.slot = none := by
  simp only [canSend, Bool.or_eq_true, Option.isNone_iff_eq_none, Bool.not_eq_true'] at hc
  cases hr : h.receiver with
  | false => exact .inl rfl
  | true => exact .inr ⟨rfl, hc.resolve_right (by simp [hr])⟩

theorem canReceive_cases (hc : h.canReceive = true) :
    (∃ c, h.slot = some c) ∨ h.slot = none ∧ h.sender = false := by
  simp only [canReceive, Bool.or_eq_true, Option.isSome_iff_exists, Bool.not_eq_true'] at hc
  cases hs : h.slot with
  | some c => exact .inl ⟨c, rfl⟩
  | none => exact .inr ⟨rfl, hc.resolve_left (by simp [hs])⟩

def put (before after : Handoff) : List Chunk :=
  if before.slot.isNone then after.slot.toList else []

@[simp] theorem put_self (h : Handoff) : h.put h = [] := by
  unfold put
  cases h.slot <;> rfl

@[simp] theorem put_dropSender (h : Handoff) : h.put h.dropSender = [] := h.put_self

theorem put_some {h : Handoff} (c : Chunk) (hs : h.slot = none) :
    h.put { h with slot := some c } = [c] := by
  rw [put, hs]
  rfl

theorem put_of_empty {before after : Handoff} (h : after.slot = none) : before.put after = [] := by
  rw [put, h]
  exact ite_self _

end Handoff

end PlainScore
