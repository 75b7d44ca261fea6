import PlainScore.Mixer
import Mathlib.Data.List.Basic

/-! One track of the bar buffer, seen as a queue of samples.
The cells behind the cursor are left from earlier bars; no operation lets them be heard.
Every operation is an equation about `pending`, on sound tracks. -/
namespace PlainScore

namespace Lane

/-- The cursor stays within the cells, and only behind a complete bar something is carried. -/
structure Sound (capacity : Nat) (l : Lane) : Prop where
  written_le : l.written ≤ l.cells.length
  cells_le : l.cells.length ≤ capacity
  carry_full : ∀ rest, l.carry = some rest → rest ≠ [] ∧ l.written = capacity

variable {capacity : Nat} {l : Lane} {data : List Sample}

theorem empty_sound : Sound capacity empty := by
  constructor <;> simp [empty]

@[simp] theorem pending_empty : empty.pending = [] := rfl

theorem pending_of_open (hc : l.carry = none) : l.pending = l.cells.take l.written := by
  simp [pending, hc]

theorem Sound.length_written (h : Sound capacity l) :
    (l.cells.take l.written).length = l.written := by
  rw [List.length_take, Nat.min_eq_left h.written_le]

theorem Sound.length_pending (h : Sound capacity l) :
    l.pending.length = l.written + (l.carry.getD []).length := by
  rw [pending, List.length_append, h.length_written]

theorem Sound.isFull_iff (h : Sound capacity l) :
    l.isFull capacity = true ↔ capacity ≤ l.pending.length := by
  have hw := h.written_le
  have hl := h.cells_le
  rw [h.length_pending]
  cases hc : l.carry with
  | none =>
    simp only [isFull, available, hc, Option.isSome_none, Bool.false_or, beq_iff_eq,
      Option.getD_none, List.length_nil]
    omega
  | some rest =>
    have := (h.carry_full rest hc).2
    simp only [isFull, hc, Option.isSome_some, Bool.true_or, true_iff]
    omega

theorem Sound.not_full_iff (h : Sound capacity l) :
    l.isFull capacity = false ↔ l.pending.length < capacity := by
  rw [← Bool.not_eq_true, h.isFull_iff]
  omega

theorem open_of_not_full (hf : l.isFull capacity = false) :
    l.carry = none ∧ l.written < capacity := by
  simp only [isFull, available, Bool.or_eq_false_iff, Option.isSome_eq_false_iff,
    Option.isNone_iff_eq_none, beq_eq_false_iff_ne] at hf
  exact ⟨hf.1, by omega⟩

theorem Sound.written_of_full (h : Sound capacity l) (hf : l.isFull capacity = true) :
    l.written = capacity := by
  have hw := h.written_le
  have hl := h.cells_le
  cases hc : l.carry with
  | none =>
    simp only [isFull, available, hc, Option.isSome_none, Bool.false_or, beq_iff_eq] at hf
    omega
  | some rest => exact (h.carry_full rest hc).2

theorem Sound.cells_of_full (h : Sound capacity l) (hf : l.isFull capacity = true) :
    l.cells = l.pending.take capacity := by
  have hn := h.written_of_full hf
  have hw := h.written_le
  have he : l.cells.length = capacity := Nat.le_antisymm h.cells_le (by omega)
  rw [pending, hn, List.take_of_length_le (Nat.le_of_eq he), List.take_left' he]

/-! ### Writing -/

theorem Sound.length_copied (h : Sound capacity l) (data : List Sample) :
    (l.copy data).cells.length = max l.cells.length (l.written + data.length) := by
  have hw := h.written_le
  simp only [copy, List.length_append, List.length_take, List.length_drop]
  omega

theorem Sound.take_copied (h : Sound capacity l) (data : List Sample) :
    (l.copy data).cells.take (l.copy data).written = l.cells.take l.written ++ data := by
  have hn : (l.cells.take l.written ++ data).length = l.written + data.length := by
    rw [List.length_append, h.length_written]
  simp only [copy]
  rw [List.take_left' hn]

theorem copy_sound (h : Sound capacity l) (hc : l.carry = none)
    (hd : l.written + data.length ≤ capacity) : Sound capacity (l.copy data) := by
  have hl := h.cells_le
  have hn := h.length_copied data
  constructor
  · rw [hn]
    exact Nat.le_max_right _ _
  · omega
  · intro rest hr
    exact absurd (hc.symm.trans hr) (by simp)

theorem pending_copy (h : Sound capacity l) (hc : l.carry = none) :
    (l.copy data).pending = l.pending ++ data := by
  have hc' : (l.copy data).carry = none := hc
  rw [pending_of_open hc', pending_of_open hc, h.take_copied]

theorem push_sound (h : Sound capacity l) (hf : l.isFull capacity = false) :
    Sound capacity (l.push capacity data) := by
  obtain ⟨hc, hw⟩ := open_of_not_full hf
  unfold push available
  by_cases hd : data.length ≤ capacity - l.written
  · rw [if_pos hd]
    exact copy_sound h hc (by omega)
  · rw [if_neg hd]
    have ht : (data.take (capacity - l.written)).length = capacity - l.written := by
      rw [List.length_take]
      omega
    have hs : Sound capacity (l.copy (data.take (capacity - l.written))) :=
      copy_sound h hc (by omega)
    refine ⟨hs.written_le, hs.cells_le, ?_⟩
    intro rest hr
    obtain rfl : data.drop (capacity - l.written) = rest := Option.some.inj hr
    constructor
    · rw [ne_eq, List.drop_eq_nil_iff]
      exact hd
    · change l.written + (data.take (capacity - l.written)).length = capacity
      omega

/-- A push loses nothing and keeps the order, whether or not it reaches the end of the bar. -/
theorem pending_push (h : Sound capacity l) (hf : l.isFull capacity = false) :
    (l.push capacity data).pending = l.pending ++ data := by
  obtain ⟨hc, -⟩ := open_of_not_full hf
  unfold push
  by_cases hd : data.length ≤ l.available capacity
  · rw [if_pos hd, pending_copy h hc]
  · rw [if_neg hd]
    simp only [pending, hc, Option.getD_some, Option.getD_none, List.append_nil]
    rw [h.take_copied, List.append_assoc, List.take_append_drop]

theorem fillSilence_sound (h : Sound capacity l) : Sound capacity (l.fillSilence capacity) := by
  unfold fillSilence available
  cases hf : l.isFull capacity with
  | true => exact h
  | false =>
    obtain ⟨hc, hw⟩ := open_of_not_full hf
    refine copy_sound h hc ?_
    rw [List.length_replicate]
    omega

theorem pending_fillSilence (h : Sound capacity l) :
    (l.fillSilence capacity).pending = l.pending.rightpad capacity 0 := by
  unfold fillSilence List.rightpad
  cases hf : l.isFull capacity with
  | true =>
    have hn := h.isFull_iff.mp hf
    simp [Nat.sub_eq_zero_of_le hn]
  | false =>
    obtain ⟨hc, -⟩ := open_of_not_full hf
    have hn := h.length_pending
    rw [hc, Option.getD_none, List.length_nil, Nat.add_zero] at hn
    simp only [Bool.false_eq_true, if_false]
    rw [pending_copy h hc, hn, available]

/-! ### Beginning a bar -/

theorem Sound.rewind (h : Sound capacity l) : Sound capacity ⟨l.cells, 0, none⟩ :=
  ⟨Nat.zero_le _, h.cells_le, fun _ hr => absurd hr (by simp)⟩

theorem push_rewound {carry : Option (List Sample)} (hd : data.length ≤ capacity) :
    push capacity data ⟨l.cells, 0, carry⟩ = copy data ⟨l.cells, 0, carry⟩ :=
  if_pos hd

/-- A carry-over that is longer than a bar fills the bar and leaves a carry-over again. -/
theorem reset_of_long {carried : List Sample} (hc : l.carry = some carried)
    (hlt : capacity < carried.length) :
    l.reset capacity =
      { copy (carried.take capacity) ⟨l.cells, 0, none⟩ with
        carry := some (carried.drop capacity) } := by
  have hd : (carried.take capacity).length ≤ capacity := by
    rw [List.length_take]
    exact Nat.min_le_left _ _
  unfold reset
  rw [hc]
  dsimp only
  rw [if_pos hlt, push_rewound hd]
  rfl

theorem reset_of_short {carried : List Sample} (hc : l.carry = some carried)
    (hle : carried.length ≤ capacity) :
    l.reset capacity = copy carried ⟨l.cells, 0, none⟩ := by
  unfold reset
  rw [hc]
  dsimp only
  rw [if_neg (Nat.not_lt.mpr hle), push_rewound hle]

theorem reset_of_open (hc : l.carry = none) : l.reset capacity = ⟨l.cells, 0, none⟩ := by
  unfold reset
  rw [hc]

theorem reset_sound (h : Sound capacity l) : Sound capacity (l.reset capacity) := by
  have hr := h.rewind
  cases hc : l.carry with
  | none =>
    rw [reset_of_open hc]
    exact hr
  | some carried =>
    by_cases hlt : capacity < carried.length
    · have ht : (carried.take capacity).length = capacity := by
        rw [List.length_take]
        omega
      have hs : Sound capacity (copy (carried.take capacity) ⟨l.cells, 0, none⟩) :=
        copy_sound hr rfl (by simp only; omega)
      rw [reset_of_long hc hlt]
      refine ⟨hs.written_le, hs.cells_le, ?_⟩
      intro rest hrest
      obtain rfl : carried.drop capacity = rest := Option.some.inj hrest
      constructor
      · rw [ne_eq, List.drop_eq_nil_iff]
        omega
      · change 0 + (carried.take capacity).length = capacity
        omega
    · rw [reset_of_short hc (by omega)]
      exact copy_sound hr rfl (by simp only; omega)

/-- Exactly one bar leaves the queue, however many bars the carry-over spans. -/
theorem pending_reset (h : Sound capacity l) :
    (l.reset capacity).pending = l.pending.drop capacity := by
  have hr := h.rewind
  cases hc : l.carry with
  | none =>
    have hn : l.pending.length ≤ capacity := by
      rw [h.length_pending, hc]
      exact Nat.le_trans h.written_le h.cells_le
    rw [reset_of_open hc, List.drop_of_length_le hn]
    simp [pending]
  | some carried =>
    have hn : (l.cells.take l.written).length = capacity := by
      rw [h.length_written, (h.carry_full _ hc).2]
    have hd : l.pending.drop capacity = carried := by
      rw [pending, hc, Option.getD_some, List.drop_left' hn]
    rw [hd]
    by_cases hlt : capacity < carried.length
    · have ht := hr.take_copied (carried.take capacity)
      rw [List.take_zero, List.nil_append] at ht
      rw [reset_of_long hc hlt]
      simp only [pending, Option.getD_some]
      rw [ht, List.take_append_drop]
    · rw [reset_of_short hc (by omega), pending_copy hr rfl]
      simp [pending]

/-! ### Silencing what an earlier bar left -/

theorem hush_sound (h : Sound capacity l) : Sound capacity l.hush := by
  have hw := h.written_le
  have hn : l.hush.cells.length = l.cells.length := by
    simp only [hush, List.length_append, List.length_replicate, h.length_written]
    omega
  exact ⟨by rw [hn]; exact hw, by rw [hn]; exact h.cells_le, h.carry_full⟩

theorem pending_hush (h : Sound capacity l) : l.hush.pending = l.pending := by
  simp only [pending, hush]
  rw [List.take_left' h.length_written]

theorem getD_hush (h : Sound capacity l) {j : Nat} (hj : j < capacity) :
    l.hush.cells.getD j 0 = l.pending.getD j 0 := by
  have hn := h.length_written
  simp only [hush, pending, List.getD_eq_getElem?_getD]
  by_cases hjw : j < l.written
  · rw [List.getElem?_append_left (by omega), List.getElem?_append_left (by omega)]
  · have hc : l.carry = none := by
      cases hc : l.carry with
      | none => rfl
      | some rest =>
        have := (h.carry_full rest hc).2
        omega
    rw [List.getElem?_append_right (by omega), List.getElem?_append_right (by omega), hc]
    simp only [List.getElem?_replicate, Option.getD_none, List.getElem?_nil]
    split <;> rfl

end Lane

end PlainScore
