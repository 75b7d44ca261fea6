import Mathlib.Algebra.Order.Floor.Div
import PlainScore.Proofs.Track.Cursor
import PlainScore.Track.Slice

/-! Slices with a step.
A stride only ever skips, and gives out the notes at every so many places of its cursor; it knows
their number beforehand. The bounds of a slice, which have a greatest number, come to the same as
bounds that have none. -/
namespace PlainScore

/-! ### Strides -/

namespace Stride

variable {s : Stride} {k n : Nat}

theorem next_eq (s : Stride) : s.next =
    (s.cursor.rest.1[s.ahead]?, ⟨⟨s.cursor.left.drop (s.ahead + 1)⟩, s.skip, false⟩) := by
  rw [next, Cursor.nth_eq]

/-- What is given out lies at equal distances in the cursor. -/
theorem getElem?_rest (s : Stride) (k : Nat) :
    s.rest[k]? = s.cursor.rest.1[s.ahead + k * (s.skip + 1)]? := by
  -- One look at the cursor for each note: the induction is on how many came before.
  induction k generalizing s with
  | zero =>
    rw [rest, Nat.zero_mul, Nat.add_zero]
    split
    · rename_i hnext
      rw [next_eq] at hnext
      exact (congrArg Prod.fst hnext).symm
    · rename_i hnext
      rw [next_eq] at hnext
      exact (congrArg Prod.fst hnext).symm
  | succ k ih =>
    rw [rest]
    split
    · rename_i hnext
      rw [next_eq] at hnext
      have hend := List.getElem?_eq_none_iff.mp (congrArg Prod.fst hnext)
      rw [List.getElem?_eq_none (Nat.le_trans hend (Nat.le_add_right _ _))]
      rfl
    · rename_i hnext
      rw [next_eq] at hnext
      cases congrArg Prod.snd hnext
      rw [List.getElem?_cons_succ, ih]
      simp only [Cursor.rest, ahead, Bool.false_eq_true, if_false, List.map_drop,
        List.getElem?_drop]
      congr 1
      rw [Nat.add_one_mul]
      omega

theorem lt_count_iff : k < s.count n ↔ s.ahead + k * (s.skip + 1) < n := by
  have hstep : 0 < s.skip + 1 := Nat.succ_pos s.skip
  rw [count, ahead]
  cases s.fresh with
  | true =>
    rw [if_pos rfl, if_pos rfl, Nat.zero_add]
    by_cases hn : n = 0
    · simp [hn]
    · have hle := Nat.le_div_iff_mul_le (x := k) (y := n - 1) hstep
      rw [if_neg hn]
      omega
  | false =>
    have hle := Nat.le_div_iff_mul_le (x := k + 1) (y := n) hstep
    rw [Nat.add_one_mul] at hle
    rw [if_neg Bool.false_ne_true, if_neg Bool.false_ne_true]
    omega

theorem length_rest (s : Stride) : s.rest.length = s.count s.cursor.length := by
  have hiff : ∀ k, s.rest.length ≤ k ↔ s.count s.cursor.length ≤ k := by
    intro k
    rw [← List.getElem?_eq_none_iff, getElem?_rest, List.getElem?_eq_none_iff, Cursor.rest,
      List.length_map, ← Nat.not_lt, ← Nat.not_lt, lt_count_iff, Cursor.length]
  exact Nat.le_antisymm ((hiff _).mpr (Nat.le_refl _)) ((hiff _).mp (Nat.le_refl _))

theorem hint_eq (s : Stride) : s.hint = (s.rest.length, s.rest.length) := by
  rw [hint, length_rest]
  rfl

theorem count_every {step : Nat} (hstep : 0 < step) (c : Cursor) (n : Nat) :
    (every step c).count n = n ⌈/⌉ step := by
  have hskip : step - 1 + 1 = step := Nat.sub_add_cancel hstep
  rw [count, every, if_pos rfl, hskip, Nat.ceilDiv_eq_add_pred_div]
  by_cases hn : n = 0
  · rw [if_pos hn, hn, Nat.zero_add, Nat.div_eq_of_lt (Nat.sub_one_lt_of_lt hstep)]
  · rw [if_neg hn, Nat.add_comm, ← Nat.add_div_right _ hstep]
    congr 1
    omega

end Stride

/-! ### Bounds -/

namespace Bound

def lower : Bound → Nat
  | .included n => n
  | .excluded n => n + 1
  | .unbounded => 0

def limit (length : Nat) : Bound → Nat
  | .included n => min (n + 1) length
  | .excluded n => min n length
  | .unbounded => length

variable {length : Nat}

/-- A bound that stays at the greatest number still lies behind every token. -/
theorem min_behind (h : length ≤ greatest) (stop : Bound) :
    min stop.behind length = stop.limit length := by
  cases stop with
  | included n => simp only [behind, following, limit]; omega
  | excluded n => rfl
  | unbounded => exact Nat.min_eq_right h

theorem limit_le (stop : Bound) : stop.limit length ≤ length := by
  cases stop with
  | included n => exact Nat.min_le_right _ _
  | excluded n => exact Nat.min_le_right _ _
  | unbounded => exact Nat.le_refl _

theorem min_first {n : Nat} (h : n ≤ greatest) (start : Bound) :
    min start.first n = min start.lower n := by
  cases start with
  | included m => rfl
  | excluded m => simp only [first, following, lower]; omega
  | unbounded => rfl

end Bound

/-! ### Slices -/

namespace Track

variable {t : Track} {start stop : Bound} {step : Nat}

theorem window_eq (h : t.tokens.length ≤ Bound.greatest) : t.window start stop =
    (t.tokens.take (stop.limit t.tokens.length)).drop
      (min start.lower (stop.limit t.tokens.length)) := by
  rw [window, Bound.min_behind h, Bound.min_first (Nat.le_trans stop.limit_le h)]

theorem length_window (h : t.tokens.length ≤ Bound.greatest) :
    (t.window start stop).length =
      stop.limit t.tokens.length - min start.lower (stop.limit t.tokens.length) := by
  rw [window_eq h, List.length_drop, List.length_take, Nat.min_eq_left stop.limit_le]

theorem getElem?_window (h : t.tokens.length ≤ Bound.greatest) (i : Nat) :
    (t.window start stop)[i]? =
      if start.lower + i < stop.limit t.tokens.length then t.tokens[start.lower + i]?
      else none := by
  by_cases hi : start.lower + i < stop.limit t.tokens.length
  · have hbegin : min start.lower (stop.limit t.tokens.length) = start.lower := by omega
    rw [if_pos hi, window_eq h, hbegin, List.getElem?_drop, List.getElem?_take_of_lt hi]
  · rw [if_neg hi, List.getElem?_eq_none]
    rw [length_window h]
    omega

structure SlicesPlainly (t : Track) (start stop : Bound) (step : Nat) : Prop where
  item : ∀ k, (t.slice start stop step)[k]? =
    if start.lower + k * step < stop.limit t.tokens.length then
      t.noteAt? (start.lower + k * step)
    else none
  length : (t.slice start stop step).length =
    (stop.limit t.tokens.length - min start.lower (stop.limit t.tokens.length)) ⌈/⌉ step
  hint : t.sliceHint start stop step =
    ((t.slice start stop step).length, (t.slice start stop step).length)

/-- Any track, any bounds and any step, as long as the places of the track are numbers that a bound
can be. -/
theorem slice_is_plain (h : t.tokens.length ≤ Bound.greatest) (hstep : 0 < step) :
    SlicesPlainly t start stop step := by
  constructor
  · intro k
    have hskip : step - 1 + 1 = step := Nat.sub_add_cancel hstep
    have hitem := Stride.getElem?_rest (t.stride start stop step) k
    simp only [stride, Stride.every, Stride.ahead, if_true, Nat.zero_add, hskip, Cursor.rest,
      List.getElem?_map, getElem?_window h] at hitem
    rw [slice, stride, Stride.every, hitem, noteAt?]
    split
    · rfl
    · rfl
  · rw [slice, Stride.length_rest, stride, Stride.count_every hstep]
    exact congrArg (· ⌈/⌉ step) (length_window h)
  · rw [sliceHint, slice, Stride.hint_eq]

/-- From behind the first of six tokens, two of which cannot be evaluated, up to the greatest bound. -/
theorem every_other_note_is_sliced :
    (Track.mk ["C4", "D4+E4", "D4", "E4-/", "F4", "G4"]).tokens.length ≤ Bound.greatest ∧ 0 < 2 ∧
      SlicesPlainly ⟨["C4", "D4+E4", "D4", "E4-/", "F4", "G4"]⟩ (.excluded 0)
        (.included Bound.greatest) 2 := by
  have hlength : (Track.mk ["C4", "D4+E4", "D4", "E4-/", "F4", "G4"]).tokens.length ≤
      Bound.greatest := by decide
  exact ⟨hlength, Nat.zero_lt_two, slice_is_plain hlength Nat.zero_lt_two⟩

end Track

end PlainScore
