import PlainScore.Mixer
import Mathlib.Data.List.DropRight

/-! The overlay of several rows of samples.
At each position the rows are added in their order and from zero; a row that has ended is
silent. The mixer computes row by row what is defined here position by position. -/
namespace PlainScore

def sumAt (rows : List (List Sample)) (position : Nat) : Sample :=
  rows.foldl (fun sum row => sum + row.getD position 0) 0

def overlay (rows : List (List Sample)) (start count : Nat) : List Sample :=
  (List.range count).map fun j => sumAt rows (start + j)

theorem silence_add_silence : (0 : Sample) + 0 = 0 := by decide

theorem silence_beq : ((0 : Sample) == 0) = true := by decide

theorem sumAt_congr {α : Type} {as : List α} {f g : α → List Sample} {i j : Nat}
    (h : ∀ a ∈ as, (f a).getD i 0 = (g a).getD j 0) :
    sumAt (as.map f) i = sumAt (as.map g) j := by
  simp only [sumAt, List.foldl_map]
  exact List.foldl_ext _ _ _ fun sum a ha => by rw [h a ha]

theorem sumAt_of_ended {rows : List (List Sample)} {j : Nat} (h : ∀ row ∈ rows, row.length ≤ j) :
    sumAt rows j = 0 := by
  induction rows with
  | nil => rfl
  | cons row rows ih =>
    have hr : row.getD j 0 = 0 := by
      rw [List.getD_eq_getElem?_getD, List.getElem?_eq_none (h row (by simp)), Option.getD_none]
    have hs : sumAt (row :: rows) j = sumAt rows j := by
      simp only [sumAt, List.foldl_cons, hr, silence_add_silence]
    rw [hs]
    exact ih fun r hm => h r (by simp [hm])

theorem overlay_congr {α : Type} {as : List α} {f g : α → List Sample} {s t count : Nat}
    (h : ∀ a ∈ as, ∀ j < count, (f a).getD (s + j) 0 = (g a).getD (t + j) 0) :
    overlay (as.map f) s count = overlay (as.map g) t count := by
  apply List.map_congr_left
  intro j hj
  exact sumAt_congr fun a ha => h a ha j (List.mem_range.mp hj)

namespace Mixer

/-! ### Mixing -/

private theorem zipWith_row (n : Nat) (f : Nat → Sample) (row : List Sample) :
    List.zipWith (· + ·) ((List.range n).map f) (row.rightpad n 0) =
      (List.range n).map fun j => f j + row.getD j 0 := by
  apply List.ext_getElem
  · simp only [List.length_zipWith, List.length_map, List.length_range, List.length_rightpad]
    omega
  · intro j hj hj'
    have hn : j < n := by simpa using hj'
    simp only [List.getElem_zipWith, List.getElem_map, List.getElem_range]
    congr 1
    rw [List.getD_eq_getElem?_getD]
    by_cases hr : j < row.length
    · simp [List.rightpad, List.getElem_append_left hr, List.getElem?_eq_getElem hr]
    · simp [List.rightpad, List.getElem_append_right (Nat.not_lt.mp hr),
        List.getElem?_eq_none (Nat.not_lt.mp hr)]

theorem mix_eq_overlay (n : Nat) (lanes : List Lane) :
    mix n lanes = overlay (lanes.map (·.cells)) 0 n := by
  have general : ∀ f : Nat → Sample,
      lanes.foldl (fun mixed l => List.zipWith (· + ·) mixed (l.cells.rightpad n 0))
        ((List.range n).map f) =
      (List.range n).map fun j => lanes.foldl (fun sum l => sum + l.cells.getD j 0) (f j) := by
    induction lanes with
    | nil => intro f; rfl
    | cons l lanes ih =>
      intro f
      rw [List.foldl_cons, zipWith_row, ih]
      rfl
  have hz : List.replicate n (0 : Sample) = (List.range n).map fun _ => 0 := by simp
  rw [mix, hz, general]
  simp only [overlay, sumAt, List.foldl_map, Nat.zero_add]

/-! ### Leaving out the silence at the end -/

/-- The bar is what is kept of it and then silence, and what is kept does not end in silence. -/
structure Trimmed (bar kept : List Sample) : Prop where
  silence : ∃ tail, bar = kept ++ tail ∧ ∀ x ∈ tail, (x == 0) = true
  last : ∀ x ∈ kept.getLast?, (x == 0) = false

theorem trim_eq (xs : List Sample) : trim xs = xs.rdropWhile (· == 0) := rfl

theorem trimmed_trim (xs : List Sample) : Trimmed xs (trim xs) := by
  rw [trim_eq]
  constructor
  · refine ⟨xs.rtakeWhile (· == 0), (List.rdropWhile_append_rtakeWhile ..).symm, ?_⟩
    intro x hx
    exact List.mem_rtakeWhile_imp (p := (· == 0)) hx
  · intro x hx
    obtain ⟨hne, rfl⟩ := List.mem_getLast?_eq_getLast hx
    rw [← Bool.not_eq_true]
    exact List.rdropWhile_last_not (· == 0) xs hne

theorem Trimmed.trim_eq {xs kept : List Sample} (h : Trimmed xs kept) : trim xs = kept := by
  obtain ⟨⟨tail, rfl, htail⟩, hlast⟩ := h
  have hsilent : ∀ x ∈ tail.reverse, (x == 0) = true := by
    intro x hx
    exact htail x (List.mem_reverse.mp hx)
  rw [trim, List.reverse_append, List.dropWhile_append_of_pos hsilent]
  change kept.rdropWhile (· == 0) = kept
  rw [List.rdropWhile_eq_self_iff]
  intro hne
  rw [hlast _ (List.getLast?_eq_getLast_of_ne_nil hne), Bool.not_eq_true]

theorem trim_append_silence {xs ys : List Sample} (h : ∀ y ∈ ys, y = 0) :
    trim (xs ++ ys) = trim xs := by
  apply Trimmed.trim_eq
  obtain ⟨⟨tail, hxs, htail⟩, hlast⟩ := trimmed_trim xs
  refine ⟨⟨tail ++ ys, ?_, ?_⟩, hlast⟩
  · rw [← List.append_assoc, ← hxs]
  · intro y hy
    rcases List.mem_append.mp hy with hy | hy
    · exact htail y hy
    · rw [h y hy]
      exact silence_beq

/-- Positions that no row reaches do not matter to a trimmed overlay. -/
theorem trim_overlay {rows : List (List Sample)} {m n : Nat} (hmn : m ≤ n)
    (h : ∀ row ∈ rows, row.length ≤ m) : trim (overlay rows 0 n) = trim (overlay rows 0 m) := by
  have hn : n = m + (n - m) := by omega
  have hs : overlay rows 0 n = overlay rows 0 m ++ overlay rows m (n - m) := by
    simp only [overlay, Nat.zero_add]
    rw [hn, List.range_add, List.map_append, List.map_map, ← hn]
    rfl
  rw [hs]
  apply trim_append_silence
  intro y hy
  obtain ⟨j, -, rfl⟩ := List.mem_map.mp hy
  exact sumAt_of_ended fun row hr => Nat.le_add_right_of_le (h row hr)

private theorem le_foldl_max (lanes : List Lane) (n : Nat) :
    n ≤ lanes.foldl (fun n l => max n l.cells.length) n ∧
    ∀ l ∈ lanes, l.cells.length ≤ lanes.foldl (fun n l => max n l.cells.length) n := by
  induction lanes generalizing n with
  | nil => simp
  | cons l lanes ih =>
    obtain ⟨hn, hl⟩ := ih (max n l.cells.length)
    rw [List.foldl_cons]
    refine ⟨Nat.le_trans (Nat.le_max_left _ _) hn, ?_⟩
    intro k hk
    rcases List.mem_cons.mp hk with rfl | hk
    · exact Nat.le_trans (Nat.le_max_right _ _) hn
    · exact hl k hk

theorem cells_le_reach {m : Mixer} {l : Lane} (h : l ∈ m.lanes) : l.cells.length ≤ m.reach :=
  (le_foldl_max m.lanes 0).2 l h

theorem reach_le {m : Mixer} {n : Nat} (h : ∀ l ∈ m.lanes, l.cells.length ≤ n) :
    m.reach ≤ n := by
  have general : ∀ (lanes : List Lane) (k : Nat), k ≤ n → (∀ l ∈ lanes, l.cells.length ≤ n) →
      lanes.foldl (fun n l => max n l.cells.length) k ≤ n := by
    intro lanes
    induction lanes with
    | nil => intro k hk _; exact hk
    | cons l lanes ih =>
      intro k hk hl
      exact ih _ (Nat.max_le.mpr ⟨hk, hl l (by simp)⟩) fun x hx => hl x (by simp [hx])
  exact general m.lanes 0 (Nat.zero_le n) h

/-- Mixing up to where a track has cells is enough for a bar that is trimmed. -/
theorem trim_mix_reach {m : Mixer} {n : Nat} (h : ∀ l ∈ m.lanes, l.cells.length ≤ n) :
    trim (mix m.reach m.lanes) = trim (overlay (m.lanes.map (·.cells)) 0 n) := by
  rw [mix_eq_overlay]
  symm
  apply trim_overlay (reach_le h)
  intro row hr
  obtain ⟨l, hl, rfl⟩ := List.mem_map.mp hr
  exact cells_le_reach hl

end Mixer

end PlainScore
