import Mathlib
import PlainScore.Report
import PlainScore.Track

/-! What a report says.
Neighbouring totals are compared, which tells of all of them: equality of floating-point numbers
is not reflexive, but it is transitive. -/
namespace PlainScore

theorem Report.allEqual_iff {xs : List Float} :
    allEqual xs = true ↔ xs.Pairwise fun x y => (x == y) = true := by
  induction xs with
  | nil => simp [allEqual]
  | cons x xs ih =>
    cases xs with
    | nil => simp [allEqual]
    | cons y rest =>
      rw [allEqual, Bool.and_eq_true, ih, List.pairwise_cons (l := y :: rest),
        List.forall_mem_cons]
      constructor
      · rintro ⟨hxy, hrest⟩
        refine ⟨⟨hxy, ?_⟩, hrest⟩
        intro z hz
        exact PartialEquivBEq.trans hxy (List.rel_of_pairwise_cons hrest hz)
      · rintro ⟨⟨hxy, -⟩, hrest⟩
        exact ⟨hxy, hrest⟩

theorem Report.warning_eq_nil_iff {r : Report} : r.warning = [] ↔ r.isMatching = true := by
  rw [warning]
  cases r.isMatching <;> simp

theorem Report.remarks_eq_nil_iff {r : Report} : r.remarks = [] ↔ r.isMatching = true := by
  rw [remarks, List.map_eq_nil_iff, warning_eq_nil_iff]

namespace Track

variable {start value : Float} {tokens more rest : List String}

theorem sumFrom_append (h : sumFrom start tokens = (.ok value, rest)) :
    sumFrom start (tokens ++ more) = sumFrom value more := by
  induction tokens generalizing start with
  | nil =>
    cases h
    rfl
  | cons token tokens ih =>
    rw [sumFrom] at h
    rw [List.cons_append, sumFrom]
    cases hn : Note.ofToken token with
    | error e =>
      rw [hn] at h
      cases h
    | ok note =>
      rw [hn] at h
      exact ih h

theorem total_nil : total ⟨[]⟩ = .ok 0 := rfl

theorem total_append_note {token : String} {note : Note} (h : total ⟨tokens⟩ = .ok value)
    (hn : Note.ofToken token = .ok note) :
    total ⟨tokens ++ [token]⟩ = .ok (value + note.value) := by
  have hsum : sumFrom 0 tokens = (.ok value, (sumFrom 0 tokens).2) := by
    rw [← h, total]
  simp only [total, sumFrom_append hsum, sumFrom, hn]

def SameTotal (t u : Track) : Prop :=
  ∃ x y, t.total = .ok x ∧ u.total = .ok y ∧ (x == y) = true

def Totals (tracks : List Track) (totals : List Float) : Prop :=
  tracks.map total = totals.map .ok

theorem Totals.pairwise_iff {tracks : List Track} {totals : List Float}
    (h : Totals tracks totals) :
    totals.Pairwise (fun x y => (x == y) = true) ↔ tracks.Pairwise SameTotal := by
  have hmap : tracks.Pairwise SameTotal ↔ (tracks.map total).Pairwise fun a b =>
      ∃ x y, a = .ok x ∧ b = .ok y ∧ (x == y) = true := by
    rw [List.pairwise_map]
    rfl
  rw [hmap, h, List.pairwise_map]
  simp only [Except.ok.injEq, exists_and_left, exists_eq_left']

end Track

/-- The totals of a report match when those of the tracks that they belong to compare as equal. -/
theorem Report.isMatching_iff {r : Report} {tracks : List Track}
    (h : Track.Totals tracks r.totals) :
    r.isMatching = true ↔ tracks.Pairwise Track.SameTotal := by
  rw [isMatching, allEqual_iff, h.pairwise_iff]

end PlainScore
