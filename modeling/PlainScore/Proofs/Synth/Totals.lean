import PlainScore.Proofs.Synth.Tally

/-! What the totals of a report are made of.
The notes that a run takes of a track are those it needs: all of the last track, and of the others as
many as reach the end of the bar in which the last track ends. The totals are the sums of their values,
each added up from the first note on. -/
namespace PlainScore

namespace Sheet

variable {sheet : Sheet} {params : Audio.Params}

/-- The beginning of a track that is needed for `n` samples: the shortest that has so many, or the
whole track when none has. -/
inductive NeededFor (sheet : Sheet) (params : Audio.Params) (n : Nat) (tokens : List String) :
    List String → Prop where
  | reached {taken : List String} : taken <+: tokens → n ≤ sheet.count params taken →
      (∀ before, before <+: tokens → n ≤ sheet.count params before →
        taken.length ≤ before.length) →
      NeededFor sheet params n tokens taken
  | short : (∀ before, before <+: tokens → sheet.count params before < n) →
      NeededFor sheet params n tokens tokens

theorem NeededFor.none (tokens : List String) : sheet.NeededFor params 0 tokens [] :=
  .reached List.nil_prefix (Nat.zero_le _) fun _ _ _ => Nat.zero_le _

/-- A note that has fewer samples than are needed is taken, and the rest is needed of the others. -/
theorem NeededFor.cons {n : Nat} {token : String} {tokens taken : List String} (hn : n ≠ 0)
    (h : sheet.NeededFor params (n - sheet.noteCount params token) tokens taken) :
    sheet.NeededFor params n (token :: tokens) (token :: taken) := by
  cases h with
  | reached hprefix hle hleast =>
    refine .reached (List.cons_prefix_cons.mpr ⟨rfl, hprefix⟩) ?_ ?_
    · rw [count_cons]
      omega
    · intro before hb hcount
      cases before with
      | nil =>
        rw [count_nil] at hcount
        exact absurd (Nat.le_zero.mp hcount) hn
      | cons first before =>
        obtain ⟨rfl, hrest⟩ := List.cons_prefix_cons.mp hb
        rw [count_cons] at hcount
        exact Nat.succ_le_succ (hleast before hrest (by omega))
  | short hall =>
    refine .short ?_
    intro before hb
    cases before with
    | nil =>
      rw [count_nil]
      exact Nat.pos_of_ne_zero hn
    | cons first before =>
      obtain ⟨rfl, hrest⟩ := List.cons_prefix_cons.mp hb
      have hlt := hall before hrest
      rw [count_cons]
      omega

theorem reaching_needed (n : Nat) (tokens : List String) :
    sheet.NeededFor params n tokens (sheet.reaching params n tokens) := by
  induction tokens generalizing n with
  | nil =>
    cases n with
    | zero => exact .none []
    | succ n =>
      refine .short ?_
      intro before hb
      rw [List.prefix_nil.mp hb, count_nil]
      exact Nat.succ_pos n
  | cons token tokens ih =>
    rw [reaching]
    by_cases hn : n = 0
    · rw [if_pos hn, hn]
      exact .none _
    · rw [if_neg hn]
      exact .cons hn (ih _)

structure TotalsNeeded (sheet : Sheet) (params : Audio.Params) (totals : List Float) : Prop where
  length : totals.length = sheet.tracks.length
  last : ∀ t, sheet.tracks.getLast? = some t →
    ∃ total, totals.getLast? = some total ∧ t.total = .ok total
  other : ∀ i t, i + 1 < sheet.tracks.length → sheet.tracks[i]? = some t → ∃ taken total,
    sheet.NeededFor params ((sheet.wholeBars params + 1) * sheet.capacity params) t.tokens taken ∧
      totals[i]? = some total ∧ Track.total ⟨taken⟩ = .ok total

theorem tokensOf_of_getElem? {i : Nat} {t : Track} (h : sheet.tracks[i]? = some t) :
    sheet.tokensOf i = t.tokens := by
  rw [tokensOf, h]
  rfl

theorem totalsNeeded {totals : List Float}
    (h : Track.Totals (sheet.takenTracks params) totals) : sheet.TotalsNeeded params totals := by
  have hlength : totals.length = sheet.tracks.length := by
    have hl := congrArg List.length h
    rw [List.length_map, List.length_map, takenTracks, List.length_map, List.length_range] at hl
    exact hl.symm
  have hat : ∀ i < sheet.tracks.length, ∃ total, totals[i]? = some total ∧
      Track.total ⟨sheet.taken params i⟩ = .ok total := by
    intro i hi
    have hi' : i < totals.length := hlength ▸ hi
    have hget := congrArg (·[i]?) h
    simp only [takenTracks, List.getElem?_map, List.getElem?_range hi, Option.map_some,
      List.getElem?_eq_getElem hi', Option.some_inj] at hget
    exact ⟨totals[i], List.getElem?_eq_getElem hi', hget⟩
  constructor
  · exact hlength
  · intro t ht
    rw [List.getLast?_eq_getElem?] at ht ⊢
    obtain ⟨hlt, -⟩ := List.getElem?_eq_some_iff.mp ht
    obtain ⟨total, hget, htotal⟩ := hat _ hlt
    rw [taken, if_pos (by omega), tokensOf_of_getElem? ht] at htotal
    exact ⟨total, hlength ▸ hget, htotal⟩
  · intro i t hi ht
    obtain ⟨total, hget, htotal⟩ := hat i (Nat.lt_of_succ_lt hi)
    rw [taken, if_neg (Nat.ne_of_lt hi), tokensOf_of_getElem? ht] at htotal
    exact ⟨_, total, reaching_needed _ _, hget, htotal⟩

/-- A sheet of which the last track stops first plays well, whatever the others have ahead. -/
theorem performs_well {last : Nat} (hroom : sheet.capacity params ≤ sampleLimit)
    (hn : sheet.tracks ≠ []) (hfirst : sheet.StopsFirst params last)
    (hall : ∀ token ∈ sheet.tokensOf last, Note.evaluates token = true)
    (hshort : ∀ t ∈ sheet.tracks, ∀ token ∈ t.tokens, sheet.noteCount params token ≤ sampleLimit) :
    ∃ report, sheet.Performs params ⟨sheet.cut.bars params, .ok report⟩ := by
  obtain ⟨own, hown, hends⟩ := performs_to_first_stop hroom hn
  cases hends with
  | @failed track token rest e hstops hsplit he =>
    obtain rfl : track = last := by
      have hle := hstops.2 last hfirst.1
      have hge := hfirst.2 track hstops.1
      omega
    have htrue := hall token (by rw [hsplit]; simp)
    rw [Note.evaluates, he] at htrue
    cases htrue
  | played => exact ⟨_, hown⟩
  | lost hm hnote hlong =>
    obtain ⟨t, ht, htoken⟩ := tokensOf_mem hm
    have hle := hshort t ht _ htoken
    rw [noteCount, hnote] at hle
    exact absurd hlong (Nat.not_lt.mpr hle)

end Sheet

namespace Synth

variable {sheet : Sheet} {params : Audio.Params} {s t : Synth}

/-- Any sheet with tracks, whatever tokens it has, and any run of it that ends well, whenever it is
interrupted and whoever listens. -/
theorem report_totals_needed_notes (hn : sheet.tracks ≠ []) (hnew : new sheet params = .ok s)
    (hrun : s.Runs t) {report : Report} (hr : t.result? = some (.ok report)) :
    sheet.TotalsNeeded params report.totals :=
  Sheet.totalsNeeded (hrun.totals hnew hn hr)

/-- Two whole notes and one that cannot be evaluated over a bar in pieces, in which the run ends. -/
def unfinished : Sheet :=
  ⟨120, ⟨4, 4⟩, [⟨["C4---", "D4---", "E4-/"]⟩, ⟨["C4--", "C4/", "C4//", "C4//"]⟩]⟩

theorem unfinished_stops_last : unfinished.StopsFirst {} 1 := by
  have hlast : unfinished.stopBar {} 1 = 0 := by
    rw [Sheet.stopBar, Sheet.length_voice]
    exact Nat.div_eq_of_lt (by decide +kernel)
  have hfirst : 0 < unfinished.stopBar {} 0 := by
    rw [Sheet.stopBar, Sheet.length_voice]
    exact Nat.div_pos (by decide +kernel) (Sheet.capacity_pos _ _)
  refine ⟨⟨by decide, .inl rfl⟩, ?_⟩
  intro other hstops
  have hlt : other < 2 := hstops.1
  by_cases hother : other = 1
  · exact .inr ⟨by rw [hother], Nat.le_of_eq hother.symm⟩
  · obtain rfl : other = 0 := by omega
    refine .inl ?_
    rw [hlast]
    exact hfirst

theorem unfinished_totals_needed_notes : unfinished.tracks ≠ [] ∧ ∃ s t report,
    new unfinished {} = .ok s ∧ s.Runs t ∧ t.result? = some (.ok report) ∧
      unfinished.TotalsNeeded {} report.totals := by
  have hn : unfinished.tracks ≠ [] := List.cons_ne_nil _ _
  obtain ⟨report, s, hs, hp⟩ := Sheet.performs_well (by decide +kernel) hn unfinished_stops_last
    (by decide +kernel) (by decide +kernel)
  obtain ⟨t, hrun, hr⟩ := hp.runs
  exact ⟨hn, s, t, report, hs, hrun, hr, report_totals_needed_notes hn hs hrun hr⟩

end Synth

end PlainScore
