import Mathlib.Data.List.Forall2
import PlainScore.Proofs.Sheet

/-! What loading accepts, and which problem it reports.
The checks of a manuscript are made in a fixed order: first everything is parsed, track by track,
and then everything is evaluated, track by track and token by token. `Describes` and `FirstProblem`
say what they come to without running them, and every score that is loaded or selected from
one consists of sheets that pass them all. -/
namespace PlainScore

/-! ### The first of a list that is refused -/

section

variable {ε α β : Type} {f : α → Except ε β} {xs ys : List α} {x : α} {e : ε}

def FirstRefused (f : α → Except ε β) (xs : List α) (e : ε) : Prop :=
  ∃ before x after, xs = before ++ x :: after ∧ (∀ y ∈ before, ∃ b, f y = .ok b) ∧ f x = .error e

theorem not_firstRefused_nil : ¬ FirstRefused f [] e := by
  rintro ⟨before, x, after, h, -, -⟩
  exact List.append_ne_nil_of_right_ne_nil before (List.cons_ne_nil x after) h.symm

theorem firstRefused_cons : FirstRefused f (x :: xs) e ↔
    f x = .error e ∨ (∃ b, f x = .ok b) ∧ FirstRefused f xs e := by
  constructor
  · rintro ⟨before, y, after, h, hb, hy⟩
    cases before with
    | nil =>
      cases h
      exact .inl hy
    | cons z before =>
      cases h
      obtain ⟨hx, hb⟩ := List.forall_mem_cons.mp hb
      exact .inr ⟨hx, before, y, after, rfl, hb, hy⟩
  · rintro (h | ⟨hx, before, y, after, rfl, hb, hy⟩)
    · exact ⟨[], x, xs, rfl, fun y hy => absurd hy List.not_mem_nil, h⟩
    · exact ⟨x :: before, y, after, rfl, List.forall_mem_cons.mpr ⟨hx, hb⟩, hy⟩

theorem firstRefused_append : FirstRefused f (xs ++ ys) e ↔
    FirstRefused f xs e ∨ (∀ x ∈ xs, ∃ b, f x = .ok b) ∧ FirstRefused f ys e := by
  induction xs with
  | nil => simp [not_firstRefused_nil]
  | cons x xs ih =>
    rw [List.cons_append, firstRefused_cons, firstRefused_cons, ih, List.forall_mem_cons]
    constructor
    · rintro (h | ⟨hx, h | ⟨hxs, h⟩⟩)
      · exact .inl (.inl h)
      · exact .inl (.inr ⟨hx, h⟩)
      · exact .inr ⟨⟨hx, hxs⟩, h⟩
    · rintro ((h | ⟨hx, h⟩) | ⟨⟨hx, hxs⟩, h⟩)
      · exact .inl h
      · exact .inr ⟨hx, .inl h⟩
      · exact .inr ⟨hx, .inr ⟨hxs, h⟩⟩

theorem mapM_ok_iff {bs : List β} :
    xs.mapM f = .ok bs ↔ List.Forall₂ (fun x b => f x = .ok b) xs bs := by
  induction xs generalizing bs with
  | nil =>
    rw [List.mapM_nil, List.forall₂_nil_left_iff]
    constructor
    · intro h
      cases h
      rfl
    · rintro rfl
      rfl
  | cons x xs ih =>
    rw [List.mapM_cons, List.forall₂_cons_left_iff]
    constructor
    · intro h
      obtain ⟨b, hb, h⟩ := ok_of_bind h
      obtain ⟨bs', hbs, h⟩ := ok_of_bind h
      cases h
      exact ⟨b, bs', hb, ih.mp hbs, rfl⟩
    · rintro ⟨b, bs', hb, hbs, rfl⟩
      rw [hb, ih.mpr hbs]
      rfl

theorem mapM_error_iff : xs.mapM f = .error e ↔ FirstRefused f xs e := by
  induction xs with
  | nil =>
    refine ⟨fun h => ?_, fun h => absurd h not_firstRefused_nil⟩
    cases h
  | cons x xs ih =>
    rw [List.mapM_cons, firstRefused_cons, ← ih]
    constructor
    · intro h
      obtain h | ⟨b, hb, h⟩ := error_of_bind h
      · exact .inl h
      · obtain h | ⟨bs, -, h⟩ := error_of_bind h
        · exact .inr ⟨⟨b, hb⟩, h⟩
        · cases h
    · rintro (h | ⟨⟨b, hb⟩, h⟩)
      · rw [h]
        rfl
      · rw [hb, h]
        rfl

end

/-! ### Tokens -/

namespace Track

variable {total : Float} {tokens : List String} {e : Error}

theorem sumFrom_error_iff :
    (sumFrom total tokens).1 = .error e ↔ FirstRefused Note.ofToken tokens e := by
  induction tokens generalizing total with
  | nil =>
    refine ⟨fun h => ?_, fun h => absurd h not_firstRefused_nil⟩
    cases h
  | cons token tokens ih =>
    rw [sumFrom, firstRefused_cons]
    cases Note.ofToken token with
    | error e' => simp
    | ok note => simp [ih]

theorem total_error_iff {t : Track} : t.total = .error e ↔ FirstRefused Note.ofToken t.tokens e :=
  sumFrom_error_iff

end Track

namespace Sheet

variable {tracks : List Track} {e : Error}

/-- Tracks are looked at in order, and the tokens of each in order. -/
theorem firstFailure_eq_some_iff :
    firstFailure tracks = some e ↔ FirstRefused Note.ofToken (tracks.flatMap Track.tokens) e := by
  induction tracks with
  | nil =>
    refine ⟨fun h => ?_, fun h => absurd h not_firstRefused_nil⟩
    cases h
  | cons t ts ih =>
    rw [firstFailure, List.flatMap_cons, firstRefused_append, ← ih, ← Track.total_error_iff,
      ← Track.total_ok_iff]
    cases t.total with
    | error e' => simp
    | ok v => simp

theorem make_error_iff {bpm : Float} {meter : Meter} :
    make bpm meter tracks = .error e ↔ (⟨bpm, meter, tracks⟩ : Sheet).fault? = some e := by
  unfold make
  dsimp only
  cases (⟨bpm, meter, tracks⟩ : Sheet).fault? <;> simp

end Sheet

/-! ### Manuscripts -/

namespace Manuscript

structure Reads (m : Manuscript) (meter : Meter) (tracks : List Track) : Prop where
  meter : Meter.parse? m.meter = some meter
  tracks : List.Forall₂ (fun lines t => Track.parse (lineText lines) = .ok t) m.tracks tracks

structure Describes (m : Manuscript) (s : Sheet) : Prop where
  bpm : s.bpm = m.bpm
  reads : m.Reads s.meter s.tracks
  tempo : s.bpm.isFinite = true ∧ 0 < s.bpm
  meter : s.meter.numerator ≠ 0 ∧ s.meter.denominator ≠ 0
  tracks : s.tracks ≠ []
  tokens : ∀ token ∈ s.tracks.flatMap Track.tokens, ∃ note, Note.ofToken token = .ok note

/-- The error names what is wrong first: each check is made when those above it have passed. -/
inductive FirstProblem (m : Manuscript) : Error → Prop where
  | meterText : Meter.parse? m.meter = none → FirstProblem m (.sheet (.meterText m.meter))
  | trackText {meter : Meter} {e : Error} : Meter.parse? m.meter = some meter →
      FirstRefused (fun lines => Track.parse (lineText lines)) m.tracks e → FirstProblem m e
  | tempo {meter : Meter} {tracks : List Track} : m.Reads meter tracks →
      ¬ (m.bpm.isFinite = true ∧ 0 < m.bpm) → FirstProblem m (.sheet (.tempo m.bpm))
  | meter {meter : Meter} {tracks : List Track} : m.Reads meter tracks →
      m.bpm.isFinite = true ∧ 0 < m.bpm → meter.numerator = 0 ∨ meter.denominator = 0 →
      FirstProblem m (.sheet (.meter meter.numerator meter.denominator))
  | noTracks {meter : Meter} {tracks : List Track} : m.Reads meter tracks →
      m.bpm.isFinite = true ∧ 0 < m.bpm → meter.numerator ≠ 0 ∧ meter.denominator ≠ 0 →
      tracks = [] → FirstProblem m (.sheet .noTracks)
  | token {meter : Meter} {tracks : List Track} {e : Error} : m.Reads meter tracks →
      m.bpm.isFinite = true ∧ 0 < m.bpm → meter.numerator ≠ 0 ∧ meter.denominator ≠ 0 →
      FirstRefused Note.ofToken (tracks.flatMap Track.tokens) e → FirstProblem m e

variable {m : Manuscript} {s : Sheet} {e : Error}

theorem parseTracks_eq_mapM (ts : List (List String)) :
    parseTracks ts = ts.mapM fun lines => Track.parse (lineText lines) := by
  induction ts with
  | nil => rfl
  | cons t ts ih => rw [parseTracks, ih, List.mapM_cons]

theorem meter_parse_ok {text : String} {meter : Meter} :
    Meter.parse text = .ok meter ↔ Meter.parse? text = some meter := by
  unfold Meter.parse
  cases Meter.parse? text <;> simp

theorem meter_parse_error {text : String} :
    Meter.parse text = .error e ↔ Meter.parse? text = none ∧ e = .sheet (.meterText text) := by
  unfold Meter.parse
  cases Meter.parse? text <;> simp [eq_comm]

theorem sheet_of_reads {meter : Meter} {tracks : List Track} (h : m.Reads meter tracks) :
    m.sheet = Sheet.make m.bpm meter tracks := by
  have htracks := mapM_ok_iff.mpr h.tracks
  rw [sheet, parseTracks_eq_mapM, meter_parse_ok.mpr h.meter, htracks]
  rfl

theorem sheet_ok_iff : m.sheet = .ok s ↔ m.Describes s := by
  constructor
  · intro h
    obtain ⟨meter, hm, h⟩ := ok_of_bind h
    obtain ⟨tracks, ht, h⟩ := ok_of_bind h
    rw [parseTracks_eq_mapM, mapM_ok_iff] at ht
    obtain ⟨rfl, ha⟩ := Sheet.make_ok_iff.mp h
    obtain ⟨htempo, hmeter, hne, htokens⟩ := Sheet.accepted_iff.mp ha
    exact ⟨rfl, ⟨meter_parse_ok.mp hm, ht⟩, htempo, hmeter, hne,
      Sheet.firstFailure_eq_none_iff.mp htokens⟩
  · intro h
    rw [sheet_of_reads h.reads, Sheet.make_ok_iff, Sheet.accepted_iff, ← h.bpm]
    exact ⟨rfl, h.tempo, h.meter, h.tracks, Sheet.firstFailure_eq_none_iff.mpr h.tokens⟩

theorem sheet_error_of_reads {meter : Meter} {tracks : List Track} (h : m.Reads meter tracks) :
    m.sheet = .error e ↔ (⟨m.bpm, meter, tracks⟩ : Sheet).fault? = some e := by
  rw [sheet_of_reads h, Sheet.make_error_iff]

theorem firstProblem_of_fault {meter : Meter} {tracks : List Track} (h : m.Reads meter tracks)
    (hf : (⟨m.bpm, meter, tracks⟩ : Sheet).fault? = some e) : m.FirstProblem e := by
  by_cases ht : m.bpm.isFinite = true ∧ 0 < m.bpm
  · rw [Sheet.fault?_playable (s := ⟨m.bpm, meter, tracks⟩) ht] at hf
    dsimp only at hf
    by_cases hz : meter.numerator = 0 ∨ meter.denominator = 0
    · rw [if_pos hz] at hf
      cases hf
      exact .meter h ht hz
    · rw [if_neg hz] at hf
      by_cases hn : tracks = []
      · rw [if_pos hn] at hf
        cases hf
        exact .noTracks h ht (not_or.mp hz) hn
      · rw [if_neg hn, Sheet.firstFailure_eq_some_iff] at hf
        exact .token h ht (not_or.mp hz) hf
  · rw [Sheet.fault?_unplayable (s := ⟨m.bpm, meter, tracks⟩) ht] at hf
    cases hf
    exact .tempo h ht

theorem sheet_error_iff : m.sheet = .error e ↔ m.FirstProblem e := by
  constructor
  · intro h
    obtain h | ⟨meter, hm, h⟩ := error_of_bind h
    · obtain ⟨hn, rfl⟩ := meter_parse_error.mp h
      exact .meterText hn
    · rw [meter_parse_ok] at hm
      obtain h | ⟨tracks, ht, h⟩ := error_of_bind h
      · rw [parseTracks_eq_mapM, mapM_error_iff] at h
        exact .trackText hm h
      · rw [parseTracks_eq_mapM, mapM_ok_iff] at ht
        exact firstProblem_of_fault ⟨hm, ht⟩ (Sheet.make_error_iff.mp h)
  · intro h
    cases h with
    | meterText hn =>
      rw [sheet, meter_parse_error.mpr ⟨hn, rfl⟩]
      rfl
    | trackText hm ht =>
      rw [sheet, meter_parse_ok.mpr hm, parseTracks_eq_mapM, mapM_error_iff.mpr ht]
      rfl
    | @tempo meter tracks hr ht =>
      rw [sheet_error_of_reads hr, Sheet.fault?_unplayable (s := ⟨m.bpm, meter, tracks⟩) ht]
    | @meter meter tracks hr ht hz =>
      rw [sheet_error_of_reads hr, Sheet.fault?_playable (s := ⟨m.bpm, meter, tracks⟩) ht, if_pos hz]
    | @noTracks meter tracks hr ht hm hn =>
      rw [sheet_error_of_reads hr, Sheet.fault?_playable (s := ⟨m.bpm, meter, tracks⟩) ht,
        if_neg (not_or.mpr hm), if_pos hn]
    | @token meter tracks e hr ht hm hf =>
      have hn : tracks ≠ [] := by
        rintro rfl
        exact not_firstRefused_nil hf
      rw [sheet_error_of_reads hr, Sheet.fault?_playable (s := ⟨m.bpm, meter, tracks⟩) ht,
        if_neg (not_or.mpr hm), if_neg hn, Sheet.firstFailure_eq_some_iff]
      exact hf

end Manuscript

/-! ### Collections -/

namespace Collection

def manuscripts : Collection → List Manuscript
  | .single m => [m]
  | .medley ms => ms

inductive Describes : Collection → Score → Prop where
  | single {m : Manuscript} {s : Sheet} : m.Describes s → Describes (.single m) (.single s)
  | medley {ms : List Manuscript} {ss : List Sheet} : ms ≠ [] →
      List.Forall₂ Manuscript.Describes ms ss → Describes (.medley ms) (.medley ss)

/-- The error is that of the first manuscript that has a problem. -/
inductive FirstProblem : Collection → Error → Prop where
  | single {m : Manuscript} {e : Error} : m.FirstProblem e → FirstProblem (.single m) e
  | empty : FirstProblem (.medley []) (.sheet .noSubsheets)
  | sheet {before after : List Manuscript} {m : Manuscript} {e : Error} :
      (∀ earlier ∈ before, ∃ s, earlier.Describes s) → m.FirstProblem e →
      FirstProblem (.medley (before ++ m :: after)) e

variable {c : Collection} {score : Score} {e : Error}

theorem sheets_eq_mapM (ms : List Manuscript) : sheets ms = ms.mapM Manuscript.sheet := by
  induction ms with
  | nil => rfl
  | cons m ms ih => rw [sheets, ih, List.mapM_cons]

theorem sheets_ok_iff {ms : List Manuscript} {ss : List Sheet} :
    sheets ms = .ok ss ↔ List.Forall₂ Manuscript.Describes ms ss := by
  rw [sheets_eq_mapM, mapM_ok_iff]
  simp only [Manuscript.sheet_ok_iff]

theorem score_medley {ms : List Manuscript} (h : ms ≠ []) :
    (medley ms).score = (do return .medley (← sheets ms)) := by
  cases ms with
  | nil => exact absurd rfl h
  | cons m ms => rfl

theorem score_ok_iff : c.score = .ok score ↔ c.Describes score := by
  constructor
  · intro h
    cases c with
    | single m =>
      obtain ⟨s, hs, h⟩ := ok_of_bind h
      cases h
      exact .single (Manuscript.sheet_ok_iff.mp hs)
    | medley ms =>
      by_cases hne : ms = []
      · subst hne
        cases h
      · rw [score_medley hne] at h
        obtain ⟨ss, hs, h⟩ := ok_of_bind h
        cases h
        exact .medley hne (sheets_ok_iff.mp hs)
  · intro h
    cases h with
    | single hs =>
      rw [Collection.score, Manuscript.sheet_ok_iff.mpr hs]
      rfl
    | medley hne hs =>
      rw [score_medley hne, sheets_ok_iff.mpr hs]
      rfl

theorem score_error_iff : c.score = .error e ↔ c.FirstProblem e := by
  constructor
  · intro h
    cases c with
    | single m =>
      obtain h | ⟨s, -, h⟩ := error_of_bind h
      · exact .single (Manuscript.sheet_error_iff.mp h)
      · cases h
    | medley ms =>
      by_cases hne : ms = []
      · subst hne
        cases h
        exact .empty
      · rw [score_medley hne] at h
        obtain h | ⟨s, -, h⟩ := error_of_bind h
        · rw [sheets_eq_mapM, mapM_error_iff] at h
          obtain ⟨before, m, after, rfl, hb, hm⟩ := h
          simp only [Manuscript.sheet_ok_iff] at hb
          exact .sheet hb (Manuscript.sheet_error_iff.mp hm)
        · cases h
  · intro h
    cases h with
    | single hm =>
      rw [Collection.score, Manuscript.sheet_error_iff.mpr hm]
      rfl
    | empty => rfl
    | @sheet before after m e hb hm =>
      have hfirst : sheets (before ++ m :: after) = .error e := by
        rw [sheets_eq_mapM, mapM_error_iff]
        simp only [← Manuscript.sheet_ok_iff] at hb
        exact ⟨before, m, after, rfl, hb, Manuscript.sheet_error_iff.mpr hm⟩
      have hne : before ++ m :: after ≠ [] :=
        List.append_ne_nil_of_right_ne_nil before (List.cons_ne_nil m after)
      rw [score_medley hne, hfirst]
      rfl

end Collection

/-! ### Selecting -/

namespace Score

inductive Selected (score : Score) : Score → Prop where
  | whole : Selected score score
  | select {kept next : Score} {first last : Nat} : Selected score kept →
      kept.select first last = .ok next → Selected score next

variable {ss : List Sheet} {score kept : Score} {first last : Nat}

theorem select_medley_ok_iff : (medley ss).select first last = .ok kept ↔
    (first < last ∧ last ≤ ss.length) ∧ kept = .medley ((ss.take last).drop first) := by
  rw [select]
  by_cases h : last ≤ first ∨ ss.length < last
  · rw [if_pos h]
    refine ⟨fun hk => ?_, fun hk => ?_⟩
    · cases hk
    · omega
  · rw [if_neg h, Except.ok.injEq, eq_comm, and_iff_right]
    omega

/-- A selection keeps one sheet at least, and adds none. -/
theorem sheets_of_select (h : score.select first last = .ok kept) (hne : score.sheets ≠ []) :
    kept.sheets ≠ [] ∧ ∀ s ∈ kept.sheets, s ∈ score.sheets := by
  cases score with
  | single s =>
    cases h
    exact ⟨hne, fun _ hs => hs⟩
  | medley ss =>
    obtain ⟨⟨hlt, hle⟩, rfl⟩ := select_medley_ok_iff.mp h
    constructor
    · apply List.ne_nil_of_length_pos
      simp only [sheets, List.length_drop, List.length_take]
      omega
    · intro s hs
      exact List.mem_of_mem_take (List.mem_of_mem_drop hs)

theorem Selected.sheets (h : score.Selected kept) (hne : score.sheets ≠ []) :
    kept.sheets ≠ [] ∧ ∀ s ∈ kept.sheets, s ∈ score.sheets := by
  induction h with
  | whole => exact ⟨hne, fun _ hs => hs⟩
  | select _ hstep ih =>
    obtain ⟨hne', hmem⟩ := sheets_of_select hstep ih.1
    exact ⟨hne', fun s hs => ih.2 s (hmem s hs)⟩

structure Narrows (ss : List Sheet) (a b c d : Nat) : Prop where
  succeeds : (∃ kept, ((medley ss).select a b >>= select c d) = .ok kept) ↔
    (a < b ∧ b ≤ ss.length) ∧ c < d ∧ d ≤ b - a
  at_once : (a < b ∧ b ≤ ss.length) → (c < d ∧ d ≤ b - a) →
    ((medley ss).select a b >>= select c d) = (medley ss).select (a + c) (a + d)

theorem select_inside (a b c d : Nat) (h : a < b ∧ b ≤ ss.length) :
    ((medley ss).select a b >>= select c d) =
      (medley ((ss.take b).drop a)).select c d := by
  rw [select_medley_ok_iff.mpr ⟨h, rfl⟩]
  rfl

theorem narrows (ss : List Sheet) (a b c d : Nat) : Narrows ss a b c d := by
  have hlength : b ≤ ss.length → ((ss.take b).drop a).length = b - a := by
    intro hb
    rw [List.length_drop, List.length_take, Nat.min_eq_left hb]
  constructor
  · constructor
    · rintro ⟨kept, h⟩
      obtain ⟨middle, hm, -⟩ := ok_of_bind h
      obtain ⟨hab, -⟩ := select_medley_ok_iff.mp hm
      rw [select_inside a b c d hab] at h
      obtain ⟨hcd, -⟩ := select_medley_ok_iff.mp h
      rw [hlength hab.2] at hcd
      exact ⟨hab, hcd⟩
    · rintro ⟨hab, hcd⟩
      refine ⟨_, (select_inside a b c d hab).trans (select_medley_ok_iff.mpr ⟨?_, rfl⟩)⟩
      rwa [hlength hab.2]
  · intro hab hcd
    have hinner : c < d ∧ d ≤ ((ss.take b).drop a).length := by rwa [hlength hab.2]
    have houter : a + c < a + d ∧ a + d ≤ ss.length := by omega
    have htake : min (a + d) b = a + d := by omega
    rw [select_inside a b c d hab, select_medley_ok_iff.mpr ⟨hinner, rfl⟩,
      select_medley_ok_iff.mpr ⟨houter, rfl⟩, List.take_drop, List.take_take, htake,
      List.drop_drop]

end Score

/-! ### Loading -/

namespace Collection

theorem Describes.sheets {c : Collection} {score : Score} (h : c.Describes score) :
    score.sheets ≠ [] ∧ ∀ s ∈ score.sheets, ∃ m ∈ c.manuscripts, m.Describes s := by
  cases h with
  | @single m s hs =>
    refine ⟨List.cons_ne_nil s [], ?_⟩
    intro s' hs'
    cases List.mem_singleton.mp hs'
    exact ⟨m, List.mem_cons_self, hs⟩
  | @medley ms ss hne hs =>
    constructor
    · rintro rfl
      exact hne (List.forall₂_nil_right_iff.mp hs)
    · intro s hmem
      obtain ⟨i, hi, rfl⟩ := List.getElem_of_mem hmem
      have him : i < ms.length := hs.length_eq ▸ hi
      exact ⟨ms[i], List.getElem_mem him, hs.get him hi⟩

structure TakenIn (c : Collection) : Prop where
  accepts : ∀ score, c.score = .ok score ↔ c.Describes score
  refuses : ∀ e, c.score = .error e ↔ c.FirstProblem e
  keeps : ∀ score kept, c.score = .ok score → score.Selected kept →
    kept.sheets ≠ [] ∧ ∀ s ∈ kept.sheets, ∃ m ∈ c.manuscripts, m.Describes s

theorem takenIn (c : Collection) : c.TakenIn := by
  refine ⟨fun score => score_ok_iff, fun e => score_error_iff, ?_⟩
  intro score kept hscore hkept
  obtain ⟨hne, hsheets⟩ := (score_ok_iff.mp hscore).sheets
  obtain ⟨hne', hmem⟩ := hkept.sheets hne
  exact ⟨hne', fun s hs => hsheets s (hmem s hs)⟩

end Collection

/-- Exactly what is written well is loaded, the first problem is reported, and what is selected
from a score is as good as the score. -/
theorem Collection.loading_reports_the_first_problem :
    (∀ m : Manuscript, (∀ s, m.sheet = .ok s ↔ m.Describes s) ∧
      ∀ e, m.sheet = .error e ↔ m.FirstProblem e) ∧
    (∀ c : Collection, c.TakenIn) ∧ ∀ ss a b c d, Score.Narrows ss a b c d :=
  ⟨fun _ => ⟨fun _ => Manuscript.sheet_ok_iff, fun _ => Manuscript.sheet_error_iff⟩, takenIn,
    Score.narrows⟩

/-- The first track has two pitches in a tie, and the second has a letter that is no note. -/
def Manuscript.misspelled : Manuscript := ⟨120, "4/4", [["C4+D4"], ["C4", "H"]]⟩

/-- Neither the tempo nor the meter can be played, there are no tracks, and all of it can be read. -/
def Manuscript.stopped : Manuscript := ⟨-0.5, "0/4", []⟩

def Manuscript.scale : Manuscript := ⟨120, "3/4", [["C4 D4", "E4"]]⟩

def Sheet.scale : Sheet := ⟨120, ⟨3, 4⟩, [⟨["C4", "D4", "E4"]⟩]⟩

/-- Parsing comes before evaluation, whichever track it is that cannot be parsed, and the tempo
comes before the meter. -/
theorem Collection.misspelling_is_the_first_problem :
    (medley [.scale, .misspelled]).FirstProblem (.malformedNote "C4H") ∧
      Manuscript.stopped.FirstProblem (.sheet (.tempo (-0.5))) ∧
      (medley [.scale, .scale]).Describes (.medley [.scale, .scale]) ∧
      (∀ s ∈ [Sheet.scale], ∃ m ∈ [Manuscript.scale, .scale], m.Describes s) ∧
      ((Score.medley [.scale, .scale]).select 0 2 >>= Score.select 1 2) =
        (Score.medley [.scale, .scale]).select 1 2 := by
  obtain ⟨hmanuscripts, htaken, hnarrows⟩ := loading_reports_the_first_problem
  have hscore : (medley [.scale, .scale]).score = .ok (.medley [.scale, .scale]) := by
    decide +kernel
  have hselect : (Score.medley [.scale, .scale]).select 1 2 = .ok (.medley [.scale]) := rfl
  refine ⟨((htaken _).refuses _).mp ?_, ((hmanuscripts _).2 _).mp ?_,
    ((htaken _).accepts _).mp hscore, ((htaken _).keeps _ _ hscore (.select .whole hselect)).2,
    (hnarrows _ 0 2 1 2).at_once ?_ ?_⟩
  · decide +kernel
  · decide +kernel
  · decide
  · decide

end PlainScore
