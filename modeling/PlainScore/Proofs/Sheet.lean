import PlainScore.Score.Manuscript

/-! What an accepted sheet can be relied on for.
Tempo, meter and the number of tracks are looked at once, and so is every note: nothing that a
sheet is made of fails to evaluate later. Whatever is loaded consists of such sheets. -/
namespace PlainScore

namespace Track

variable {start : Float} {tokens : List String}

theorem sumFrom_ok_iff : (∃ v, (sumFrom start tokens).1 = .ok v) ↔
    ∀ token ∈ tokens, ∃ note, Note.ofToken token = .ok note := by
  induction tokens generalizing start with
  | nil => simp [sumFrom]
  | cons token tokens ih =>
    rw [sumFrom, List.forall_mem_cons]
    cases Note.ofToken token with
    | error e => simp
    | ok note => simp [ih]

theorem total_ok_iff {t : Track} :
    (∃ v, t.total = .ok v) ↔ ∀ token ∈ t.tokens, ∃ note, Note.ofToken token = .ok note :=
  sumFrom_ok_iff

end Track

namespace Sheet

def Accepted (s : Sheet) : Prop := s.fault? = none

instance (s : Sheet) : Decidable s.Accepted :=
  decidable_of_iff (s.fault?.isNone = true) Option.isNone_iff_eq_none

theorem make_ok_iff {bpm : Float} {meter : Meter} {tracks : List Track} {s : Sheet} :
    make bpm meter tracks = .ok s ↔ s = ⟨bpm, meter, tracks⟩ ∧ s.Accepted := by
  unfold make
  dsimp only
  constructor
  · intro h
    split at h
    · cases h
    · rename_i hf
      cases h
      exact ⟨rfl, hf⟩
  · rintro ⟨rfl, hf⟩
    rw [Accepted] at hf
    rw [hf]

theorem firstFailure_eq_none_iff {tracks : List Track} : firstFailure tracks = none ↔
    ∀ token ∈ tracks.flatMap Track.tokens, ∃ note, Note.ofToken token = .ok note := by
  induction tracks with
  | nil => simp [firstFailure]
  | cons t ts ih =>
    rw [firstFailure, List.flatMap_cons, List.forall_mem_append, ← ih, ← Track.total_ok_iff]
    cases t.total with
    | error e => simp
    | ok v => simp

variable {s : Sheet}

theorem playableTempo_iff {bpm : Float} :
    playableTempo bpm = true ↔ bpm.isFinite = true ∧ 0 < bpm := by
  rw [playableTempo, Bool.and_eq_true, decide_eq_true_iff]

theorem fault?_unplayable (h : ¬ (s.bpm.isFinite = true ∧ 0 < s.bpm)) :
    s.fault? = some (.sheet (.tempo s.bpm)) := by
  rw [← playableTempo_iff] at h
  rw [fault?, if_pos h]

theorem fault?_playable (h : s.bpm.isFinite = true ∧ 0 < s.bpm) :
    s.fault? = if s.meter.numerator = 0 ∨ s.meter.denominator = 0 then
        some (.sheet (.meter s.meter.numerator s.meter.denominator))
      else if s.tracks = [] then some (.sheet .noTracks)
      else firstFailure s.tracks := by
  rw [← playableTempo_iff] at h
  rw [fault?, if_neg (not_not_intro h)]

theorem accepted_iff : s.Accepted ↔ (s.bpm.isFinite = true ∧ 0 < s.bpm) ∧
    (s.meter.numerator ≠ 0 ∧ s.meter.denominator ≠ 0) ∧ s.tracks ≠ [] ∧
    firstFailure s.tracks = none := by
  rw [Accepted, ← not_or]
  by_cases ht : s.bpm.isFinite = true ∧ 0 < s.bpm
  · rw [fault?_playable ht]
    by_cases hm : s.meter.numerator = 0 ∨ s.meter.denominator = 0
    · simp [ht, hm]
    · by_cases hn : s.tracks = []
      · simp [ht, hm, hn]
      · simp [ht, hm, hn]
  · simp [fault?_unplayable ht, ht]

namespace Accepted

theorem tempo (h : s.Accepted) : s.bpm.isFinite = true ∧ 0 < s.bpm := (accepted_iff.mp h).1

theorem denominator_ne_zero (h : s.Accepted) : s.meter.denominator ≠ 0 :=
  (accepted_iff.mp h).2.1.2

theorem tracks_ne_nil (h : s.Accepted) : s.tracks ≠ [] := (accepted_iff.mp h).2.2.1

theorem evaluates (h : s.Accepted) {t : Track} (ht : t ∈ s.tracks) :
    ∀ token ∈ t.tokens, ∃ note, Note.ofToken token = .ok note := by
  intro token hm
  have hall := firstFailure_eq_none_iff.mp (accepted_iff.mp h).2.2.2
  exact hall token (List.mem_flatMap.mpr ⟨t, ht, hm⟩)

end Accepted

end Sheet

/-! ### Loading -/

theorem ok_of_bind {ε α β : Type} {x : Except ε α} {f : α → Except ε β} {b : β}
    (h : x >>= f = .ok b) : ∃ a, x = .ok a ∧ f a = .ok b := by
  cases x with
  | error e => cases h
  | ok a => exact ⟨a, rfl, h⟩

theorem error_of_bind {ε α β : Type} {x : Except ε α} {f : α → Except ε β} {e : ε}
    (h : x >>= f = .error e) : x = .error e ∨ ∃ a, x = .ok a ∧ f a = .error e := by
  cases x with
  | error e' =>
    cases h
    exact .inl rfl
  | ok a => exact .inr ⟨a, rfl, h⟩

theorem ok_of_toOption {ε α : Type} {x : Except ε α} {a : α} (h : x.toOption = some a) :
    x = .ok a := by
  cases x with
  | error e => cases h
  | ok b => exact congrArg Except.ok (Option.some.inj h)

theorem Manuscript.sheet_accepted {m : Manuscript} {s : Sheet} (h : m.sheet = .ok s) :
    s.Accepted := by
  obtain ⟨meter, -, h⟩ := ok_of_bind h
  obtain ⟨tracks, -, h⟩ := ok_of_bind h
  exact (Sheet.make_ok_iff.mp h).2

theorem Collection.sheets_accepted {ms : List Manuscript} {ss : List Sheet}
    (h : sheets ms = .ok ss) : ∀ s ∈ ss, s.Accepted := by
  induction ms generalizing ss with
  | nil =>
    cases h
    simp
  | cons m ms ih =>
    obtain ⟨first, hfirst, h⟩ := ok_of_bind h
    obtain ⟨rest, hrest, h⟩ := ok_of_bind h
    cases h
    exact List.forall_mem_cons.mpr ⟨m.sheet_accepted hfirst, ih hrest⟩

theorem Collection.score_accepted {c : Collection} {score : Score} (h : c.score = .ok score) :
    ∀ s ∈ score.sheets, s.Accepted := by
  cases c with
  | single m =>
    obtain ⟨s, hs, h⟩ := ok_of_bind h
    cases h
    exact List.forall_mem_singleton.mpr (m.sheet_accepted hs)
  | medley ms =>
    cases ms with
    | nil => cases h
    | cons m ms =>
      obtain ⟨ss, hs, h⟩ := ok_of_bind h
      cases h
      exact sheets_accepted hs

theorem Score.load_accepted {file : Option String} {bytes : List UInt8} {score : Score}
    (h : load file bytes = .ok score) : ∀ s ∈ score.sheets, s.Accepted := by
  unfold load at h
  split at h
  · cases h
  · exact Collection.score_accepted h

end PlainScore
