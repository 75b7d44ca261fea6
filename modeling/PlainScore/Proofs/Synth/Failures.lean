import PlainScore.Proofs.Synth.Tally

/-! What a run can fail with.
The mixer refuses nothing that a run asks of it: a track gets a note only while it wants one, and a
bar is mixed only when all tracks cover it. What remains is in the notes of the sheet, or is done
by others: an interrupt, and leaving the output. `Accountable` is the invariant. -/
namespace PlainScore

/-! ### Tokens -/

def Error.IsMalformedNote (e : Error) : Prop := ∃ text, e = .malformedNote text

namespace Token

variable {e : Error}

theorem malformed_of_spelling {token : String} (h : spelling? token = .error e) :
    e.IsMalformedNote := by
  rw [spelling?] at h
  split at h
  · cases h
  · cases h
    exact ⟨_, rfl⟩

theorem malformed_of_partQuarters {part : List Char}
    (h : (partQuarters part : Except Error Float) = .error e) : e.IsMalformedNote := by
  rw [partQuarters] at h
  split at h
  · cases h
    exact ⟨_, rfl⟩
  · cases h

theorem malformed_of_sumTied {token : String} {spelling : List Char} {total : Float}
    {parts : List (List Char)} (h : sumTied token spelling total parts = .error e) :
    e.IsMalformedNote := by
  induction parts generalizing total with
  | nil => cases h
  | cons part rest ih =>
    rw [sumTied] at h
    split at h
    · split at h
      · rename_i hp
        cases h
        exact malformed_of_partQuarters hp
      · exact ih h
    · cases h
      exact ⟨_, rfl⟩

theorem malformed_of_value {token : String} (h : (value token : Except Error Float) = .error e) :
    e.IsMalformedNote := by
  obtain h | ⟨q, -, h⟩ := error_of_bind h
  · rw [quarters] at h
    split at h
    · obtain h | ⟨spelling, -, h⟩ := error_of_bind h
      · exact malformed_of_spelling h
      · exact malformed_of_sumTied h
    · exact malformed_of_partQuarters h
  · cases h

end Token

theorem Pitch.malformed_of_parse {spelling : String} {e : Error} (h : parse spelling = .error e) :
    e.IsMalformedNote := by
  rw [parse] at h
  split at h
  · cases h
  · split at h
    · cases h
    · cases h
      exact ⟨_, rfl⟩

theorem Note.malformed_of_error {token : String} {e : Error} (h : ofToken token = .error e) :
    e.IsMalformedNote := by
  obtain h | ⟨value, -, h⟩ := error_of_bind h
  · exact Token.malformed_of_value h
  obtain h | ⟨spelling, -, h⟩ := error_of_bind h
  · exact Token.malformed_of_spelling h
  obtain h | ⟨pitch, -, h⟩ := error_of_bind h
  · exact Pitch.malformed_of_parse h
  · cases h

/-! ### Sheets -/

namespace Sheet

variable {sheet : Sheet} {params : Audio.Params}

inductive Fails (sheet : Sheet) (params : Audio.Params) : Failure → Prop where
  | interrupted : sheet.Fails params (.reported .interrupted)
  | unheard : sheet.Fails params (.reported (.closed .synthesizerOutput))
  | malformed {t : Track} {token text : String} : t ∈ sheet.tracks → token ∈ t.tokens →
      Note.ofToken token = .error (.malformedNote text) →
      sheet.Fails params (.reported (.malformedNote text))
  | outOfRoom {t : Track} {token : String} : t ∈ sheet.tracks → token ∈ t.tokens →
      sampleLimit < sheet.noteCount params token → sheet.Fails params .outOfRoom

theorem Fails.not_buffer {misuse : BufferMisuse} :
    ¬ sheet.Fails params (.reported (.buffer misuse)) := nofun

/-- The notes of an accepted sheet were all evaluated before. -/
theorem Accepted.not_malformed (h : sheet.Accepted) {text : String} :
    ¬ sheet.Fails params (.reported (.malformedNote text)) := by
  rintro (_ | _ | ⟨ht, htoken, he⟩)
  obtain ⟨note, hn⟩ := h.evaluates ht _ htoken
  cases he.symm.trans hn

end Sheet

theorem Mixer.isFull_of_flush {m n : Mixer} {bar : List Sample} (h : m.flush = .ok (bar, n)) :
    m.isFull = true := by
  rw [Mixer.flush] at h
  split at h
  · cases h
  · rename_i hf
    rw [isFull, List.all_eq_true]
    intro l hl
    simpa using List.findIdx?_eq_none_iff.mp hf l hl

/-! ### Runs -/

namespace Synth

variable {sheet : Sheet} {params : Audio.Params} {s u : Synth}

structure WorksOn (sheet : Sheet) (params : Audio.Params) (s : Synth) : Prop where
  sheet_eq : s.sheet = sheet
  params_eq : s.params = params
  left : ∀ i, ∀ token ∈ s.left.getD i [], ∃ t ∈ sheet.tracks, token ∈ t.tokens

/-- The bar came out of a mixer all of whose tracks were full, and left it as it is now. -/
def Flushed (bar : List Sample) (m : Mixer) : Prop :=
  ∃ full : Mixer, full.isFull = true ∧ full.flush = .ok (bar, m)

def Accountable (sheet : Sheet) (params : Audio.Params) (s : Synth) : Prop :=
  match s.phase with
  | .ready | .polling _ | .serving _ true => WorksOn sheet params s
  | .serving bar false => WorksOn sheet params s ∧ Flushed bar s.mixer
  | .ending result | .marking result | .leaving result | .done result =>
    ∀ f, result = .error f → sheet.Fails params f

theorem flushed_of_closeBar {bar : List Sample} (h : s.closeBar.phase = .serving bar false) :
    Flushed bar s.closeBar.mixer := by
  unfold closeBar at h ⊢
  split at h
  · cases h
  · rename_i m hm
    dsimp only at h ⊢
    split at h
    · cases h
    · rename_i hf
      cases h
      exact ⟨m, Mixer.isFull_of_flush hf, hf⟩

theorem accountable_finish (s : Synth) {f : Failure} (hf : sheet.Fails params f) :
    (s.finish (.error f)).Accountable sheet params := by
  rintro _ ⟨⟩
  exact hf

theorem accountable_conclude (s : Synth) : s.conclude.Accountable sheet params := nofun

theorem WorksOn.barTaken (h : WorksOn sheet params s) (hu : BarTaken s u) :
    WorksOn sheet params u :=
  ⟨hu.sheet.trans h.sheet_eq, hu.params.trans h.params_eq, hu.left ▸ h.left⟩

theorem WorksOn.noteTaken (h : WorksOn sheet params s) {track : Nat} {token : String}
    {rest : List String} (hu : NoteTaken s track token rest u)
    (hl : s.left.getD track [] = token :: rest) : WorksOn sheet params u :=
  ⟨hu.sheet.trans h.sheet_eq, hu.params.trans h.params_eq,
    fun i other hm => h.left i other (hu.mem_left hl hm)⟩

theorem WorksOn.serveRemainder (h : WorksOn sheet params s) (hs : s.Sound) :
    s.serveRemainder.Accountable sheet params := by
  rcases serveRemainder_spec hs with ⟨-, hr⟩ | ⟨-, v, hv, hr⟩
  · rw [hr]
    exact accountable_conclude s
  · have hw := h.barTaken hv
    rw [hr]
    exact ⟨hw.sheet_eq, hw.params_eq, hw.left⟩

theorem WorksOn.advance (h : WorksOn sheet params s) (hs : s.Sound) (hn : s.left ≠ []) {start : Nat}
    (hw : ∀ i < start, s.wants i = false) : (s.advance start).Accountable sheet params := by
  rcases advance_spec hw with ⟨track, -, -, -, ha⟩ | ⟨hall, ha⟩
  · rw [ha]
    exact ⟨h.sheet_eq, h.params_eq, h.left⟩
  · obtain ⟨v, hv, hclose⟩ := closeBar_spec hs hn hall
    have hf := flushed_of_closeBar (congrArg Synth.phase hclose)
    have hv := h.barTaken hv
    rw [hclose] at hf
    rw [ha, hclose]
    exact ⟨⟨hv.sheet_eq, hv.params_eq, hv.left⟩, hf⟩

theorem WorksOn.pull (h : WorksOn sheet params s) (hs : s.Sound) {track : Nat}
    (ht : track < s.left.length) (hw : s.wants track = true)
    (hbefore : ∀ i < track, s.wants i = false) : (s.pull track).Accountable sheet params := by
  have hn : s.left ≠ [] := List.ne_nil_of_length_pos (Nat.zero_lt_of_lt ht)
  have hmem : ∀ {token rest}, s.left.getD track [] = token :: rest →
      ∃ t ∈ sheet.tracks, token ∈ t.tokens :=
    fun hl => h.left track _ (by rw [hl]; exact List.mem_cons_self)
  have hp := pull_spec hs ht hw
  generalize s.pull track = v at hp ⊢
  cases hp with
  | ended hl hlast =>
    have hwrite : WorksOn sheet params (s.write (.debug s!"No more notes in track {track}")) :=
      ⟨h.sheet_eq, h.params_eq, h.left⟩
    exact hwrite.serveRemainder (hs.write _)
  | exhausted hl hlast =>
    have hexhaust : WorksOn sheet params (s.exhaust track) := ⟨h.sheet_eq, h.params_eq, h.left⟩
    exact hexhaust.advance (exhaust_sound hs hl hlast) hn (before_exhausted hbefore)
  | refused hl he =>
    obtain ⟨t, ht, htoken⟩ := hmem hl
    obtain ⟨text, rfl⟩ := Note.malformed_of_error he
    exact accountable_finish _ (.malformed ht htoken he)
  | lost hl hnote hlong =>
    obtain ⟨t, ht, htoken⟩ := hmem hl
    refine accountable_finish _ (.outOfRoom ht htoken ?_)
    rw [noteDuration, h.sheet_eq, h.params_eq] at hlong
    rwa [Sheet.noteCount, hnote]
  | full hl hu hf =>
    exact (h.noteTaken hu hl).advance (hu.sound hs hl) (hu.left_ne_nil hn)
      (hu.before_full hs hl hbefore hw hf)
  | wanting hl hu =>
    have hnote := h.noteTaken hu hl
    exact ⟨hnote.sheet_eq, hnote.params_eq, hnote.left⟩

theorem WorksOn.start (h : WorksOn sheet params s) (hs : s.Sound) :
    s.start.Accountable sheet params := by
  have hstarted : WorksOn sheet params
      ({ s with status := { s.status with started := true } }.write (startRemark s.sheet)) :=
    ⟨h.sheet_eq, h.params_eq, h.left⟩
  have hs' := hs.started.write (startRemark s.sheet)
  unfold Synth.start
  dsimp only
  split
  · exact hstarted.serveRemainder hs'
  · exact hstarted.advance hs' ‹_› fun i hi => absurd hi (Nat.not_lt_zero i)

theorem Accountable.step {output : Handoff} (h : s.Accountable sheet params) (hv : s.Valid)
    (hc : s.canStep output = true) (interrupted : Bool) :
    (s.step interrupted output).1.Accountable sheet params := by
  rw [Accountable] at h
  rw [Valid] at hv
  rw [canStep] at hc
  cases hp : s.phase with
  | ready =>
    rw [hp] at h hv
    simp only [Synth.step, hp]
    exact h.start hv
  | polling track =>
    rw [hp] at h hv
    obtain ⟨hs, ht, hw, hbefore⟩ := hv
    simp only [Synth.step, hp]
    cases interrupted with
    | true => exact accountable_finish s .interrupted
    | false => exact h.pull hs ht hw hbefore
  | serving bar last =>
    rw [hp] at h hv hc
    rw [step_serving hp hc]
    split
    · cases last with
      | true => exact accountable_conclude s
      | false => exact h.1.advance hv.1 hv.2 fun i hi => absurd hi (Nat.not_lt_zero i)
    · exact accountable_finish s .unheard
  | ending result =>
    rw [hp] at h hc
    rw [step_ending hp hc]
    split <;> exact h
  | marking result =>
    rw [hp] at h
    simp only [Synth.step, hp]
    exact h
  | leaving result =>
    rw [hp] at h
    simp only [Synth.step, hp]
    exact h
  | done result =>
    rw [hp] at hc
    cases hc

theorem new_accountable (h : new sheet params = .ok s) : s.Accountable sheet params := by
  obtain ⟨rfl, -⟩ := new_sound h
  refine ⟨rfl, rfl, ?_⟩
  intro i token hm
  rw [fresh_left] at hm
  exact Sheet.tokensOf_mem hm

theorem Accountable.fails (h : s.Accountable sheet params) {f : Failure}
    (hr : s.result? = some (.error f)) : sheet.Fails params f := by
  rw [Accountable, phase_of_result hr] at h
  exact h f rfl

end Synth

end PlainScore
