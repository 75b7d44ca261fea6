import PlainScore.Proofs.Report
import PlainScore.Proofs.Sheet
import PlainScore.Proofs.Synth.Counts

/-! What the report of a run compares.
The totals are those of the notes that the run takes. A track is taken further only while it does
not cover the bar at hand, so that at the end of the last track the totals are settled by the sheet:
`Tallied` is the invariant, and the journal warns of nothing but of what the report says. -/
namespace PlainScore

namespace Synth

variable {sheet : Sheet} {params : Audio.Params} {k : Nat} {s t u : Synth}

/-! ### Runs -/

/-- What a run can come to, whatever the interrupt flag and the output are at each of its
steps. -/
inductive Runs : Synth → Synth → Prop where
  | refl (s : Synth) : Runs s s
  | step {s t : Synth} (interrupted : Bool) (output : Handoff) : s.canStep output = true →
      Runs (s.step interrupted output).1 t → Runs s t

theorem Runs.preserves {P : Synth → Prop}
    (hstep : ∀ {s : Synth} {output : Handoff}, P s → s.canStep output = true →
      ∀ interrupted, P (s.step interrupted output).1)
    (h : s.Runs t) (hs : P s) : P t := by
  induction h with
  | refl => exact hs
  | step interrupted output hc _ ih => exact ih (hstep hs hc interrupted)

theorem Performs.runs {chunks : List Chunk} {result : Result} (h : s.Performs chunks result) :
    ∃ t, s.Runs t ∧ t.result? = some result := by
  induction h with
  | @done s result hp => exact ⟨s, .refl s, by rw [result?, hp]⟩
  | step hc hs _ ih =>
    obtain ⟨t, hruns, hresult⟩ := ih
    refine ⟨t, .step false {} hc ?_, hresult⟩
    rw [hs]
    exact hruns

/-! ### Notes that are taken -/

/-- The tokens that a track has behind it, at a bar that all but the last of them did not
complete. -/
structure Counted (sheet : Sheet) (params : Audio.Params) (k : Nat) (s : Synth) (i : Nat)
    (taken : List String) : Prop where
  tokens : sheet.tokensOf i = taken ++ s.left.getD i []
  total : Track.total ⟨taken⟩ = .ok (s.totals.getD i 0)
  needed : ∀ before token, taken = before ++ [token] →
    sheet.count params before < (k + 1) * sheet.capacity params

structure Tallied (sheet : Sheet) (params : Audio.Params) (k : Nat) (s : Synth) : Prop extends
    Aligned sheet params k s where
  totals_length : s.totals.length = sheet.tracks.length
  counted : ∀ i, ∃ taken, Counted sheet params k s i taken

theorem Tallied.of_aligned (h : Tallied sheet params k s) (ha : Aligned sheet params k u)
    (hl : u.left = s.left) (ht : u.totals = s.totals) : Tallied sheet params k u := by
  refine ⟨ha, ht ▸ h.totals_length, ?_⟩
  intro i
  obtain ⟨taken, hc⟩ := h.counted i
  exact ⟨taken, hl ▸ hc.tokens, ht ▸ hc.total, hc.needed⟩

/-- What is pending of a track is what was taken of it, as far as it lies behind the bars. -/
theorem Aligned.pending_length (h : Aligned sheet params k s) {i : Nat} {taken : List String}
    (ht : sheet.tokensOf i = taken ++ s.left.getD i []) :
    (s.mixer.pending i).length + sheet.count params (s.left.getD i []) =
      sheet.count params taken + sheet.count params (s.left.getD i []) -
        k * sheet.capacity params := by
  have hr := congrArg List.length (h.rest i)
  rw [List.length_append, List.length_drop, Sheet.getD_voices, Sheet.length_voice,
    Sheet.length_voice, ht, Sheet.count_append] at hr
  exact hr

theorem Tallied.noteTaken (h : Tallied sheet params k s) {track : Nat} {token : String}
    {rest : List String} (hu : NoteTaken s track token rest u)
    (hl : s.left.getD track [] = token :: rest)
    (hopen : (s.mixer.pending track).length < s.mixer.capacity) :
    Tallied sheet params k u := by
  obtain ⟨note, hnote, htotals⟩ := hu.totals
  refine ⟨h.toAligned.noteTaken hu hl, ?_, ?_⟩
  · rw [htotals, List.length_modify, h.totals_length]
  intro i
  obtain ⟨taken, hc⟩ := h.counted i
  by_cases hi : i = track
  · subst hi
    have hlt : i < s.totals.length := by
      rw [h.totals_length, ← h.left_length]
      exact lt_length_of_getD hl
    refine ⟨taken ++ [token], ?_, ?_, ?_⟩
    · rw [hc.tokens, hl, hu.left_self hl, List.append_assoc]
      rfl
    · have hmodify : u.totals.getD i 0 = s.totals.getD i 0 + note.value := by
        simp [htotals, List.getD_eq_getElem?_getD, hlt]
      rw [hmodify]
      exact Track.total_append_note hc.total hnote
    · intro before last he
      obtain ⟨rfl, -⟩ := List.append_singleton_inj.mp he
      have hp := h.pending_length hc.tokens
      have hpos := sheet.capacity_pos params
      rw [h.capacity] at hopen
      rw [Nat.add_one_mul]
      omega
  · refine ⟨taken, ?_, ?_, hc.needed⟩
    · rw [hc.tokens, hu.left_of_ne hi]
    · have hmodify : u.totals.getD i 0 = s.totals.getD i 0 := by
        simp [htotals, List.getD_eq_getElem?_getD, Ne.symm hi]
      rw [hmodify]
      exact hc.total

theorem Tallied.barTaken (h : Tallied sheet params k s) (hu : BarTaken s u)
    (hc : ∀ i < s.left.length, s.Covers i)
    (hlast : (k + 1) * sheet.capacity params ≤ (sheet.lastVoice params).length) :
    Tallied sheet params (k + 1) u := by
  refine ⟨h.toAligned.barTaken hu hc hlast, ?_, ?_⟩
  · rw [hu.totals, h.totals_length]
  intro i
  obtain ⟨taken, hcount⟩ := h.counted i
  refine ⟨taken, hu.left ▸ hcount.tokens, hu.totals ▸ hcount.total, ?_⟩
  intro before token he
  have hlt := hcount.needed before token he
  rw [Nat.add_one_mul]
  omega

/-- At the end of the last track the totals are those of what the sheet lets a run take. -/
theorem Tallied.totals (h : Tallied sheet params k s) (hl : s.left.getD s.lastTrack [] = [])
    (hopen : (s.mixer.pending s.lastTrack).length < s.mixer.capacity)
    (hc : ∀ i < s.lastTrack, s.Covers i) :
    Track.Totals (sheet.takenTracks params) s.totals := by
  have hk := h.at_end hl hopen
  apply List.ext_getElem
  · simp [Sheet.takenTracks, h.totals_length]
  intro i hi hi'
  rw [List.length_map] at hi'
  obtain ⟨taken, hcount⟩ := h.counted i
  have htaken : sheet.taken params i = taken := by
    rw [Sheet.taken]
    split
    · rename_i hlast
      have hi : i = s.lastTrack := by
        rw [lastTrack, h.left_length]
        omega
      rw [hcount.tokens, hi, hl, List.append_nil]
    · rename_i hlast
      rw [hcount.tokens]
      refine Sheet.reaching_eq ?_ ?_
      · rw [Sheet.lastBarEnd, ← hk]
        exact hcount.needed
      · have hi : i < s.lastTrack := by
          rw [lastTrack, h.left_length]
          rw [h.totals_length] at hi'
          omega
        refine (hc i hi).imp_right fun hfull => ?_
        have hp := h.pending_length hcount.tokens
        have hpos := sheet.capacity_pos params
        rw [h.capacity] at hfull
        rw [Sheet.lastBarEnd, ← hk, Nat.add_one_mul]
        omega
  have htotal := hcount.total
  rw [List.getD_eq_getElem?_getD, List.getElem?_eq_getElem hi', Option.getD_some] at htotal
  simp [Sheet.takenTracks, htaken, htotal]

/-! ### From step to step -/

def Phase.verdict? : Phase → Option Result
  | .ending result | .marking result | .leaving result | .done result => some result
  | _ => none

def Tallies (sheet : Sheet) (params : Audio.Params) (s : Synth) : Prop :=
  match s.phase with
  | .ready | .polling _ | .serving _ false => ∃ k, Tallied sheet params k s
  | .serving _ true => Track.Totals (sheet.takenTracks params) s.totals
  | .ending result | .marking result | .leaving result | .done result =>
    ∀ report, result = .ok report → Track.Totals (sheet.takenTracks params) report.totals

theorem tallies_error (s : Synth) (f : Failure) : (s.finish (.error f)).Tallies sheet params :=
  nofun

theorem tallies_conclude (h : Track.Totals (sheet.takenTracks params) s.totals) :
    s.conclude.Tallies sheet params := by
  rintro report ⟨⟩
  exact h

theorem Aligned.last_covered (h : Aligned sheet params k s)
    (hfull : s.mixer.capacity ≤ (s.mixer.pending s.lastTrack).length) :
    (k + 1) * sheet.capacity params ≤ (sheet.lastVoice params).length := by
  have hr := congrArg List.length h.lastVoice
  have hpos := sheet.capacity_pos params
  rw [List.length_append, List.length_drop] at hr
  rw [h.capacity] at hfull
  rw [Nat.add_one_mul]
  omega

theorem Tallied.advance (h : Tallied sheet params k s) (hn : sheet.tracks ≠ []) {start : Nat}
    (hw : ∀ i < start, s.wants i = false) : (s.advance start).Tallies sheet params := by
  rcases advance_spec hw with ⟨track, -, -, -, ha⟩ | ⟨hall, ha⟩
  · rw [ha]
    exact ⟨k, h.of_aligned (h.toAligned.with_phase _) rfl rfl⟩
  · have hne := h.left_ne_nil hn
    have hfull := h.sound.last_full hne (hall _ (lastTrack_lt hne))
    obtain ⟨u, hu, hclose⟩ := closeBar_spec h.sound hne hall
    have hc : ∀ i < s.left.length, s.Covers i := fun i hi => h.sound.covers hi (hall i hi)
    have hbar := h.barTaken hu hc (h.last_covered hfull)
    rw [ha, hclose]
    exact ⟨k + 1, hbar.of_aligned (hbar.toAligned.with_phase _) rfl rfl⟩

theorem Tallied.serveRemainder (h : Tallied sheet params k s)
    (ht : Track.Totals (sheet.takenTracks params) s.totals) :
    s.serveRemainder.Tallies sheet params := by
  rcases serveRemainder_spec h.sound with ⟨-, hr⟩ | ⟨-, u, hu, hr⟩
  · rw [hr]
    exact tallies_conclude ht
  · rw [hr]
    have hlast : Track.Totals (sheet.takenTracks params) u.totals := hu.totals ▸ ht
    exact hlast

theorem Tallied.pull (h : Tallied sheet params k s) (hn : sheet.tracks ≠ []) {track : Nat}
    (ht : track < s.left.length) (hw : s.wants track = true)
    (hbefore : ∀ i < track, s.wants i = false) : (s.pull track).Tallies sheet params := by
  have hopen := ((h.sound.wants_iff ht).mp hw).2
  have hp := pull_spec h.sound ht hw
  generalize s.pull track = v at hp ⊢
  cases hp with
  | ended hl hlast =>
    subst hlast
    have hc : ∀ i < s.lastTrack, s.Covers i := fun i hi =>
      h.sound.covers (Nat.lt_trans hi ht) (hbefore i hi)
    have htotals := h.totals hl hopen hc
    exact (h.of_aligned (h.toAligned.write _) rfl rfl).serveRemainder htotals
  | exhausted hl hlast =>
    have h' := h.of_aligned (h.toAligned.exhaust hl hlast) rfl rfl
    exact h'.advance hn (before_exhausted hbefore)
  | refused => exact tallies_error _ _
  | lost => exact tallies_error _ _
  | full hl hu hf =>
    have h' := h.noteTaken hu hl hopen
    exact h'.advance hn (hu.before_full h.sound hl hbefore hw hf)
  | wanting hl hu =>
    have h' := h.noteTaken hu hl hopen
    exact ⟨k, h'.of_aligned (h'.toAligned.with_phase _) rfl rfl⟩

theorem Tallied.start (h : Tallied sheet params k s) (hn : sheet.tracks ≠ []) :
    s.start.Tallies sheet params := by
  have h' := h.of_aligned (h.toAligned.started.write (startRemark s.sheet)) rfl rfl
  unfold Synth.start
  dsimp only
  rw [if_neg (by exact h.left_ne_nil hn)]
  exact h'.advance hn fun i hi => absurd hi (Nat.not_lt_zero i)

/-- The step lemma, whatever the interrupt flag and the output are at that moment. -/
theorem Tallies.step {output : Handoff} (h : s.Tallies sheet params) (hv : s.Valid)
    (hn : sheet.tracks ≠ []) (hc : s.canStep output = true) (interrupted : Bool) :
    (s.step interrupted output).1.Tallies sheet params := by
  rw [Tallies] at h
  rw [Valid] at hv
  rw [canStep] at hc
  cases hp : s.phase with
  | ready =>
    rw [hp] at h
    obtain ⟨k, h⟩ := h
    simp only [Synth.step, hp]
    exact h.start hn
  | polling track =>
    rw [hp] at h hv
    obtain ⟨k, h⟩ := h
    obtain ⟨-, ht, hw, hbefore⟩ := hv
    simp only [Synth.step, hp]
    cases interrupted with
    | true => exact tallies_error _ _
    | false => exact h.pull hn ht hw hbefore
  | serving bar last =>
    rw [hp] at h hc
    rw [step_serving hp hc]
    split
    · cases last with
      | true => exact tallies_conclude h
      | false =>
        obtain ⟨k, h⟩ := h
        exact h.advance hn fun i hi => absurd hi (Nat.not_lt_zero i)
    · exact tallies_error _ _
  | ending result =>
    rw [hp] at h hc
    rw [step_ending hp hc]
    split <;> exact h
  | marking result =>
    rw [hp] at h
    simp only [Synth.step, hp]
    exact h
  | leaving result =>
    rw [hp] at h
    simp only [Synth.step, hp]
    exact h
  | done result =>
    rw [hp] at hc
    cases hc

theorem new_tallied (h : new sheet params = .ok s) (hn : sheet.tracks ≠ []) :
    Tallied sheet params 0 s := by
  have hroom := room_of_new h hn
  obtain ⟨rfl, -⟩ := new_sound h
  refine ⟨fresh_aligned hroom, List.length_replicate, ?_⟩
  intro i
  refine ⟨[], ?_, ?_, ?_⟩
  · rw [fresh_left, List.nil_append]
  · rw [Track.total_nil, fresh, List.getD_eq_getElem?_getD, List.getElem?_replicate]
    split <;> rfl
  · intro before token he
    simp at he

theorem Runs.totals (h : s.Runs t) (hnew : new sheet params = .ok s) (hn : sheet.tracks ≠ [])
    {report : Report} (hr : t.result? = some (.ok report)) :
    Track.Totals (sheet.takenTracks params) report.totals := by
  have hstart : s.Valid ∧ s.Tallies sheet params := by
    refine ⟨new_valid hnew, ?_⟩
    have htallied := new_tallied hnew hn
    obtain ⟨rfl, -⟩ := new_sound hnew
    exact ⟨0, htallied⟩
  have hend : t.Valid ∧ t.Tallies sheet params :=
    h.preserves (P := fun s => s.Valid ∧ s.Tallies sheet params)
      (fun hs hc interrupted => ⟨(step_valid hs.1 hc interrupted).1,
        hs.2.step hs.1 hn hc interrupted⟩) hstart
  have htallies := hend.2
  rw [Tallies, phase_of_result hr] at htallies
  exact htallies report rfl

end Synth

/-! ### Warnings -/

namespace Journal

def warnings (j : Journal) : List Line := j.lines.filter (·.level = .warn)

@[simp] theorem warnings_debug (j : Journal) (text : String) :
    (j.write (.debug text)).warnings = j.warnings := by
  simp [warnings, Line.debug]

theorem warnings_quiet (j : Journal) {ls : List Line} (h : ∀ l ∈ ls, l.level ≠ .warn) :
    (j.writeAll ls).warnings = j.warnings := by
  have hnone : ls.filter (·.level = .warn) = [] := by
    rw [List.filter_eq_nil_iff]
    simpa using h
  rw [warnings, lines_writeAll, List.filter_append, hnone, List.append_nil, warnings]

theorem warnings_remarks (j : Journal) (r : Report) :
    (j.writeAll r.remarks).warnings = j.warnings ++ r.remarks := by
  rw [warnings, lines_writeAll, List.filter_append, ← warnings, List.append_cancel_left_eq,
    List.filter_eq_self, Report.remarks]
  intro l hl
  obtain ⟨text, -, rfl⟩ := List.mem_map.mp hl
  rfl

end Journal

theorem Note.remarks_quiet (token : String) : ∀ l ∈ Note.remarks token, l.level ≠ .warn := by
  intro l hl
  rw [remarks] at hl
  split at hl
  · rw [Pitch.remarks] at hl
    split at hl
    · simp at hl
    · split at hl
      · simp at hl
      · split at hl
        · rw [List.mem_singleton.mp hl]
          simp [Line.debug]
        · simp at hl
  · simp at hl

namespace Synth

variable {s t : Synth}

def Warns (s : Synth) : Prop :=
  s.journal.warnings = match s.phase.verdict? with
    | some (.ok report) => report.remarks
    | _ => []

theorem warns_error (h : s.journal.warnings = []) (f : Failure) :
    (s.finish (.error f)).Warns := by
  rw [Warns, finish, write, Journal.warnings_debug, h]
  rfl

theorem warns_conclude (h : s.journal.warnings = []) : s.conclude.Warns := by
  rw [Warns, conclude, finish, write, Journal.warnings_debug, Journal.warnings_remarks, h]
  rfl

theorem warns_serveRemainder (h : s.journal.warnings = []) : s.serveRemainder.Warns := by
  have hw : (s.write (.debug "Serving the remainder of buffer")).journal.warnings = [] := by
    rw [write, Journal.warnings_debug, h]
  unfold serveRemainder
  split
  · exact warns_conclude h
  · dsimp only
    split
    · exact warns_error (by exact hw) _
    · exact hw

theorem warns_closeBar (h : s.journal.warnings = []) : s.closeBar.Warns := by
  unfold closeBar
  split
  · exact warns_error h _
  · have hw : (s.write (.debug "Serving buffer")).journal.warnings = [] := by
      rw [write, Journal.warnings_debug, h]
    dsimp only
    split
    · exact warns_error (by exact hw) _
    · exact hw

theorem warns_advance (h : s.journal.warnings = []) (start : Nat) : (s.advance start).Warns := by
  unfold advance
  split
  · exact h
  · exact warns_closeBar h

theorem warns_play (h : s.journal.warnings = []) (track : Nat) (note : Note) :
    (s.play track note).Warns := by
  have hw : (s.write (noteRemark note track)).journal.warnings = [] := by
    rw [write, noteRemark, Journal.warnings_debug, h]
  unfold play
  dsimp only
  split
  · exact warns_error (by exact hw) _
  · split
    · exact warns_error (by exact hw) _
    · split
      · exact warns_advance (by exact hw) _
      · exact hw

theorem warns_pull (h : s.journal.warnings = []) (track : Nat) : (s.pull track).Warns := by
  have hw : (s.write (.debug s!"No more notes in track {track}")).journal.warnings = [] := by
    rw [write, Journal.warnings_debug, h]
  unfold pull
  split
  · dsimp only
    split
    · exact warns_serveRemainder (by exact hw)
    · exact warns_advance (by exact hw) _
  · rename_i token _ _
    have hnote : (s.journal.writeAll (Note.remarks token)).warnings = [] := by
      rw [Journal.warnings_quiet _ (Note.remarks_quiet token), h]
    dsimp only
    split
    · exact warns_error (by exact hnote) _
    · exact warns_play (by exact hnote) _ _

theorem warns_start (h : s.journal.warnings = []) : s.start.Warns := by
  have hw : (s.write (startRemark s.sheet)).journal.warnings = [] := by
    rw [write, startRemark, Journal.warnings_debug, h]
  unfold start
  dsimp only
  split
  · exact warns_serveRemainder (by exact hw)
  · exact warns_advance (by exact hw) _

/-- The step lemma: a run that goes on has not warned of anything yet. -/
theorem Warns.step {output : Handoff} (h : s.Warns) (hc : s.canStep output = true)
    (interrupted : Bool) : (s.step interrupted output).1.Warns := by
  rw [Warns] at h
  rw [canStep] at hc
  cases hp : s.phase with
  | ready =>
    rw [hp] at h
    simp only [Synth.step, hp]
    exact warns_start h
  | polling track =>
    rw [hp] at h
    simp only [Synth.step, hp]
    cases interrupted with
    | true => exact warns_error h _
    | false => exact warns_pull h track
  | serving bar last =>
    rw [hp] at h hc
    rw [step_serving hp hc]
    split
    · cases last with
      | true => exact warns_conclude h
      | false => exact warns_advance h 0
    · exact warns_error h _
  | ending result =>
    rw [hp] at h hc
    rw [step_ending hp hc]
    split
    · exact h
    · rw [Warns, write, Journal.warnings_debug, h]
      rfl
  | marking result =>
    rw [hp] at h
    simp only [Synth.step, hp]
    exact h
  | leaving result =>
    rw [hp] at h
    simp only [Synth.step, hp]
    exact h
  | done result =>
    rw [hp] at hc
    cases hc

theorem Runs.warnings (h : s.Runs t) {sheet : Sheet} {params : Audio.Params}
    (hnew : new sheet params = .ok s) {report : Report} (hr : t.result? = some (.ok report)) :
    t.journal.warnings = report.remarks := by
  have hstart : s.Warns := by
    obtain ⟨rfl, -⟩ := new_sound hnew
    rfl
  have hend : t.Warns := h.preserves (P := Warns) (fun hs hc => hs.step hc) hstart
  rw [Warns, phase_of_result hr] at hend
  exact hend

/-! ### What a report tells -/

theorem runs_well {sheet : Sheet} {params : Audio.Params}
    (hroom : sheet.capacity params ≤ sampleLimit) (hn : sheet.tracks ≠ [])
    (hplay : ∀ t ∈ sheet.tracks, ∀ token ∈ t.tokens, sheet.Playable params token) :
    ∃ s t report, new sheet params = .ok s ∧ s.Runs t ∧ t.result? = some (.ok report) := by
  obtain ⟨report, s, hs, hp⟩ := Sheet.performs_overlay hroom hn hplay
  obtain ⟨t, hruns, hresult⟩ := hp.runs
  exact ⟨s, t, report, hs, hruns, hresult⟩

/-- Two whole notes over a bar in pieces, which have a sample less than the bar. -/
def piecemeal : Sheet :=
  ⟨120, ⟨4, 4⟩, [⟨["C4---", "D4---"]⟩, ⟨["C4--", "C4/", "C4//", "C4//"]⟩]⟩

theorem piecemeal_runs_well : ∃ s t report,
    new piecemeal {} = .ok s ∧ s.Runs t ∧ t.result? = some (.ok report) := by
  refine runs_well (by decide +kernel) (by decide) ?_
  simp only [piecemeal, List.mem_cons, List.not_mem_nil, or_false, forall_eq_or_imp, forall_eq,
    and_self]
  exact ⟨⟨⟨⟨.tone "C4" 60, 1⟩, by decide +kernel, by decide +kernel⟩,
    ⟨⟨.tone "D4" 62, 1⟩, by decide +kernel, by decide +kernel⟩⟩,
    ⟨⟨.tone "C4" 60, 0.75⟩, by decide +kernel, by decide +kernel⟩,
    ⟨⟨.tone "C4" 60, 0.125⟩, by decide +kernel, by decide +kernel⟩,
    ⟨⟨.tone "C4" 60, 0.0625⟩, by decide +kernel, by decide +kernel⟩⟩

/-- An accepted sheet and a run of it that ends well, whenever it is interrupted and whoever
listens. The totals of the report match, and nothing is warned of, when the notes that the run
takes of the tracks add up to totals that compare as equal: all notes of the last track, and of any
other track those up to the end of the bar in which the last track ends. If no track has notes
behind it, these are the totals of the tracks. -/
theorem report_compares_taken_notes {sheet : Sheet} {params : Audio.Params} (ha : sheet.Accepted)
    (hnew : new sheet params = .ok s) (hrun : s.Runs t) {report : Report}
    (hr : t.result? = some (.ok report)) :
    (report.isMatching = true ↔ (sheet.takenTracks params).Pairwise Track.SameTotal) ∧
    (report.warning = [] ↔ report.isMatching = true) ∧
    (t.journal.warnings = [] ↔ report.isMatching = true) ∧
    ((∀ i < sheet.tracks.length, sheet.taken params i = sheet.tokensOf i) →
      (report.isMatching = true ↔ sheet.tracks.Pairwise Track.SameTotal)) := by
  have hmatching := Report.isMatching_iff (hrun.totals hnew ha.tracks_ne_nil hr)
  refine ⟨hmatching, Report.warning_eq_nil_iff, ?_, ?_⟩
  · rw [hrun.warnings hnew hr]
    exact Report.remarks_eq_nil_iff
  · intro hall
    rw [hmatching, Sheet.takenTracks_eq_tracks hall]

theorem piecemeal_is_compared_as_taken : ∃ s t report,
    new piecemeal {} = .ok s ∧ s.Runs t ∧ t.result? = some (.ok report) ∧
    (report.isMatching = true ↔ (piecemeal.takenTracks {}).Pairwise Track.SameTotal) ∧
    (report.warning = [] ↔ report.isMatching = true) ∧
    (t.journal.warnings = [] ↔ report.isMatching = true) ∧
    ((∀ i < piecemeal.tracks.length, piecemeal.taken {} i = piecemeal.tokensOf i) →
      (report.isMatching = true ↔ piecemeal.tracks.Pairwise Track.SameTotal)) := by
  obtain ⟨s, t, report, hs, hruns, hr⟩ := piecemeal_runs_well
  have haccepted : piecemeal.Accepted := by decide +kernel
  exact ⟨s, t, report, hs, hruns, hr, report_compares_taken_notes haccepted hs hruns hr⟩

/-- The run ends in its first bar and never comes to the second whole note. -/
theorem takenTracks_piecemeal : piecemeal.takenTracks {} =
    [⟨["C4---"]⟩, ⟨["C4--", "C4/", "C4//", "C4//"]⟩] := by
  have hbars : piecemeal.wholeBars {} = 0 := by
    rw [Sheet.wholeBars_eq_count]
    exact Nat.div_eq_of_lt (by decide +kernel)
  have hfirst : piecemeal.taken {} 0 = ["C4---"] := by
    rw [Sheet.taken, if_neg (by decide), Sheet.lastBarEnd, hbars]
    decide +kernel
  have hlast : piecemeal.taken {} 1 = ["C4--", "C4/", "C4//", "C4//"] := if_pos rfl
  have htracks : List.range piecemeal.tracks.length = [0, 1] := rfl
  rw [Sheet.takenTracks, htracks, List.map_cons, List.map_cons, List.map_nil, hfirst, hlast]

/-- A whole note more on a track that is not the last, and the totals of the report match. -/
theorem longer_track_looks_equal : ∃ sheet s t report,
    Sheet.make 120 ⟨4, 4⟩ [⟨["C4---", "D4---"]⟩, ⟨["C4--", "C4/", "C4//", "C4//"]⟩] =
        .ok sheet ∧
      new sheet {} = .ok s ∧ s.Runs t ∧ t.result? = some (.ok report) ∧
      ¬ (report.isMatching = true ↔ sheet.tracks.Pairwise Track.SameTotal) := by
  obtain ⟨s, t, report, hs, hruns, hr⟩ := piecemeal_runs_well
  refine ⟨piecemeal, s, t, report, Sheet.make_ok_iff.mpr ⟨rfl, by decide +kernel⟩, hs, hruns, hr,
    ?_⟩
  have hfirst : Track.total ⟨["C4---"]⟩ = .ok 1 := ok_of_toOption (by decide +kernel)
  have hwhole : Track.total ⟨["C4---", "D4---"]⟩ = .ok 2 := ok_of_toOption (by decide +kernel)
  have hlast : Track.total ⟨["C4--", "C4/", "C4//", "C4//"]⟩ = .ok 1 :=
    ok_of_toOption (by decide +kernel)
  rw [Report.isMatching_iff (hruns.totals hs (by decide) hr), takenTracks_piecemeal, piecemeal,
    List.pairwise_pair, List.pairwise_pair]
  intro hiff
  obtain ⟨x, y, hx, hy, heq⟩ := hiff.mp ⟨1, 1, hfirst, hlast, by decide +kernel⟩
  cases hwhole.symm.trans hx
  cases hlast.symm.trans hy
  exact absurd heq (by decide +kernel)

end Synth

end PlainScore
