import PlainScore.Proofs.Synth.Tally

/-! How many rounds a run takes, and which notes it takes in them.
A round looks at every track for the next bar. It may well take no note, or only notes without
samples; but every round except the one at hand has mixed a whole bar of the last track, and for
that many bars enough notes must have been taken of it. `Traced` is the invariant. -/
namespace PlainScore

namespace Synth

variable {sheet : Sheet} {params : Audio.Params} {k rounds track : Nat} {s : Synth}
  {taken : List (Nat × String)}

def beginsRound (s : Synth) (output : Handoff) : Bool :=
  match s.phase with
  | .ready => !s.left.isEmpty
  | .serving _ false => output.receiver
  | _ => false

def takes (s : Synth) (interrupted : Bool) : List (Nat × String) :=
  match s.phase with
  | .polling track =>
    if interrupted then [] else ((s.left.getD track []).take 1).map (track, ·)
  | _ => []

def notesOf (i : Nat) (taken : List (Nat × String)) : List String :=
  (taken.filter (·.1 = i)).map (·.2)

@[simp] theorem notesOf_nil (i : Nat) : notesOf i [] = [] := rfl

theorem notesOf_append (i : Nat) (xs ys : List (Nat × String)) :
    notesOf i (xs ++ ys) = notesOf i xs ++ notesOf i ys := by
  rw [notesOf, List.filter_append, List.map_append, notesOf, notesOf]

theorem notesOf_self (token : String) : notesOf track [(track, token)] = [token] := by
  simp [notesOf]

theorem notesOf_of_ne {i : Nat} (h : i ≠ track) (token : String) :
    notesOf i [(track, token)] = [] := by
  simp [notesOf, Ne.symm h]

/-! ### Notes are taken from the front, one by one -/

theorem left_closeBar (s : Synth) : s.closeBar.left = s.left := by
  unfold closeBar
  split
  · rfl
  · dsimp only
    split <;> rfl

theorem left_advance (s : Synth) (start : Nat) : (s.advance start).left = s.left := by
  unfold advance
  split
  · rfl
  · exact left_closeBar s

theorem left_serveRemainder (s : Synth) : s.serveRemainder.left = s.left := by
  unfold serveRemainder
  split
  · rfl
  · dsimp only
    split <;> rfl

theorem left_play (s : Synth) (track : Nat) (note : Note) : (s.play track note).left = s.left := by
  unfold play
  dsimp only
  split
  · rfl
  · split
    · rfl
    · split
      · exact left_advance _ _
      · rfl

theorem left_start (s : Synth) : s.start.left = s.left := by
  unfold start
  dsimp only
  split
  · exact left_serveRemainder _
  · exact left_advance _ _

theorem left_pull_nil (h : s.left.getD track [] = []) : (s.pull track).left = s.left := by
  rw [pull, h]
  dsimp only
  split
  · exact left_serveRemainder _
  · exact left_advance _ _

theorem left_pull_cons {token : String} {rest : List String}
    (h : s.left.getD track [] = token :: rest) :
    (s.pull track).left = s.left.set track rest := by
  rw [pull, h]
  dsimp only
  split
  · rfl
  · exact left_play _ _ _

theorem left_pull (s : Synth) (track i : Nat) :
    s.left.getD i [] = notesOf i (((s.left.getD track []).take 1).map (track, ·)) ++
      (s.pull track).left.getD i [] := by
  cases hl : s.left.getD track [] with
  | nil =>
    rw [left_pull_nil hl]
    rfl
  | cons token rest =>
    rw [left_pull_cons hl, List.take_succ_cons, List.take_zero, List.map_cons, List.map_nil]
    by_cases hi : i = track
    · subst hi
      rw [notesOf_self, hl]
      simp [List.getD_eq_getElem?_getD, lt_length_of_getD hl]
    · rw [notesOf_of_ne hi, List.nil_append, List.getD_eq_getElem?_getD,
        List.getD_eq_getElem?_getD, List.getElem?_set_ne (Ne.symm hi)]

/-- What a track has left is the note that the step takes of it, and what it has left then. -/
theorem left_step {output : Handoff} (hc : s.canStep output = true) (interrupted : Bool)
    (i : Nat) : s.left.getD i [] =
      notesOf i (s.takes interrupted) ++ (s.step interrupted output).1.left.getD i [] := by
  rw [canStep] at hc
  cases hp : s.phase with
  | ready =>
    simp only [step, takes, hp, left_start, notesOf_nil, List.nil_append]
  | polling track =>
    simp only [step, takes, hp]
    cases interrupted with
    | true => rfl
    | false => exact left_pull s track i
  | serving bar last =>
    rw [hp] at hc
    rw [step_serving hp hc]
    simp only [takes, hp, notesOf_nil, List.nil_append]
    split
    · cases last with
      | true => rfl
      | false => exact congrArg (·.getD i []) (left_advance s 0).symm
    · rfl
  | ending result =>
    rw [hp] at hc
    rw [step_ending hp hc]
    simp only [takes, hp, notesOf_nil, List.nil_append]
    split <;> rfl
  | marking result =>
    simp only [step, takes, hp]
    rfl
  | leaving result =>
    simp only [step, takes, hp]
    rfl
  | done result =>
    rw [hp] at hc
    cases hc

/-! ### Rounds mix bars -/

/-- A run in its round has mixed a bar in each round before it, and holds the bar of this round
as soon as it has mixed that too. -/
def InRound (sheet : Sheet) (params : Audio.Params) (rounds : Nat) (s : Synth) : Prop :=
  match s.phase with
  | .ready => rounds = 0 ∧ (s.left ≠ [] → Aligned sheet params 0 s)
  | .polling _ => ∃ k, rounds = k + 1 ∧ Aligned sheet params k s
  | .serving _ false => Aligned sheet params rounds s
  | _ => True

theorem serveRemainder_inRound (h : s.Sound) : s.serveRemainder.InRound sheet params rounds := by
  rcases serveRemainder_spec h with ⟨-, hr⟩ | ⟨-, u, -, hr⟩ <;>
  · rw [hr]
    trivial

theorem Aligned.advance_inRound (h : Aligned sheet params k s) (hn : s.left ≠ []) {start : Nat}
    (hw : ∀ i < start, s.wants i = false) :
    (s.advance start).InRound sheet params (k + 1) := by
  rcases advance_spec hw with ⟨track, -, -, -, ha⟩ | ⟨hall, ha⟩
  · rw [ha]
    exact ⟨k, rfl, h.with_phase _⟩
  · have hfull := h.sound.last_full hn (hall _ (lastTrack_lt hn))
    obtain ⟨u, hu, hclose⟩ := closeBar_spec h.sound hn hall
    have hc : ∀ i < s.left.length, s.Covers i := fun i hi => h.sound.covers hi (hall i hi)
    rw [ha, hclose]
    exact (h.barTaken hu hc (h.last_covered hfull)).with_phase _

theorem Aligned.pull_inRound (h : Aligned sheet params k s) (ht : track < s.left.length)
    (hw : s.wants track = true) (hbefore : ∀ i < track, s.wants i = false) :
    (s.pull track).InRound sheet params (k + 1) := by
  have hn : s.left ≠ [] := List.ne_nil_of_length_pos (Nat.zero_lt_of_lt ht)
  have hp := pull_spec h.sound ht hw
  generalize s.pull track = v at hp ⊢
  cases hp with
  | ended => exact serveRemainder_inRound (h.sound.write _)
  | exhausted hl hlast =>
    exact (h.exhaust hl hlast).advance_inRound hn (before_exhausted hbefore)
  | refused => trivial
  | lost => trivial
  | full hl hu hf =>
    exact (h.noteTaken hu hl).advance_inRound (hu.left_ne_nil hn)
      (hu.before_full h.sound hl hbefore hw hf)
  | wanting hl hu => exact ⟨k, rfl, (h.noteTaken hu hl).with_phase _⟩

theorem InRound.step {output : Handoff} (h : s.InRound sheet params rounds) (hv : s.Valid)
    (hc : s.canStep output = true) (interrupted : Bool) :
    (s.step interrupted output).1.InRound sheet params
      (rounds + (s.beginsRound output).toNat) := by
  rw [InRound] at h
  rw [Valid] at hv
  rw [canStep] at hc
  cases hp : s.phase with
  | ready =>
    rw [hp] at h hv
    obtain ⟨rfl, haligned⟩ := h
    simp only [Synth.step, beginsRound, hp]
    unfold start
    dsimp only
    split
    · exact serveRemainder_inRound (hv.started.write _)
    · rename_i hnil
      have hn : s.left ≠ [] := hnil
      have hstarted := (haligned hn).started.write (startRemark s.sheet)
      have hbegins : (!s.left.isEmpty) = true := by simpa using hn
      rw [hbegins]
      exact hstarted.advance_inRound hn fun i hi => absurd hi (Nat.not_lt_zero i)
  | polling track =>
    rw [hp] at h hv
    obtain ⟨k, rfl, h⟩ := h
    obtain ⟨-, ht, hw, hbefore⟩ := hv
    simp only [Synth.step, beginsRound, hp]
    cases interrupted with
    | true => trivial
    | false => exact h.pull_inRound ht hw hbefore
  | serving bar last =>
    rw [hp] at h hv hc
    rw [step_serving hp hc]
    cases hr : output.receiver with
    | false => trivial
    | true =>
      cases last with
      | true => trivial
      | false =>
        simp only [beginsRound, hp, hr]
        exact Aligned.advance_inRound h hv.2 fun i hi => absurd hi (Nat.not_lt_zero i)
  | ending result =>
    rw [hp] at hc
    rw [step_ending hp hc]
    split <;> trivial
  | marking result =>
    simp only [Synth.step, hp]
    trivial
  | leaving result =>
    simp only [Synth.step, hp]
    trivial
  | done result =>
    rw [hp] at hc
    cases hc

/-- For `k` bars of the last track at least so many samples were taken of it. -/
theorem Aligned.bars_taken (h : Aligned sheet params k s) {tokens : List String}
    (ht : sheet.tokensOf (sheet.tracks.length - 1) =
      tokens ++ s.left.getD (sheet.tracks.length - 1) []) :
    k * sheet.capacity params ≤ sheet.count params tokens := by
  have hcovered := h.covered
  have hpending := h.pending_length ht
  rw [Sheet.lastVoice, Sheet.getD_voices, Sheet.length_voice, ht, Sheet.count_append] at hcovered
  omega

/-- A round that begins has a whole bar of the last track behind it for each round before. -/
theorem InRound.bars_taken {output : Handoff} (h : s.InRound sheet params rounds)
    (hb : s.beginsRound output = true) {tokens : List String}
    (ht : sheet.tokensOf (sheet.tracks.length - 1) =
      tokens ++ s.left.getD (sheet.tracks.length - 1) []) :
    rounds * sheet.capacity params ≤ sheet.count params tokens := by
  rw [InRound] at h
  rw [beginsRound] at hb
  split at hb
  · rename_i hp
    rw [hp] at h
    obtain ⟨rfl, -⟩ := h
    rw [Nat.zero_mul]
    exact Nat.zero_le _
  · rename_i hp
    rw [hp] at h
    exact Aligned.bars_taken h ht
  · cases hb

/-! ### Notes that no vector can hold -/

def IsLost (s : Synth) : Prop := s.phase.verdict? = some (.error .outOfRoom)

theorem advance_not_lost (h : s.Sound) (hn : s.left ≠ []) {start : Nat}
    (hw : ∀ i < start, s.wants i = false) : ¬ (s.advance start).IsLost := by
  rcases advance_spec hw with ⟨track, -, -, -, ha⟩ | ⟨hall, ha⟩
  · rw [ha]
    exact nofun
  · obtain ⟨u, -, hclose⟩ := closeBar_spec h hn hall
    rw [ha, hclose]
    exact nofun

theorem serveRemainder_not_lost (h : s.Sound) : ¬ s.serveRemainder.IsLost := by
  rcases serveRemainder_spec h with ⟨-, hr⟩ | ⟨-, u, -, hr⟩ <;>
  · rw [hr]
    exact nofun

theorem pull_lost (h : s.Sound) (ht : track < s.left.length) (hw : s.wants track = true)
    (hbefore : ∀ i < track, s.wants i = false) (hlost : (s.pull track).IsLost) :
    ∃ token rest, s.left.getD track [] = token :: rest ∧
      sampleLimit < s.sheet.noteCount s.params token := by
  have hn : s.left ≠ [] := List.ne_nil_of_length_pos (Nat.zero_lt_of_lt ht)
  have hp := pull_spec h ht hw
  generalize s.pull track = v at hp hlost
  cases hp with
  | ended => exact absurd hlost (serveRemainder_not_lost (h.write _))
  | exhausted hl hlast =>
    exact absurd hlost (advance_not_lost (exhaust_sound h hl hlast) hn (before_exhausted hbefore))
  | refused => cases hlost
  | @lost token rest note u hl hnote hlong =>
    refine ⟨token, rest, hl, ?_⟩
    rw [Sheet.noteCount, hnote]
    exact hlong
  | full hl hu hf =>
    exact absurd hlost (advance_not_lost (hu.sound h hl) (hu.left_ne_nil hn)
      (hu.before_full h hl hbefore hw hf))
  | wanting => cases hlost

theorem start_not_lost (h : s.Sound) : ¬ s.start.IsLost := by
  unfold start
  dsimp only
  split
  · exact serveRemainder_not_lost (h.started.write _)
  · exact advance_not_lost (h.started.write _) ‹_› fun i hi => absurd hi (Nat.not_lt_zero i)

theorem step_lost {output : Handoff} (hv : s.Valid) (hc : s.canStep output = true)
    (interrupted : Bool) (hlost : (s.step interrupted output).1.IsLost) :
    s.IsLost ∨ ∃ note ∈ s.takes interrupted, sampleLimit < s.sheet.noteCount s.params note.2 := by
  rw [Valid] at hv
  rw [canStep] at hc
  rw [IsLost]
  cases hp : s.phase with
  | ready =>
    rw [hp] at hv
    simp only [step, hp] at hlost
    exact absurd hlost (start_not_lost hv)
  | polling track =>
    rw [hp] at hv
    obtain ⟨hs, ht, hw, hbefore⟩ := hv
    simp only [step, hp] at hlost
    cases interrupted with
    | true => cases hlost
    | false =>
      obtain ⟨token, rest, hl, hlong⟩ := pull_lost hs ht hw hbefore hlost
      refine .inr ⟨(track, token), ?_, hlong⟩
      rw [takes, hp]
      dsimp only
      rw [hl]
      exact List.mem_cons_self
  | serving bar last =>
    rw [hp] at hv hc
    rw [step_serving hp hc] at hlost
    split at hlost
    · cases last with
      | true => cases hlost
      | false =>
        exact absurd hlost (advance_not_lost hv.1 hv.2 fun i hi => absurd hi (Nat.not_lt_zero i))
    · cases hlost
  | ending result =>
    rw [hp] at hc
    rw [step_ending hp hc] at hlost
    split at hlost <;> exact .inl hlost
  | marking result =>
    simp only [step, hp] at hlost
    exact .inl hlost
  | leaving result =>
    simp only [step, hp] at hlost
    exact .inl hlost
  | done result =>
    rw [hp] at hc
    cases hc

/-! ### From step to step -/

structure Traced (sheet : Sheet) (params : Audio.Params) (rounds : Nat)
    (taken : List (Nat × String)) (s : Synth) : Prop where
  tokens : ∀ i, sheet.tokensOf i = notesOf i taken ++ s.left.getD i []
  place : s.InRound sheet params rounds
  rounds_le : rounds ≤ sheet.count params (notesOf (sheet.tracks.length - 1) taken) /
    sheet.capacity params + 1
  lost : s.IsLost → ∃ note ∈ taken, sampleLimit < sheet.noteCount params note.2

theorem InRound.sheet_of_takes (h : s.InRound sheet params rounds) {interrupted : Bool}
    {note : Nat × String} (hm : note ∈ s.takes interrupted) :
    s.sheet = sheet ∧ s.params = params := by
  rw [InRound] at h
  rw [takes] at hm
  split at hm
  · rename_i hp
    rw [hp] at h
    obtain ⟨k, -, h⟩ := h
    exact ⟨h.sheet_eq, h.params_eq⟩
  · cases hm

theorem Traced.step {output : Handoff} (h : Traced sheet params rounds taken s) (hv : s.Valid)
    (hc : s.canStep output = true) (interrupted : Bool) :
    Traced sheet params (rounds + (s.beginsRound output).toNat)
      (taken ++ s.takes interrupted) (s.step interrupted output).1 := by
  constructor
  · intro i
    rw [h.tokens i, notesOf_append, List.append_assoc, left_step hc interrupted i]
  · exact h.place.step hv hc interrupted
  · rw [notesOf_append, Sheet.count_append]
    cases hb : s.beginsRound output with
    | false =>
      exact h.rounds_le.trans
        (Nat.succ_le_succ (Nat.div_le_div_right (Nat.le_add_right _ _)))
    | true =>
      have hbars := h.place.bars_taken hb (h.tokens _)
      refine Nat.succ_le_succ ((Nat.le_div_iff_mul_le (sheet.capacity_pos params)).mpr ?_)
      exact hbars.trans (Nat.le_add_right _ _)
  · intro hlost
    rcases step_lost hv hc interrupted hlost with hbefore | ⟨note, hm, hlong⟩
    · obtain ⟨note, hm, hlong⟩ := h.lost hbefore
      exact ⟨note, List.mem_append_left _ hm, hlong⟩
    · obtain ⟨hsheet, hparams⟩ := h.place.sheet_of_takes hm
      rw [hsheet, hparams] at hlong
      exact ⟨note, List.mem_append_right _ hm, hlong⟩

theorem new_traced (h : new sheet params = .ok s) : Traced sheet params 0 [] s := by
  have hroom := room_of_new h
  obtain ⟨rfl, -⟩ := new_sound h
  constructor
  · intro i
    rw [fresh_left]
    rfl
  · refine ⟨rfl, fun hn => fresh_aligned (hroom ?_)⟩
    simpa [fresh] using hn
  · exact Nat.zero_le _
  · intro hlost
    cases hlost

end Synth

end PlainScore
