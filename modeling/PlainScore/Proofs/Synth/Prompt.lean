import PlainScore.Proofs.Handoff
import PlainScore.Proofs.Synth.Counts

/-! What an interrupted run still sends.
The flag is looked at before a note is taken, so that only bars follow which are complete without
another note. They are complete with what tracks carry over: `due` counts them by any one track that
is not silent, and every step lowers the count by the bars that it sends. -/
namespace PlainScore

def Chunk.isBar : Chunk → Bool
  | .samples _ => true
  | .endOfStream => false

def barCount (chunks : List Chunk) : Nat := chunks.countP Chunk.isBar

@[simp] theorem barCount_nil : barCount [] = 0 := rfl

@[simp] theorem barCount_bar (bar : List Sample) : barCount [.samples bar] = 1 := rfl

theorem barCount_append (xs ys : List Chunk) : barCount (xs ++ ys) = barCount xs + barCount ys :=
  List.countP_append

namespace Synth

variable {sheet : Sheet} {params : Audio.Params} {s u : Synth} {i n : Nat}

/-! ### Bars without notes -/

def IsOpen (s : Synth) (i : Nat) : Prop := s.exhausted[i]? = some false

def isWorking (s : Synth) : Bool :=
  match s.phase with
  | .ready | .polling _ | .serving _ false => true
  | _ => false

/-- Every bar that is still to be mixed is made of this track's own samples. -/
def KeepsTime (s : Synth) (i : Nat) : Prop := s.isWorking = true → s.left ≠ [] → s.IsOpen i

/-- The bars that are complete without another note of the track: one that is held, and those
for which enough is pending. -/
def due (s : Synth) (i : Nat) : Nat :=
  match s.phase with
  | .ready => (s.mixer.pending i).length / s.mixer.capacity
  | .serving _ false => 1 + (s.mixer.pending i).length / s.mixer.capacity
  | .serving _ true => 1
  | _ => 0

theorem keepsTime_of_over (h : s.isWorking = false) : s.KeepsTime i :=
  fun hw => absurd (h.symm.trans hw) Bool.false_ne_true

theorem Sound.lt_of_open (h : s.Sound) (hi : s.IsOpen i) : i < s.left.length := by
  rw [← h.exhausted_length]
  exact (List.getElem?_eq_some_iff.mp hi).choose

theorem Sound.pending_full (h : s.Sound) (hi : s.IsOpen i) (hw : s.wants i = false) :
    s.mixer.capacity ≤ (s.mixer.pending i).length := by
  refine (h.not_wants (h.lt_of_open hi) hw).resolve_left fun he => ?_
  rw [IsOpen, he] at hi
  cases hi

theorem last_open (h : s.Sound) (hn : s.left ≠ []) : s.IsOpen s.lastTrack := by
  have hlt : s.lastTrack < s.exhausted.length := h.exhausted_length ▸ lastTrack_lt hn
  rw [IsOpen, List.getElem?_eq_getElem hlt, Option.some_inj, ← Bool.not_eq_true]
  intro he
  exact (h.exhausted_left _ ((List.getElem?_eq_getElem hlt).trans (congrArg some he))).2 rfl

theorem working_cases (h : s.isWorking = true) : s.phase = .ready ∨
    (∃ track, s.phase = .polling track) ∨ ∃ bar, s.phase = .serving bar false := by
  rw [isWorking] at h
  split at h
  · exact .inl ‹_›
  · exact .inr (.inl ⟨_, ‹_›⟩)
  · exact .inr (.inr ⟨_, ‹_›⟩)
  · cases h

theorem Valid.sound (h : s.Valid) (hw : s.isWorking = true) : s.Sound := by
  rw [Valid] at h
  rcases working_cases hw with hp | ⟨track, hp⟩ | ⟨bar, hp⟩ <;> rw [hp] at h
  · exact h
  · exact h.1
  · exact h.1

/-- A bar is closed when the track has a whole one pending, and leaves the track so much less. -/
theorem advance_due (hs : s.Sound) (hn : s.left ≠ []) (hi : s.IsOpen i) {start : Nat}
    (hw : ∀ j < start, s.wants j = false) :
    (s.advance start).KeepsTime i ∧
      (s.advance start).due i ≤ (s.mixer.pending i).length / s.mixer.capacity := by
  rcases advance_spec hw with ⟨track, -, -, -, ha⟩ | ⟨hall, ha⟩
  · rw [ha]
    exact ⟨fun _ _ => hi, Nat.zero_le _⟩
  · have hfull := hs.pending_full hi (hall i (hs.lt_of_open hi))
    obtain ⟨v, hv, hclose⟩ := closeBar_spec hs hn hall
    rw [ha, hclose]
    refine ⟨fun _ _ => hv.exhausted ▸ hi, ?_⟩
    change 1 + (v.mixer.pending i).length / v.mixer.capacity ≤ _
    rw [hv.pending, hv.capacity, List.length_drop,
      Nat.div_eq_sub_div hs.mixer_sound.capacity_pos hfull, Nat.add_comm]

theorem start_due (hs : s.Sound) (hi : s.left ≠ [] → s.IsOpen i) :
    s.start.KeepsTime i ∧ s.start.due i ≤ (s.mixer.pending i).length / s.mixer.capacity := by
  have hs' := hs.started.write (startRemark s.sheet)
  unfold start
  dsimp only
  split
  · rename_i hnil
    rcases serveRemainder_spec hs' with ⟨-, hr⟩ | ⟨⟨row, hrow, -⟩, -⟩
    · rw [hr]
      exact ⟨keepsTime_of_over rfl, Nat.zero_le _⟩
    · have hlanes := hs'.lanes_length
      rw [hnil, List.length_nil, List.length_eq_zero_iff] at hlanes
      rw [Mixer.queues, hlanes] at hrow
      cases hrow
  · rename_i hn
    exact advance_due hs' hn (hi hn) fun j hj => absurd hj (Nat.not_lt_zero j)

/-- The step lemma, once the flag is set: no step makes a bar of new notes. -/
theorem step_due {output : Handoff} (hv : s.Valid) (hk : s.KeepsTime i)
    (hc : s.canStep output = true) :
    (s.step true output).1.KeepsTime i ∧
      barCount (output.put (s.step true output).2) + (s.step true output).1.due i ≤ s.due i := by
  rw [Valid] at hv
  rw [KeepsTime, isWorking] at hk
  rw [canStep] at hc
  cases hp : s.phase with
  | ready =>
    rw [hp] at hv hk
    obtain ⟨hkeeps, hdue⟩ := start_due hv (hk rfl)
    have hnone : s.due i = (s.mixer.pending i).length / s.mixer.capacity := by rw [due, hp]
    simp only [step, hp, Handoff.put_self, barCount_nil, Nat.zero_add, hnone]
    exact ⟨hkeeps, hdue⟩
  | polling track =>
    simp only [step, hp, if_true, Handoff.put_self]
    exact ⟨keepsTime_of_over rfl, Nat.zero_le _⟩
  | serving bar last =>
    rw [hp] at hv hk hc
    rw [step_serving hp hc]
    rcases Handoff.canSend_cases hc with hr | ⟨hr, hslot⟩
    · rw [if_neg (by rw [hr]; exact Bool.false_ne_true), Handoff.put_self]
      exact ⟨keepsTime_of_over rfl, Nat.zero_le _⟩
    · rw [if_pos hr, Handoff.put_some _ hslot, barCount_bar]
      cases last with
      | true =>
        have hheld : s.due i = 1 := by rw [due, hp]
        rw [hheld]
        exact ⟨keepsTime_of_over rfl, Nat.le_refl 1⟩
      | false =>
        obtain ⟨hkeeps, hdue⟩ := advance_due hv.1 hv.2 (hk rfl hv.2)
          fun j hj => absurd hj (Nat.not_lt_zero j)
        have hheld : s.due i = 1 + (s.mixer.pending i).length / s.mixer.capacity := by rw [due, hp]
        rw [hheld]
        exact ⟨hkeeps, Nat.add_le_add_left hdue 1⟩
  | ending result =>
    rw [hp] at hc
    rw [step_ending hp hc]
    rcases Handoff.canSend_cases hc with hr | ⟨hr, hslot⟩
    · rw [if_neg (by rw [hr]; exact Bool.false_ne_true), Handoff.put_self]
      exact ⟨keepsTime_of_over rfl, Nat.zero_le _⟩
    · rw [if_pos hr, Handoff.put_some _ hslot]
      exact ⟨keepsTime_of_over rfl, Nat.zero_le _⟩
  | marking result =>
    simp only [step, hp, Handoff.put_self]
    exact ⟨keepsTime_of_over rfl, Nat.zero_le _⟩
  | leaving result =>
    simp only [step, hp, Handoff.put_dropSender]
    exact ⟨keepsTime_of_over rfl, Nat.zero_le _⟩
  | done result =>
    rw [hp] at hc
    cases hc

/-! ### What a track carries over -/

/-- No note that the track has left has more than `n` samples, and there is not more pending of it
than a track has that wanted such a note. -/
structure Carrying (sheet : Sheet) (params : Audio.Params) (i n : Nat) (s : Synth) : Prop where
  sheet_eq : s.sheet = sheet
  params_eq : s.params = params
  capacity : s.mixer.capacity = sheet.capacity params
  left_length : s.left.length = sheet.tracks.length
  notes : ∀ token ∈ s.left.getD i [], sheet.noteCount params token ≤ n
  pending : (s.mixer.pending i).length < sheet.capacity params + n

def Carries (sheet : Sheet) (params : Audio.Params) (i n : Nat) (s : Synth) : Prop :=
  match s.phase with
  | .ready | .serving _ false =>
    Carrying sheet params i n s ∧ (s.mixer.pending i).length ≤ n - 1
  | .polling _ => Carrying sheet params i n s
  | _ => True

theorem Carrying.with_phase (h : Carrying sheet params i n s) (p : Phase) :
    Carrying sheet params i n { s with phase := p } :=
  ⟨h.sheet_eq, h.params_eq, h.capacity, h.left_length, h.notes, h.pending⟩

theorem Carrying.noteTaken (h : Carrying sheet params i n s) {track : Nat} {token : String}
    {rest : List String} (hu : NoteTaken s track token rest u)
    (hl : s.left.getD track [] = token :: rest)
    (hopen : (s.mixer.pending track).length < s.mixer.capacity) :
    Carrying sheet params i n u := by
  refine ⟨hu.sheet.trans h.sheet_eq, hu.params.trans h.params_eq, hu.capacity.trans h.capacity,
    hu.left_length.trans h.left_length, fun other hm => h.notes other (hu.mem_left hl hm), ?_⟩
  rw [hu.pending]
  by_cases hi : i = track
  · subst hi
    have hnote := h.notes token (hl ▸ List.mem_cons_self)
    rw [h.capacity] at hopen
    rw [if_pos rfl, List.length_append, h.sheet_eq, h.params_eq, Sheet.length_noteSamples]
    omega
  · rw [if_neg hi]
    exact h.pending

theorem Carrying.barTaken (h : Carrying sheet params i n s) (hu : BarTaken s u) :
    Carrying sheet params i n u ∧ (u.mixer.pending i).length ≤ n - 1 := by
  have hpending := h.pending
  have hrest : (u.mixer.pending i).length =
      (s.mixer.pending i).length - sheet.capacity params := by
    rw [hu.pending, List.length_drop, h.capacity]
  refine ⟨⟨hu.sheet.trans h.sheet_eq, hu.params.trans h.params_eq, hu.capacity.trans h.capacity,
    hu.left ▸ h.left_length, hu.left ▸ h.notes, ?_⟩, ?_⟩ <;> omega

theorem serveRemainder_carries (hs : s.Sound) : s.serveRemainder.Carries sheet params i n := by
  rcases serveRemainder_spec hs with ⟨-, hr⟩ | ⟨-, v, -, hr⟩ <;>
  · rw [hr]
    trivial

theorem Carrying.advance (h : Carrying sheet params i n s) (hs : s.Sound) (hn : s.left ≠ [])
    {start : Nat} (hw : ∀ j < start, s.wants j = false) :
    (s.advance start).Carries sheet params i n := by
  rcases advance_spec hw with ⟨track, -, -, -, ha⟩ | ⟨hall, ha⟩
  · rw [ha]
    exact h.with_phase _
  · obtain ⟨v, hv, hclose⟩ := closeBar_spec hs hn hall
    obtain ⟨hcarrying, hrest⟩ := h.barTaken hv
    rw [ha, hclose]
    exact ⟨hcarrying.with_phase _, hrest⟩

theorem Carrying.pull (h : Carrying sheet params i n s) (hs : s.Sound) {track : Nat}
    (ht : track < s.left.length) (hw : s.wants track = true)
    (hbefore : ∀ j < track, s.wants j = false) : (s.pull track).Carries sheet params i n := by
  have hn : s.left ≠ [] := List.ne_nil_of_length_pos (Nat.zero_lt_of_lt ht)
  have hopen := ((hs.wants_iff ht).mp hw).2
  have hp := pull_spec hs ht hw
  generalize s.pull track = v at hp ⊢
  cases hp with
  | ended => exact serveRemainder_carries (hs.write _)
  | exhausted hl hlast =>
    have hexhaust : Carrying sheet params i n (s.exhaust track) :=
      ⟨h.sheet_eq, h.params_eq, h.capacity, h.left_length, h.notes, h.pending⟩
    exact hexhaust.advance (exhaust_sound hs hl hlast) hn (before_exhausted hbefore)
  | refused => trivial
  | lost => trivial
  | full hl hu hf =>
    exact (h.noteTaken hu hl hopen).advance (hu.sound hs hl) (hu.left_ne_nil hn)
      (hu.before_full hs hl hbefore hw hf)
  | wanting hl hu => exact (h.noteTaken hu hl hopen).with_phase _

theorem Carrying.start (h : Carrying sheet params i n s) (hs : s.Sound) :
    s.start.Carries sheet params i n := by
  have hstarted : Carrying sheet params i n
      ({ s with status := { s.status with started := true } }.write (startRemark s.sheet)) :=
    ⟨h.sheet_eq, h.params_eq, h.capacity, h.left_length, h.notes, h.pending⟩
  have hs' := hs.started.write (startRemark s.sheet)
  unfold Synth.start
  dsimp only
  split
  · exact serveRemainder_carries hs'
  · exact hstarted.advance hs' ‹_› fun j hj => absurd hj (Nat.not_lt_zero j)

/-- The step lemma, whether or not the flag is set. -/
theorem Carries.step {output : Handoff} (h : s.Carries sheet params i n) (hv : s.Valid)
    (hc : s.canStep output = true) (interrupted : Bool) :
    (s.step interrupted output).1.Carries sheet params i n := by
  rw [Carries] at h
  rw [Valid] at hv
  rw [canStep] at hc
  cases hp : s.phase with
  | ready =>
    rw [hp] at h hv
    simp only [Synth.step, hp]
    exact h.1.start hv
  | polling track =>
    rw [hp] at h hv
    obtain ⟨hs, ht, hw, hbefore⟩ := hv
    simp only [Synth.step, hp]
    cases interrupted with
    | true => trivial
    | false => exact h.pull hs ht hw hbefore
  | serving bar last =>
    rw [hp] at h hv hc
    rw [step_serving hp hc]
    split
    · cases last with
      | true => trivial
      | false => exact h.1.advance hv.1 hv.2 fun j hj => absurd hj (Nat.not_lt_zero j)
    · trivial
  | ending result =>
    rw [hp] at hc
    rw [step_ending hp hc]
    split <;> trivial
  | marking result =>
    simp only [Synth.step, hp]
    trivial
  | leaving result =>
    simp only [Synth.step, hp]
    trivial
  | done result =>
    rw [hp] at hc
    cases hc

theorem new_carries (h : new sheet params = .ok s)
    (hn : ∀ token ∈ sheet.tokensOf i, sheet.noteCount params token ≤ n) :
    s.Carries sheet params i n := by
  obtain ⟨rfl, -⟩ := new_sound h
  have hpending : ((fresh sheet params).mixer.pending i).length = 0 := by
    rw [fresh_pending, List.length_nil]
  refine ⟨⟨rfl, rfl, rfl, List.length_map .., ?_, ?_⟩, ?_⟩
  · intro token hm
    rw [fresh_left] at hm
    exact hn token hm
  · have := sheet.capacity_pos params
    omega
  · omega

/-- At any moment there is at most the bar that is held, and what the rest of a note covers. -/
theorem Carries.due_le (h : s.Carries sheet params i n) :
    s.due i ≤ 1 + (n - 1) / sheet.capacity params := by
  rw [Carries] at h
  rw [due]
  split
  · rename_i hp
    rw [hp] at h
    rw [h.1.capacity]
    exact Nat.le_add_left_of_le (Nat.div_le_div_right h.2)
  · rename_i hp
    rw [hp] at h
    rw [h.1.capacity]
    exact Nat.add_le_add_left (Nat.div_le_div_right h.2) 1
  · exact Nat.le_add_right 1 _
  · exact Nat.zero_le _

theorem Carries.carrying (h : s.Carries sheet params i n) (hw : s.isWorking = true) :
    Carrying sheet params i n s := by
  rw [Carries] at h
  rcases working_cases hw with hp | ⟨track, hp⟩ | ⟨bar, hp⟩ <;> rw [hp] at h
  · exact h.1
  · exact h
  · exact h.1

/-- The last track is never silenced. -/
theorem Carries.last_keepsTime (h : s.Carries sheet params i n) (hv : s.Valid) :
    s.KeepsTime (sheet.tracks.length - 1) := by
  intro hw hn
  rw [← (h.carrying hw).left_length]
  exact last_open (hv.sound hw) hn

end Synth

end PlainScore
