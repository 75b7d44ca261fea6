import Mathlib.Algebra.Ring.Nat
import PlainScore.Proofs.Synth.Moves
import PlainScore.Proofs.Synth.Notes

/-! Every run of a synthesizer comes to an end.
`Valid` says where in its work a machine can be, and `rank` bounds the steps that it has before
it. An enabled step keeps the one and lowers the other, whatever the interrupt flag and the
output are at that moment. -/
namespace PlainScore

namespace Synth

variable {s u : Synth}

/-- Notes to take, tracks to find out of notes, and samples of the last track to play. -/
def workload (s : Synth) : Nat :=
  (s.left.map List.length).sum + s.exhausted.count false +
    ((s.mixer.pending s.lastTrack).length +
      (s.sheet.voice s.params (s.left.getD s.lastTrack [])).length)

/-- The machine looks at the first track that wants notes, and only while there are tracks. -/
def Valid (s : Synth) : Prop :=
  match s.phase with
  | .ready => s.Sound
  | .polling track => s.Sound ∧ track < s.left.length ∧ s.wants track = true ∧
      ∀ i < track, s.wants i = false
  | .serving _ false => s.Sound ∧ s.left ≠ []
  | _ => True

def rank (s : Synth) : Nat :=
  match s.phase with
  | .ready => 2 * s.workload + 7
  | .serving _ false => 2 * s.workload + 6
  | .polling _ => 2 * s.workload + 5
  | .serving _ true => 4
  | .ending _ => 3
  | .marking _ => 2
  | .leaving _ => 1
  | .done _ => 0

/-! ### What lowers the workload -/

private theorem sum_lengths_set {α : Type} {xss : List (List α)} {i : Nat} {x : α} {xs : List α}
    (h : xss.getD i [] = x :: xs) :
    ((xss.set i xs).map List.length).sum + 1 = (xss.map List.length).sum := by
  induction xss generalizing i with
  | nil => simp at h
  | cons ys yss ih =>
    cases i with
    | zero =>
      obtain rfl : ys = x :: xs := by simpa using h
      simp only [List.set_cons_zero, List.map_cons, List.sum_cons, List.length_cons]
      omega
    | succ i =>
      have := ih (i := i) (by simpa using h)
      simp only [List.set_cons_succ, List.map_cons, List.sum_cons]
      omega

theorem lt_length_of_getD {xss : List (List String)} {i : Nat} {x : String} {xs : List String}
    (h : xss.getD i [] = x :: xs) : i < xss.length := by
  by_contra hn
  rw [List.getD_eq_getElem?_getD, List.getElem?_eq_none (Nat.not_lt.mp hn)] at h
  cases h

theorem NoteTaken.left_length {track : Nat} {token : String} {rest : List String}
    (h : NoteTaken s track token rest u) : u.left.length = s.left.length := by
  rw [h.left, List.length_set]

theorem NoteTaken.lastTrack {track : Nat} {token : String} {rest : List String}
    (h : NoteTaken s track token rest u) : u.lastTrack = s.lastTrack := by
  rw [Synth.lastTrack, h.left_length, Synth.lastTrack]

theorem NoteTaken.left_self {track : Nat} {token : String} {rest : List String}
    (h : NoteTaken s track token rest u) (hl : s.left.getD track [] = token :: rest) :
    u.left.getD track [] = rest := by
  simp [h.left, List.getD_eq_getElem?_getD, lt_length_of_getD hl]

theorem NoteTaken.left_of_ne {track : Nat} {token : String} {rest : List String}
    (h : NoteTaken s track token rest u) {i : Nat} (hi : i ≠ track) :
    u.left.getD i [] = s.left.getD i [] := by
  rw [h.left, List.getD_eq_getElem?_getD, List.getElem?_set_ne (Ne.symm hi),
    ← List.getD_eq_getElem?_getD]

theorem NoteTaken.mem_left {track : Nat} {token : String} {rest : List String}
    (h : NoteTaken s track token rest u) (hl : s.left.getD track [] = token :: rest) {i : Nat}
    {other : String} (hm : other ∈ u.left.getD i []) : other ∈ s.left.getD i [] := by
  by_cases hi : i = track
  · subst hi
    rw [h.left_self hl] at hm
    exact hl ▸ List.mem_cons_of_mem token hm
  · rwa [h.left_of_ne hi] at hm

/-- A note only moves from what a track has left to what is pending of it. -/
theorem NoteTaken.pending_voice {track : Nat} {token : String} {rest : List String}
    (h : NoteTaken s track token rest u) (hl : s.left.getD track [] = token :: rest) (i : Nat) :
    u.mixer.pending i ++ u.sheet.voice u.params (u.left.getD i []) =
      s.mixer.pending i ++ s.sheet.voice s.params (s.left.getD i []) := by
  rw [h.pending i, h.sheet, h.params]
  by_cases hi : i = track
  · subst hi
    rw [if_pos rfl, h.left_self hl, hl, Sheet.voice_cons, List.append_assoc]
  · rw [if_neg hi, h.left_of_ne hi]

theorem NoteTaken.workload {track : Nat} {token : String} {rest : List String}
    (h : NoteTaken s track token rest u) (hl : s.left.getD track [] = token :: rest) :
    u.workload < s.workload := by
  have hs := sum_lengths_set hl
  have hp := congrArg List.length (h.pending_voice hl s.lastTrack)
  rw [List.length_append, List.length_append] at hp
  rw [Synth.workload, Synth.workload, h.lastTrack, hp, h.exhausted, h.left]
  omega

theorem exhaust_workload {track : Nat} (h : s.exhausted[track]? = some false) :
    (s.exhaust track).workload < s.workload := by
  obtain ⟨ht, hf⟩ := List.getElem?_eq_some_iff.mp h
  have hc : 0 < s.exhausted.count false := by
    rw [List.count_pos_iff, ← hf]
    exact List.getElem_mem ht
  have hset : (s.exhausted.set track true).count false = s.exhausted.count false - 1 := by
    simp [List.count_set ht, hf]
  simp only [Synth.workload, exhaust, write, lastTrack, hset]
  omega

theorem BarTaken.lastTrack (h : BarTaken s u) : u.lastTrack = s.lastTrack := by
  rw [Synth.lastTrack, h.left, Synth.lastTrack]

theorem BarTaken.workload (h : BarTaken s u) (hs : s.Sound)
    (hc : s.mixer.capacity ≤ (s.mixer.pending s.lastTrack).length) : u.workload < s.workload := by
  have hpos := hs.mixer_sound.capacity_pos
  rw [Synth.workload, Synth.workload, h.lastTrack, h.pending, h.sheet, h.params, h.exhausted,
    h.left, List.length_drop]
  omega

/-! ### Which tracks want notes -/

theorem wants_exhaust_self {track : Nat} : (s.exhaust track).wants track = false := by
  simp only [wants, exhaust, write, List.getD_eq_getElem?_getD]
  by_cases ht : track < s.exhausted.length
  · simp [ht]
  · simp [Nat.not_lt.mp ht]

theorem wants_exhaust_of_ne {track i : Nat} (h : i ≠ track) :
    (s.exhaust track).wants i = s.wants i := by
  simp only [wants, exhaust, write, List.getD_eq_getElem?_getD, List.getElem?_set_ne (Ne.symm h)]

theorem NoteTaken.wants_of_ne {track : Nat} {token : String} {rest : List String}
    (h : NoteTaken s track token rest u) (hs : s.Sound) (hl : s.left.getD track [] = token :: rest)
    {i : Nat} (hi : i < s.left.length) (hne : i ≠ track) : u.wants i = s.wants i := by
  have hu := (h.sound hs hl).wants_iff (i := i) (by rw [h.left_length]; exact hi)
  rw [h.exhausted, h.capacity, h.pending, if_neg hne, ← hs.wants_iff hi] at hu
  exact Bool.eq_iff_iff.mpr hu

theorem NoteTaken.wants_self {track : Nat} {token : String} {rest : List String}
    (h : NoteTaken s track token rest u) (hw : s.wants track = true) :
    u.wants track = !u.mixer.isTrackFull track := by
  rw [wants, Bool.and_eq_true] at hw
  rw [wants, h.exhausted, hw.1, Bool.true_and]

theorem lastTrack_lt (h : s.left ≠ []) : s.lastTrack < s.left.length :=
  Nat.sub_one_lt (List.length_eq_zero_iff.not.mpr h)

/-- The last track is never silenced, so that it covers every bar but the last. -/
theorem Sound.last_full (h : s.Sound) (hn : s.left ≠ []) (hw : s.wants s.lastTrack = false) :
    s.mixer.capacity ≤ (s.mixer.pending s.lastTrack).length :=
  (h.not_wants (lastTrack_lt hn) hw).resolve_left fun he => (h.exhausted_left _ he).2 rfl

theorem before_exhausted {track : Nat} (h : ∀ i < track, s.wants i = false) :
    ∀ i < track + 1, (s.exhaust track).wants i = false := by
  intro i hi
  by_cases hit : i = track
  · rw [hit]
    exact wants_exhaust_self
  · rw [wants_exhaust_of_ne hit]
    exact h i (by omega)

theorem NoteTaken.before {track : Nat} {token : String} {rest : List String}
    (hu : NoteTaken s track token rest u) (hs : s.Sound)
    (hl : s.left.getD track [] = token :: rest) (h : ∀ i < track, s.wants i = false) :
    ∀ i < track, u.wants i = false := by
  intro i hi
  have ht := lt_length_of_getD hl
  rw [hu.wants_of_ne hs hl (Nat.lt_trans hi ht) (Nat.ne_of_lt hi)]
  exact h i hi

theorem NoteTaken.before_full {track : Nat} {token : String} {rest : List String}
    (hu : NoteTaken s track token rest u) (hs : s.Sound)
    (hl : s.left.getD track [] = token :: rest) (h : ∀ i < track, s.wants i = false)
    (hw : s.wants track = true) (hf : u.mixer.isTrackFull track = true) :
    ∀ i < track + 1, u.wants i = false := by
  intro i hi
  by_cases hit : i = track
  · rw [hit, hu.wants_self hw, hf]
    rfl
  · exact hu.before hs hl h i (by omega)

theorem NoteTaken.left_ne_nil {track : Nat} {token : String} {rest : List String}
    (hu : NoteTaken s track token rest u) (hn : s.left ≠ []) : u.left ≠ [] := by
  rw [hu.left, ne_eq, List.set_eq_nil_iff]
  exact hn

/-! ### Steps -/

theorem Sound.with_phase (h : s.Sound) (p : Phase) : Sound { s with phase := p } :=
  ⟨h.mixer_sound, h.lanes_length, h.exhausted_length, h.exhausted_left⟩

theorem Sound.write (h : s.Sound) (l : Line) : (s.write l).Sound :=
  ⟨h.mixer_sound, h.lanes_length, h.exhausted_length, h.exhausted_left⟩

theorem Sound.started (h : s.Sound) :
    Sound { s with status := { s.status with started := true } } :=
  ⟨h.mixer_sound, h.lanes_length, h.exhausted_length, h.exhausted_left⟩

theorem advance_valid (h : s.Sound) (hn : s.left ≠ []) {start : Nat}
    (hw : ∀ i < start, s.wants i = false) :
    (s.advance start).Valid ∧ (s.advance start).rank ≤ 2 * s.workload + 5 := by
  rcases advance_spec hw with ⟨track, ht, hwt, hbefore, ha⟩ | ⟨hall, ha⟩
  · rw [ha]
    exact ⟨⟨h.with_phase _, ht, hwt, hbefore⟩, Nat.le_refl _⟩
  · obtain ⟨v, hv, hc⟩ := closeBar_spec h hn hall
    have hlt := hv.workload h (h.last_full hn (hall _ (lastTrack_lt hn)))
    rw [ha, hc]
    refine ⟨⟨(hv.sound h).with_phase _, ?_⟩, ?_⟩
    · change v.left ≠ []
      rw [hv.left]
      exact hn
    · change 2 * v.workload + 6 ≤ 2 * s.workload + 5
      omega

theorem serveRemainder_valid (h : s.Sound) :
    s.serveRemainder.Valid ∧ s.serveRemainder.rank ≤ 4 := by
  rcases serveRemainder_spec h with ⟨-, hr⟩ | ⟨-, v, -, hr⟩
  · rw [hr]
    exact ⟨trivial, Nat.le_succ 3⟩
  · rw [hr]
    exact ⟨trivial, Nat.le_refl 4⟩

theorem pull_valid (h : s.Sound) {track : Nat} (ht : track < s.left.length)
    (hw : s.wants track = true) (hbefore : ∀ i < track, s.wants i = false) :
    (s.pull track).Valid ∧ (s.pull track).rank < 2 * s.workload + 5 := by
  have hn : s.left ≠ [] := List.ne_nil_of_length_pos (Nat.zero_lt_of_lt ht)
  have hp := pull_spec h ht hw
  generalize s.pull track = v at hp ⊢
  cases hp with
  | ended =>
    obtain ⟨hv, hr⟩ := serveRemainder_valid (h.write (.debug s!"No more notes in track {track}"))
    exact ⟨hv, by omega⟩
  | exhausted hl hlast =>
    have hlt := exhaust_workload ((h.wants_iff ht).mp hw).1
    obtain ⟨hv, hr⟩ := advance_valid (exhaust_sound h hl hlast) hn (before_exhausted hbefore)
    exact ⟨hv, by omega⟩
  | refused => exact ⟨trivial, by change 3 < _; omega⟩
  | lost => exact ⟨trivial, by change 3 < _; omega⟩
  | full hl hu hf =>
    have hlt := hu.workload hl
    obtain ⟨hv, hr⟩ := advance_valid (hu.sound h hl) (hu.left_ne_nil hn)
      (hu.before_full h hl hbefore hw hf)
    exact ⟨hv, by omega⟩
  | @wanting token rest u hl hu hf =>
    have hlt := hu.workload hl
    refine ⟨⟨(hu.sound h hl).with_phase _, ?_, ?_, hu.before h hl hbefore⟩, ?_⟩
    · exact hu.left_length ▸ ht
    · exact (hu.wants_self hw).trans (by rw [hf]; rfl)
    · change 2 * u.workload + 5 < _
      omega

theorem start_valid (h : s.Sound) :
    s.start.Valid ∧ s.start.rank < 2 * s.workload + 7 := by
  have hs := h.started
  unfold start
  dsimp only
  split
  · obtain ⟨hv, hr⟩ := serveRemainder_valid (hs.write (startRemark s.sheet))
    exact ⟨hv, Nat.lt_of_le_of_lt hr (by omega)⟩
  · rename_i hn
    obtain ⟨hv, hr⟩ := advance_valid (hs.write (startRemark s.sheet)) hn
      fun i hi => absurd hi (Nat.not_lt_zero i)
    exact ⟨hv, Nat.lt_of_le_of_lt hr (Nat.lt_add_of_pos_right (by decide : 0 < 2))⟩

def fresh (sheet : Sheet) (params : Audio.Params) : Synth where
  sheet := sheet
  params := params
  mixer := ⟨sheet.capacity params, List.replicate sheet.tracks.length .empty⟩
  left := sheet.tracks.map (·.tokens)
  exhausted := List.replicate sheet.tracks.length false
  totals := List.replicate sheet.tracks.length 0
  phase := .ready
  status := {}
  journal := .empty

theorem new_eq (sheet : Sheet) (params : Audio.Params) :
    new sheet params =
      if 0 < sheet.tracks.length ∧ sampleLimit < sheet.capacity params then .error .outOfRoom
      else .ok (fresh sheet params) := by
  unfold new Mixer.ofBar
  dsimp only
  by_cases h : 0 < sheet.tracks.length ∧ sampleLimit < sheet.capacity params
  · rw [if_pos h, Mixer.withCapacity_fails h]
    rfl
  · rw [if_neg h, Mixer.withCapacity_succeeds h]
    rfl

theorem fresh_sound {sheet : Sheet} {params : Audio.Params}
    (h : ¬ (0 < sheet.tracks.length ∧ sampleLimit < sheet.capacity params)) :
    (fresh sheet params).Sound := by
  refine ⟨Mixer.fresh_sound h, ?_, ?_, ?_⟩
  · simp [fresh]
  · simp [fresh]
  · intro i hi
    simp [fresh, List.getElem?_replicate] at hi

theorem fresh_pending (sheet : Sheet) (params : Audio.Params) (i : Nat) :
    (fresh sheet params).mixer.pending i = [] := by
  rw [Mixer.pending, fresh, Sheet.capacity, Mixer.queues_fresh, Queues.empty,
    List.getD_eq_getElem?_getD, List.getElem?_replicate]
  split <;> rfl

theorem new_sound {sheet : Sheet} {params : Audio.Params} (h : new sheet params = .ok s) :
    s = fresh sheet params ∧ s.Sound := by
  rw [new_eq] at h
  by_cases hn : 0 < sheet.tracks.length ∧ sampleLimit < sheet.capacity params
  · rw [if_pos hn] at h
    cases h
  · rw [if_neg hn] at h
    cases h
    exact ⟨rfl, fresh_sound hn⟩

theorem new_of_room {sheet : Sheet} {params : Audio.Params}
    (hroom : sheet.tracks = [] ∨ sheet.capacity params ≤ sampleLimit) :
    new sheet params = .ok (fresh sheet params) := by
  rw [new_eq, if_neg]
  rintro ⟨hn, hlong⟩
  rcases hroom with hnil | hle
  · exact List.length_pos_iff.mp hn hnil
  · exact absurd hlong (Nat.not_lt.mpr hle)

theorem room_of_new {sheet : Sheet} {params : Audio.Params} (h : new sheet params = .ok s)
    (hn : sheet.tracks ≠ []) : sheet.capacity params ≤ sampleLimit := by
  rw [new_eq] at h
  by_contra hlong
  rw [if_pos ⟨List.length_pos_iff.mpr hn, Nat.not_le.mp hlong⟩] at h
  cases h

theorem new_valid {sheet : Sheet} {params : Audio.Params} (h : new sheet params = .ok s) :
    s.Valid := by
  obtain ⟨rfl, hs⟩ := new_sound h
  exact hs

/-- The step lemma: a run goes on in good order and gets shorter. -/
theorem step_valid (h : s.Valid) {output : Handoff} (hc : s.canStep output = true)
    (interrupted : Bool) :
    (s.step interrupted output).1.Valid ∧ (s.step interrupted output).1.rank < s.rank := by
  rw [Valid] at h
  rw [canStep] at hc
  cases hp : s.phase with
  | ready =>
    rw [hp] at h
    simp only [step, rank, hp]
    exact start_valid h
  | polling track =>
    rw [hp] at h
    obtain ⟨hs, ht, hw, hbefore⟩ := h
    simp only [step, rank, hp]
    cases interrupted with
    | true => exact ⟨trivial, by change 3 < _; omega⟩
    | false => exact pull_valid hs ht hw hbefore
  | serving bar last =>
    rw [hp] at h hc
    rw [step_serving hp hc]
    simp only [rank, hp]
    split
    · cases last with
      | true => exact ⟨trivial, Nat.lt_succ_self 3⟩
      | false =>
        obtain ⟨hv, hr⟩ := advance_valid h.1 h.2 fun i hi => absurd hi (Nat.not_lt_zero i)
        exact ⟨hv, Nat.lt_of_le_of_lt hr (Nat.lt_succ_self _)⟩
    · refine ⟨trivial, ?_⟩
      cases last with
      | true => exact Nat.lt_succ_self 3
      | false => change 3 < 2 * s.workload + 6; omega
  | ending result =>
    rw [hp] at hc
    rw [step_ending hp hc]
    simp only [rank, hp]
    split
    · exact ⟨trivial, Nat.lt_succ_self 2⟩
    · exact ⟨trivial, Nat.lt_succ_self 2⟩
  | marking result =>
    simp only [step, rank, hp]
    exact ⟨trivial, Nat.lt_succ_self 1⟩
  | leaving result =>
    simp only [step, rank, hp]
    exact ⟨trivial, Nat.lt_succ_self 0⟩
  | done result =>
    rw [hp] at hc
    cases hc

/-! ### The machine and its output -/

structure Linked (s : Synth) (output : Handoff) : Prop where
  valid : s.Valid
  sender : output.sender = s.result?.isNone
  finished : s.status.finished = s.hasMarked

theorem new_linked {sheet : Sheet} {params : Audio.Params} (h : new sheet params = .ok s) :
    s.Linked {} := by
  have hv := new_valid h
  obtain ⟨rfl, -⟩ := new_sound h
  exact ⟨hv, rfl, rfl⟩

theorem Linked.of_sender {output output' : Handoff} (h : s.Linked output)
    (hs : output'.sender = output.sender) : s.Linked output' :=
  ⟨h.valid, hs.trans h.sender, h.finished⟩

theorem Linked.step {output : Handoff} (h : s.Linked output) (hc : s.canStep output = true)
    (interrupted : Bool) :
    (s.step interrupted output).1.Linked (s.step interrupted output).2 := by
  have hv := (step_valid h.valid hc interrupted).1
  have hm := step_moved hc interrupted
  have hgoes : ∀ {t : Synth} {out : Handoff}, t.Valid → s.hasEnded = false → Goes s t →
      out.sender = output.sender → t.Linked out := by
    intro t out ht hn hg ho
    refine ⟨ht, ?_, ?_⟩
    · rw [ho, h.sender, no_result_of_not_ended hn, no_result_of_not_ended hg.not_ended]
    · rw [hg.finished, h.finished, not_marked_of_not_ended hn,
        not_marked_of_not_ended hg.not_ended]
  generalize (s.step interrupted output).1 = t at hv hm ⊢
  generalize (s.step interrupted output).2 = out at hm ⊢
  cases hm with
  | worked hn hg => exact hgoes hv hn hg rfl
  | stopped hp => exact hgoes hv (by rw [hasEnded, hp]) (goes_fail s _) rfl
  | served hp _ _ hg => exact hgoes hv (by rw [hasEnded, hp]) hg rfl
  | refused hp => exact hgoes hv (by rw [hasEnded, hp]) (goes_fail s _) rfl
  | ended hp =>
    refine ⟨hv, h.sender.trans ?_, h.finished.trans ?_⟩
    · rw [result?, hp]
      rfl
    · rw [hasMarked, hp]
      rfl
  | unheard hp =>
    refine ⟨hv, h.sender.trans ?_, h.finished.trans ?_⟩
    · rw [result?, hp]
      rfl
    · rw [hasMarked, hp]
      rfl
  | marked hp =>
    refine ⟨hv, h.sender.trans ?_, rfl⟩
    rw [result?, hp]
    rfl
  | left hp =>
    refine ⟨hv, rfl, h.finished.trans ?_⟩
    rw [hasMarked, hp]
    rfl

end Synth

end PlainScore
