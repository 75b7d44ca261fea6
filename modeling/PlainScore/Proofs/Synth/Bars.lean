import PlainScore.Proofs.Mixer.Queues
import PlainScore.Synth

/-! How the synthesizer closes a bar.
When no track wants notes any more, tracks that are out of notes are silenced and the bar is
mixed. On a sound state this cannot fail: the bar is the overlay of what is pending, and one
bar of samples leaves every track. -/
namespace PlainScore

namespace Mixer

variable {m : Mixer}

def pending (m : Mixer) (track : Nat) : List Sample := m.queues.rows.getD track []

theorem pending_of_getElem? {track : Nat} {l : Lane} (hl : m.lanes[track]? = some l) :
    m.pending track = l.pending := by
  simp [pending, queues, hl]

theorem rows_eq_map_pending (m : Mixer) :
    m.queues.rows = (List.range m.lanes.length).map m.pending := by
  apply List.ext_getElem
  · simp [queues]
  · intro i hi _
    simp only [List.getElem_map, List.getElem_range, pending]
    rw [List.getD_eq_getElem?_getD, List.getElem?_eq_getElem hi, Option.getD_some]

theorem pending_setLane {track : Nat} (l : Lane) (ht : track < m.lanes.length) (i : Nat) :
    pending { m with lanes := m.lanes.set track l } i =
      if i = track then l.pending else m.pending i := by
  by_cases hi : i = track
  · subst hi
    rw [if_pos rfl, pending_of_getElem? (l := l) (by simp [ht])]
  · rw [if_neg hi]
    simp [pending, queues, List.map_set, Ne.symm hi]

theorem isTrackFull_of_getElem? {track : Nat} {l : Lane} (hl : m.lanes[track]? = some l) :
    m.isTrackFull track = l.isFull m.capacity := by
  rw [isTrackFull, hl]

theorem Sound.isTrackFull_iff (h : m.Sound) {track : Nat} (ht : track < m.lanes.length) :
    m.isTrackFull track = true ↔ m.capacity ≤ (m.pending track).length := by
  have hl := List.getElem?_eq_getElem ht
  rw [isTrackFull_of_getElem? hl, pending_of_getElem? hl]
  exact (h.lanes_sound _ (List.getElem_mem ht)).isFull_iff

theorem Sound.isEmpty_iff (h : m.Sound) : m.isEmpty = true ↔ ∀ row ∈ m.queues.rows, row = [] := by
  simp only [isEmpty, List.all_eq_true, beq_iff_eq, queues, List.forall_mem_map]
  apply forall₂_congr
  intro l hl
  have hs := h.lanes_sound l hl
  have hn := hs.length_pending
  rw [← List.length_eq_zero_iff, hn]
  constructor
  · intro hw
    cases hc : l.carry with
    | none => simpa using hw
    | some rest =>
      have := (hs.carry_full rest hc).2
      have := h.capacity_pos
      omega
  · omega

theorem Sound.room_of_track (h : m.Sound) (hn : m.lanes ≠ []) : ¬ sampleLimit < m.capacity :=
  Nat.not_lt.mpr (h.room.resolve_left hn)

theorem Sound.flush (h : m.Sound) (hn : m.lanes ≠ []) (hf : m.isFull = true) :
    m.flush = .ok (overlay m.queues.rows 0 m.capacity, m.reset) := by
  have hi : m.lanes.findIdx? (!Lane.isFull m.capacity ·) = none := by
    rw [List.findIdx?_eq_none_iff]
    intro l hl
    rw [isFull, List.all_eq_true] at hf
    simp [hf l hl]
  simp only [Mixer.flush, hi]
  rw [wholeBar, if_neg (h.room_of_track hn), mix_of_full h hf]

/-- Either a whole bar or a trimmed one; the queues lose a bar in both cases. -/
theorem Sound.forceFlush (h : m.Sound) (hn : m.lanes ≠ []) :
    ∃ n : Mixer, n.Sound ∧
      n.queues = { m.queues with rows := m.queues.rows.map (·.drop m.capacity) } ∧
      m.forceFlush = .ok ((if m.isFull then id else trim)
        (overlay m.queues.rows 0 m.capacity), n) := by
  unfold Mixer.forceFlush
  cases hf : m.isFull with
  | true =>
    refine ⟨m.reset, h.reset, queues_reset h, ?_⟩
    rw [if_pos rfl, if_pos rfl, wholeBar, if_neg (h.room_of_track hn), mix_of_full h hf]
    rfl
  | false =>
    have hh := h.map fun _ hl => Lane.hush_sound hl
    have hq := queues_map (g := id) h fun _ hl => Lane.pending_hush hl
    refine ⟨_, hh.reset, ?_, ?_⟩
    · rw [queues_reset hh, hq, List.map_id]
    · have ht := trim_mix_hush h
      dsimp only at ht
      simp only [Bool.false_eq_true, if_false, ht]

end Mixer

namespace Synth

/-- The parts of a synthesizer fit together, and a track that is out of notes is not the last. -/
structure Sound (s : Synth) : Prop where
  mixer_sound : s.mixer.Sound
  lanes_length : s.mixer.lanes.length = s.left.length
  exhausted_length : s.exhausted.length = s.left.length
  exhausted_left : ∀ i, s.exhausted[i]? = some true → s.left.getD i [] = [] ∧ i ≠ s.lastTrack

variable {s : Synth}

theorem Sound.lanes_ne_nil (h : s.Sound) (hn : s.left ≠ []) : s.mixer.lanes ≠ [] := by
  intro hl
  have := h.lanes_length
  rw [hl, List.length_nil] at this
  exact hn (List.length_eq_zero_iff.mp this.symm)

theorem Sound.wants_iff (h : s.Sound) {i : Nat} (hi : i < s.left.length) :
    s.wants i = true ↔
      s.exhausted[i]? = some false ∧ (s.mixer.pending i).length < s.mixer.capacity := by
  have he : i < s.exhausted.length := by rw [h.exhausted_length]; exact hi
  have hl : i < s.mixer.lanes.length := by rw [h.lanes_length]; exact hi
  have hf := h.mixer_sound.isTrackFull_iff hl
  have hx : s.exhausted.getD i true = s.exhausted[i] := by
    rw [List.getD_eq_getElem?_getD, List.getElem?_eq_getElem he, Option.getD_some]
  rw [wants, Bool.and_eq_true, Bool.not_eq_true', Bool.not_eq_true', hx,
    List.getElem?_eq_getElem he, Option.some_inj, ← Bool.not_eq_true (s.mixer.isTrackFull i), hf,
    Nat.not_le]

theorem Sound.not_wants (h : s.Sound) {i : Nat} (hi : i < s.left.length)
    (hw : s.wants i = false) :
    s.exhausted[i]? = some true ∨ s.mixer.capacity ≤ (s.mixer.pending i).length := by
  have he : i < s.exhausted.length := by rw [h.exhausted_length]; exact hi
  by_contra hn
  rw [not_or, Nat.not_le] at hn
  have hx : s.exhausted[i]? = some false := by
    rw [List.getElem?_eq_getElem he] at hn ⊢
    simpa using hn.1
  rw [(h.wants_iff hi).mpr ⟨hx, hn.2⟩] at hw
  cases hw

/-! ### Silencing -/

private theorem silenced_cons {gone : List Bool} {g : Bool} {i k : Nat} (hi : i ≠ k) :
    (k + 1 ≤ i ∧ gone[i - (k + 1)]? = some true) ↔ (k ≤ i ∧ (g :: gone)[i - k]? = some true) := by
  by_cases hk : k + 1 ≤ i
  · have he : i - k = i - (k + 1) + 1 := by omega
    rw [he, List.getElem?_cons_succ]
    exact and_congr_left fun _ => by omega
  · constructor
    · intro h
      exact absurd h.1 hk
    · intro h
      omega

def silenceIfGone (m : Mixer) (entry : Bool × Nat) : Except Error Mixer :=
  if entry.1 then m.fillSilence entry.2 else .ok m

/-- The tracks from `k` on are silenced where they are out of notes, and no others. -/
theorem silence_from_spec {gone : List Bool} {k : Nat} {m : Mixer} (h : m.Sound)
    (hk : k + gone.length = m.lanes.length) :
    ∃ n : Mixer, (gone.zipIdx k).foldlM silenceIfGone m = .ok n ∧ n.Sound ∧
      n.capacity = m.capacity ∧ n.lanes.length = m.lanes.length ∧
      ∀ i, n.pending i = if k ≤ i ∧ gone[i - k]? = some true then
        (m.pending i).rightpad m.capacity 0 else m.pending i := by
  induction gone generalizing k m with
  | nil => exact ⟨m, rfl, h, rfl, rfl, by simp⟩
  | cons g gone ih =>
    rw [List.length_cons] at hk
    cases g with
    | false =>
      obtain ⟨n, hn, hs, hc, hl, hp⟩ := ih (k := k + 1) h (by omega)
      refine ⟨n, hn, hs, hc, hl, ?_⟩
      intro i
      rw [hp i]
      by_cases hi : i = k
      · subst hi
        rw [if_neg (by omega), if_neg (by simp)]
      · simp only [silenced_cons (g := false) hi]
    | true =>
      have hlt : k < m.lanes.length := by omega
      have hlane := List.getElem?_eq_getElem hlt
      have hsound := h.lanes_sound _ (List.getElem_mem hlt)
      have hf := Mixer.fillSilence_of_getElem? hlane
      obtain ⟨n, hn, hs, hc, hl, hp⟩ :=
        ih (k := k + 1) (Mixer.fillSilence_sound h hf) (by simp; omega)
      refine ⟨n, ?_, hs, hc, hl.trans (List.length_set ..), ?_⟩
      · rw [List.zipIdx_cons, List.foldlM_cons, silenceIfGone, if_pos rfl, hf]
        exact hn
      · intro i
        rw [hp i, Mixer.pending_setLane _ hlt]
        by_cases hi : i = k
        · subst hi
          rw [if_neg (by omega), if_pos rfl, if_pos ⟨Nat.le_refl _, by simp⟩,
            Mixer.pending_of_getElem? hlane, Lane.pending_fillSilence hsound]
        · simp only [if_neg hi, silenced_cons (g := true) hi]

theorem silenceExhausted_spec {m : Mixer} {exhausted : List Bool} (h : m.Sound)
    (hn : exhausted.length = m.lanes.length) :
    ∃ n : Mixer, silenceExhausted m exhausted = .ok n ∧ n.Sound ∧ n.capacity = m.capacity ∧
      n.lanes.length = m.lanes.length ∧ ∀ i, n.pending i =
        if exhausted[i]? = some true then (m.pending i).rightpad m.capacity 0 else m.pending i := by
  have hk : 0 + exhausted.length = m.lanes.length := (Nat.zero_add _).trans hn
  obtain ⟨n, hr, hs, hc, hl, hp⟩ := silence_from_spec h hk
  refine ⟨n, hr, hs, hc, hl, ?_⟩
  intro i
  simpa using hp i

private theorem drop_rightpad (row : List Sample) (n : Nat) :
    (row.rightpad n 0).drop n = row.drop n := by
  rw [List.rightpad, List.drop_append, List.drop_replicate]
  simp

private theorem getD_rightpad (row : List Sample) (n j : Nat) :
    (row.rightpad n 0).getD j 0 = row.getD j 0 := by
  simp only [List.rightpad, List.getD_eq_getElem?_getD, List.getElem?_append]
  by_cases hj : j < row.length
  · rw [if_pos hj]
  · rw [if_neg hj, List.getElem?_eq_none (Nat.not_lt.mp hj), List.getElem?_replicate]
    split <;> rfl

/-- The synthesizer `u` is `s` after one bar has left every track of its mixer. -/
structure BarTaken (s u : Synth) : Prop where
  sheet : u.sheet = s.sheet
  params : u.params = s.params
  left : u.left = s.left
  exhausted : u.exhausted = s.exhausted
  totals : u.totals = s.totals
  status : u.status = s.status
  mixer_sound : u.mixer.Sound
  queues : u.mixer.queues =
    { s.mixer.queues with rows := s.mixer.queues.rows.map (·.drop s.mixer.capacity) }

theorem BarTaken.capacity {u : Synth} (h : BarTaken s u) : u.mixer.capacity = s.mixer.capacity :=
  congrArg Queues.capacity h.queues

theorem BarTaken.pending {u : Synth} (h : BarTaken s u) (i : Nat) :
    u.mixer.pending i = (s.mixer.pending i).drop s.mixer.capacity := by
  have hr := congrArg Queues.rows h.queues
  dsimp only at hr
  rw [Mixer.pending, hr, Mixer.pending]
  simp only [List.getD_eq_getElem?_getD, List.getElem?_map]
  cases s.mixer.queues.rows[i]? <;> simp

theorem BarTaken.sound {u : Synth} (h : BarTaken s u) (hs : s.Sound) : u.Sound := by
  have hl := congrArg (fun q => q.rows.length) h.queues
  simp only [Mixer.queues, List.length_map] at hl
  refine ⟨h.mixer_sound, ?_, ?_, ?_⟩
  · rw [hl, h.left, hs.lanes_length]
  · rw [h.exhausted, h.left, hs.exhausted_length]
  · rw [h.exhausted, lastTrack, h.left]
    exact hs.exhausted_left

/-- Silence is neither heard in the bar nor left behind it. -/
theorem closeBar_spec (h : s.Sound) (hn : s.left ≠ [])
    (hw : ∀ i < s.left.length, s.wants i = false) :
    ∃ u, BarTaken s u ∧ s.closeBar =
      { u with phase := .serving (overlay s.mixer.queues.rows 0 s.mixer.capacity) false } := by
  obtain ⟨m, hm, hms, hmc, hml, hmp⟩ := silenceExhausted_spec h.mixer_sound
    (h.exhausted_length.trans h.lanes_length.symm)
  have hne : m.lanes ≠ [] := by
    rw [← List.length_pos_iff, hml, List.length_pos_iff]
    exact h.lanes_ne_nil hn
  have hf : m.isFull = true := by
    rw [Mixer.isFull, List.all_eq_true]
    intro l hl
    obtain ⟨i, hi, rfl⟩ := List.getElem_of_mem hl
    have hl' := List.getElem?_eq_getElem hi
    rw [(hms.lanes_sound _ hl).isFull_iff, ← Mixer.pending_of_getElem? hl', hmp i, hmc]
    have hi' : i < s.left.length := by rw [← h.lanes_length, ← hml]; exact hi
    rcases h.not_wants hi' (hw i hi') with he | hc
    · rw [if_pos he, List.length_rightpad]
      exact Nat.le_max_left _ _
    · split
      · rw [List.length_rightpad]
        exact Nat.le_max_left _ _
      · exact hc
  have hbar : overlay m.queues.rows 0 s.mixer.capacity =
      overlay s.mixer.queues.rows 0 s.mixer.capacity := by
    rw [Mixer.rows_eq_map_pending, Mixer.rows_eq_map_pending, hml]
    apply overlay_congr
    intro i _ j _
    rw [hmp i]
    split
    · exact getD_rightpad _ _ _
    · rfl
  have hrest : m.queues.rows.map (·.drop s.mixer.capacity) =
      s.mixer.queues.rows.map (·.drop s.mixer.capacity) := by
    rw [Mixer.rows_eq_map_pending, Mixer.rows_eq_map_pending, hml, List.map_map, List.map_map]
    apply List.map_congr_left
    intro i _
    simp only [Function.comp_apply, hmp i]
    split
    · exact drop_rightpad _ _
    · rfl
  have hq : m.reset.queues =
      { s.mixer.queues with rows := s.mixer.queues.rows.map (·.drop s.mixer.capacity) } := by
    rw [Mixer.queues_reset hms, hmc, hrest]
    simp only [Mixer.queues, hmc]
  refine ⟨{ s with
      mixer := m.reset
      journal := s.journal.write (.debug "Serving buffer") }, ?_, ?_⟩
  · exact ⟨rfl, rfl, rfl, rfl, rfl, rfl, hms.reset, hq⟩
  · simp only [closeBar, hm, write, hms.flush hne hf, hmc, hbar]

theorem advance_of_wants {track : Nat} (ht : track < s.left.length)
    (hw : s.wants track = true) : s.advance track = { s with phase := .polling track } := by
  have hl : s.left.length - track = s.left.length - track - 1 + 1 := by omega
  rw [advance, hl, List.range'_succ, List.find?_cons_of_pos hw]

theorem advance_spec {start : Nat} (hw : ∀ i < start, s.wants i = false) :
    (∃ track < s.left.length, s.wants track = true ∧ (∀ i < track, s.wants i = false) ∧
      s.advance start = { s with phase := .polling track }) ∨
    (∀ i < s.left.length, s.wants i = false) ∧ s.advance start = s.closeBar := by
  unfold advance
  cases hf : (List.range' start (s.left.length - start)).find? s.wants with
  | some track =>
    left
    obtain ⟨hwt, hm, hfirst⟩ := List.find?_range'_eq_some.mp hf
    rw [List.mem_range'_1] at hm
    refine ⟨track, by omega, hwt, ?_, rfl⟩
    intro i hi
    by_cases his : i < start
    · exact hw i his
    · simpa using hfirst i (Nat.not_lt.mp his) hi
  | none =>
    right
    refine ⟨?_, rfl⟩
    intro i hi
    by_cases his : i < start
    · exact hw i his
    · simpa using List.find?_range'_eq_none.mp hf i (Nat.not_lt.mp his) (by omega)

end Synth

end PlainScore
