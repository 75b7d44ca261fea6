import PlainScore.Proofs.Synth.Performance

/-! The synthesizer plays its tracks together.
However the notes of the tracks lie across the bars, what is sent is the overlay of the voices
cut into bars. `Aligned` is the simulation: after `k` bars the rest of each voice is what is
pending of its track, followed by the notes that the track has left. -/
namespace PlainScore

namespace Sheet

variable (sheet : Sheet) (params : Audio.Params)

def Playable (token : String) : Prop :=
  ∃ note, Note.ofToken token = .ok note ∧
    params.sampleCount (note.value * Float.ofNat sheet.meter.denominator * sheet.beatDuration) ≤
      sampleLimit

def bar (k : Nat) : List Sample :=
  overlay (sheet.voices params) (k * sheet.capacity params) (sheet.capacity params)

def lastVoice : List Sample := (sheet.voices params).getD (sheet.tracks.length - 1) []

def wholeBars : Nat := (sheet.lastVoice params).length / sheet.capacity params

/-- A voice goes on behind the bars that the last track covers. -/
def hasRemainder : Bool :=
  (sheet.voices params).any
    (sheet.wholeBars params * sheet.capacity params < ·.length)

def remainder : List (List Sample) :=
  if sheet.hasRemainder params then [Mixer.trim (sheet.bar params (sheet.wholeBars params))]
  else []

def bars : List (List Sample) :=
  (List.range (sheet.wholeBars params)).map (sheet.bar params) ++ sheet.remainder params

/-- The bars that the last track covers, each the overlay of the voices. When a voice goes on behind
them, one more follows, which does not end in silence. -/
inductive Overlaid (sheet : Sheet) (params : Audio.Params) : List (List Sample) → Prop where
  | whole : sheet.hasRemainder params = false →
      Overlaid sheet params ((List.range (sheet.wholeBars params)).map (sheet.bar params))
  | rest {last : List Sample} : sheet.hasRemainder params = true →
      Mixer.Trimmed (sheet.bar params (sheet.wholeBars params)) last →
      Overlaid sheet params
        ((List.range (sheet.wholeBars params)).map (sheet.bar params) ++ [last])

variable {sheet params} {k : Nat}

theorem overlaid_bars (sheet : Sheet) (params : Audio.Params) :
    sheet.Overlaid params (sheet.bars params) := by
  rw [bars, remainder]
  by_cases h : sheet.hasRemainder params = true
  · rw [if_pos h]
    exact .rest h (Mixer.trimmed_trim _)
  · rw [if_neg h, List.append_nil]
    exact .whole (Bool.eq_false_iff.mpr h)

theorem drop_wholeBars :
    (sheet.bars params).drop (sheet.wholeBars params) = sheet.remainder params := by
  rw [bars, List.drop_left' (by rw [List.length_map, List.length_range])]

theorem capacity_pos (sheet : Sheet) (params : Audio.Params) : 0 < sheet.capacity params :=
  Nat.lt_of_lt_of_le Nat.zero_lt_one (Nat.le_max_right _ _)

theorem voices_eq_map (sheet : Sheet) (params : Audio.Params) :
    sheet.voices params =
      (List.range sheet.tracks.length).map fun i => (sheet.voices params).getD i [] := by
  apply List.ext_getElem
  · simp [voices]
  · intro i hi _
    simp [hi]

end Sheet

namespace Synth

variable {sheet : Sheet} {params : Audio.Params} {k : Nat} {s u : Synth}

/-- After `k` bars every track holds the rest of its voice. -/
structure Aligned (sheet : Sheet) (params : Audio.Params) (k : Nat) (s : Synth) : Prop where
  sound : s.Sound
  sheet_eq : s.sheet = sheet
  params_eq : s.params = params
  capacity : s.mixer.capacity = sheet.capacity params
  left_length : s.left.length = sheet.tracks.length
  rest : ∀ i, s.mixer.pending i ++ sheet.voice params (s.left.getD i []) =
    ((sheet.voices params).getD i []).drop (k * sheet.capacity params)
  covered : k * sheet.capacity params ≤ (sheet.lastVoice params).length

def Covers (s : Synth) (i : Nat) : Prop :=
  s.left.getD i [] = [] ∨ s.mixer.capacity ≤ (s.mixer.pending i).length

theorem Sound.covers (h : s.Sound) {i : Nat} (hi : i < s.left.length) (hw : s.wants i = false) :
    s.Covers i :=
  (h.not_wants hi hw).imp_left fun he => (h.exhausted_left i he).1

theorem Aligned.heard (h : Aligned sheet params k s) {i j : Nat} (hc : s.Covers i)
    (hj : j < sheet.capacity params) :
    (s.mixer.pending i).getD j 0 =
      ((sheet.voices params).getD i []).getD (k * sheet.capacity params + j) 0 := by
  have hr := congrArg (·.getD j 0) (h.rest i)
  simp only [List.getD_eq_getElem?_getD, List.getElem?_drop] at hr ⊢
  rw [← hr]
  rcases hc with hl | hf
  · rw [List.getD_eq_getElem?_getD] at hl
    rw [hl, Sheet.voice_nil, List.append_nil]
  · rw [h.capacity] at hf
    rw [List.getElem?_append_left (by omega)]

theorem Aligned.overlay_rows (h : Aligned sheet params k s)
    (hc : ∀ i < s.left.length, s.Covers i) :
    overlay s.mixer.queues.rows 0 s.mixer.capacity = sheet.bar params k := by
  rw [Sheet.bar, Mixer.rows_eq_map_pending, h.sound.lanes_length, h.capacity,
    sheet.voices_eq_map params, h.left_length]
  apply overlay_congr
  intro i hi j hj
  rw [Nat.zero_add]
  refine h.heard (hc i ?_) hj
  rw [h.left_length]
  exact List.mem_range.mp hi

theorem Aligned.with_phase (h : Aligned sheet params k s) (p : Phase) :
    Aligned sheet params k { s with phase := p } :=
  ⟨h.sound.with_phase p, h.sheet_eq, h.params_eq, h.capacity, h.left_length, h.rest, h.covered⟩

theorem Aligned.write (h : Aligned sheet params k s) (l : Line) :
    Aligned sheet params k (s.write l) :=
  ⟨h.sound.write l, h.sheet_eq, h.params_eq, h.capacity, h.left_length, h.rest, h.covered⟩

theorem Aligned.started (h : Aligned sheet params k s) :
    Aligned sheet params k { s with status := { s.status with started := true } } :=
  ⟨h.sound.started, h.sheet_eq, h.params_eq, h.capacity, h.left_length, h.rest, h.covered⟩

theorem Aligned.noteTaken (h : Aligned sheet params k s) {track : Nat} {token : String}
    {rest : List String} (hu : NoteTaken s track token rest u)
    (hl : s.left.getD track [] = token :: rest) : Aligned sheet params k u := by
  refine ⟨hu.sound h.sound hl, hu.sheet.trans h.sheet_eq, hu.params.trans h.params_eq,
    hu.capacity.trans h.capacity, hu.left_length.trans h.left_length, ?_, h.covered⟩
  intro i
  have hp := hu.pending_voice hl i
  rw [hu.sheet, hu.params, h.sheet_eq, h.params_eq] at hp
  rw [hp, h.rest i]

theorem Aligned.exhaust (h : Aligned sheet params k s) {track : Nat}
    (hl : s.left.getD track [] = []) (ht : track ≠ s.lastTrack) :
    Aligned sheet params k (s.exhaust track) :=
  ⟨exhaust_sound h.sound hl ht, h.sheet_eq, h.params_eq, h.capacity, h.left_length, h.rest,
    h.covered⟩

theorem Aligned.barTaken (h : Aligned sheet params k s) (hu : BarTaken s u)
    (hc : ∀ i < s.left.length, s.Covers i)
    (hlast : (k + 1) * sheet.capacity params ≤ (sheet.lastVoice params).length) :
    Aligned sheet params (k + 1) u := by
  refine ⟨hu.sound h.sound, hu.sheet.trans h.sheet_eq, hu.params.trans h.params_eq,
    hu.capacity.trans h.capacity, ?_, ?_, hlast⟩
  · rw [hu.left, h.left_length]
  · intro i
    have hr := congrArg (·.drop (sheet.capacity params)) (h.rest i)
    simp only [List.drop_drop, List.drop_append] at hr
    rw [hu.pending, hu.left, h.capacity, Nat.add_one_mul, ← hr]
    by_cases hi : i < s.left.length
    · rcases hc i hi with hl | hf
      · rw [hl, Sheet.voice_nil, List.drop_nil]
      · rw [h.capacity] at hf
        rw [Nat.sub_eq_zero_of_le hf, List.drop_zero]
    · have hl : s.left.getD i [] = [] := by
        rw [List.getD_eq_getElem?_getD, List.getElem?_eq_none (Nat.not_lt.mp hi)]
        rfl
      rw [hl, Sheet.voice_nil, List.drop_nil]

/-! ### The end of the last track -/

theorem Aligned.pending_eq_nil_iff (h : Aligned sheet params k s) {i : Nat} (hc : s.Covers i) :
    s.mixer.pending i = [] ↔
      ((sheet.voices params).getD i []).length ≤ k * sheet.capacity params := by
  have hr := congrArg List.length (h.rest i)
  rw [List.length_append, List.length_drop] at hr
  rw [← List.length_eq_zero_iff]
  rcases hc with hl | hf
  · rw [hl, Sheet.voice_nil, List.length_nil] at hr
    omega
  · have := sheet.capacity_pos params
    rw [h.capacity] at hf
    omega

theorem Aligned.left_ne_nil (h : Aligned sheet params k s) (hn : sheet.tracks ≠ []) :
    s.left ≠ [] := by
  rintro hl
  have := h.left_length
  rw [hl, List.length_nil] at this
  exact hn (List.length_eq_zero_iff.mp this.symm)

theorem Aligned.lastVoice (h : Aligned sheet params k s) :
    s.mixer.pending s.lastTrack ++ sheet.voice params (s.left.getD s.lastTrack []) =
      (sheet.lastVoice params).drop (k * sheet.capacity params) := by
  rw [h.rest, lastTrack, h.left_length, Sheet.lastVoice]

theorem Aligned.at_end (h : Aligned sheet params k s)
    (hl : s.left.getD s.lastTrack [] = [])
    (hopen : (s.mixer.pending s.lastTrack).length < s.mixer.capacity) :
    k = sheet.wholeBars params := by
  have hr := congrArg List.length h.lastVoice
  rw [hl, Sheet.voice_nil, List.append_nil, List.length_drop] at hr
  rw [h.capacity] at hopen
  have hc := h.covered
  rw [Sheet.wholeBars]
  symm
  refine Nat.div_eq_of_lt_le hc ?_
  rw [Nat.add_one_mul]
  omega

theorem Aligned.hasRemainder (h : Aligned sheet params (sheet.wholeBars params) s)
    (hc : ∀ i < s.left.length, s.Covers i) :
    sheet.hasRemainder params = true ↔ ∃ row ∈ s.mixer.queues.rows, row ≠ [] := by
  rw [Sheet.hasRemainder, Mixer.rows_eq_map_pending, h.sound.lanes_length, h.left_length,
    sheet.voices_eq_map params, List.any_map]
  simp only [List.any_eq_true, List.mem_range, Function.comp_apply, decide_eq_true_eq,
    List.mem_map, exists_exists_and_eq_and]
  refine exists_congr fun i => and_congr_right fun hi => ?_
  rw [ne_eq, h.pending_eq_nil_iff (hc i (by rw [h.left_length]; exact hi)), Nat.not_le]

theorem isFull_of_open (h : s.Sound) {i : Nat} (hi : i < s.left.length)
    (hopen : (s.mixer.pending i).length < s.mixer.capacity) : s.mixer.isFull = false := by
  have hl : i < s.mixer.lanes.length := by rw [h.lanes_length]; exact hi
  have hs := h.mixer_sound.lanes_sound _ (List.getElem_mem hl)
  rw [Mixer.isFull, List.all_eq_false]
  refine ⟨_, List.getElem_mem hl, ?_⟩
  rw [Bool.not_eq_true, hs.not_full_iff, ← Mixer.pending_of_getElem? (List.getElem?_eq_getElem hl)]
  exact hopen

theorem performs_conclude (s : Synth) :
    s.conclude.Performs [.endOfStream] (.ok ⟨s.totals⟩) :=
  performs_finish _ _

theorem performs_of_serving {bar : List Sample} {last : Bool} {chunks : List Chunk}
    {result : Result} (hp : s.phase = .serving bar last)
    (h : (if last then s.conclude else s.advance 0).Performs chunks result) :
    s.Performs (.samples bar :: chunks) result :=
  .step (by rw [canStep, hp]; rfl) (step_serving hp rfl false) h

theorem performs_of_polling {track : Nat} {chunks : List Chunk} {result : Result}
    (hp : s.phase = .polling track) (h : (s.pull track).Performs chunks result) :
    s.Performs chunks result := by
  have hs : s.step false {} = (s.pull track, {}) := by rw [step, hp]; rfl
  have hstep := Performs.step (by rw [canStep, hp]) hs h
  exact hstep

theorem Aligned.serveRemainder (h : Aligned sheet params k s) (hn : sheet.tracks ≠ [])
    (hl : s.left.getD s.lastTrack [] = [])
    (hopen : (s.mixer.pending s.lastTrack).length < s.mixer.capacity)
    (hc : ∀ i < s.lastTrack, s.Covers i) :
    ∃ report, s.serveRemainder.Performs
      (((sheet.bars params).drop k).map .samples ++ [.endOfStream]) (.ok report) := by
  obtain rfl := h.at_end hl hopen
  have hall : ∀ i < s.left.length, s.Covers i := by
    intro i hi
    by_cases hit : i = s.lastTrack
    · rw [hit]
      exact .inl hl
    · exact hc i (by rw [lastTrack] at hit ⊢; omega)
  rw [Sheet.drop_wholeBars, Sheet.remainder]
  rcases serveRemainder_spec h.sound with ⟨hempty, hr⟩ | ⟨hrows, v, -, hr⟩
  · have hrem : ¬ sheet.hasRemainder params = true := by
      rw [h.hasRemainder hall]
      rintro ⟨row, hm, hne⟩
      exact hne (hempty row hm)
    rw [hr, if_neg hrem]
    exact ⟨_, performs_conclude s⟩
  · have hfull := isFull_of_open h.sound (lastTrack_lt (h.left_ne_nil hn)) hopen
    rw [hr, if_pos ((h.hasRemainder hall).mpr hrows), hfull, h.overlay_rows hall]
    exact ⟨_, performs_of_serving rfl (performs_conclude _)⟩

theorem fresh_aligned (hroom : sheet.capacity params ≤ sampleLimit) :
    Aligned sheet params 0 (fresh sheet params) := by
  have hleft : ∀ i, (fresh sheet params).left.getD i [] =
      (sheet.tracks[i]?.map (·.tokens)).getD [] := by
    intro i
    simp only [fresh, List.getD_eq_getElem?_getD, List.getElem?_map]
  refine ⟨fresh_sound fun h => ?_, rfl, rfl, rfl, List.length_map .., fun i => ?_, ?_⟩
  · exact absurd h.2 (Nat.not_lt.mpr hroom)
  · rw [fresh_pending, hleft, Nat.zero_mul, List.drop_zero, List.nil_append, Sheet.voices,
      List.getD_eq_getElem?_getD, List.getElem?_map]
    cases sheet.tracks[i]? <;> rfl
  · rw [Nat.zero_mul]
    exact Nat.zero_le _

end Synth

end PlainScore
