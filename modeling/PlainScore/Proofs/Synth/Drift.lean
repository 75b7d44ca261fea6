import PlainScore.Proofs.Binary.Error
import PlainScore.Proofs.Synth.Counts
import PlainScore.Proofs.Token.Value

/-! Tracks drift apart by less than a sample a note.
The length of every note is cut to whole samples, and what is cut off is not made up for by the
notes behind it. Two tracks that have played equal exact values are therefore off by no more
samples than the longer of them has notes, and by the rounding of their length. They are not off at
all as long as a beat is exact and every note is a whole number of samples. -/
namespace PlainScore

open Binary

def Note.exactValue (token : String) : ℚ :=
  match ofToken token with
  | .ok note => exact note.value
  | .error _ => 0

def Track.exactTotal (tokens : List String) : ℚ := (tokens.map Note.exactValue).sum

namespace Sheet

/-- The samples that a value should last, as a rational number. -/
def exactLength (sheet : Sheet) (value : ℚ) : ℚ :=
  value * sheet.meter.denominator * (60 / exact sheet.bpm) * Audio.sampleRate

variable {sheet : Sheet} {params : Audio.Params} {v : Float}

theorem Accepted.reads_tempo (ha : sheet.Accepted) :
    Reads sheet.bpm (exact sheet.bpm) ∧ 0 < exact sheet.bpm := by
  obtain ⟨hfin, hpos⟩ := ha.tempo
  exact reads_of_pos hfin hpos

theorem reads_sampleRate : Reads (Float.ofNat Audio.sampleRate) Audio.sampleRate :=
  reads_ofNat (by norm_num [Audio.sampleRate])

/-! ### The length of a note -/

/-- The product of value, denominator and beat is rounded twice, and so is the beat. -/
theorem Accepted.approximates_seconds (ha : sheet.Accepted)
    (hd : sheet.meter.denominator < Meter.bound) (hv : Unsigned v) :
    Approximates 3 (1 / 2 ^ 1075) (v * Float.ofNat sheet.meter.denominator * sheet.beatDuration)
      (exact v * sheet.meter.denominator * (60 / exact sheet.bpm)) := by
  obtain ⟨htempo, hpos⟩ := ha.reads_tempo
  have hbeats := hv.approximates_mul_natCast (Nat.pos_of_ne_zero ha.denominator_ne_zero)
    (hd.trans (by norm_num [Meter.bound]))
  have hbeats0 : 0 ≤ exact v * sheet.meter.denominator :=
    mul_nonneg hv.exact_nonneg (Nat.cast_nonneg _)
  have hsixty : Reads (60 : Float) (60 : ℕ) := reads_ofNat (by norm_num)
  rcases hsixty.approximates_div htempo (by norm_num) hpos with hinf | ⟨r, hr, hr0, hclose⟩
  · exact hbeats.mul_overflows hinf hbeats0 (by positivity)
  · have hprod := hbeats.mul_reads hr hclose hr0 le_rfl hbeats0 (by positivity)
    simp only [zero_mul, mul_zero, zero_add, Nat.cast_ofNat] at hprod
    exact hprod

theorem Accepted.approximates_samples (ha : sheet.Accepted)
    (hd : sheet.meter.denominator < Meter.bound) (hv : Unsigned v) :
    Approximates 4 (1 / 2 ^ 1000)
      (v * Float.ofNat sheet.meter.denominator * sheet.beatDuration *
        Float.ofNat Audio.sampleRate)
      (sheet.exactLength (exact v)) := by
  obtain ⟨-, hpos⟩ := ha.reads_tempo
  have hexact : 0 ≤ exact v := hv.exact_nonneg
  have hprod := (ha.approximates_seconds hd hv).mul_reads reads_sampleRate (Close.refl _)
    (by norm_num [Audio.sampleRate]) (by positivity) (by positivity) (Nat.cast_nonneg _)
  refine hprod.mono ?_
  have hsplit : (1 : ℚ) / 2 ^ 1000 = 2 ^ 75 * (1 / 2 ^ 1075) := by
    rw [show 1075 = 75 + 1000 from rfl, pow_add, mul_one_div, div_mul_cancel_left₀ (by positivity),
      one_div]
  have hunit : (0 : ℚ) < 1 / 2 ^ 1075 := by positivity
  rw [hsplit]
  generalize (1 : ℚ) / 2 ^ 1075 = unit at hunit
  norm_num [Audio.sampleRate]
  linarith

theorem exactLength_nonneg (ha : sheet.Accepted) {value : ℚ} (h : 0 ≤ value) :
    0 ≤ sheet.exactLength value := by
  obtain ⟨-, hpos⟩ := ha.reads_tempo
  rw [exactLength]
  positivity

theorem exactLength_add (sheet : Sheet) (x y : ℚ) :
    sheet.exactLength (x + y) = sheet.exactLength x + sheet.exactLength y := by
  simp only [exactLength, add_mul]

theorem noteCount_eq {token : String} {note : Note} (h : Note.ofToken token = .ok note) :
    sheet.noteCount params token = params.sampleCount
      (note.value * Float.ofNat sheet.meter.denominator * sheet.beatDuration) := by
  rw [noteCount, h]

theorem exactValue_eq {token : String} {note : Note} (h : Note.ofToken token = .ok note) :
    Note.exactValue token = exact note.value := by
  rw [Note.exactValue, h]

/-- A note has the whole samples of its exact length, up to four roundings of the length. -/
theorem Accepted.noteCount_truncated (ha : sheet.Accepted)
    (hd : sheet.meter.denominator < Meter.bound) {token : String}
    (h : sheet.Playable params token) :
    sheet.exactLength (Note.exactValue token) * (1 - 1 / 2 ^ 50) - 1 <
        sheet.noteCount params token ∧
      (sheet.noteCount params token : ℚ) ≤
        sheet.exactLength (Note.exactValue token) * (1 + 1 / 2 ^ 50) := by
  obtain ⟨note, hn, hroom⟩ := h
  have hv := Note.unsigned_value hn
  rw [noteCount_eq hn, exactValue_eq hn]
  refine (ha.approximates_samples hd hv).truncated (exactLength_nonneg ha hv.exact_nonneg) ?_
  exact hroom.trans_lt (by norm_num [sampleLimit])

theorem exactTotal_cons (token : String) (tokens : List String) :
    Track.exactTotal (token :: tokens) = Note.exactValue token + Track.exactTotal tokens :=
  List.sum_cons

theorem Accepted.count_truncated (ha : sheet.Accepted)
    (hd : sheet.meter.denominator < Meter.bound) {tokens : List String}
    (h : ∀ token ∈ tokens, sheet.Playable params token) :
    sheet.exactLength (Track.exactTotal tokens) * (1 - 1 / 2 ^ 50) - tokens.length ≤
        sheet.count params tokens ∧
      (sheet.count params tokens : ℚ) ≤
        sheet.exactLength (Track.exactTotal tokens) * (1 + 1 / 2 ^ 50) := by
  induction tokens with
  | nil => simp [Track.exactTotal, exactLength]
  | cons token tokens ih =>
    obtain ⟨hfirst, hrest⟩ := List.forall_mem_cons.mp h
    obtain ⟨hlow, hup⟩ := ha.noteCount_truncated hd hfirst
    obtain ⟨ihlow, ihup⟩ := ih hrest
    rw [count_cons, exactTotal_cons, exactLength_add, List.length_cons]
    push_cast
    constructor <;> linarith

/-! ### Whole notes -/

def ExactBeat (sheet : Sheet) : Prop := exact sheet.beatDuration * exact sheet.bpm = 60

/-- The note ends on a sample. -/
def WholeNote (sheet : Sheet) (token : String) : Prop :=
  ∃ n : ℕ, n ≤ 2 ^ 53 ∧ sheet.exactLength (Note.exactValue token) = n

theorem ExactBeat.reads (h : sheet.ExactBeat) (ha : sheet.Accepted) :
    Reads sheet.beatDuration (60 / exact sheet.bpm) := by
  obtain ⟨htempo, hpos⟩ := ha.reads_tempo
  have hsixty : Reads (60 : Float) (60 : ℕ) := reads_ofNat (by norm_num)
  have hvalue : exact sheet.beatDuration = 60 / exact sheet.bpm := eq_div_of_mul_eq hpos.ne' h
  have hne : exact sheet.beatDuration ≠ 0 := by
    rw [hvalue]
    positivity
  exact hvalue ▸ (hsixty.div htempo hpos).unsigned.reads_of_ne_zero hne

theorem WholeNote.noteCount_eq {token : String} (h : sheet.WholeNote token)
    (ha : sheet.Accepted) (hd : sheet.meter.denominator < Meter.bound) (hbeat : sheet.ExactBeat)
    (hplay : sheet.Playable params token) :
    (sheet.noteCount params token : ℚ) = sheet.exactLength (Note.exactValue token) := by
  obtain ⟨n, hle, hlength⟩ := h
  obtain ⟨-, hup⟩ := ha.noteCount_truncated hd hplay
  rcases Nat.eq_zero_or_pos n with rfl | hn
  · rw [hlength, Nat.cast_zero, zero_mul] at hup
    rw [hlength, Nat.cast_zero]
    exact le_antisymm hup (Nat.cast_nonneg _)
  · obtain ⟨note, hnote, hroom⟩ := hplay
    obtain ⟨-, hpos⟩ := ha.reads_tempo
    rw [Sheet.noteCount_eq hnote, hlength]
    rw [exactValue_eq hnote] at hlength
    have hne : exact note.value ≠ 0 := by
      intro h0
      rw [h0, exactLength, zero_mul, zero_mul, zero_mul] at hlength
      exact hn.ne (by exact_mod_cast hlength)
    have hvalue := (Note.unsigned_value hnote).reads_of_ne_zero hne
    have hdenominator : sheet.meter.denominator < 2 ^ 53 := hd.trans (by norm_num [Meter.bound])
    have hwhole := reads_whole hvalue (hbeat.reads ha) (by positivity) hdenominator
      (by norm_num [Audio.sampleRate]) (by norm_num [Audio.sampleRate]) hlength hn hle
    rw [Audio.Params.sampleCount] at hroom ⊢
    rcases hwhole with hinf | hread
    · rw [hinf.toNat_toUInt64] at hroom
      exact absurd hroom (by norm_num [sampleLimit])
    · rw [hread.toNat_toUInt64, Nat.floor_natCast]
      congr 1
      omega

theorem WholeNote.count_eq {tokens : List String} (ha : sheet.Accepted)
    (hd : sheet.meter.denominator < Meter.bound) (hbeat : sheet.ExactBeat)
    (hplay : ∀ token ∈ tokens, sheet.Playable params token)
    (hwhole : ∀ token ∈ tokens, sheet.WholeNote token) :
    (sheet.count params tokens : ℚ) = sheet.exactLength (Track.exactTotal tokens) := by
  induction tokens with
  | nil => simp [Track.exactTotal, exactLength]
  | cons token tokens ih =>
    obtain ⟨hplay, hplays⟩ := List.forall_mem_cons.mp hplay
    obtain ⟨hwhole, hwholes⟩ := List.forall_mem_cons.mp hwhole
    rw [count_cons, exactTotal_cons, exactLength_add, Nat.cast_add,
      hwhole.noteCount_eq ha hd hbeat hplay, ih hplays hwholes]

/-! ### Two tracks -/

/-- Only the room for its samples can keep a token of an accepted sheet from being played. -/
theorem Accepted.playable (ha : sheet.Accepted) {t : Track} (ht : t ∈ sheet.tracks)
    {tokens : List String} (hbegins : tokens <+: t.tokens)
    (hroom : ∀ token ∈ tokens, sheet.noteCount params token ≤ sampleLimit) :
    ∀ token ∈ tokens, sheet.Playable params token := by
  intro token htoken
  obtain ⟨note, hnote⟩ := ha.evaluates ht token (hbegins.subset htoken)
  have hcount := hroom token htoken
  rw [Sheet.noteCount_eq hnote] at hcount
  exact ⟨note, hnote, hcount⟩

/-- The beginnings of two tracks of an accepted sheet, equal in their exact values, and made of
notes that a vector has room for. What follows on the two tracks starts at offsets that differ by
no more samples than one of the beginnings has notes, and by the rounding of the length. Where a
beat is exact and every note is a whole number of samples, it starts at the same offset. -/
theorem tracks_drift_less_than_sample_a_note (ha : sheet.Accepted)
    (hd : sheet.meter.denominator < Meter.bound) {t u : Track} (ht : t ∈ sheet.tracks)
    (hu : u ∈ sheet.tracks) {xs ys : List String} (hx : xs <+: t.tokens) (hy : ys <+: u.tokens)
    (hroomx : ∀ token ∈ xs, sheet.noteCount params token ≤ sampleLimit)
    (hroomy : ∀ token ∈ ys, sheet.noteCount params token ≤ sampleLimit)
    (htotal : Track.exactTotal xs = Track.exactTotal ys) :
    |((sheet.voice params xs).length : ℚ) - (sheet.voice params ys).length| ≤
        max xs.length ys.length + sheet.exactLength (Track.exactTotal xs) / 2 ^ 49 ∧
      (sheet.ExactBeat → (∀ token ∈ xs, sheet.WholeNote token) →
        (∀ token ∈ ys, sheet.WholeNote token) →
        (sheet.voice params xs).length = (sheet.voice params ys).length) := by
  have hplayx := ha.playable ht hx hroomx
  have hplayy := ha.playable hu hy hroomy
  rw [length_voice, length_voice]
  constructor
  · obtain ⟨hlowx, hupx⟩ := ha.count_truncated hd hplayx
    obtain ⟨hlowy, hupy⟩ := ha.count_truncated hd hplayy
    rw [← htotal] at hlowy hupy
    have hmaxx := le_max_left (xs.length : ℚ) ys.length
    have hmaxy := le_max_right (xs.length : ℚ) ys.length
    rw [Nat.cast_max, abs_le]
    constructor <;> linarith
  · intro hbeat hwholex hwholey
    have hcountx := WholeNote.count_eq ha hd hbeat hplayx hwholex
    have hcounty := WholeNote.count_eq ha hd hbeat hplayy hwholey
    rw [← htotal, ← hcountx] at hcounty
    exact_mod_cast hcounty.symm

/-- A whole note over a half note, a quarter and two eighths, and an eighth over two sixteenths,
which are no whole numbers of samples. -/
def canon : Sheet :=
  ⟨120, ⟨3, 4⟩, [⟨["C4---", "G4/"]⟩, ⟨["D4-", "E4", "F4/", "F4/", "A4//", "A4//"]⟩]⟩

theorem canon_goes_on_together :
    canon.Accepted ∧ canon.ExactBeat ∧
      Track.exactTotal ["C4---"] = Track.exactTotal ["D4-", "E4", "F4/", "F4/"] ∧
      (canon.voice {} ["C4---"]).length = (canon.voice {} ["D4-", "E4", "F4/", "F4/"]).length ∧
      |((canon.voice {} ["C4---", "G4/"]).length : ℚ) -
          (canon.voice {} ["D4-", "E4", "F4/", "F4/", "A4//", "A4//"]).length| ≤
        6 + canon.exactLength (9 / 8) / 2 ^ 49 := by
  have haccepted : canon.Accepted := by decide +kernel
  have hd : canon.meter.denominator < Meter.bound := by decide +kernel
  have hfirst : (⟨["C4---", "G4/"]⟩ : Track) ∈ canon.tracks := List.mem_cons_self
  have hsecond : (⟨["D4-", "E4", "F4/", "F4/", "A4//", "A4//"]⟩ : Track) ∈ canon.tracks :=
    List.mem_cons_of_mem _ List.mem_cons_self
  have hbeat : canon.ExactBeat := by
    rw [ExactBeat]
    decide +kernel
  have htotal : Track.exactTotal ["C4---"] = Track.exactTotal ["D4-", "E4", "F4/", "F4/"] := by
    decide +kernel
  refine ⟨haccepted, hbeat, htotal, ?_, ?_⟩
  · have hwhole : canon.WholeNote "C4---" := ⟨88200, by norm_num, by decide +kernel⟩
    have hhalf : canon.WholeNote "D4-" := ⟨44100, by norm_num, by decide +kernel⟩
    have hquarter : canon.WholeNote "E4" := ⟨22050, by norm_num, by decide +kernel⟩
    have heighth : canon.WholeNote "F4/" := ⟨11025, by norm_num, by decide +kernel⟩
    refine (tracks_drift_less_than_sample_a_note haccepted hd hfirst hsecond (by decide)
      (by decide) (by decide +kernel) (by decide +kernel) htotal).2 hbeat ?_ ?_
    · simpa using hwhole
    · simpa using ⟨hhalf, hquarter, heighth⟩
  · have hvalue : Track.exactTotal ["C4---", "G4/"] = 9 / 8 := by decide +kernel
    have hroom : ∀ token ∈ ["C4---", "G4/"], canon.noteCount {} token ≤ sampleLimit := by
      decide +kernel
    have hdrift := (tracks_drift_less_than_sample_a_note haccepted hd hfirst hsecond
      List.prefix_rfl List.prefix_rfl hroom (by decide +kernel)
      (hvalue.trans (by decide +kernel))).1
    rw [hvalue] at hdrift
    exact hdrift

/-- A whole note is a sample longer than a half note, a quarter and their pieces together. -/
theorem pieces_fall_short : ∃ sheet, Sheet.make 120 ⟨4, 4⟩
      [⟨["C4---"]⟩, ⟨["C4--", "C4/", "C4//", "C4//"]⟩] = .ok sheet ∧
    ∃ t ∈ sheet.tracks, ∃ u ∈ sheet.tracks,
      Track.exactTotal t.tokens = Track.exactTotal u.tokens ∧
      (sheet.voice {} t.tokens).length ≠ (sheet.voice {} u.tokens).length := by
  refine ⟨_, Sheet.make_ok_iff.mpr ⟨rfl, by decide +kernel⟩, _, List.mem_cons_self, _,
    List.mem_cons_of_mem _ List.mem_cons_self, by decide +kernel, ?_⟩
  rw [length_voice, length_voice]
  decide +kernel

end Sheet

end PlainScore
