import PlainScore.Proofs.Synth.Drift

/-! What has to fit into a vector.
Making a sheet does not look at how long its bars and notes are, and with a slow tempo or a long
note they can have more samples than a vector holds. Where their exact lengths leave room, so does
what is computed: none of the products overflows, and four roundings do not make up the margin. -/
namespace PlainScore

/-! ### Products that do not overflow -/

namespace Binary

variable {x y : Float} {a b k : ℕ} {p q slack : ℚ}

/-- A number below a power of two; what is undefined is counted in. -/
def Below (a : ℕ) (x : Float) : Prop := Undefined x ∨ ∃ r, Reads x r ∧ r < 2 ^ a

theorem Below.not_overflows (h : Below a x) : ¬ Overflows x := by
  intro hx
  rw [Overflows] at hx
  rcases h with h | ⟨r, h, -⟩
  · rw [Undefined, hx] at h
    cases h
  · rw [Reads, hx] at h
    cases h

theorem not_overflows_of_finite (h : x.isFinite = true) : ¬ Overflows x := by
  have hfin : x.toModel.unpack.isFinite = true := h
  intro hx
  rw [hx] at hfin
  cases hfin

theorem one_div_two_pow_le {m n : ℕ} (h : m ≤ n) : (1 : ℚ) / 2 ^ n ≤ 1 / 2 ^ m :=
  one_div_le_one_div_of_le (by positivity) (pow_le_pow_right₀ one_le_two h)

/-- Rounding does not go up to twice the bound. -/
theorem Rounded.lt_two_pow (h : Rounded q x) (hq : 0 ≤ q) (hlt : q < 2 ^ a) (ha : a ≤ 1023) :
    ∃ r, Reads x r ∧ r < 2 ^ (a + 1) := by
  cases h with
  | @near r hr hnear _ =>
    have hrel : q / 2 ^ 53 ≤ q := div_le_self hq (one_le_pow₀ one_le_two)
    have hone : (1 : ℚ) / 2 ^ 1075 ≤ 2 ^ a := by
      calc (1 : ℚ) / 2 ^ 1075 ≤ 1 / 2 ^ 0 := one_div_two_pow_le (Nat.zero_le _)
        _ = 1 := by norm_num
        _ ≤ 2 ^ a := one_le_pow₀ one_le_two
    have hmax : max (q / 2 ^ 53) (1 / 2 ^ 1075) ≤ 2 ^ a := max_le (hrel.trans hlt.le) hone
    refine ⟨r, hr, ?_⟩
    rw [pow_succ]
    linarith [(abs_le.mp (hnear.trans hmax)).2]
  | overflow _ hlarge =>
    have hbound : (2 : ℚ) ^ a ≤ 2 ^ 1023 := pow_le_pow_right₀ one_le_two ha
    exact absurd hlarge (not_le.mpr (hlt.trans_le hbound))

theorem Below.mul {c : ℕ} (hx : Below a x) (hy : Reads y q) (hq : q < 2 ^ b)
    (hc : a + b + 1 = c) (h : c ≤ 1024) : Below c (x * y) := by
  subst hc
  rcases hx with hx | ⟨p, hp, hlt⟩
  · exact Or.inl (hx.mul y)
  · have hprod : p * q < 2 ^ (a + b) := by
      rw [pow_add]
      exact mul_lt_mul'' hlt hq hp.nonneg hy.nonneg
    exact Or.inr ((hp.mul hy).lt_two_pow (mul_nonneg hp.nonneg hy.nonneg) hprod (by omega))

/-- A vector has room for a length that stays so far below its limit. -/
def room : ℚ := 2 ^ 61 - 2 ^ 12

theorem Approximates.le_sampleLimit (h : Approximates k slack x q) (hx : ¬ Overflows x)
    (hk : k ≤ 4) (hslack : slack ≤ 1) (hq : 0 ≤ q) (hroom : q ≤ room) :
    x.toUInt64.toNat ≤ sampleLimit := by
  obtain ⟨r, hr, hclose⟩ := h.resolve_left hx
  have hpow : ((1 : ℚ) + 1 / 2 ^ 53) ^ k ≤ 1 + 1 / 2 ^ 50 := by
    calc ((1 : ℚ) + 1 / 2 ^ 53) ^ k ≤ (1 + 1 / 2 ^ 53) ^ 4 :=
          pow_le_pow_right₀ (by norm_num) hk
      _ ≤ 1 + 1 / 2 ^ 50 := by norm_num
  have hlt : r < 2 ^ 61 := by
    calc r ≤ q * (1 + 1 / 2 ^ 53) ^ k + slack := hclose.upper
      _ ≤ room * (1 + 1 / 2 ^ 50) + 1 := by
          have hroom0 : 0 ≤ room := hq.trans hroom
          gcongr
      _ < 2 ^ 61 := by norm_num [room]
  have hfloor : ⌊r⌋₊ < 2 ^ 61 := by
    rw [Nat.floor_lt hr.nonneg]
    exact_mod_cast hlt
  have hmin := hr.toNat_toUInt64
  have hlimit : sampleLimit = 2 ^ 61 - 1 := rfl
  omega

end Binary

open Binary

namespace Sheet

variable {sheet : Sheet} {params : Audio.Params}

/-! ### Bars and notes -/

def exactBar (sheet : Sheet) : ℚ :=
  60 / exact sheet.bpm * sheet.meter.numerator * Audio.sampleRate

def Oversized (sheet : Sheet) (params : Audio.Params) : Prop :=
  sampleLimit < sheet.capacity params ∨
    ∃ t ∈ sheet.tracks, ∃ token ∈ t.tokens, sampleLimit < sheet.noteCount params token

/-- In exact numbers, bars and notes stay below the limit of a vector, and no note lasts longer than
any track could. -/
structure LeavesRoom (sheet : Sheet) : Prop where
  bar : sheet.exactBar ≤ room
  notes : ∀ t ∈ sheet.tracks, ∀ token ∈ t.tokens, ∀ note ∈ (Note.ofToken token).toOption,
    note.value.isFinite = true ∧ exact note.value ≤ 2 ^ 64 ∧
      sheet.exactLength (exact note.value) ≤ room

instance (sheet : Sheet) : Decidable sheet.LeavesRoom :=
  decidable_of_iff (sheet.exactBar ≤ room ∧ ∀ t ∈ sheet.tracks, ∀ token ∈ t.tokens,
    ∀ note ∈ (Note.ofToken token).toOption, note.value.isFinite = true ∧
      exact note.value ≤ 2 ^ 64 ∧ sheet.exactLength (exact note.value) ≤ room)
    ⟨fun ⟨hbar, hnotes⟩ => ⟨hbar, hnotes⟩, fun ⟨hbar, hnotes⟩ => ⟨hbar, hnotes⟩⟩

theorem reads_of_bound {n : ℕ} (h : n < Meter.bound) :
    Reads (Float.ofNat n) n ∧ (n : ℚ) < 2 ^ 32 := by
  refine ⟨reads_ofNat (h.trans (by norm_num [Meter.bound])), ?_⟩
  exact_mod_cast h

theorem sampleRate_lt : (Audio.sampleRate : ℚ) < 2 ^ 16 := by norm_num [Audio.sampleRate]

/-- A beat is no longer than a bar. -/
theorem Accepted.beat_lt (ha : sheet.Accepted) (hbar : sheet.exactBar ≤ room) :
    ∃ r, Reads sheet.beatDuration r ∧ r < 2 ^ 62 := by
  obtain ⟨htempo, hpos⟩ := ha.reads_tempo
  have hsixty : Reads (60 : Float) (60 : ℕ) := reads_ofNat (by norm_num)
  have hone : (1 : ℚ) ≤ sheet.meter.numerator := by
    exact_mod_cast Nat.one_le_iff_ne_zero.mpr (accepted_iff.mp ha).2.1.1
  have hbeat : 60 / exact sheet.bpm ≤ sheet.exactBar := by
    have hbeat0 : 0 ≤ 60 / exact sheet.bpm := by positivity
    calc 60 / exact sheet.bpm = 60 / exact sheet.bpm * 1 * 1 := by ring
      _ ≤ 60 / exact sheet.bpm * sheet.meter.numerator * Audio.sampleRate := by
          gcongr
          norm_num [Audio.sampleRate]
  have hlt : ((60 : ℕ) : ℚ) / exact sheet.bpm < 2 ^ 61 := by
    rw [Nat.cast_ofNat]
    exact (hbeat.trans hbar).trans_lt (by norm_num [room])
  exact (hsixty.div htempo hpos).lt_two_pow (by positivity) hlt (by norm_num)

/-- The beat, the bar and its samples are rounded once each. -/
theorem Accepted.approximates_bar (ha : sheet.Accepted)
    (hn : sheet.meter.numerator < Meter.bound) :
    Approximates 3 1 (sheet.barDuration * Float.ofNat Audio.sampleRate) sheet.exactBar := by
  obtain ⟨htempo, hpos⟩ := ha.reads_tempo
  have hsixty : Reads (60 : Float) (60 : ℕ) := reads_ofNat (by norm_num)
  have hnum0 : (0 : ℚ) < sheet.meter.numerator := by
    exact_mod_cast Nat.pos_of_ne_zero (accepted_iff.mp ha).2.1.1
  have hbeat : Approximates 1 0 sheet.beatDuration (60 / exact sheet.bpm) := by
    refine (hsixty.approximates_div htempo (by norm_num) hpos).imp_right ?_
    rintro ⟨r, hr, -, hclose⟩
    rw [Nat.cast_ofNat] at hclose
    exact ⟨r, .reads hr, hclose⟩
  have hbar := hbeat.mul_reads (reads_of_bound hn).1 (Close.refl _) hnum0 le_rfl (by positivity)
    hnum0.le
  have hsamples := hbar.mul_reads reads_sampleRate (Close.refl _)
    (by norm_num [Audio.sampleRate]) (by positivity) (by positivity) (Nat.cast_nonneg _)
  refine hsamples.mono ?_
  have htiny : (1 : ℚ) / 2 ^ 1075 ≤ 1 / 2 ^ 100 := one_div_two_pow_le (by norm_num)
  generalize (1 : ℚ) / 2 ^ 1075 = tiny at htiny
  norm_num [Audio.sampleRate] at htiny ⊢
  linarith

theorem LeavesRoom.capacity_le (h : sheet.LeavesRoom) (ha : sheet.Accepted)
    (hn : sheet.meter.numerator < Meter.bound) : sheet.capacity params ≤ sampleLimit := by
  obtain ⟨-, hpos⟩ := ha.reads_tempo
  obtain ⟨beat, hbeat, hlt⟩ := ha.beat_lt h.bar
  obtain ⟨hnum, hnumlt⟩ := reads_of_bound hn
  have hbar : Below 95 sheet.barDuration :=
    Below.mul (Or.inr ⟨beat, hbeat, hlt⟩) hnum hnumlt (by norm_num) (by norm_num)
  have hsamples : Below 112 (sheet.barDuration * Float.ofNat Audio.sampleRate) :=
    hbar.mul reads_sampleRate sampleRate_lt (by norm_num) (by norm_num)
  have hexact : 0 ≤ sheet.exactBar := by
    rw [exactBar]
    positivity
  have hcount := (ha.approximates_bar hn).le_sampleLimit hsamples.not_overflows (by norm_num) le_rfl
    hexact h.bar
  exact max_le hcount (by decide)

theorem LeavesRoom.noteCount_le (h : sheet.LeavesRoom) (ha : sheet.Accepted)
    (hd : sheet.meter.denominator < Meter.bound) {t : Track} (ht : t ∈ sheet.tracks)
    {token : String} (htoken : token ∈ t.tokens) :
    sheet.noteCount params token ≤ sampleLimit := by
  obtain ⟨note, hnote⟩ := ha.evaluates ht token htoken
  obtain ⟨hfinite, hvalue, hlength⟩ := h.notes t ht token htoken note (by rw [hnote]; rfl)
  obtain ⟨beat, hbeat, hlt⟩ := ha.beat_lt h.bar
  obtain ⟨hden, hdenlt⟩ := reads_of_bound hd
  have hv := Note.unsigned_value hnote
  have hbelow : Below 65 note.value := by
    rcases hv.cases with hx | hx | hx
    · exact Or.inl hx
    · exact absurd hx (not_overflows_of_finite hfinite)
    · exact Or.inr ⟨_, hx, hvalue.trans_lt (by norm_num)⟩
  have hbeats : Below 98 (note.value * Float.ofNat sheet.meter.denominator) :=
    hbelow.mul hden hdenlt (by norm_num) (by norm_num)
  have hseconds : Below 161
      (note.value * Float.ofNat sheet.meter.denominator * sheet.beatDuration) :=
    hbeats.mul hbeat hlt (by norm_num) (by norm_num)
  have hsamples : Below 178 (note.value * Float.ofNat sheet.meter.denominator *
      sheet.beatDuration * Float.ofNat Audio.sampleRate) :=
    hseconds.mul reads_sampleRate sampleRate_lt (by norm_num) (by norm_num)
  have hslack : (1 : ℚ) / 2 ^ 1000 ≤ 1 := by
    simpa using one_div_two_pow_le (Nat.zero_le 1000)
  rw [noteCount_eq hnote]
  exact (ha.approximates_samples hd hv).le_sampleLimit hsamples.not_overflows le_rfl hslack
    (exactLength_nonneg ha hv.exact_nonneg) hlength

theorem LeavesRoom.not_oversized (h : sheet.LeavesRoom) (ha : sheet.Accepted)
    (hn : sheet.meter.numerator < Meter.bound) (hd : sheet.meter.denominator < Meter.bound) :
    ¬ sheet.Oversized params := by
  rintro (hbar | ⟨t, ht, token, htoken, hnote⟩)
  · exact absurd (h.capacity_le ha hn) (Nat.not_le.mpr hbar)
  · exact absurd (h.noteCount_le ha hd ht htoken) (Nat.not_le.mpr hnote)

/-- Nothing but the size of its bar keeps the synthesizer of a sheet with tracks from being made. -/
theorem Accepted.new_fails_iff (ha : sheet.Accepted) :
    Synth.new sheet params = .error .outOfRoom ↔ sampleLimit < sheet.capacity params := by
  have hpos := List.length_pos_iff.mpr ha.tracks_ne_nil
  rw [Synth.new_eq]
  constructor
  · intro h
    by_contra hn
    rw [if_neg fun hlong => hn hlong.2] at h
    cases h
  · intro hlong
    exact if_pos ⟨hpos, hlong⟩

/-- A tempo that is accepted, and a bar that no vector can hold: a million million times longer than
at a beat a minute. -/
theorem slow_sheet_has_no_room : ∃ sheet, Sheet.make 1e-12 ⟨4, 4⟩ [⟨[]⟩] = .ok sheet ∧
    Synth.new sheet {} = .error .outOfRoom := by
  refine ⟨_, Sheet.make_ok_iff.mpr ⟨rfl, by decide +kernel⟩, ?_⟩
  rw [Synth.new_eq]
  exact if_pos (by decide +kernel)

end Sheet

end PlainScore
