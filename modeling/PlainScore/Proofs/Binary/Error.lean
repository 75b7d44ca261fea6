import PlainScore.Proofs.Binary.Unsigned

/-! How far a chain of products is from the exact one.
Every product is rounded once, so that the error grows by a factor of `1 ± 2^-53` each time; only
results below the normal doubles have an absolute error too. What is undefined counts for nothing
when it is converted to a whole number, and products that are too large stay so. -/
namespace PlainScore.Binary

/-! ### Errors of numbers -/

/-- Off by `k` roundings and, at most, an absolute error. -/
structure Close (k : ℕ) (slack r q : ℚ) : Prop where
  lower : q * (1 - 1 / 2 ^ 53) ^ k - slack ≤ r
  upper : r ≤ q * (1 + 1 / 2 ^ 53) ^ k + slack

theorem shrink_nonneg (k : ℕ) : (0 : ℚ) ≤ (1 - 1 / 2 ^ 53) ^ k :=
  pow_nonneg (by norm_num) k

namespace Close

variable {j k : ℕ} {slack slack' p q r s : ℚ}

theorem refl (q : ℚ) : Close 0 0 q q := ⟨by simp, by simp⟩

theorem mono (h : Close k slack r q) (hle : slack ≤ slack') : Close k slack' r q :=
  ⟨(sub_le_sub_left hle _).trans h.lower, h.upper.trans (add_le_add_right hle _)⟩

theorem mul (hr : Close k slack r p) (hs : Close j 0 s q) (hslack : 0 ≤ slack) (hs0 : 0 ≤ s)
    (hp : 0 ≤ p) : Close (k + j) (slack * (q * (1 + 1 / 2 ^ 53) ^ j)) (r * s) (p * q) := by
  have hsl := hs.lower
  have hsu := hs.upper
  rw [sub_zero] at hsl
  rw [add_zero] at hsu
  constructor
  · have hfirst : 0 ≤ p * (1 - 1 / 2 ^ 53) ^ k := mul_nonneg hp (shrink_nonneg k)
    calc p * q * (1 - 1 / 2 ^ 53) ^ (k + j) - slack * (q * (1 + 1 / 2 ^ 53) ^ j)
        = p * (1 - 1 / 2 ^ 53) ^ k * (q * (1 - 1 / 2 ^ 53) ^ j) -
            slack * (q * (1 + 1 / 2 ^ 53) ^ j) := by rw [pow_add]; ring
      _ ≤ p * (1 - 1 / 2 ^ 53) ^ k * s - slack * s := by gcongr
      _ = (p * (1 - 1 / 2 ^ 53) ^ k - slack) * s := by ring
      _ ≤ r * s := mul_le_mul_of_nonneg_right hr.lower hs0
  · have hfirst : 0 ≤ p * (1 + 1 / 2 ^ 53) ^ k + slack := by positivity
    calc r * s ≤ (p * (1 + 1 / 2 ^ 53) ^ k + slack) * s := mul_le_mul_of_nonneg_right hr.upper hs0
      _ ≤ (p * (1 + 1 / 2 ^ 53) ^ k + slack) * (q * (1 + 1 / 2 ^ 53) ^ j) := by gcongr
      _ = p * q * (1 + 1 / 2 ^ 53) ^ (k + j) + slack * (q * (1 + 1 / 2 ^ 53) ^ j) := by
          rw [pow_add]; ring

theorem round {underflow : ℚ} (h : Close k slack r q) (hslack : 0 ≤ slack)
    (hs : |s - r| ≤ r / 2 ^ 53 + underflow) : Close (k + 1) (2 * slack + underflow) s q := by
  obtain ⟨hlow, hup⟩ := abs_le.mp hs
  have hl := mul_le_mul_of_nonneg_right h.lower (by norm_num : (0 : ℚ) ≤ 1 - 1 / 2 ^ 53)
  have hu := mul_le_mul_of_nonneg_right h.upper (by norm_num : (0 : ℚ) ≤ 1 + 1 / 2 ^ 53)
  constructor
  · rw [pow_succ]
    linarith
  · rw [pow_succ]
    linarith

theorem round_relative (h : Close k 0 r q) (hs : |s - r| ≤ r / 2 ^ 53) :
    Close (k + 1) 0 s q := by
  have hround := h.round le_rfl (hs.trans_eq (add_zero _).symm)
  rwa [mul_zero, add_zero] at hround

end Close

/-! ### Errors of doubles -/

variable {x y : Float} {k j : ℕ} {slack slack' p q r s : ℚ}

/-- What a double counts for when it is converted to a whole number. -/
inductive Amounts (x : Float) : ℚ → Prop where
  | undefined : Undefined x → Amounts x 0
  | reads {r : ℚ} : Reads x r → Amounts x r

theorem Amounts.nonneg (h : Amounts x r) : 0 ≤ r := by
  cases h with
  | undefined h => rfl
  | reads h => exact Magnitude.nonneg h

theorem Amounts.toNat_toUInt64 (h : Amounts x r) :
    x.toUInt64.toNat = min ⌊r⌋₊ (2 ^ 64 - 1) := by
  cases h with
  | undefined h => rw [h.toNat_toUInt64, Nat.floor_zero, Nat.zero_min]
  | reads h => exact h.toNat_toUInt64

/-- The double stands for the number up to an error, if it is not infinite. -/
def Approximates (k : ℕ) (slack : ℚ) (x : Float) (q : ℚ) : Prop :=
  Overflows x ∨ ∃ r, Amounts x r ∧ Close k slack r q

theorem Approximates.mono (h : Approximates k slack x q) (hle : slack ≤ slack') :
    Approximates k slack' x q :=
  h.imp_right fun ⟨r, hr, hclose⟩ => ⟨r, hr, hclose.mono hle⟩

theorem Approximates.mul_reads (hx : Approximates k slack x p) (hy : Reads y s)
    (hs : Close j 0 s q) (hpos : 0 < s) (hslack : 0 ≤ slack) (hp : 0 ≤ p) (hq : 0 ≤ q) :
    Approximates (k + j + 1) (2 * (slack * (q * (1 + 1 / 2 ^ 53) ^ j)) + 1 / 2 ^ 1075)
      (x * y) (p * q) := by
  rcases hx with hx | ⟨r, hr, hclose⟩
  · exact Or.inl (hx.mul_reads hy hpos)
  · have hprod := hclose.mul hs hslack hpos.le hp
    have hslack' : 0 ≤ slack * (q * (1 + 1 / 2 ^ 53) ^ j) := by positivity
    cases hr with
    | undefined hx =>
      refine Or.inr ⟨0, .undefined (hx.mul y), hprod.round hslack' ?_⟩
      rw [zero_mul, sub_zero, abs_zero]
      positivity
    | reads hr =>
      have hrs : 0 ≤ r * s := mul_nonneg hr.nonneg hpos.le
      cases hr.mul hy with
      | near ht hnear _ =>
        have hsum := hnear.trans (max_le_add_of_nonneg (by positivity) (by positivity))
        exact Or.inr ⟨_, .reads ht, hprod.round hslack' hsum⟩
      | overflow hinf => exact Or.inl hinf

/-- Nothing times infinity is undefined, and counts for nothing again. -/
theorem Approximates.mul_overflows (hx : Approximates k 0 x p) (hy : Overflows y) (hp : 0 ≤ p)
    (hslack : 0 ≤ slack) : Approximates j slack (x * y) (p * q) := by
  rcases hx with hx | ⟨r, hr, hclose⟩
  · exact Or.inl (hx.mul hy)
  · rcases hr.nonneg.eq_or_lt with rfl | hpos
    · have hp0 : p = 0 := by
        have hlow := hclose.lower
        rw [sub_zero] at hlow
        have hfactor : (0 : ℚ) < (1 - 1 / 2 ^ 53) ^ k := pow_pos (by norm_num) k
        exact le_antisymm (nonpos_of_mul_nonpos_left hlow hfactor) hp
      have hzero : Close j slack 0 (p * q) := by
        rw [hp0, zero_mul]
        exact ⟨by simpa using hslack, by simpa using hslack⟩
      cases hr with
      | undefined hx => exact Or.inr ⟨0, .undefined (hx.mul y), hzero⟩
      | reads hx => exact Or.inr ⟨0, .undefined (hx.zero_mul_overflows hy), hzero⟩
    · cases hr with
      | undefined hx => exact absurd hpos (lt_irrefl _)
      | reads hr => exact Or.inl (hr.mul_overflows hpos hy)

/-! ### Results above the least doubles -/

/-- A result that is not subnormal, or exact, is off by a rounding and no more. -/
theorem relative (hnear : |r - q| ≤ max (q / 2 ^ 53) (1 / 2 ^ 1075))
    (hexact : Representable q → r = q) (hq : 0 ≤ q)
    (h : 1 / 2 ^ 1022 ≤ q ∨ Representable q) : |r - q| ≤ q / 2 ^ 53 := by
  rcases h with hle | hrep
  · refine hnear.trans (max_le le_rfl ?_)
    calc (1 : ℚ) / 2 ^ 1075 = 1 / 2 ^ 1022 / 2 ^ 53 := by rw [div_div, ← pow_add]
      _ ≤ q / 2 ^ 53 := by gcongr
  · rw [hexact hrep, sub_self, abs_zero]
    positivity

/-- Multiples of a double are doubles as long as they are subnormal. -/
theorem Reads.representable_mul_natCast (h : Reads x q) (n : ℕ) (hlt : q * n < 1 / 2 ^ 1022) :
    Representable (q * n) := by
  obtain ⟨m, f, -, hf, rfl⟩ := h.representable
  have hvalue : (m * 2 ^ f * n : ℚ) = (m * n : ℕ) * 2 ^ f := by
    push_cast
    ring
  rw [hvalue] at hlt ⊢
  refine ⟨m * n, f, ?_, hf, rfl⟩
  have hleast : (1 : ℚ) / 2 ^ 1074 ≤ 2 ^ f := by
    calc (1 : ℚ) / 2 ^ 1074 = 2 ^ (-1074 : ℤ) := by rw [zpow_neg, zpow_ofNat, one_div]
      _ ≤ 2 ^ f := zpow_le_zpow_right₀ one_le_two hf
  have hbits : ((m * n : ℕ) : ℚ) * (1 / 2 ^ 1074) < 2 ^ 52 * (1 / 2 ^ 1074) := by
    calc ((m * n : ℕ) : ℚ) * (1 / 2 ^ 1074) ≤ (m * n : ℕ) * 2 ^ f := by gcongr
      _ < 1 / 2 ^ 1022 := hlt
      _ = 2 ^ 52 * (1 / 2 ^ 1074) := by
          rw [show 1074 = 52 + 1022 from rfl, pow_add, mul_one_div,
            div_mul_cancel_left₀ (by positivity), one_div]
  have hcast : m * n < 2 ^ 52 := by exact_mod_cast lt_of_mul_lt_mul_right hbits (by positivity)
  omega

theorem Unsigned.approximates_mul_natCast (h : Unsigned x) {n : ℕ} (hpos : 0 < n)
    (hn : n < 2 ^ 53) : Approximates 1 0 (x * Float.ofNat n) (exact x * n) := by
  have hreads : Reads (Float.ofNat n) n := reads_ofNat hn
  have hn0 : (0 : ℚ) < n := by exact_mod_cast hpos
  rcases h.cases with hx | hx | hx
  · rw [hx.exact_eq_zero, zero_mul]
    exact Or.inr ⟨0, .undefined (hx.mul _), (Close.refl 0).round_relative (by norm_num)⟩
  · exact Or.inl (hx.mul_reads hreads hn0)
  · cases hx.mul hreads with
    | @near t ht hnear hexact =>
      have hprod : 0 ≤ exact x * n := mul_nonneg hx.nonneg hn0.le
      have hcase := (le_or_gt _ _).imp_right (hx.representable_mul_natCast n)
      exact Or.inr ⟨t, .reads ht, (Close.refl _).round_relative
        (relative hnear hexact hprod hcase)⟩
    | overflow hinf => exact Or.inl hinf

/-- A quotient by a finite number is not subnormal if the dividend is not small. -/
theorem Reads.approximates_div (hx : Reads x p) (hy : Reads y q) (hp : 4 ≤ p) (hq : 0 < q) :
    Overflows (x / y) ∨ ∃ r, Reads (x / y) r ∧ 0 < r ∧ Close 1 0 r (p / q) := by
  have hnormal : (1 : ℚ) / 2 ^ 1022 ≤ p / q := by
    rw [div_le_div_iff₀ (by positivity) hq, one_mul]
    calc q ≤ 2 ^ 1024 := hy.lt_two_pow.le
      _ = 2 ^ 2 * 2 ^ 1022 := pow_add 2 2 1022
      _ ≤ p * 2 ^ 1022 := by
          gcongr
          linarith
  cases hx.div hy hq with
  | @near r hr hnear hexact =>
    have hpos : 0 < p / q := by positivity
    have hclose := (Close.refl _).round_relative (relative hnear hexact hpos.le (Or.inl hnormal))
    refine Or.inr ⟨r, hr, ?_, hclose⟩
    have hlow := hclose.lower
    rw [sub_zero] at hlow
    exact (mul_pos hpos (pow_pos (by norm_num) _)).trans_le hlow
  | overflow hinf => exact Or.inl hinf

/-! ### Whole numbers before an approximation -/

/-- Four roundings are off by less than `2^-50`, and truncation takes less than one. -/
theorem Approximates.truncated (h : Approximates 4 (1 / 2 ^ 1000) x q) (hq : 0 ≤ q)
    (hn : x.toUInt64.toNat < 2 ^ 64 - 1) :
    q * (1 - 1 / 2 ^ 50) - 1 < x.toUInt64.toNat ∧
      (x.toUInt64.toNat : ℚ) ≤ q * (1 + 1 / 2 ^ 50) := by
  obtain hinf | ⟨r, hr, hclose⟩ := h
  · exact absurd hinf.toNat_toUInt64 hn.ne
  · have hfloor : x.toUInt64.toNat = ⌊r⌋₊ := by
      have hmin := hr.toNat_toUInt64
      omega
    have hle : (x.toUInt64.toNat : ℚ) ≤ r := hfloor ▸ Nat.floor_le hr.nonneg
    have hlt : r < x.toUInt64.toNat + 1 := hfloor ▸ Nat.lt_floor_add_one r
    have hlow := hclose.lower
    have hup := hclose.upper
    have hsplit : (1 : ℚ) / 2 ^ 1000 = 1 / 2 ^ 900 * (1 / 2 ^ 100) := by
      rw [one_div_mul_one_div, ← pow_add]
    have htiny : (1 : ℚ) / 2 ^ 900 ≤ 1 / 2 ^ 100 :=
      one_div_le_one_div_of_le (by positivity) (pow_le_pow_right₀ one_le_two (by norm_num))
    rw [hsplit] at hlow hup
    generalize (1 : ℚ) / 2 ^ 900 = tiny at hlow hup htiny
    rcases le_or_gt tiny q with hlarge | hsmall
    · constructor <;> linarith
    · have hzero : x.toUInt64.toNat = 0 := by
        have hone : (x.toUInt64.toNat : ℚ) < 1 := by linarith
        exact Nat.lt_one_iff.mp (by exact_mod_cast hone)
      rw [hzero, Nat.cast_zero]
      constructor <;> linarith

/-! ### Exact products -/

theorem Reads.mul_exact (hx : Reads x p) (hy : Reads y q) (h : Representable (p * q)) :
    Overflows (x * y) ∨ Reads (x * y) (p * q) := by
  cases hx.mul hy with
  | near hr hnear hexact => exact Or.inr (hexact h ▸ hr)
  | overflow hinf => exact Or.inl hinf

/-- There is no half of an odd number. -/
theorem le_of_odd_mul_zpow {c N : ℕ} {g : ℤ} (hc : Odd c) (h : (c : ℚ) * 2 ^ g = N) :
    0 ≤ g ∧ c ≤ N := by
  rcases le_or_gt 0 g with hg | hg
  · lift g to ℕ using hg
    rw [zpow_natCast] at h
    have hN : c * 2 ^ g = N := by exact_mod_cast h
    exact ⟨Int.natCast_nonneg g, hN ▸ Nat.le_mul_of_pos_right c (Nat.two_pow_pos g)⟩
  · exfalso
    obtain ⟨k, rfl⟩ : ∃ k : ℕ, g = -((k + 1 : ℕ) : ℤ) := ⟨(-g - 1).toNat, by omega⟩
    rw [zpow_neg, zpow_natCast, ← div_eq_mul_inv, div_eq_iff (by positivity)] at h
    have heven : c = N * 2 ^ (k + 1) := by exact_mod_cast h
    rw [heven, pow_succ, ← mul_assoc] at hc
    exact Nat.not_even_iff_odd.mpr hc (Nat.even_mul.mpr (Or.inr even_two))

/-- A double, if only the mantissa had bits enough and the exponent were not bounded. -/
def Dyadic (q : ℚ) : Prop := ∃ (m : ℕ) (e : ℤ), q = m * 2 ^ e

theorem dyadic_natCast (n : ℕ) : Dyadic n := ⟨n, 0, by simp⟩

theorem Reads.dyadic (h : Reads x q) : Dyadic q := by
  obtain ⟨m, e, -, -, rfl⟩ := h.representable
  exact ⟨m, e, rfl⟩

theorem Dyadic.mul (hp : Dyadic p) (hq : Dyadic q) : Dyadic (p * q) := by
  obtain ⟨m, e, rfl⟩ := hp
  obtain ⟨n, f, rfl⟩ := hq
  refine ⟨m * n, e + f, ?_⟩
  rw [zpow_add₀ two_ne_zero]
  push_cast
  ring

/-- A factor of a whole number of 53 bits has no more bits. -/
theorem Dyadic.representable {N : ℕ} (hp : Dyadic p) (hq : Dyadic q) (h : p * q = N) (hN : 0 < N)
    (hle : N ≤ 2 ^ 53) (hlt : q < 2 ^ 1074) : Representable p := by
  obtain ⟨m, e, rfl⟩ := hp
  obtain ⟨n, f, rfl⟩ := hq
  have hm : m ≠ 0 := by
    rintro rfl
    exact hN.ne' (by simpa using h.symm)
  have hn : n ≠ 0 := by
    rintro rfl
    exact hN.ne' (by simpa using h.symm)
  obtain ⟨s, a, ha, rfl⟩ := Nat.exists_eq_two_pow_mul_odd hm
  obtain ⟨t, b, hb, rfl⟩ := Nat.exists_eq_two_pow_mul_odd hn
  have hodd : ((a * b : ℕ) : ℚ) * 2 ^ (s + e + (t + f)) = N := by
    rw [← h]
    push_cast
    rw [zpow_add₀ two_ne_zero, zpow_add₀ two_ne_zero, zpow_add₀ two_ne_zero, zpow_natCast,
      zpow_natCast]
    ring
  obtain ⟨hexp, hab⟩ := le_of_odd_mul_zpow (ha.mul hb) hodd
  refine ⟨a, s + e, ?_, ?_, ?_⟩
  · have hale : a ≤ 2 ^ 53 := (Nat.le_mul_of_pos_right a hb.pos).trans (hab.trans hle)
    refine lt_of_le_of_ne hale ?_
    rintro rfl
    exact absurd ha (by decide)
  · have hpow : (2 : ℚ) ^ (t + f) < 2 ^ (1074 : ℤ) := by
      calc (2 : ℚ) ^ (t + f) = 1 * (2 ^ t * 2 ^ f) := by
            rw [one_mul, zpow_add₀ two_ne_zero, zpow_natCast]
        _ ≤ b * (2 ^ t * 2 ^ f) := by
            gcongr
            exact_mod_cast hb.pos
        _ = (2 ^ t * b : ℕ) * 2 ^ f := by
            push_cast
            ring
        _ < 2 ^ (1074 : ℤ) := hlt
    have := (zpow_lt_zpow_iff_right₀ one_lt_two).mp hpow
    omega
  · push_cast
    rw [zpow_add₀ two_ne_zero, zpow_natCast]
    ring

/-- If a product is a whole number of 53 bits, every factor of it is computed exactly. -/
theorem reads_whole {d c N : ℕ} (hx : Reads x p) (hy : Reads y q) (hq : 0 < q) (hd : d < 2 ^ 53)
    (hc0 : 0 < c) (hc : c < 2 ^ 50) (h : p * d * q * c = N) (hN : 0 < N) (hle : N ≤ 2 ^ 53) :
    Overflows (x * Float.ofNat d * y * Float.ofNat c) ∨
      Reads (x * Float.ofNat d * y * Float.ofNat c) N := by
  have hcast : (c : ℚ) < 2 ^ 50 := by exact_mod_cast hc
  have hcpos : (0 : ℚ) < c := by exact_mod_cast hc0
  have hrate : Reads (Float.ofNat c) c := reads_ofNat (hc.trans (by norm_num))
  have hfirst : Representable (p * d) := by
    refine (hx.dyadic.mul (dyadic_natCast d)).representable (hy.dyadic.mul (dyadic_natCast c))
      (by rw [← h]; ring) hN hle ?_
    calc q * c < 2 ^ 1024 * 2 ^ 50 :=
          mul_lt_mul hy.lt_two_pow hcast.le hcpos (by positivity)
      _ = 2 ^ 1074 := (pow_add 2 1024 50).symm
  have hsecond : Representable (p * d * q) := by
    refine ((hx.dyadic.mul (dyadic_natCast d)).mul hy.dyadic).representable (dyadic_natCast c) h
      hN hle (hcast.trans_le ?_)
    exact pow_le_pow_right₀ one_le_two (by norm_num)
  have hthird : Representable (p * d * q * c) := by
    rw [h]
    refine (dyadic_natCast N).representable (dyadic_natCast 1) (by simp) hN hle ?_
    exact_mod_cast one_lt_pow₀ one_lt_two (by norm_num)
  rcases hx.mul_exact (reads_ofNat hd) hfirst with hinf | hread
  · exact Or.inl ((hinf.mul_reads hy hq).mul_reads hrate hcpos)
  · rcases hread.mul_exact hy hsecond with hinf | hread
    · exact Or.inl (hinf.mul_reads hrate hcpos)
    · exact h ▸ hread.mul_exact hrate hthird

end PlainScore.Binary
