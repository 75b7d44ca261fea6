import PlainScore.Proofs.Binary.Reading

/-! The operations on doubles against those on rational numbers.
Products, quotients and the doubles of natural numbers are rounded once from the exact result;
the whole number before a double is exact. Infinity stays infinity under all factors but zero. -/
namespace PlainScore.Binary

open Float.Model Float.Model.UnpackedFloat

variable {x y : Float} {p q : ℚ}

theorem mul_eq (x y : Float) :
    x * y = .ofModel (.pack (.mul .binary64 x.toModel.unpack y.toModel.unpack)) := rfl

theorem div_eq (x y : Float) :
    x / y = .ofModel (.pack (.div .binary64 x.toModel.unpack y.toModel.unpack)) := rfl

theorem rounded_zero : Rounded 0 (.ofModel (.pack (.zero .positive))) := by
  have hreads : Reads (.ofModel (.pack (.zero .positive))) 0 :=
    @unpack_packedZero Format.binary64 .positive ▸ Magnitude.zero
  exact .near hreads (by norm_num) fun _ => rfl

/-! ### Products -/

theorem le_log2_mul {m n : ℕ} (hn : 0 < n) (h : 2 ^ 52 ≤ m) : 52 ≤ (m * n).log2 := by
  have hmn : m ≤ m * n := Nat.le_mul_of_pos_right m hn
  exact (Nat.le_log2 (by omega)).mpr (h.trans hmn)

theorem Canonical.mul_long {m n : ℕ} {e f : ℤ} (hx : Canonical m e) (hy : Canonical n f)
    (hm : 0 < m) (hn : 0 < n) : 52 ≤ (m * n).log2 ∨ e + f ≤ -1074 := by
  rcases hx.full with hfull | rfl
  · exact Or.inl (le_log2_mul hn hfull)
  · rcases hy.full with hfull | rfl
    · rw [mul_comm]
      exact Or.inl (le_log2_mul hm hfull)
    · exact Or.inr (by norm_num)

theorem Reads.mul (hx : Reads x p) (hy : Reads y q) : Rounded (p * q) (x * y) := by
  rw [mul_eq]
  rw [Reads] at hx hy
  generalize x.toModel.unpack = u at hx
  generalize y.toModel.unpack = v at hy
  cases hx with
  | zero =>
    rw [zero_mul]
    cases hy <;> exact rounded_zero
  | @finite m e hm hc he =>
    cases hy with
    | zero =>
      rw [mul_zero]
      exact rounded_zero
    | @finite n f hn hd hf =>
      have hvalue : (m * 2 ^ e * (n * 2 ^ f) : ℚ) = (m * n : ℕ) * 2 ^ (e + f) := by
        rw [zpow_add₀ two_ne_zero]
        push_cast
        ring
      rw [hvalue]
      exact (rounds_roundWithAccuracy (holds_exact _ _) (hc.mul_long hd hm hn)).rounded

/-! ### Quotients -/

theorem holds_quotient {m n : ℕ} (hn : 0 < n) :
    Holds (m / n) (.ofMantissaAndAccuracy (m / n) (accuracyOfFraction (m % n) n)) := by
  have hpos : (0 : ℚ) < n := by exact_mod_cast hn
  have hvalue : (m / n : ℚ) = (m / n : ℕ) + (m % n : ℕ) / n := by
    rw [eq_comm, ← mul_right_inj' hpos.ne', mul_add, mul_div_cancel₀ _ hpos.ne',
      mul_div_cancel₀ _ hpos.ne']
    exact_mod_cast Nat.div_add_mod m n
  rw [hvalue]
  generalize m / n = k
  have hlt : ((m % n : ℕ) : ℚ) / n < 1 := by
    rw [div_lt_one hpos]
    exact_mod_cast Nat.mod_lt m hn
  generalize m % n = r at hlt ⊢
  rw [accuracyOfFraction]
  split
  · rename_i hr
    subst hr
    simp [Holds, ExtendedMantissa.ofMantissaAndAccuracy]
  · rename_i hr
    have hr0 : (0 : ℚ) < r / n := by
      have : (0 : ℚ) < r := by exact_mod_cast Nat.pos_of_ne_zero hr
      positivity
    rcases Nat.lt_trichotomy (2 * r) n with hlt2 | heq | hgt
    · rw [Nat.compare_eq_lt.mpr hlt2]
      have hhalf : (r : ℚ) / n < 1 / 2 := by
        rw [div_lt_div_iff₀ hpos two_pos]
        exact_mod_cast (by omega : r * 2 < 1 * n)
      exact ⟨by linarith, by linarith⟩
    · rw [Nat.compare_eq_eq.mpr heq]
      have hhalf : (r : ℚ) / n = 1 / 2 := by
        rw [div_eq_div_iff hpos.ne' two_ne_zero]
        exact_mod_cast (by omega : r * 2 = 1 * n)
      exact congrArg _ hhalf
    · rw [Nat.compare_eq_gt.mpr hgt]
      have hhalf : (1 : ℚ) / 2 < r / n := by
        rw [div_lt_div_iff₀ two_pos hpos]
        exact_mod_cast (by omega : 1 * n < r * 2)
      exact ⟨by linarith, by linarith⟩

theorem le_log2_div {m n k : ℕ} (hm : 0 < m) (hn : 0 < n)
    (hk : 53 + n.log2 ≤ m.log2 + k) : 52 ≤ ((m <<< k) / n).log2 := by
  have hquot : 2 ^ 52 ≤ (m <<< k) / n := by
    rw [Nat.le_div_iff_mul_le hn, Nat.shiftLeft_eq]
    calc 2 ^ 52 * n ≤ 2 ^ 52 * 2 ^ (n.log2 + 1) := Nat.mul_le_mul_left _ Nat.lt_log2_self.le
      _ = 2 ^ (53 + n.log2) := by rw [← pow_add]; congr 1; omega
      _ ≤ 2 ^ (m.log2 + k) := Nat.pow_le_pow_right two_pos hk
      _ = 2 ^ m.log2 * 2 ^ k := pow_add _ _ _
      _ ≤ m * 2 ^ k := Nat.mul_le_mul_right _ (Nat.log2_self_le hm.ne')
  exact (Nat.le_log2 (by omega)).mpr hquot

/-- The numerator gets so many zeros that the quotient has bits enough. -/
theorem divCore_spec {m n : ℕ} {e f : ℤ} (hm : 0 < m) (hn : 0 < n) :
    ∃ (k : ℕ) (t : ℤ),
      divCore Format.binary64 m e n f =
        ((m <<< k) / n, t, accuracyOfFraction ((m <<< k) % n) n) ∧
      e - f = t + k ∧ (52 ≤ ((m <<< k) / n).log2 ∨ t ≤ -1074) := by
  rw [divCore]
  simp only [Format.targetExponent, totalExponent, Format.mantissaBits, Format.minExponent]
  generalize ht : min (e - f) (max _ _) = t
  refine ⟨(e - f - t).toNat, t, rfl, by omega, ?_⟩
  by_cases hleast : t ≤ -1074
  · exact Or.inr hleast
  · norm_num at ht
    exact Or.inl (le_log2_div hm hn (by omega))

theorem Reads.div (hx : Reads x p) (hy : Reads y q) (hq : 0 < q) : Rounded (p / q) (x / y) := by
  rw [div_eq]
  rw [Reads] at hx hy
  generalize x.toModel.unpack = u at hx
  generalize y.toModel.unpack = v at hy
  cases hy with
  | zero => exact absurd hq (lt_irrefl _)
  | @finite n f hn hd hf =>
    cases hx with
    | zero =>
      rw [zero_div]
      exact rounded_zero
    | @finite m e hm hc he =>
      obtain ⟨k, t, hcore, hshift, hlong⟩ := divCore_spec (e := e) (f := f) hm hn
      have hvalue : (m * 2 ^ e / (n * 2 ^ f) : ℚ) / 2 ^ t = (m <<< k : ℕ) / n := by
        have he : e = t + k + f := by omega
        rw [Nat.shiftLeft_eq, he, zpow_add₀ two_ne_zero, zpow_add₀ two_ne_zero, zpow_natCast]
        push_cast
        field_simp
      have hholds := holds_quotient (m := m <<< k) hn
      rw [← hvalue] at hholds
      rw [UnpackedFloat.div, hcore]
      exact (rounds_roundWithAccuracy hholds hlong).rounded

theorem Rounded.reads (h : Rounded q x) (hq : Representable q) (hsmall : q < 2 ^ 1023) :
    Reads x q := by
  cases h with
  | near hreads hnear hexact => exact hexact hq ▸ hreads
  | overflow hinf hlarge => exact absurd hsmall (not_lt.mpr hlarge)

theorem representable_natCast {n : ℕ} (h : n < 2 ^ 53) : Representable n :=
  ⟨n, 0, h, by norm_num, by simp⟩

/-! ### Natural numbers -/

theorem rounded_ofNat_model (n : ℕ) : Rounded n (.ofModel (.pack (.ofNat .binary64 n))) := by
  rw [UnpackedFloat.ofNat, UnpackedFloat.ofInt, UnpackedFloat.normalize]
  by_cases hn : n = 0
  · subst hn
    exact rounded_zero
  · rw [Int.compare_eq_gt.mpr (by omega)]
    simpa using (rounds_round (s := .positive) (e := 0) hn).rounded

theorem reads_one : Reads (Float.ofBits 0x3FF0000000000000) 1 := by
  have hunpack : (Float.ofBits 0x3FF0000000000000).toModel.unpack =
      .finite .positive (2 ^ 52) (-52) (by norm_num) := rfl
  have hvalue : ((2 ^ 52 : ℕ) : ℚ) * 2 ^ (-52 : ℤ) = 1 := by norm_num
  have hcanonical : Canonical (2 ^ 52) (-52) := ⟨by norm_num, by norm_num, .inl le_rfl⟩
  rw [Reads, hunpack, ← hvalue]
  exact .finite _ hcanonical (by norm_num)

theorem rounded_ofScientific {n : ℕ} (h : 2 ^ 53 ≤ n) :
    Rounded n (.ofModel (.pack (.ofScientific .binary64 n 0))) := by
  have hn : n ≠ 0 := by omega
  have hlong : 52 ≤ (n <<< 53 * 10 ^ 0).log2 := by
    rw [pow_zero, mul_one]
    have := log2_add_le_log2_shiftLeft hn 53
    omega
  have hvalue : (n : ℚ) = (n <<< 53 * 10 ^ 0 : ℕ) * 2 ^ (-53 + 0 : ℤ) := by
    rw [Nat.shiftLeft_eq, pow_zero, mul_one, add_zero, zpow_neg, zpow_ofNat, Nat.cast_mul,
      Nat.cast_pow, Nat.cast_ofNat, mul_inv_cancel_right₀ (by positivity)]
  have heq : UnpackedFloat.ofScientific Format.binary64 n 0 =
      roundWithAccuracy Format.binary64 .positive (n <<< 53 * 10 ^ 0) (-53 + 0) .exact := by
    rw [UnpackedFloat.ofScientific, dif_neg hn, if_neg (by norm_num), if_neg ?_, if_pos le_rfl]
    · rfl
    · have : (0 : ℤ) < 2 ^ 11 := by norm_num
      change ¬ (0 : ℤ) < -(2 ^ 11 + n.log2)
      omega
  rw [heq]
  rw [hvalue]
  exact (rounds_roundWithAccuracy (holds_exact _ _) (.inl hlong)).rounded

/-- Small numbers are converted as words and then multiplied by one. -/
theorem ofNat_of_lt {n : ℕ} (h : n < 2 ^ 53) : Float.ofNat n =
    .ofModel (.pack (.ofNat .binary64 n)) * Float.ofBits 0x3FF0000000000000 := by
  have hn : n.toUInt64.toNat = n := by simp; omega
  have hfast : Float.ofNat n = n.toUInt64.toFloat * Float.ofBits 0x3FF0000000000000 :=
    dif_pos ⟨h, by norm_num⟩
  rw [hfast, UInt64.toFloat, Float.Model.ofUInt64, UnpackedFloat.ofUInt64, hn]

theorem rounded_ofNat (n : ℕ) : Rounded n (Float.ofNat n) := by
  by_cases h : n < 2 ^ 53
  · have hsmall : (n : ℚ) < 2 ^ 1023 := by
      calc (n : ℚ) < 2 ^ 53 := by exact_mod_cast h
        _ ≤ 2 ^ 1023 := pow_le_pow_right₀ one_le_two (by norm_num)
    have hreads := (rounded_ofNat_model n).reads (representable_natCast h) hsmall
    rw [ofNat_of_lt h]
    simpa using hreads.mul reads_one
  · have hslow : Float.ofNat n = .ofModel (.pack (.ofScientific .binary64 n 0)) :=
      dif_neg fun hn => h hn.1
    rw [hslow]
    exact rounded_ofScientific (not_lt.mp h)

theorem reads_ofNat {n : ℕ} (h : n < 2 ^ 53) : Reads (Float.ofNat n) n := by
  refine (rounded_ofNat n).reads (representable_natCast h) ?_
  calc (n : ℚ) < 2 ^ 53 := by exact_mod_cast h
    _ ≤ 2 ^ 1023 := pow_le_pow_right₀ one_le_two (by norm_num)

/-! ### Whole numbers before a double -/

theorem roundToInt_eq (m : ℕ) (e : ℤ) : roundToInt .positive m e = ⌊(m * 2 ^ e : ℚ)⌋ := by
  have hshift : (0 - (e - (e - 0).toNat)).toNat = (-e).toNat := by omega
  have hvalue : (m * 2 ^ e : ℚ) = (m <<< (e - 0).toNat : ℕ) / 2 ^ (-e).toNat := by
    have he : e = e.toNat - (-e).toNat := by omega
    rw [sub_zero, Nat.shiftLeft_eq, Nat.cast_mul, Nat.cast_pow, Nat.cast_ofNat, mul_div_assoc,
      ← zpow_natCast, ← zpow_natCast, ← zpow_sub₀ two_ne_zero, ← he]
  have hholds := (holds_exact (m <<< (e - 0).toNat) 0).shiftRight (-e).toNat
  rw [zpow_zero, mul_one, div_one, ← hvalue] at hholds
  rw [roundToInt, decreaseExponent]
  dsimp only
  rw [shiftToExponent, hshift]
  exact (Int.floor_eq_iff.mpr ⟨hholds.mantissa_le, hholds.lt_mantissa_succ⟩).symm

theorem toNat_ofNatClamp (n : ℕ) : (UInt64.ofNatClamp n).toNat = min n (2 ^ 64 - 1) := by
  rcases Nat.lt_or_ge n UInt64.size with hlt | hge
  · rw [UInt64.toNat_ofNatClamp_of_lt hlt]
    exact (min_eq_left (Nat.le_sub_one_of_lt hlt)).symm
  · rw [UInt64.toNat_ofNatClamp_of_le hge]
    exact (min_eq_right ((Nat.sub_le _ _).trans hge)).symm

theorem Reads.toNat_toUInt64 (h : Reads x q) : x.toUInt64.toNat = min ⌊q⌋₊ (2 ^ 64 - 1) := by
  have htoInt : x.toModel.unpack.toInt 0 (UInt64.size - 1) = ⌊q⌋ := by
    rw [Reads] at h
    generalize x.toModel.unpack = u at h
    cases h with
    | zero => rfl
    | finite hm hc he => exact roundToInt_eq _ _
  rw [Float.toUInt64, Float.Model.toUInt64, UnpackedFloat.toUInt64, htoInt, toNat_ofNatClamp,
    Int.floor_toNat]

/-! ### Infinite and undefined results -/

def Undefined (x : Float) : Prop := x.toModel.unpack = .notANumber

theorem overflows_infinity : Overflows (.ofModel (.pack (.infinity .positive))) :=
  unpack_packedInfinity

theorem undefined_notANumber : Undefined (.ofModel (.pack .notANumber)) :=
  @unpack_packedNaN Format.binary64

theorem Overflows.mul (hx : Overflows x) (hy : Overflows y) : Overflows (x * y) := by
  rw [Overflows] at hx hy
  rw [mul_eq, hx, hy]
  exact overflows_infinity

theorem Overflows.mul_reads (hx : Overflows x) (hy : Reads y q) (hq : 0 < q) :
    Overflows (x * y) := by
  rw [Overflows] at hx
  rw [Reads] at hy
  rw [mul_eq, hx]
  generalize y.toModel.unpack = v at hy
  cases hy with
  | zero => exact absurd hq (lt_irrefl _)
  | finite hm hc he => exact overflows_infinity

theorem Reads.mul_overflows (hx : Reads x p) (hp : 0 < p) (hy : Overflows y) :
    Overflows (x * y) := by
  rw [Overflows] at hy
  rw [Reads] at hx
  rw [mul_eq, hy]
  generalize x.toModel.unpack = u at hx
  cases hx with
  | zero => exact absurd hp (lt_irrefl _)
  | finite hm hc he => exact overflows_infinity

theorem Reads.zero_mul_overflows (hx : Reads x 0) (hy : Overflows y) : Undefined (x * y) := by
  rw [Overflows] at hy
  rw [Reads] at hx
  rw [mul_eq, hy]
  generalize x.toModel.unpack = u, h0 : (0 : ℚ) = z at hx
  cases hx with
  | zero => exact undefined_notANumber
  | @finite m e hm hc he =>
    have : (0 : ℚ) < m * 2 ^ e := by positivity
    exact absurd h0 this.ne

theorem Undefined.mul (hx : Undefined x) (y : Float) : Undefined (x * y) := by
  rw [Undefined] at hx
  rw [mul_eq, hx]
  cases y.toModel.unpack <;> exact undefined_notANumber

theorem Overflows.toNat_toUInt64 (h : Overflows x) : x.toUInt64.toNat = 2 ^ 64 - 1 := by
  rw [Overflows] at h
  rw [Float.toUInt64, Float.Model.toUInt64, UnpackedFloat.toUInt64, h, toNat_ofNatClamp]
  rfl

theorem Undefined.toNat_toUInt64 (h : Undefined x) : x.toUInt64.toNat = 0 := by
  rw [Undefined] at h
  rw [Float.toUInt64, Float.Model.toUInt64, UnpackedFloat.toUInt64, h, toNat_ofNatClamp]
  rfl

end PlainScore.Binary
