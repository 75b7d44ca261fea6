import Mathlib

/-! Rounding to a double.
An operation comes with a mantissa that may be cut off, and with two bits that tell where the
exact result lies between this mantissa and the next. Shifting bits out keeps that account
correct, so that the result is rounded once, to the nearest multiple of a power of two: it is off
by half of it at most, and not at all if the exact result is such a multiple. -/
namespace PlainScore.Binary

open Float.Model Float.Model.UnpackedFloat

/-! ### Residual bits -/

/-- The mantissa and its residual bits stand for a number. -/
def Holds (x : ℚ) : ExtendedMantissa → Prop
  | ⟨m, false, false⟩ => x = m
  | ⟨m, false, true⟩ => (m : ℚ) < x ∧ x < m + 1 / 2
  | ⟨m, true, false⟩ => x = m + 1 / 2
  | ⟨m, true, true⟩ => (m : ℚ) + 1 / 2 < x ∧ x < m + 1

namespace Holds

variable {x : ℚ} {em : ExtendedMantissa}

theorem shiftRightOne (h : Holds x em) : Holds (x / 2) em.shiftRightOne := by
  obtain ⟨m, round, sticky⟩ := em
  obtain ⟨k, rfl | rfl⟩ := Nat.even_or_odd' m
  · have hbit : (2 * k % 2 != 0) = false := by simp
    have hrest : 2 * k / 2 = k := by omega
    cases round <;> cases sticky <;>
      simp only [ExtendedMantissa.shiftRightOne, hbit, hrest, Holds, Bool.or_false,
        Bool.or_true] at h ⊢ <;> push_cast at h <;> grind
  · have hbit : ((2 * k + 1) % 2 != 0) = true := by simp
    have hrest : (2 * k + 1) / 2 = k := by omega
    cases round <;> cases sticky <;>
      simp only [ExtendedMantissa.shiftRightOne, hbit, hrest, Holds, Bool.or_false,
        Bool.or_true] at h ⊢ <;> push_cast at h <;> grind

theorem shiftRight (h : Holds x em) (n : ℕ) : Holds (x / 2 ^ n) (em >>> n) := by
  induction n with
  | zero =>
    rw [pow_zero, div_one]
    exact h
  | succ n ih =>
    have hstep := ih.shiftRightOne
    rwa [div_div, ← pow_succ] at hstep

theorem mantissa_le (h : Holds x em) : (em.mantissa : ℚ) ≤ x := by
  obtain ⟨m, round, sticky⟩ := em
  cases round <;> cases sticky <;> simp only [Holds] at h ⊢ <;> linarith

theorem lt_mantissa_succ (h : Holds x em) : x < em.mantissa + 1 := by
  obtain ⟨m, round, sticky⟩ := em
  cases round <;> cases sticky <;> simp only [Holds] at h ⊢ <;> linarith

theorem abs_rounded_sub (h : Holds x em) : |em.roundedMantissa - x| ≤ 1 / 2 := by
  obtain ⟨m, round, sticky⟩ := em
  rw [abs_le]
  cases round <;> cases sticky <;>
    simp only [Holds, ExtendedMantissa.roundedMantissa, ExtendedMantissa.accuracy,
      Accuracy.roundToNearestEven] at h ⊢
  · constructor <;> linarith
  · constructor <;> linarith
  · -- a tie is off by a half, to either side
    obtain hbit | hbit := Nat.mod_two_eq_zero_or_one m <;> rw [hbit] <;> push_cast <;>
      constructor <;> linarith
  · push_cast
    constructor <;> linarith

theorem rounded_eq {n : ℕ} (h : Holds n em) : em.roundedMantissa = n := by
  have hm : em.mantissa = n := by
    have hle : em.mantissa ≤ n := by exact_mod_cast h.mantissa_le
    have hlt : n < em.mantissa + 1 := by exact_mod_cast h.lt_mantissa_succ
    omega
  obtain ⟨m, round, sticky⟩ := em
  obtain rfl : m = n := hm
  cases round <;> cases sticky <;> simp only [Holds] at h
  · rfl
  · exact absurd h.1 (lt_irrefl _)
  · linarith
  · linarith

end Holds

/-! ### The grid of doubles -/

/-- The doubles about a number are the multiples of a power of two. -/
structure Grid (q : ℚ) (t : ℤ) : Prop where
  least : -1074 ≤ t
  upper : q < 2 ^ (t + 53)
  lower : t = -1074 ∨ (2 : ℚ) ^ (t + 52) ≤ q

theorem targetExponent_eq (m : ℕ) (e : ℤ) :
    Format.binary64.targetExponent (totalExponent m e) = max (m.log2 + e - 52) (-1074) := by
  simp only [Format.targetExponent, totalExponent, Format.mantissaBits, Format.minExponent]
  norm_num
  omega

variable {q : ℚ} {m : ℕ} {e : ℤ} {a : Accuracy}

@[simp] theorem mantissa_ofMantissaAndAccuracy :
    (ExtendedMantissa.ofMantissaAndAccuracy m a).mantissa = m := by
  cases a with
  | exact => rfl
  | inexact o => cases o <;> rfl

/-- A mantissa that is not too short tells the grid of the number it stands for. -/
theorem Holds.grid (h : Holds (q / 2 ^ e) (.ofMantissaAndAccuracy m a))
    (hlong : 52 ≤ m.log2 ∨ e ≤ -1074) : Grid q (max (m.log2 + e - 52) (-1074)) := by
  have hpos : (0 : ℚ) < 2 ^ e := by positivity
  refine ⟨le_max_right _ _, ?_, ?_⟩
  · have hlt := h.lt_mantissa_succ
    rw [mantissa_ofMantissaAndAccuracy, div_lt_iff₀ hpos] at hlt
    have hbits : (m : ℚ) + 1 ≤ 2 ^ ((m.log2 : ℤ) + 1) := by
      exact_mod_cast Nat.lt_log2_self
    calc q < (m + 1) * 2 ^ e := hlt
      _ ≤ 2 ^ ((m.log2 : ℤ) + 1) * 2 ^ e := by gcongr
      _ = 2 ^ ((m.log2 : ℤ) + 1 + e) := (zpow_add₀ two_ne_zero _ _).symm
      _ ≤ 2 ^ (max ((m.log2 : ℤ) + e - 52) (-1074) + 53) :=
          zpow_le_zpow_right₀ one_le_two (by omega)
  · refine (em _).imp_right fun hne => ?_
    have hlog : max ((m.log2 : ℤ) + e - 52) (-1074) + 52 = m.log2 + e := by omega
    have hm : m ≠ 0 := by
      rintro rfl
      rw [Nat.log2_zero] at hne hlong
      omega
    have hle := h.mantissa_le
    rw [mantissa_ofMantissaAndAccuracy, le_div_iff₀ hpos] at hle
    calc (2 : ℚ) ^ (max ((m.log2 : ℤ) + e - 52) (-1074) + 52) = 2 ^ m.log2 * 2 ^ e := by
          rw [hlog, zpow_add₀ two_ne_zero, zpow_natCast]
      _ ≤ m * 2 ^ e := by
          gcongr
          exact_mod_cast Nat.log2_self_le hm
      _ ≤ q := hle

theorem shiftToTargetExponent_spec (h : Holds (q / 2 ^ e) (.ofMantissaAndAccuracy m a))
    (hlong : 52 ≤ m.log2 ∨ e ≤ -1074) :
    ∃ em t, shiftToTargetExponent Format.binary64 m e a = (em, t) ∧ Grid q t ∧
      Holds (q / 2 ^ t) em := by
  have hgrid := h.grid hlong
  set t := max ((m.log2 : ℤ) + e - 52) (-1074) with ht
  have hshift : e + ((t - e).toNat : ℤ) = t := by omega
  refine ⟨ExtendedMantissa.ofMantissaAndAccuracy m a >>> (t - e).toNat, t, ?_, hgrid, ?_⟩
  · rw [shiftToTargetExponent, targetExponent_eq, ← ht, shiftToExponent, hshift]
  · have hres := h.shiftRight (t - e).toNat
    rwa [div_div, ← zpow_natCast, ← zpow_add₀ two_ne_zero, hshift] at hres

/-! ### Rounding once -/

structure Nearest (q : ℚ) (t : ℤ) (r : ℕ) : Prop where
  near : |r - q / 2 ^ t| ≤ 1 / 2
  exact : ∀ n : ℕ, q / 2 ^ t = n → r = n

variable {t : ℤ} {r : ℕ}

theorem Grid.rounded_le (h : Grid q t) (hr : Nearest q t r) : r ≤ 2 ^ 53 := by
  have hlt : q / 2 ^ t < 2 ^ 53 := by
    have hupper := h.upper
    rw [zpow_add₀ two_ne_zero, mul_comm, zpow_ofNat] at hupper
    exact (div_lt_iff₀ (by positivity)).mpr hupper
  have hle := (abs_le.mp hr.near).2
  have hcast : (r : ℚ) < (2 ^ 53 + 1 : ℕ) := by
    push_cast
    linarith
  exact Nat.lt_succ_iff.mp (by exact_mod_cast hcast)

theorem Grid.le_rounded (h : Grid q t) (hr : Nearest q t r) : t = -1074 ∨ 2 ^ 52 ≤ r := by
  refine h.lower.imp_right fun hle => ?_
  have hdiv : (2 : ℚ) ^ 52 ≤ q / 2 ^ t := by
    rw [zpow_add₀ two_ne_zero, mul_comm, zpow_ofNat] at hle
    exact (le_div_iff₀ (by positivity)).mpr hle
  have hge := (abs_le.mp hr.near).1
  have hcast : ((2 ^ 52 : ℕ) : ℚ) < r + 1 := by
    push_cast
    linarith
  exact Nat.lt_succ_iff.mp (by exact_mod_cast hcast)

theorem shiftToTargetExponent_of_lt (hr : r < 2 ^ 53) (ht : -1074 ≤ t) :
    shiftToTargetExponent Format.binary64 r t .exact = (⟨r, false, false⟩, t) := by
  have hlog : r.log2 ≤ 52 := by
    by_cases hz : r = 0
    · rw [hz, Nat.log2_zero]
      omega
    · exact Nat.lt_succ_iff.mp ((Nat.log2_lt hz).mpr hr)
  have hshift : (max ((r.log2 : ℤ) + t - 52) (-1074) - t).toNat = 0 := by omega
  rw [shiftToTargetExponent, targetExponent_eq, shiftToExponent, hshift]
  exact congrArg _ (add_zero t)

/-- Rounding has carried into a new bit. -/
theorem shiftToTargetExponent_two_pow (ht : -1074 ≤ t) :
    shiftToTargetExponent Format.binary64 (2 ^ 53) t .exact = (⟨2 ^ 52, false, false⟩, t + 1) := by
  have hshift : (max (((2 ^ 53 : ℕ).log2 : ℤ) + t - 52) (-1074) - t).toNat = 1 := by
    rw [Nat.log2_two_pow]
    omega
  rw [shiftToTargetExponent, targetExponent_eq, shiftToExponent, hshift]
  rfl

/-- What `r` units of `2^t` are as a double, if they have at most 53 bits or are just one more. -/
def settle (s : Sign) (r : ℕ) (t : ℤ) : UnpackedFloat :=
  if h : r = 0 then .zero s
  else if r < 2 ^ 53 then .finite s r t (Nat.pos_of_ne_zero h)
  else .finite s (2 ^ 52) (t + 1) (by decide)

def Rounds (s : Sign) (q : ℚ) (u : UnpackedFloat) : Prop :=
  ∃ t r, u = settle s r t ∧ Grid q t ∧ Nearest q t r

theorem rounds_roundWithAccuracy {s : Sign} (h : Holds (q / 2 ^ e) (.ofMantissaAndAccuracy m a))
    (hlong : 52 ≤ m.log2 ∨ e ≤ -1074) :
    Rounds s q (roundWithAccuracy Format.binary64 s m e a) := by
  obtain ⟨em, t, hshift, hgrid, hholds⟩ := shiftToTargetExponent_spec h hlong
  have hnear : Nearest q t em.roundedMantissa :=
    ⟨hholds.abs_rounded_sub, fun n hn => (hn ▸ hholds).rounded_eq⟩
  refine ⟨t, em.roundedMantissa, ?_, hgrid, hnear⟩
  rw [roundWithAccuracy, hshift]
  dsimp only
  rcases (hgrid.rounded_le hnear).lt_or_eq with hlt | heq
  · simp only [shiftToTargetExponent_of_lt hlt hgrid.least, settle, if_pos hlt]
  · rw [heq, shiftToTargetExponent_two_pow hgrid.least]
    rfl

theorem holds_exact (m : ℕ) (e : ℤ) :
    Holds ((m * 2 ^ e : ℚ) / 2 ^ e) (.ofMantissaAndAccuracy m .exact) :=
  mul_div_cancel_right₀ _ (by positivity)

theorem log2_add_le_log2_shiftLeft (hm : m ≠ 0) (k : ℕ) : m.log2 + k ≤ (m <<< k).log2 := by
  have hne : m <<< k ≠ 0 := by simpa using hm
  rw [Nat.le_log2 hne, Nat.shiftLeft_eq, pow_add]
  exact Nat.mul_le_mul_right _ (Nat.log2_self_le hm)

/-- A mantissa that is too short gets zeros first. -/
theorem rounds_round {s : Sign} (hm : m ≠ 0) :
    Rounds s (m * 2 ^ e) (round Format.binary64 s m e) := by
  rw [UnpackedFloat.round, decreaseExponent, targetExponent_eq]
  dsimp only
  generalize hk : (e - max ((m.log2 : ℤ) + e - 52) (-1074)).toNat = k
  have hvalue : (m * 2 ^ e : ℚ) = (m <<< k : ℕ) * 2 ^ (e - k) := by
    rw [Nat.shiftLeft_eq, Nat.cast_mul, Nat.cast_pow, Nat.cast_ofNat, mul_assoc, ← zpow_natCast,
      ← zpow_add₀ two_ne_zero, add_sub_cancel]
  rw [hvalue]
  refine rounds_roundWithAccuracy (holds_exact _ _) ?_
  have hlog := log2_add_le_log2_shiftLeft hm k
  omega

/-! ### What rounding costs -/

/-- A double, unless it is too large for one. -/
def Representable (q : ℚ) : Prop := ∃ (n : ℕ) (f : ℤ), n < 2 ^ 53 ∧ -1074 ≤ f ∧ q = n * 2 ^ f

theorem Grid.abs_sub_le (h : Grid q t) (hr : Nearest q t r) :
    |r * 2 ^ t - q| ≤ max (q / 2 ^ 53) (1 / 2 ^ 1075) := by
  have hpos : (0 : ℚ) < 2 ^ t := by positivity
  have hhalf : |r * 2 ^ t - q| ≤ 1 / 2 * 2 ^ t := by
    calc |r * 2 ^ t - q| = |(r - q / 2 ^ t) * 2 ^ t| := by rw [sub_mul, div_mul_cancel₀ _ hpos.ne']
      _ = |r - q / 2 ^ t| * 2 ^ t := by rw [abs_mul, abs_of_pos hpos]
      _ ≤ 1 / 2 * 2 ^ t := mul_le_mul_of_nonneg_right hr.near hpos.le
  obtain rfl | hle := h.lower
  · refine hhalf.trans (le_max_of_le_right (le_of_eq ?_))
    rw [zpow_neg, zpow_ofNat, ← one_div, one_div_mul_one_div, ← pow_succ']
  · refine hhalf.trans (le_max_of_le_left ?_)
    rw [zpow_add₀ two_ne_zero, zpow_ofNat] at hle
    rw [le_div_iff₀ (by positivity)]
    linarith

theorem Grid.eq_of_representable (h : Grid q t) (hr : Nearest q t r) (hq : Representable q) :
    r * 2 ^ t = q := by
  obtain ⟨n, f, hn, hf, rfl⟩ := hq
  have htf : t ≤ f := by
    obtain rfl | hle := h.lower
    · exact hf
    · have hlt : (2 : ℚ) ^ (t + 52) < 2 ^ (f + 53) := by
        calc (2 : ℚ) ^ (t + 52) ≤ n * 2 ^ f := hle
          _ < 2 ^ 53 * 2 ^ f := by
            gcongr
            exact_mod_cast hn
          _ = 2 ^ (f + 53) := by rw [zpow_add₀ two_ne_zero, zpow_ofNat, mul_comm]
      have := (zpow_lt_zpow_iff_right₀ one_lt_two).mp hlt
      omega
  have hunits : (n * 2 ^ f : ℚ) = (n * 2 ^ (f - t).toNat : ℕ) * 2 ^ t := by
    rw [Nat.cast_mul, Nat.cast_pow, Nat.cast_ofNat, mul_assoc, ← zpow_natCast,
      ← zpow_add₀ two_ne_zero]
    congr 2
    omega
  rw [hr.exact (n * 2 ^ (f - t).toNat), hunits]
  rw [hunits]
  exact mul_div_cancel_right₀ _ (by positivity)

end PlainScore.Binary
