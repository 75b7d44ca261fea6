import PlainScore.Proofs.Binary.Operations

/-! Doubles without a sign bit.
Whatever has none is a number, infinite or undefined. Sums, products and quotients of such doubles
have none either, and neither has a difference if the second number is not the larger one. -/
namespace PlainScore.Binary

open Float.Model Float.Model.UnpackedFloat

inductive Positive : UnpackedFloat → Prop where
  | notANumber : Positive .notANumber
  | infinity : Positive (.infinity .positive)
  | zero : Positive (.zero .positive)
  | finite (m : ℕ) (e : ℤ) (hm : 0 < m) : Positive (.finite .positive m e hm)

def Unsigned (x : Float) : Prop := Positive x.toModel.unpack

variable {x y : Float} {p q : ℚ} {u v : UnpackedFloat}

/-! ### Packing -/

theorem pack_of_positive (h : Positive u) :
    ∃ E M, UnpackedFloat.pack .binary64 u = packComponents .binary64 .positive E M := by
  cases h with
  | notANumber | infinity | zero => exact ⟨_, _, rfl⟩
  | finite m e hm =>
    rw [UnpackedFloat.pack]
    dsimp only
    split_ifs
    · exact ⟨_, _, rfl⟩
    · exact ⟨_, _, rfl⟩
    · exact ⟨_, _, rfl⟩

theorem Positive.unsigned (h : Positive u) : Unsigned (.ofModel (.pack u)) := by
  obtain ⟨E, M, hpack⟩ := pack_of_positive h
  rw [Unsigned, unpack_pack, hpack]
  simp only [UnpackedFloat.unpack, unpackSign_packComponents, Sign.ofBitVec_toBitVec]
  split_ifs
  · exact .infinity
  · exact .notANumber
  · exact .zero
  · exact .finite _ _ _
  · exact .finite _ _ _

theorem Magnitude.positive (h : Magnitude u q) : Positive u := by
  cases h with
  | zero => exact .zero
  | finite hm hc he => exact .finite _ _ _

theorem Rounded.unsigned (h : Rounded q x) : Unsigned x := by
  cases h with
  | near hreads => exact hreads.positive
  | overflow hinf =>
    rw [Overflows] at hinf
    rw [Unsigned, hinf]
    exact .infinity

/-- What a double without a sign can be. -/
theorem Unsigned.cases (h : Unsigned x) : Undefined x ∨ Overflows x ∨ Reads x (exact x) := by
  rw [Unsigned] at h
  generalize hu : x.toModel.unpack = u at h
  cases h with
  | notANumber => exact Or.inl hu
  | infinity => exact Or.inr (Or.inl hu)
  | zero =>
    rw [Reads, exact, hu]
    exact Or.inr (Or.inr .zero)
  | finite m e hm => exact Or.inr (Or.inr (reads_exact hu).1)

theorem Undefined.exact_eq_zero (h : Undefined x) : exact x = 0 := by
  rw [Undefined] at h
  rw [exact, h]
  rfl

theorem Overflows.exact_eq_zero (h : Overflows x) : exact x = 0 := by
  rw [Overflows] at h
  rw [exact, h]
  rfl

theorem Unsigned.exact_nonneg (h : Unsigned x) : 0 ≤ exact x := by
  rcases h.cases with hx | hx | hx
  · exact hx.exact_eq_zero.ge
  · exact hx.exact_eq_zero.ge
  · exact Magnitude.nonneg hx

theorem Unsigned.reads_of_ne_zero (h : Unsigned x) (hne : exact x ≠ 0) : Reads x (exact x) := by
  rcases h.cases with hx | hx | hx
  · exact absurd hx.exact_eq_zero hne
  · exact absurd hx.exact_eq_zero hne
  · exact hx

/-! ### Operations -/

theorem positive_roundWithAccuracy (m : ℕ) (e : ℤ) (a : Accuracy) :
    Positive (roundWithAccuracy .binary64 .positive m e a) := by
  rw [roundWithAccuracy]
  dsimp only
  split
  · exact .zero
  · exact .finite _ _ _

theorem positive_normalize {m : ℤ} (hm : 0 ≤ m) (e : ℤ) :
    Positive (UnpackedFloat.normalize .binary64 m e .positive) := by
  rw [UnpackedFloat.normalize]
  rcases hm.eq_or_lt with rfl | hlt
  · exact .zero
  · rw [Int.compare_eq_gt.mpr hlt]
    exact positive_roundWithAccuracy _ _ _

theorem Unsigned.mul (hx : Unsigned x) (hy : Unsigned y) : Unsigned (x * y) := by
  rw [Unsigned] at hx hy
  rw [mul_eq]
  refine Positive.unsigned ?_
  generalize x.toModel.unpack = u at hx
  generalize y.toModel.unpack = v at hy
  cases hx <;> cases hy
  case finite.finite => exact positive_roundWithAccuracy _ _ _
  all_goals constructor

theorem Unsigned.div (hx : Unsigned x) (hy : Unsigned y) : Unsigned (x / y) := by
  rw [Unsigned] at hx hy
  rw [div_eq]
  refine Positive.unsigned ?_
  generalize x.toModel.unpack = u at hx
  generalize y.toModel.unpack = v at hy
  cases hx <;> cases hy
  case finite.finite => exact positive_roundWithAccuracy _ _ _
  all_goals constructor

theorem Unsigned.add (hx : Unsigned x) (hy : Unsigned y) : Unsigned (x + y) := by
  have heq : x + y = .ofModel (.pack (.add .binary64 x.toModel.unpack y.toModel.unpack)) := rfl
  rw [Unsigned] at hx hy
  rw [heq]
  refine Positive.unsigned ?_
  generalize x.toModel.unpack = u at hx
  generalize y.toModel.unpack = v at hy
  cases hx <;> cases hy
  case finite.finite => exact positive_normalize (Int.natCast_nonneg _) _
  all_goals constructor

theorem decreaseExponent_value {m : ℕ} {e t : ℤ} (h : t ≤ e) :
    ((decreaseExponent m e t).1 : ℚ) = m * 2 ^ e / 2 ^ t := by
  have he : e = (e - t).toNat + t := by omega
  rw [decreaseExponent, Nat.shiftLeft_eq, eq_div_iff (by positivity)]
  conv_rhs => rw [he, zpow_add₀ two_ne_zero, zpow_natCast]
  push_cast
  ring

theorem Reads.sub (hx : Reads x p) (hy : Reads y q) (hle : q ≤ p) : Unsigned (x - y) := by
  have heq : x - y = .ofModel (.pack (.sub .binary64 x.toModel.unpack y.toModel.unpack)) := rfl
  rw [Reads] at hx hy
  rw [heq]
  refine Positive.unsigned ?_
  generalize x.toModel.unpack = u at hx
  generalize y.toModel.unpack = v at hy
  cases hx with
  | zero => 
    cases hy with
    | zero => exact .zero
    | @finite n f hn hd hf =>
      have : (0 : ℚ) < n * 2 ^ f := by positivity
      exact absurd hle (not_le.mpr this)
  | @finite m e hm hc he =>
    cases hy with
    | zero => exact .finite _ _ _
    | @finite n f hn hd hf =>
      refine positive_normalize ?_ _
      have hmn : ((decreaseExponent n f (min e f)).1 : ℚ) ≤ (decreaseExponent m e (min e f)).1 := by
        rw [decreaseExponent_value (min_le_left _ _), decreaseExponent_value (min_le_right _ _)]
        gcongr
      have : (decreaseExponent n f (min e f)).1 ≤ (decreaseExponent m e (min e f)).1 := by
        exact_mod_cast hmn
      exact sub_nonneg.mpr (Int.ofNat_le.mpr this)

end PlainScore.Binary
