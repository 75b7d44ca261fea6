import PlainScore.Proofs.Binary.Rounding

/-! Doubles as exact numbers.
A double that is neither infinite nor undefined is a rational number, and its parts are read off
its bits. What an operation rounds to is a double again, unless it is too large for one. -/
namespace PlainScore.Binary

open Float.Model Float.Model.UnpackedFloat

structure Canonical (m : ℕ) (e : ℤ) : Prop where
  bits : m < 2 ^ 53
  least : -1074 ≤ e
  full : 2 ^ 52 ≤ m ∨ e = -1074

variable {s : Sign} {m : ℕ} {e : ℤ}

/-! ### Packing -/

theorem toNat_append_one (M : BitVec 52) : (1#1 ++ M).toNat = 2 ^ 52 + M.toNat := by
  rw [BitVec.toNat_append, ← Nat.shiftLeft_add_eq_or_of_lt M.isLt]
  rfl

theorem unpack_finite {b : BitVec Format.binary64.numBits} {hm : 0 < m}
    (h : UnpackedFloat.unpack Format.binary64 b = .finite s m e hm) :
    Canonical m e ∧ e ≤ 971 := by
  revert h
  fun_cases UnpackedFloat.unpack Format.binary64 b with
  | case1 | case2 | case3 => simp
  | case4 M E exponent S sign hinf hzero hM0 =>
    intro h
    have hM : M.toNat < 2 ^ 52 := M.isLt
    have hexp : exponent = -1075 := by
      simp only [exponent, hzero]
      rfl
    obtain ⟨-, rfl, rfl⟩ := UnpackedFloat.finite.inj h
    rw [hexp]
    exact ⟨⟨by omega, by decide, Or.inr rfl⟩, by decide⟩
  | case5 M E exponent S sign hinf hzero =>
    intro h
    have hM : M.toNat < 2 ^ 52 := M.isLt
    have hE : E.toNat < 2 ^ 11 := E.isLt
    have hne0 : E.toNat ≠ 0 := fun he => hzero (BitVec.eq_of_toNat_eq he)
    have hne : E.toNat ≠ 2047 := fun he => hinf (BitVec.eq_of_toNat_eq he)
    have hexp : exponent = E.toNat - 1075 := rfl
    obtain ⟨-, rfl, rfl⟩ := UnpackedFloat.finite.inj h
    have hbits : (1#1 ++ M).toNat = 2 ^ 52 + M.toNat := toNat_append_one M
    rw [hbits]
    exact ⟨⟨by omega, by omega, Or.inl (by omega)⟩, by omega⟩

theorem unpack_packedInfinity :
    UnpackedFloat.unpack Format.binary64 (packedInfinity Format.binary64 s) = .infinity s := by
  simp [UnpackedFloat.unpack, packedInfinity]

theorem unpack_subnormal (hm : 0 < m) (hlt : m < 2 ^ 52) :
    UnpackedFloat.unpack Format.binary64 (packComponents Format.binary64 s 0#11 (.ofNat 52 m)) =
      .finite s m (-1074) hm := by
  have hM : (BitVec.ofNat 52 m).toNat = m := by
    rw [BitVec.toNat_ofNat, Nat.mod_eq_of_lt hlt]
  have hM0 : BitVec.ofNat 52 m ≠ 0#52 := by
    intro h
    rw [h] at hM
    exact hm.ne hM
  simp only [UnpackedFloat.unpack, unpackExponent_packComponents, unpackMantissa_packComponents,
    unpackSign_packComponents, Sign.ofBitVec_toBitVec]
  simp only [hM0, hM]
  rfl

theorem unpack_normal {E : BitVec 11} (hm : 0 < m) (hge : 2 ^ 52 ≤ m) (hlt : m < 2 ^ 53)
    (hE0 : E ≠ 0#11) (hE : E ≠ -1#11) :
    UnpackedFloat.unpack Format.binary64 (packComponents Format.binary64 s E (.ofNat 52 m)) =
      .finite s m (E.toNat - 1075) hm := by
  have hM : (1#1 ++ BitVec.ofNat 52 m).toNat = m := by
    rw [toNat_append_one, BitVec.toNat_ofNat]
    omega
  simp only [UnpackedFloat.unpack, unpackExponent_packComponents, unpackMantissa_packComponents,
    unpackSign_packComponents, Sign.ofBitVec_toBitVec]
  simp only [hE0, hE, if_false]
  simp only [hM]
  rfl

theorem unpack_pack (u : UnpackedFloat) : (Float.Model.pack u).unpack =
    UnpackedFloat.unpack Format.binary64 (UnpackedFloat.pack Format.binary64 u) := rfl

theorem unpack_pack_large {hm : 0 < m} (he : 971 < e) :
    (Float.Model.pack (.finite s m e hm)).unpack = .infinity s := by
  have hlarge : 2 ^ 11 ≤ (e + (1023 : ℕ) + (52 : ℕ)).toNat + 1 := by omega
  have hpack : UnpackedFloat.pack Format.binary64 (.finite s m e hm) =
      packedInfinity Format.binary64 s := if_pos hlarge
  rw [unpack_pack, hpack]
  exact unpack_packedInfinity

theorem unpack_pack_finite {hm : 0 < m} (hc : Canonical m e) (he : e ≤ 971) :
    (Float.Model.pack (.finite s m e hm)).unpack = .finite s m e hm := by
  have hleast := hc.least
  have hsmall : ¬ 2 ^ 11 ≤ (e + (1023 : ℕ) + (52 : ℕ)).toNat + 1 := by omega
  by_cases hfull : 2 ^ 52 ≤ m
  · have hlog : m.log2 + 1 = 53 := by rw [(Nat.log2_eq_iff hm.ne').mpr ⟨hfull, hc.bits⟩]
    have hpack : UnpackedFloat.pack Format.binary64 (.finite s m e hm) =
        packComponents Format.binary64 s (.ofNat 11 (e + (1023 : ℕ) + (52 : ℕ)).toNat)
          (.ofNat 52 m) := (if_neg hsmall).trans (if_pos hlog)
    have hE : (BitVec.ofNat 11 (e + (1023 : ℕ) + (52 : ℕ)).toNat).toNat =
        (e + (1023 : ℕ) + (52 : ℕ)).toNat := by
      rw [BitVec.toNat_ofNat]
      omega
    rw [unpack_pack, hpack, unpack_normal hm hfull hc.bits, hE]
    · congr 1
      omega
    · intro h
      rw [h] at hE
      change 0 = _ at hE
      omega
    · intro h
      rw [h] at hE
      change 2047 = _ at hE
      omega
  · have hlt : m < 2 ^ 52 := not_le.mp hfull
    have hlog : m.log2 + 1 ≠ 53 := by
      have := (Nat.log2_lt hm.ne').mpr hlt
      omega
    have hpack : UnpackedFloat.pack Format.binary64 (.finite s m e hm) =
        packComponents Format.binary64 s 0#11 (.ofNat 52 m) :=
      (if_neg hsmall).trans (if_neg hlog)
    obtain rfl := hc.full.resolve_left hfull
    rw [unpack_pack, hpack, unpack_subnormal hm hlt]

/-! ### Exact values -/

def valueOf : UnpackedFloat → ℚ
  | .finite s m e _ => s.apply m * 2 ^ e
  | _ => 0

/-- The number that a double stands for, or zero if it is infinite or undefined. -/
def exact (x : Float) : ℚ := valueOf x.toModel.unpack

/-- A finite number without the sign bit. -/
inductive Magnitude : UnpackedFloat → ℚ → Prop where
  | zero : Magnitude (.zero .positive) 0
  | finite {m : ℕ} {e : ℤ} (hm : 0 < m) : Canonical m e → e ≤ 971 →
      Magnitude (.finite .positive m e hm) (m * 2 ^ e)

def Reads (x : Float) (q : ℚ) : Prop := Magnitude x.toModel.unpack q

namespace Magnitude

variable {u : UnpackedFloat} {q : ℚ}

theorem valueOf_eq (h : Magnitude u q) : valueOf u = q := by
  cases h with
  | zero => rfl
  | finite hm hc he => simp [valueOf, Sign.apply]

theorem nonneg (h : Magnitude u q) : 0 ≤ q := by
  cases h with
  | zero => rfl
  | finite hm hc he => positivity

theorem representable (h : Magnitude u q) : Representable q := by
  cases h with
  | zero => exact ⟨0, 0, by norm_num, by norm_num, by norm_num⟩
  | finite hm hc he => exact ⟨_, _, hc.bits, hc.least, rfl⟩

theorem lt_two_pow (h : Magnitude u q) : q < 2 ^ 1024 := by
  cases h with
  | zero => positivity
  | @finite m e hm hc he =>
    calc (m : ℚ) * 2 ^ e < 2 ^ 53 * 2 ^ e := by
          gcongr
          exact_mod_cast hc.bits
      _ = 2 ^ (53 + e) := by rw [zpow_add₀ two_ne_zero, zpow_ofNat]
      _ ≤ 2 ^ (1024 : ℤ) := zpow_le_zpow_right₀ one_le_two (by omega)

end Magnitude

theorem reads_exact {x : Float} {hm : 0 < m}
    (hx : x.toModel.unpack = .finite .positive m e hm) : Reads x (exact x) ∧ 0 < exact x := by
  obtain ⟨hc, he⟩ := unpack_finite hx
  have hread : Magnitude (.finite .positive m e hm) (m * 2 ^ e) := .finite hm hc he
  rw [Reads, exact, hx, hread.valueOf_eq]
  exact ⟨hread, by positivity⟩

/-- What compares as finite and positive is a number. -/
theorem reads_of_pos {x : Float} (hfin : x.isFinite = true) (hpos : 0 < x) :
    Reads x (exact x) ∧ 0 < exact x := by
  have hfin' : x.toModel.unpack.isFinite = true := hfin
  have hlt : UnpackedFloat.lt (.zero .positive) x.toModel.unpack = true :=
    of_decide_eq_true (p := (0 : Float).toModel < x.toModel) hpos
  cases hx : x.toModel.unpack with
  | notANumber | infinity s =>
    rw [hx] at hfin'
    cases hfin'
  | zero s =>
    rw [hx] at hlt
    cases hlt
  | finite s m e hm =>
    cases s with
    | negative =>
      rw [hx] at hlt
      cases hlt
    | positive => exact reads_exact hx

def Overflows (x : Float) : Prop := x.toModel.unpack = .infinity .positive

/-- An operation whose exact result is `q` comes to `x`: the double next to it, or infinity. -/
inductive Rounded (q : ℚ) (x : Float) : Prop where
  | near {r : ℚ} : Reads x r → |r - q| ≤ max (q / 2 ^ 53) (1 / 2 ^ 1075) →
      (Representable q → r = q) → Rounded q x
  | overflow : Overflows x → 2 ^ 1023 ≤ q → Rounded q x

theorem Canonical.unpack_pack {hm : 0 < m} (hc : Canonical m e) :
    Magnitude (Float.Model.pack (.finite .positive m e hm)).unpack (m * 2 ^ e) ∨
      (Float.Model.pack (.finite .positive m e hm)).unpack = .infinity .positive ∧ 971 < e := by
  by_cases he : e ≤ 971
  · left
    rw [unpack_pack_finite hc he]
    exact .finite hm hc he
  · have hlarge := not_le.mp he
    exact Or.inr ⟨unpack_pack_large hlarge, hlarge⟩

theorem Grid.unpack_settle {q : ℚ} {t : ℤ} {r : ℕ} (h : Grid q t) (hr : Nearest q t r) :
    Magnitude (Float.Model.pack (settle .positive r t)).unpack (r * 2 ^ t) ∨
      (Float.Model.pack (settle .positive r t)).unpack = .infinity .positive ∧ 971 ≤ t := by
  by_cases hz : r = 0
  · subst hz
    left
    rw [Nat.cast_zero, zero_mul, settle, dif_pos rfl]
    exact @unpack_packedZero Format.binary64 .positive ▸ Magnitude.zero
  · rcases (h.rounded_le hr).lt_or_eq with hlt | rfl
    · have hc : Canonical r t := ⟨hlt, h.least, (h.le_rounded hr).symm⟩
      rw [settle, dif_neg hz, if_pos hlt]
      exact hc.unpack_pack.imp_right fun hinf => ⟨hinf.1, hinf.2.le⟩
    · have hc : Canonical (2 ^ 52) (t + 1) :=
        ⟨by norm_num, h.least.trans (by omega), Or.inl le_rfl⟩
      have hvalue : (((2 ^ 53 : ℕ) : ℚ) * 2 ^ t) = ((2 ^ 52 : ℕ) : ℚ) * 2 ^ (t + 1) := by
        rw [zpow_add_one₀ two_ne_zero]
        push_cast
        ring
      rw [hvalue]
      exact hc.unpack_pack.imp_right fun hinf => ⟨hinf.1, by omega⟩

theorem Rounds.rounded {q : ℚ} {u : UnpackedFloat} (h : Rounds .positive q u) :
    Rounded q (.ofModel (.pack u)) := by
  obtain ⟨t, r, rfl, hgrid, hr⟩ := h
  rcases hgrid.unpack_settle hr with hreads | ⟨hinf, hlarge⟩
  · exact .near hreads (hgrid.abs_sub_le hr) (hgrid.eq_of_representable hr)
  · refine .overflow hinf ?_
    calc (2 : ℚ) ^ 1023 = 2 ^ (1023 : ℤ) := (zpow_ofNat _ _).symm
      _ ≤ 2 ^ (t + 52) := zpow_le_zpow_right₀ one_le_two (by omega)
      _ ≤ q := hgrid.lower.resolve_left (by omega)

end PlainScore.Binary
