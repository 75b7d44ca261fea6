import PlainScore.Proofs.Binary.Unsigned
import PlainScore.Proofs.Sheet

/-! The doubles that stand for the values of notes have no sign.
Halving one stays between zero and one, so that dots take nothing below one; everything else is
sums, products and quotients of such numbers. -/
namespace PlainScore

open Binary

namespace Token

theorem unsigned_natCast (n : ℕ) : Unsigned ((n : ℕ) : Float) := (rounded_ofNat n).unsigned

theorem reads_natCast {n : ℕ} (h : n < 2 ^ 53) : Reads ((n : ℕ) : Float) n := reads_ofNat h

theorem reads_halves (n : ℕ) : ∃ q ≤ 1, Reads (halves n) q := by
  induction n with
  | zero => exact ⟨(1 : ℕ), by norm_num, reads_natCast (by norm_num)⟩
  | succ n ih =>
    obtain ⟨q, hle, hq⟩ := ih
    have htwo : Reads ((2 : ℕ) : Float) (2 : ℕ) := reads_natCast (by norm_num)
    have hstep : Rounded (q / (2 : ℕ)) (halves (n + 1)) := hq.div htwo (by norm_num)
    have hhalf : q / (2 : ℕ) ≤ 1 / 2 := by
      rw [Nat.cast_ofNat]
      linarith
    cases hstep with
    | @near r hr hnear hexact =>
      have hsmall : max (q / (2 : ℕ) / 2 ^ 53) (1 / 2 ^ 1075) ≤ (1 : ℚ) / 2 := by
        refine max_le ?_ (one_div_le_one_div_of_le two_pos ?_)
        · rw [div_le_iff₀ (by positivity)]
          linarith
        · exact le_self_pow₀ one_le_two (by norm_num)
      refine ⟨r, ?_, hr⟩
      linarith [(abs_le.mp (hnear.trans hsmall)).2]
    | overflow hinf hlarge =>
      have hone : (1 : ℚ) ≤ 2 ^ 1023 := one_le_pow₀ one_le_two
      exact absurd (hone.trans (hlarge.trans hhalf)) (by norm_num)

theorem unsigned_halves (n : ℕ) : Unsigned (halves n) := by
  obtain ⟨q, -, hq⟩ := reads_halves n
  exact hq.positive

theorem unsigned_dotted (d : ℕ) : Unsigned (dotted d) := by
  obtain ⟨q, hle, hq⟩ := reads_halves d
  have htwo : Reads ((2 : ℕ) : Float) (2 : ℕ) := reads_natCast (by norm_num)
  refine htwo.sub hq ?_
  rw [Nat.cast_ofNat]
  linarith

theorem Modifiers.unsigned_quarters (m : Modifiers) : Unsigned m.quarters := by
  have hcast := unsigned_natCast
  have hdotted := unsigned_dotted m.dots
  unfold quarters
  dsimp only
  split_ifs
  · exact hcast _
  · exact (hcast _).mul hdotted
  · exact (hcast _).add ((hcast _).mul hdotted)
  · exact (hcast _).add ((hcast _).mul hdotted)
  · exact (unsigned_halves _).mul hdotted

theorem unsigned_of_partQuarters {part : List Char} {q : Float} (h : partQuarters part = .ok q) :
    Unsigned q := by
  rw [partQuarters] at h
  split_ifs at h
  cases h
  exact Modifiers.unsigned_quarters _

theorem unsigned_of_sumTied {token : String} {spelling : List Char} {total q : Float}
    {parts : List (List Char)} (ht : Unsigned total)
    (h : sumTied token spelling total parts = .ok q) : Unsigned q := by
  induction parts generalizing total with
  | nil =>
    cases h
    exact ht
  | cons part rest ih =>
    rw [sumTied] at h
    split_ifs at h
    cases hp : (partQuarters part : Except Error Float) with
    | error e =>
      rw [hp] at h
      cases h
    | ok v =>
      rw [hp] at h
      exact ih (ht.add (unsigned_of_partQuarters hp)) h

theorem unsigned_of_quarters {token : String} {q : Float} (h : quarters token = .ok q) :
    Unsigned q := by
  rw [quarters] at h
  dsimp only at h
  split_ifs at h
  · obtain ⟨spelling, -, h⟩ := ok_of_bind h
    exact unsigned_of_sumTied (unsigned_natCast 0) h
  · exact unsigned_of_partQuarters h

theorem unsigned_of_value {token : String} {v : Float} (h : value token = .ok v) :
    Unsigned v := by
  obtain ⟨q, hq, h⟩ := ok_of_bind h
  cases h
  exact (unsigned_of_quarters hq).div (unsigned_natCast 4)

end Token

theorem Note.value_of_ok {token : String} {note : Note} (h : ofToken token = .ok note) :
    (Token.value token : Except Error Float) = .ok note.value := by
  obtain ⟨v, hv, h⟩ := ok_of_bind h
  obtain ⟨spelling, -, h⟩ := ok_of_bind h
  obtain ⟨pitch, -, h⟩ := ok_of_bind h
  cases h
  exact hv

theorem Note.unsigned_value {token : String} {note : Note} (h : ofToken token = .ok note) :
    Unsigned note.value :=
  Token.unsigned_of_value (value_of_ok h)

end PlainScore
