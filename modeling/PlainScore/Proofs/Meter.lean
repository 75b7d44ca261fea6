import PlainScore.Proofs.Score.Loading
import PlainScore.Proofs.Text.Numeral

/-! Which texts are time signatures. `Written` follows the written form: the first slash, and the
numbers on either side of it. A text that is none is quoted whole. -/
namespace PlainScore.Meter

open Text (FirstCut Holds Padded)

def Written (text : String) (m : Meter) : Prop :=
  ∃ before after, FirstCut '/' text.toList before after ∧ Holds bound before m.numerator ∧
    Holds bound after m.denominator

variable {text before after : String} {cs : List Char} {n : Nat} {m : Meter} {e : Error}

/-! ### Reading -/

theorem number?_eq_some_iff : number? cs = some n ↔ Holds bound cs n := by
  have hread : Text.readNumeral bound (Text.trim cs) = .ok n ↔ Holds bound cs n :=
    Text.readNumeral_trim_ok_iff (by decide)
  rw [number?, ← hread]
  cases Text.readNumeral bound (Text.trim cs) <;> simp [Except.toOption]

theorem parse?_eq_some_iff : parse? text = some m ↔ Written text m := by
  simp only [parse?, Written, Option.bind_eq_bind, Option.bind_eq_some_iff, Prod.exists,
    Text.splitFirst_eq_some_iff, number?_eq_some_iff]
  constructor
  · rintro ⟨before, after, hcut, n, hn, d, hd, ⟨⟩⟩
    exact ⟨before, after, hcut, hn, hd⟩
  · rintro ⟨before, after, hcut, hn, hd⟩
    exact ⟨before, after, hcut, _, hn, _, hd, rfl⟩

theorem parse_ok_iff : parse text = .ok m ↔ Written text m := by
  rw [Manuscript.meter_parse_ok, parse?_eq_some_iff]

theorem parse_unwritten (h : ∀ m, ¬ Written text m) :
    parse text = .error (.sheet (.meterText text)) := by
  rw [Manuscript.meter_parse_error, and_iff_left rfl, Option.eq_none_iff_forall_ne_some]
  exact fun m hm => h m (parse?_eq_some_iff.mp hm)

/-! ### Printing -/

theorem written_printed (hn : m.numerator < bound) (hd : m.denominator < bound)
    (hbefore : Padded m.numerator before) (hafter : Padded m.denominator after) :
    Written (before ++ "/" ++ after) m := by
  have hcut : FirstCut '/' (before ++ "/" ++ after).toList before.toList after.toList :=
    hbefore.cut '/' after (by decide) (by decide)
  exact ⟨_, _, hcut, hbefore.holds hn, hafter.holds hd⟩

structure Exact : Prop where
  accepts : ∀ text m, parse text = .ok m ↔ Written text m
  refuses : ∀ text, (∀ m, ¬ Written text m) → ∃ fault : SheetFault,
    parse text = .error (.sheet fault) ∧ fault.text = "Invalid time signature " ++ text
  printed : ∀ m before after, m.numerator < bound → m.denominator < bound →
    Padded m.numerator before → Padded m.denominator after →
    parse (before ++ "/" ++ after) = .ok m

/-- Exactly the written time signatures are read, and all other texts are quoted. -/
theorem meters_are_read_as_written : Exact := by
  refine ⟨fun text m => parse_ok_iff, ?_, ?_⟩
  · intro text h
    exact ⟨.meterText text, parse_unwritten h, rfl⟩
  · intro m before after hn hd hbefore hafter
    exact parse_ok_iff.mpr (written_printed hn hd hbefore hafter)

/-- The number in front of the slash is one too large. -/
theorem padded_meter_is_read : Written "\u2003+06 /8" ⟨6, 8⟩ ∧
    (∃ fault : SheetFault, parse "4294967296/4" = .error (.sheet fault) ∧
      fault.text = "Invalid time signature " ++ "4294967296/4") ∧
    parse ("4294967295\t" ++ "/" ++ " 4") = .ok ⟨4294967295, 4⟩ := by
  refine ⟨(meters_are_read_as_written.accepts _ _).mp (by decide +kernel),
    meters_are_read_as_written.refuses _ ?_, ?_⟩
  · intro m hm
    have hread := (meters_are_read_as_written.accepts _ _).mpr hm
    have hrefused : parse "4294967296/4" = .error (.sheet (.meterText "4294967296/4")) := by
      decide +kernel
    rw [hrefused] at hread
    cases hread
  · exact meters_are_read_as_written.printed ⟨4294967295, 4⟩ "4294967295\t" " 4" (by decide)
      (by decide) ⟨"", "\t", by decide, by decide, by decide⟩
      ⟨" ", "", by decide, by decide, by decide⟩

end PlainScore.Meter
