import PlainScore.Error
import PlainScore.Text.Blank
import PlainScore.Text.Numeral

/-! Time signatures, written as two numbers with a slash between them. -/
namespace PlainScore

structure Meter where
  numerator : Nat
  denominator : Nat
  deriving DecidableEq, Repr

namespace Meter

def bound : Nat := Nat.pow 2 32

def number? (cs : List Char) : Option Nat := (Text.readNumeral bound (Text.trim cs)).toOption

def parse? (text : String) : Option Meter := do
  let (before, after) ← Text.splitFirst '/' text.toList
  let numerator ← number? before
  let denominator ← number? after
  return ⟨numerator, denominator⟩

def parse (text : String) : Except Error Meter :=
  match parse? text with
  | some m => .ok m
  | none => .error (.sheet (.meterText text))

end Meter

end PlainScore
