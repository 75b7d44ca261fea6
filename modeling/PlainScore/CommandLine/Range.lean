import PlainScore.Text.Blank
import PlainScore.Text.Numeral

/-! Ranges of subsheets on the command line: a start, a comma and an end that is not included. -/
namespace PlainScore

structure Range where
  start : Nat
  stop : Nat
  deriving DecidableEq, Repr

/-- What keeps a text from being a range, with the text of the number in question as it was
written. -/
inductive RangeFault where
  | noComma (text : String)
  | badStart (text : String) (why : Text.NumeralFault)
  | badStop (text : String) (why : Text.NumeralFault)
  | empty (start stop : Nat)
  deriving DecidableEq, Repr

def RangeFault.message : RangeFault → String
  | .noComma text => "expected START,END but got '" ++ text ++ "'"
  | .badStart text why => "invalid range start '" ++ text ++ "': " ++ why.message
  | .badStop text why => "invalid range end '" ++ text ++ "': " ++ why.message
  | .empty start stop => s!"empty range {start},{stop}"

namespace Range

def bound : Nat := Nat.pow 2 64

def parse (text : String) : Except RangeFault Range :=
  match Text.splitFirst ',' text.toList with
  | none => .error (.noComma text)
  | some (before, after) =>
    match Text.readNumeral bound (Text.trim before) with
    | .error why => .error (.badStart (String.ofList before) why)
    | .ok start =>
      match Text.readNumeral bound (Text.trim after) with
      | .error why => .error (.badStop (String.ofList after) why)
      | .ok stop => if start < stop then .ok ⟨start, stop⟩ else .error (.empty start stop)

end Range

end PlainScore
