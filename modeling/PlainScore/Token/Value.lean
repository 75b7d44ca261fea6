import PlainScore.Token.Grammar

/-! How long a token lasts, in quarter notes.
Durations are computed with the same rules in every kind of number that can be added,
multiplied and divided, so that what the program does in floating point can be compared
with the exact values. -/
namespace PlainScore

/-- Numbers in which durations are counted. -/
class Amount (α : Type) extends Add α, Sub α, Mul α, Div α, NatCast α

instance natCastFloat : NatCast Float := ⟨Float.ofNat⟩

instance : Amount Float := {}

instance : Amount Rat := {}

namespace Token

variable {α : Type} [Amount α]

def halves (n : Nat) : α := Nat.repeat (· / ((2 : Nat) : α)) n ((1 : Nat) : α)

def dotted (d : Nat) : α := ((2 : Nat) : α) - halves d

structure Modifiers where
  dashes : Nat
  slashes : Nat
  dots : Nat
  deriving DecidableEq, Repr

def modifiers (part : List Char) : Modifiers :=
  ⟨part.count extend, part.count shorten, part.count dot⟩

def Modifiers.clash (m : Modifiers) : Bool := 0 < m.dashes && 0 < m.slashes

/-- The dots of a long note lengthen the last whole, half or quarter note that it is made of. -/
def Modifiers.quarters (m : Modifiers) : α :=
  if 0 < m.dashes then
    let h := m.dashes + 1
    if m.dots = 0 then (h : α)
    else if h % 4 = 0 then (h : α) * dotted m.dots
    else if h % 2 = 0 then ((h / 4 * 4 : Nat) : α) + ((h % 4 : Nat) : α) * dotted m.dots
    else ((h - h % 2 : Nat) : α) + ((h % 2 : Nat) : α) * dotted m.dots
  else halves m.slashes * dotted m.dots

def partQuarters (part : List Char) : Except Error α :=
  let m := modifiers part
  if m.clash then .error (.malformedNote (String.ofList part)) else .ok m.quarters

/-- The parts of a tie in order, each beginning with the spelling of the first. -/
def sumTied (token : String) (spelling : List Char) : α → List (List Char) → Except Error α
  | total, [] => .ok total
  | total, part :: rest =>
    if spelling.isPrefixOf part then
      match partQuarters part with
      | .error e => .error e
      | .ok q => sumTied token spelling (total + q) rest
    else .error (.malformedNote token)

def quarters (token : String) : Except Error α :=
  let cs := token.toList
  if cs.contains tie then do
    let all := parts cs
    let spelling ← spelling? (String.ofList (all.headD []))
    sumTied token spelling.toList ((0 : Nat) : α) all
  else partQuarters cs

def value (token : String) : Except Error α := do
  let q ← quarters token
  return q / ((4 : Nat) : α)

end Token

end PlainScore
