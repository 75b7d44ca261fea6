import PlainScore.Decimal.Dyadic

/-! The shortest decimal that reads back as a given floating point number.
The reals that round to a number form an interval between the midpoints to its two
neighbours; the midpoints belong to it when the mantissa is even. The decimals of one, two,
three digits are tried in turn: the first grid with a point in the interval gives the
digits, and of two such points the nearer one, the upper one if both are as near. -/
namespace PlainScore.Decimal

structure Scientific where
  coefficient : Nat
  exponent : Int
  deriving DecidableEq, Repr

def digitCount (n : Nat) : Nat := (Nat.toDigits 10 n).length

structure Interval where
  low : Nat
  value : Nat
  high : Nat
  denominator : Nat
  closed : Bool
  deriving DecidableEq, Repr

/-- A quarter of the spacing is the unit, so that both midpoints are whole. -/
def Dyadic.interval (d : Dyadic) : Interval :=
  let scale := Nat.pow 2 (d.exponent - 2).toNat
  let low := if d.narrowBelow then 4 * d.mantissa - 1 else 4 * d.mantissa - 2
  ⟨low * scale, 4 * d.mantissa * scale, (4 * d.mantissa + 2) * scale,
    Nat.pow 2 (2 - d.exponent).toNat, d.mantissa % 2 == 0⟩

def Interval.magnitude (i : Interval) : Int :=
  if i.denominator ≤ i.value then digitCount (i.value / i.denominator)
  else 1 - digitCount ((i.denominator + i.value - 1) / i.value - 1)

def Interval.holds (i : Interval) (n m : Nat) : Bool :=
  if i.closed then i.low * m ≤ n && n ≤ i.high * m else i.low * m < n && n < i.high * m

/-- The better decimal with the given exponent in the interval. -/
def Interval.candidate? (i : Interval) (exponent : Int) : Option Nat :=
  let up := Nat.pow 10 exponent.toNat
  let down := Nat.pow 10 (-exponent).toNat
  let unit := i.denominator * up
  let below := i.value * down / unit
  let rest := i.value * down % unit
  match i.holds (below * unit) down, i.holds ((below + 1) * unit) down with
  | true, true => if 2 * rest < unit then some below else some (below + 1)
  | true, false => some below
  | false, true => some (below + 1)
  | false, false => none

def Interval.search (i : Interval) (p : Int) : Nat → Nat → Scientific
  | 0, digits => ⟨(i.candidate? (p - digits)).getD 0, p - digits⟩
  | fuel + 1, digits =>
    match i.candidate? (p - digits) with
    | some n => ⟨n, p - digits⟩
    | none => i.search p fuel (digits + 1)

def Scientific.strip (d : Scientific) : Scientific :=
  let zeros := ((Nat.toDigits 10 d.coefficient).reverse.takeWhile (· == '0')).length
  if d.coefficient = 0 then d else ⟨d.coefficient / Nat.pow 10 zeros, d.exponent + zeros⟩

/-- Seventeen digits are always enough for a double, nine for a single. -/
def Dyadic.shortest (d : Dyadic) : Scientific :=
  (d.interval.search d.interval.magnitude 17 1).strip

end PlainScore.Decimal
