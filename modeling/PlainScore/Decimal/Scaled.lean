/-! Reading a decimal by scaling: the leading digits that fit into 64 bits are taken as a
whole number, which is then multiplied or divided by a power of ten. A result beyond the
largest double is refused, one below the smallest becomes zero. -/
namespace PlainScore.Decimal

def powerOfTen (n : Nat) : Float := Float.ofScientific 1 false n

def greatestPower : Nat := 308

/-- `x · 10^exponent`, each step rounded; two divisions by the greatest power leave nothing. -/
def scale? (x : Float) (exponent : Int) : Option Float :=
  let n := exponent.natAbs
  if 0 ≤ exponent then
    if n ≤ greatestPower then
      let y := x * powerOfTen n
      if y.isInf then none else some y
    else if x == 0 then some x else none
  else if n ≤ greatestPower then some (x / powerOfTen n)
  else if n ≤ 2 * greatestPower then
    some (x / powerOfTen greatestPower / powerOfTen (n - greatestPower))
  else some (x / powerOfTen greatestPower / powerOfTen greatestPower)

structure Significand where
  value : Nat
  shift : Int
  deriving DecidableEq, Repr

def Significand.fits (s : Significand) (digit : Nat) : Bool := 10 * s.value + digit < Nat.pow 2 64

/-- Digits before the point: after the first that does not fit, each is a power of ten. -/
def Significand.whole (s : Significand) : List Nat → Significand
  | [] => s
  | d :: ds =>
    if s.fits d then Significand.whole ⟨10 * s.value + d, s.shift⟩ ds
    else ⟨s.value, s.shift + (ds.length + 1)⟩

/-- Digits after the point: those after the first that does not fit are ignored. -/
def Significand.fraction (s : Significand) : List Nat → Significand
  | [] => s
  | d :: ds =>
    if s.fits d then Significand.fraction ⟨10 * s.value + d, s.shift - 1⟩ ds else s

def scaled? (negative : Bool) (whole fraction : List Nat) (exponent : Int) : Option Float :=
  let s := (Significand.whole ⟨0, 0⟩ whole).fraction fraction
  (scale? (Float.ofNat s.value) (s.shift + exponent)).map fun x => if negative then -x else x

end PlainScore.Decimal
