/-! Floating point numbers as whole multiples of powers of two.
A number is read off its bits, so its exact value can be computed with in `Nat` and `Int`. -/
namespace PlainScore.Decimal

/-- A positive number `mantissa · 2^exponent`. The numbers around it are `2^exponent` apart,
except that the next smaller one is half as far away when `narrowBelow` holds. -/
structure Dyadic where
  mantissa : Nat
  exponent : Int
  narrowBelow : Bool
  deriving DecidableEq, Repr

inductive Magnitude where
  | nan
  | infinite
  | zero
  | finite (d : Dyadic)
  deriving DecidableEq, Repr

structure Reading where
  negative : Bool
  magnitude : Magnitude
  deriving DecidableEq, Repr

structure Width where
  fraction : Nat
  exponent : Nat
  deriving DecidableEq, Repr

def double : Width := ⟨52, 11⟩

def single : Width := ⟨23, 8⟩

def Width.leastExponent (w : Width) : Int :=
  2 - (Nat.pow 2 (w.exponent - 1) : Nat) - (w.fraction : Int)

def Width.read (w : Width) (bits : Nat) : Reading :=
  let fraction := bits % Nat.pow 2 w.fraction
  let exponent := bits / Nat.pow 2 w.fraction % Nat.pow 2 w.exponent
  let negative := bits / Nat.pow 2 (w.fraction + w.exponent) % 2 == 1
  let magnitude : Magnitude :=
    if exponent = Nat.pow 2 w.exponent - 1 then if fraction = 0 then .infinite else .nan
    else if exponent = 0 then
      if fraction = 0 then .zero else .finite ⟨fraction, w.leastExponent, false⟩
    else .finite ⟨Nat.pow 2 w.fraction + fraction, w.leastExponent + exponent - 1,
      fraction == 0 && 1 < exponent⟩
  ⟨negative, magnitude⟩

def ofFloat (x : Float) : Reading := double.read x.toBits.toNat

def ofFloat32 (x : Float32) : Reading := single.read x.toBits.toNat

end PlainScore.Decimal
