import PlainScore.Decimal.Layout

/-! Numbers with a fixed count of decimal places. -/
namespace PlainScore.Decimal

/-- The whole number nearest to `n / m`; a half goes to the even neighbour. -/
def roundDiv (n m : Nat) : Nat :=
  let q := n / m
  let r := n % m
  if 2 * r < m then q else if m < 2 * r then q + 1 else q + q % 2

theorem roundDiv_one (n : Nat) : roundDiv n 1 = n := by
  simp [roundDiv, Nat.mod_one]

def Dyadic.fixed (d : Dyadic) (places : Nat) : Scientific :=
  ⟨roundDiv (d.mantissa * Nat.pow 2 d.exponent.toNat * Nat.pow 10 places)
    (Nat.pow 2 (-d.exponent).toNat), -places⟩

def fixed (places : Nat) (x : Float) : String :=
  let r := ofFloat x
  let signed (cs : List Char) := String.ofList (if r.negative then '-' :: cs else cs)
  match r.magnitude with
  | .nan => "NaN"
  | .infinite => signed ['i', 'n', 'f']
  | .zero => signed (Layout.bare.decimal ⟨0, -places⟩)
  | .finite d => signed (Layout.bare.decimal (d.fixed places))

end PlainScore.Decimal
