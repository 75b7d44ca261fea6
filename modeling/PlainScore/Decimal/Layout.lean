import PlainScore.Decimal.Shortest

/-! How numbers are written out in log lines and error texts. -/
namespace PlainScore.Decimal

structure Layout where
  leastPositional : Option Int
  greatestPositional : Option Int
  pointAlways : Bool
  deriving DecidableEq, Repr

/-- Log lines write every number in positions and a whole number without a point. -/
def Layout.bare : Layout := ⟨none, none, false⟩

/-- Totals keep a point; below `10^-4` and from `10^16` on they have an exponent. -/
def Layout.total : Layout := ⟨some (-4), some 15, true⟩

def Layout.positional (l : Layout) (e : Int) : Bool :=
  l.leastPositional.all (· ≤ e) && l.greatestPositional.all (e ≤ ·)

def positions (digits : List Char) (exponent : Int) : List Char × List Char :=
  if 0 ≤ exponent then (digits ++ List.replicate exponent.toNat '0', [])
  else
    let places := (-exponent).toNat
    let padded := List.replicate (places + 1 - digits.length) '0' ++ digits
    (padded.take (padded.length - places), padded.drop (padded.length - places))

def Layout.decimal (l : Layout) (d : Scientific) : List Char :=
  let digits := Nat.toDigits 10 d.coefficient
  let leading := d.exponent + digits.length - 1
  if d.coefficient = 0 || l.positional leading then
    match positions digits d.exponent with
    | (whole, []) => if l.pointAlways then whole ++ ['.', '0'] else whole
    | (whole, fraction) => whole ++ '.' :: fraction
  else
    let mark := 'e' :: (toString leading).toList
    match digits with
    | [] => mark
    | [d] => d :: mark
    | d :: ds => d :: '.' :: ds ++ mark

def Layout.text (l : Layout) (r : Reading) : String :=
  let signed (cs : List Char) := String.ofList (if r.negative then '-' :: cs else cs)
  match r.magnitude with
  | .nan => "NaN"
  | .infinite => signed ['i', 'n', 'f']
  | .zero => signed (l.decimal ⟨0, 0⟩)
  | .finite d => signed (l.decimal d.shortest)

def plain (x : Float) : String := Layout.bare.text (ofFloat x)

def plain32 (x : Float32) : String := Layout.bare.text (ofFloat32 x)

def total (x : Float) : String := Layout.total.text (ofFloat x)

end PlainScore.Decimal
