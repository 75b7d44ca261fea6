import PlainScore.Track.Cursor

/-! Slices of a track: every so many notes between two bounds.
Bounds are numbers of 64 bits; a bound that would have to be one more than the greatest of
them stays at it. -/
namespace PlainScore

inductive Bound where
  | included (n : Nat)
  | excluded (n : Nat)
  | unbounded
  deriving DecidableEq, Repr

namespace Bound

def greatest : Nat := Nat.pow 2 64 - 1

def following (n : Nat) : Nat := min (n + 1) greatest

def first : Bound → Nat
  | .included n => n
  | .excluded n => following n
  | .unbounded => 0

def behind : Bound → Nat
  | .included n => following n
  | .excluded n => n
  | .unbounded => greatest

end Bound

def everyNth {α : Type} (skip : Nat) : List α → List α
  | [] => []
  | x :: xs => x :: everyNth skip (xs.drop skip)
termination_by xs => xs.length
decreasing_by simp only [List.length_drop, List.length_cons]; omega

/-- A cursor that gives out its first note, and from then on passes over `skip` notes before each
that it gives out. -/
structure Stride where
  cursor : Cursor
  skip : Nat
  fresh : Bool
  deriving DecidableEq, Repr

namespace Stride

def every (step : Nat) (c : Cursor) : Stride := ⟨c, step - 1, true⟩

/-- How many notes are passed over before the next. -/
def ahead (s : Stride) : Nat := if s.fresh then 0 else s.skip

def next (s : Stride) : Option Cursor.Evaluated × Stride :=
  let (n, c) := s.cursor.nth s.ahead
  (n, { s with cursor := c, fresh := false })

theorem length_next {s : Stride} (h : s.next.1.isSome = true) :
    s.next.2.cursor.length < s.cursor.length := Cursor.length_nth h

def rest (s : Stride) : List Cursor.Evaluated :=
  match _h : s.next with
  | (none, _) => []
  | (some n, s') => n :: s'.rest
termination_by s.cursor.length
decreasing_by
  have hlt := length_next (s := s) (by rw [_h]; rfl)
  rwa [_h] at hlt

def count (s : Stride) (n : Nat) : Nat :=
  if s.fresh then
    if n = 0 then 0 else 1 + (n - 1) / (s.skip + 1)
  else n / (s.skip + 1)

def hint (s : Stride) : Nat × Nat := (s.count s.cursor.hint.1, s.count s.cursor.hint.2)

end Stride

namespace Track

def window (t : Track) (start stop : Bound) : List String :=
  let stop := min stop.behind t.tokens.length
  let start := min start.first stop
  (t.tokens.take stop).drop start

def sliceTokens (t : Track) (start stop : Bound) (step : Nat) : List String :=
  everyNth (step - 1) (t.window start stop)

def stride (t : Track) (start stop : Bound) (step : Nat) : Stride :=
  .every step ⟨t.window start stop⟩

def slice (t : Track) (start stop : Bound) (step : Nat) : List Cursor.Evaluated :=
  (t.stride start stop step).rest

def sliceHint (t : Track) (start stop : Bound) (step : Nat) : Nat × Nat :=
  (t.stride start stop step).hint

end Track

end PlainScore
