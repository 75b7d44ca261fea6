import PlainScore.Sheet

/-! Scores: a single sheet, or a medley of sheets that are played one after the other. -/
namespace PlainScore

inductive Score where
  | single (sheet : Sheet)
  | medley (sheets : List Sheet)
  deriving DecidableEq

namespace Score

def isMedley : Score → Bool
  | .single _ => false
  | .medley _ => true

def sheets : Score → List Sheet
  | .single s => [s]
  | .medley ss => ss

/-- Keeps the sheets from `first` up to but not including `last`; a single sheet is kept. -/
def select (first last : Nat) : Score → Except Error Score
  | .single s => .ok (.single s)
  | .medley ss =>
    if last ≤ first ∨ ss.length < last then .error (.sheet (.badRange first last ss.length))
    else .ok (.medley ((ss.take last).drop first))

def selectRemarks (first last : Nat) : Score → List Line
  | .single _ => [.warn s!"Ignoring range {first},{last} for a sheet without subsheets"]
  | .medley _ => []

end Score

end PlainScore
