import PlainScore.Decimal.Layout
import PlainScore.Journal

/-! What a finished run has to say about the lengths of its tracks. -/
namespace PlainScore

structure Report where
  totals : List Float
  deriving DecidableEq

namespace Report

def allEqual : List Float → Bool
  | a :: b :: rest => a == b && allEqual (b :: rest)
  | _ => true

def isMatching (r : Report) : Bool := allEqual r.totals

def trackLine (value : Float) (track : Nat) : String := s!"Track {track}: " ++ Decimal.total value

def warning (r : Report) : List String :=
  if r.isMatching then []
  else "Total note value of each track not matching!" ::
    r.totals.zipIdx.map fun (value, track) => trackLine value track

def remarks (r : Report) : List Line := r.warning.map .warn

end Report

end PlainScore
