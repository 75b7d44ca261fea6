import PlainScore.Meter
import PlainScore.Track

/-! Sheets with one tempo, one meter and a set of tracks. -/
namespace PlainScore

structure Sheet where
  bpm : Float
  meter : Meter
  tracks : List Track
  deriving DecidableEq

namespace Sheet

def playableTempo (bpm : Float) : Bool := bpm.isFinite && 0 < bpm

def firstFailure : List Track → Option Error
  | [] => none
  | t :: ts =>
    match t.total with
    | .error e => some e
    | .ok _ => firstFailure ts

/-- What keeps a sheet from being played, looked for in the tempo, the meter and the tracks. -/
def fault? (s : Sheet) : Option Error :=
  if ¬ playableTempo s.bpm then some (.sheet (.tempo s.bpm))
  else if s.meter.numerator = 0 ∨ s.meter.denominator = 0 then
    some (.sheet (.meter s.meter.numerator s.meter.denominator))
  else if s.tracks = [] then some (.sheet .noTracks)
  else firstFailure s.tracks

def make (bpm : Float) (meter : Meter) (tracks : List Track) : Except Error Sheet :=
  let s : Sheet := ⟨bpm, meter, tracks⟩
  match s.fault? with
  | some e => .error e
  | none => .ok s

def trackRemarks : List Track → List Line
  | [] => []
  | t :: ts =>
    match t.total with
    | .error _ => t.totalRemarks
    | .ok _ => t.totalRemarks ++ trackRemarks ts

def makeRemarks (bpm : Float) (meter : Meter) (tracks : List Track) : List Line :=
  if playableTempo bpm ∧ meter.numerator ≠ 0 ∧ meter.denominator ≠ 0 then trackRemarks tracks
  else []

def beatDuration (s : Sheet) : Float := 60 / s.bpm

def barDuration (s : Sheet) : Float := s.beatDuration * Float.ofNat s.meter.numerator

end Sheet

end PlainScore
