import PlainScore.Error

/-! Audio parameters and the rendering of tones. -/
namespace PlainScore

abbrev Sample := Float32

namespace Audio

def sampleRate : Nat := 44100

def channels : Nat := 1

structure Params where
  amplitude : Sample := 0.07
  deriving DecidableEq

namespace Params

/-- The count of whole samples in a span of seconds. A span that is not a positive number
has none, and the count stays below `2^64`. -/
def sampleCount (_ : Params) (seconds : Float) : Nat :=
  (seconds * Float.ofNat sampleRate).toUInt64.toNat

def duration (_ : Params) (count : Nat) : Float := Float.ofNat count / Float.ofNat sampleRate

end Params

def turn : Float := 6.283185307179586

def toneAt (p : Params) (frequency t : Float) : Sample :=
  (p.amplitude.toFloat * (turn * frequency * t).sin * (-t).exp).toFloat32

/-- A tone at `frequency` for `duration` seconds. The samples are spread over the whole
duration; frequency zero is silence. -/
def tone (p : Params) (frequency duration : Float) : List Sample :=
  let count := p.sampleCount duration
  let step := duration / Float.ofNat count
  (List.range count).map fun i => toneAt p frequency (Float.ofNat i * step)

def render (p : Params) (frequency duration : Float) : Except Failure (List Sample) :=
  if sampleLimit < p.sampleCount duration then .error .outOfRoom
  else .ok (tone p frequency duration)

end Audio

end PlainScore
