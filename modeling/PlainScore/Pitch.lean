import PlainScore.Error
import PlainScore.Journal
import PlainScore.Text.Numeral

/-! Pitches: rests, and tones of equal temperament with A4 at 440 Hz.
A tone is named by one of twelve table names or by an alias of one, and an octave digit.
It keeps the spelling it was written in. -/
namespace PlainScore

/-- A tone knows its key number; C0 has number 12 and A4 has number 69. -/
inductive Pitch where
  | rest
  | tone (spelling : String) (key : UInt8)
  deriving DecidableEq, Repr

namespace Pitch

def restMark : Char := 'X'

def leastOctave : Int := 0

def greatestOctave : Int := 8

def names : List String :=
  ["C", "C#", "D", "Eb", "E", "F", "F#", "G", "Ab", "A", "Bb", "B"]

/-- Other names, each with the name in the table and the octaves that it is away. -/
def aliases : List (String × String × Int) :=
  [("Db", "C#", 0), ("D#", "Eb", 0), ("Gb", "F#", 0), ("G#", "Ab", 0), ("A#", "Bb", 0),
   ("Fb", "E", 0), ("E#", "F", 0), ("Cb", "B", -1), ("B#", "C", 1)]

def place? (name : String) : Option (Nat × Int) :=
  match names.findIdx? (· == name) with
  | some index => some (index, 0)
  | none => do
    let (_, target, shift) ← aliases.find? (·.1 == name)
    let index ← names.findIdx? (· == target)
    return (index, shift)

def nameAndOctave? (spelling : String) : Option (String × Nat) := do
  let last ← spelling.toList.getLast?
  let octave ← Text.digit? last
  return (String.ofList spelling.toList.dropLast, octave)

def keyNumber? (spelling : String) : Option Int := do
  let (name, digit) ← nameAndOctave? spelling
  let (index, shift) ← place? name
  let octave := (digit : Int) + shift
  if leastOctave ≤ octave ∧ octave ≤ greatestOctave then return index + 12 * (octave + 1) else none

def parse (spelling : String) : Except Error Pitch :=
  if spelling.toList = [restMark] then .ok .rest
  else match keyNumber? spelling with
    | some n => .ok (.tone spelling (UInt8.ofNat n.toNat))
    | none => .error (.malformedNote spelling)

def remarks (spelling : String) : List Line :=
  match nameAndOctave? spelling with
  | none => []
  | some (name, _) =>
    if names.contains name then []
    else match aliases.find? (·.1 == name) with
      | some (_, target, _) => [.debug s!"Resolved alias {name} -> {target}"]
      | none => []

def isRest : Pitch → Bool
  | .rest => true
  | .tone _ _ => false

def key? : Pitch → Option UInt8
  | .rest => none
  | .tone _ key => some key

def text : Pitch → String
  | .rest => String.singleton restMark
  | .tone spelling _ => spelling

def referenceKey : Int := 69

def referenceFrequency : Float := 440

def frequency : Pitch → Float
  | .rest => 0
  | .tone _ key =>
    referenceFrequency * (2 : Float).pow (Float.ofInt (key.toNat - referenceKey) / 12)

end Pitch

end PlainScore
