import PlainScore.Json.Value
import PlainScore.Score

/-! Sheets as they are written down, before anything in them has been checked.
A manuscript is found in a JSON value by its shape alone; what the shape of a sheet does not
fit may still be the shape of a collection. -/
namespace PlainScore

structure Manuscript where
  bpm : Float
  meter : String
  tracks : List (List String)
  deriving DecidableEq

namespace Manuscript

open Json (Value)

def track? : Value → Option (List String)
  | .text s => s.map ([·])
  | .list items => items.mapM Value.text?
  | _ => none

def tracks? : Value → Option (List (List String))
  | .list items => items.mapM track?
  | _ => none

def ofParts? (bpm meter tracks : Value) : Option Manuscript := do
  return ⟨(← bpm.number?).toFloat, ← meter.text?, ← tracks? tracks⟩

/-- Three members by name, each once and in any order, or three values in order. -/
def ofValue? : Value → Option Manuscript
  | .object members => do
    ofParts? (← Value.only? members "bpm") (← Value.only? members "time_signature")
      (← Value.only? members "tracks")
  | .list [bpm, meter, tracks] => ofParts? bpm meter tracks
  | _ => none

def lineText (lines : List String) : String := String.join lines

def parseTracks : List (List String) → Except Error (List Track)
  | [] => .ok []
  | t :: ts => do
    let first ← Track.parse (lineText t)
    let rest ← parseTracks ts
    return first :: rest

/-- All tracks are parsed before the first is evaluated. -/
def sheet (m : Manuscript) : Except Error Sheet := do
  let meter ← Meter.parse m.meter
  let tracks ← parseTracks m.tracks
  Sheet.make m.bpm meter tracks

def parseRemarks : List (List String) → List Line
  | [] => []
  | t :: ts =>
    match Track.parse (lineText t) with
    | .error _ => []
    | .ok track => track.parseRemark :: parseRemarks ts

def remarks (m : Manuscript) : List Line :=
  match Meter.parse m.meter with
  | .error _ => []
  | .ok meter =>
    parseRemarks m.tracks ++
      match parseTracks m.tracks with
      | .error _ => []
      | .ok tracks => Sheet.makeRemarks m.bpm meter tracks

end Manuscript

inductive Collection where
  | single (m : Manuscript)
  | medley (ms : List Manuscript)
  deriving DecidableEq

namespace Collection

open Json (Value)

def ofValue? (v : Value) : Option Collection :=
  match Manuscript.ofValue? v with
  | some m => some (.single m)
  | none =>
    match v with
    | .object members => do
      match ← Value.only? members "subsheets" with
      | .list items => return .medley (← items.mapM Manuscript.ofValue?)
      | _ => none
    | _ => none

def sheets : List Manuscript → Except Error (List Sheet)
  | [] => .ok []
  | m :: ms => do
    let first ← m.sheet
    let rest ← sheets ms
    return first :: rest

def score : Collection → Except Error Score
  | .single m => do return .single (← m.sheet)
  | .medley [] => .error (.sheet .noSubsheets)
  | .medley ms => do return .medley (← sheets ms)

def sheetRemarks : List Manuscript → List Line
  | [] => []
  | m :: ms =>
    match m.sheet with
    | .error _ => m.remarks
    | .ok _ => m.remarks ++ sheetRemarks ms

def remarks : Collection → List Line
  | .single m => m.remarks
  | .medley ms =>
    sheetRemarks ms ++
      match score (.medley ms) with
      | .error _ => []
      | .ok _ => [.debug s!"Loaded {ms.length} subsheets"]

/-- What a text says, or why it cannot be taken in. What follows the first value of the text is
looked at last, so a value of the wrong shape is refused for its shape. -/
def read (bytes : List UInt8) : Except Unreadable Collection :=
  match Json.read? bytes with
  | none => .error .malformed
  | some (v, rest) =>
    match ofValue? v with
    | none => .error .shapeless
    | some c => if Json.isEnd rest then .ok c else .error .malformed

end Collection

namespace Score

def load (file : Option String) (bytes : List UInt8) : Except Error Score :=
  match Collection.read bytes with
  | .error why => .error (.sheet (.unreadable file why))
  | .ok c => c.score

def loadRemarks (bytes : List UInt8) : List Line :=
  match Collection.read bytes with
  | .error _ => []
  | .ok c => c.remarks

end Score

end PlainScore
