import PlainScore.Audio
import PlainScore.Decimal.Layout
import PlainScore.FileTree
import PlainScore.Journal
import PlainScore.Json.Value

/-! Local preferences: a JSON file in a folder of the home directory, made when it is missing. -/
namespace PlainScore

structure Preferences where
  amplitude : Option Sample
  deriving DecidableEq

namespace Preferences

def folderName : String := ".text2beep"

def fileName : String := "config.json"

inductive Place where
  | noFolder
  | blocked
  | folder (file : Option Node)
  deriving DecidableEq, Repr

def amplitude? : Json.Value → Option (Option Sample)
  | .null => some none
  | v => v.number?.map fun n => some n.toFloat32

/-- A list of at most one value, or an object in which only the amplitude matters. -/
def ofValue? : Json.Value → Option Preferences
  | .list [] => some ⟨none⟩
  | .list [v] => (amplitude? v).map (⟨·⟩)
  | .object members =>
    if members.all (·.1.isSome) then
      match members.filter (·.1 == some "amplitude") with
      | [] => some ⟨none⟩
      | [(_, v)] => (amplitude? v).map (⟨·⟩)
      | _ => none
    else none
  | _ => none

def unreadable (why : Unreadable) : Complaint :=
  ⟨.configuration, "Could not read local configuration " ++ why.text⟩

def ofFile : Node → Except Complaint Preferences
  | .directory => .error (unreadable .directory)
  | .file bytes =>
    match (Json.skim? bytes).bind ofValue? with
    | some p => .ok p
    | none => .error (unreadable .malformed)

def blank : List UInt8 := "\x7b\x7d".toUTF8.toList

def load : Place → Except Complaint Preferences × Option (List UInt8)
  | .noFolder | .folder none => (ofFile (.file blank), some blank)
  | .blocked => (.error (.ofFileFault .notDirectory), none)
  | .folder (some n) => (ofFile n, none)

def playable (a : Sample) : Bool := a.isFinite && 0 < a && a ≤ 1

/-- The parameters to play with; what cannot be played is ignored. -/
def params (p : Preferences) : Audio.Params :=
  match p.amplitude with
  | some a => if playable a then { amplitude := a } else {}
  | none => {}

def paramsRemarks (p : Preferences) : List Line :=
  match p.amplitude with
  | some a =>
    if playable a then []
    else [.warn ("Ignoring configured amplitude " ++ Decimal.plain32 a ++
      ", expected a value in (0, 1]")]
  | none => []

def place (t : FileTree) : Place :=
  match t.node? [folderName] with
  | none => .noFolder
  | some (.file _) => .blocked
  | some .directory => .folder (t.node? [folderName, fileName])

def read (t : FileTree) : Except Complaint Preferences × FileTree :=
  match load (place t) with
  | (p, some bytes) => (p, t.put [folderName, fileName] (.file bytes))
  | (p, none) => (p, t)

end Preferences

end PlainScore
