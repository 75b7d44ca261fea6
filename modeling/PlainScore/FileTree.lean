import PlainScore.Error

/-! Files and directories below a working directory.
A directory is there when it is listed or when something in it is. Of what lies outside, only
the directories above are known, and nothing that they hold. -/
namespace PlainScore

inductive Node where
  | file (bytes : List UInt8)
  | directory
  deriving DecidableEq, Repr

structure FileTree where
  nodes : List (List String × Node)
  deriving DecidableEq, Repr

namespace FileTree

def node? (t : FileTree) (path : List String) : Option Node :=
  match t.nodes.find? (·.1 == path) with
  | some (_, n) => some n
  | none =>
    if path.isEmpty || t.nodes.any (fun n => path.isPrefixOf n.1) then some .directory else none

def nameLimit : Nat := 255

def pathLimit : Nat := 4095

/-- Where a walk along a path has come to: a path below the working directory, or one of the
directories that lie above it, in which nothing can be found by name. -/
inductive Spot where
  | inside (path : List String)
  | outside
  deriving DecidableEq, Repr

def Spot.above : Spot → Spot
  | .inside [] | .outside => .outside
  | .inside path => .inside path.dropLast

def Spot.below (name : String) : Spot → Option Spot
  | .inside path => some (.inside (path ++ [name]))
  | .outside => none

def at? (t : FileTree) : Spot → Option Node
  | .inside path => t.node? path
  | .outside => some .directory

def walk (t : FileTree) (here : Spot) : List String → Except FileFault Node
  | [] =>
    match t.at? here with
    | some n => .ok n
    | none => .error .missing
  | name :: rest =>
    match t.at? here with
    | none => .error .missing
    | some (.file _) => .error .notDirectory
    | some .directory =>
      if name = "" ∨ name = "." then t.walk here rest
      else if name = ".." then t.walk here.above rest
      else if nameLimit < name.utf8ByteSize then .error .nameTooLong
      else match here.below name with
        | some spot => t.walk spot rest
        | none => .error .missing

/-- What a path leads to. An absolute path starts outside. -/
def find (t : FileTree) (path : String) : Except FileFault Node :=
  if path.toList.contains (Char.ofNat 0) then .error .nulInName
  else if path = "" then .error .missing
  else if pathLimit < path.utf8ByteSize then .error .nameTooLong
  else
    let names := path.splitOn "/"
    match names with
    | "" :: rest => t.walk .outside rest
    | _ => t.walk (.inside []) names

def put (t : FileTree) (path : List String) (n : Node) : FileTree :=
  ⟨t.nodes.filter (·.1 != path) ++ [(path, n)]⟩

end FileTree

end PlainScore
