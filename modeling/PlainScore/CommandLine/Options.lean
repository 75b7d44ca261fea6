import PlainScore.CommandLine.Range

/-! The options of the program.
Arguments are read from the left. A value or a file name is only examined when the argument
after it has been recognised, so an argument that is not known is refused before a wrong
value in front of it. -/
namespace PlainScore

structure Options where
  quiet : Bool
  verbose : Bool
  range : Option Range
  file : String
  deriving DecidableEq, Repr

inductive Refusal where
  | help
  | version
  | noFile
  | unknown
  | badRange (why : RangeFault)
  | noValue
  | repeated
  | needlessValue
  deriving DecidableEq, Repr

def Refusal.isMistake : Refusal → Bool
  | .help | .version => false
  | _ => true

namespace Options

inductive Waiting where
  | nothing
  | range (value : Option String)
  | file (name : String)
  deriving DecidableEq, Repr

structure Progress where
  quiet : Bool := false
  verbose : Bool := false
  range : Option Range := none
  file : Option String := none
  waiting : Waiting := .nothing
  named : Bool := false
  verbatim : Bool := false
  deriving DecidableEq, Repr

inductive Flag where
  | quiet | verbose | help | version
  deriving DecidableEq, Repr

def Progress.setRange (p : Progress) (value : String) : Except Refusal Progress :=
  if p.range.isSome then .error .repeated
  else match Range.parse value with
    | .ok r => .ok { p with range := some r }
    | .error why => .error (.badRange why)

def Progress.settle (p : Progress) : Except Refusal Progress :=
  let q := { p with waiting := .nothing }
  match p.waiting with
  | .nothing => .ok q
  | .range none => .error .noValue
  | .range (some value) => q.setRange value
  | .file name => if name = "" then .error .noValue else .ok { q with file := some name }

def Progress.setFlag (p : Progress) (f : Flag) : Except Refusal Progress := do
  let p ← p.settle
  match f with
  | .quiet => if p.quiet then throw .repeated else return { p with quiet := true }
  | .verbose => if p.verbose then throw .repeated else return { p with verbose := true }
  | .help => throw .help
  | .version => throw .version

/-- The range option, with a value in the same argument or the next one. -/
def Progress.rangeOption (p : Progress) (value : Option String) : Except Refusal Progress := do
  let p ← p.settle
  match value with
  | some v => p.setRange v
  | none => return { p with waiting := .range none }

def longFlag? : String → Option Flag
  | "quiet" => some .quiet
  | "verbose" => some .verbose
  | "help" => some .help
  | "version" => some .version
  | _ => none

def shortFlag? : Char → Option Flag
  | 'q' => some .quiet
  | 'v' => some .verbose
  | 'h' => some .help
  | 'V' => some .version
  | _ => none

def Progress.long (p : Progress) (body : List Char) : Except Refusal Progress :=
  let (name, value) :=
    match Text.splitFirst '=' body with
    | some (name, value) => (String.ofList name, some (String.ofList value))
    | none => (String.ofList body, none)
  if name = "range" then p.rangeOption value
  else match longFlag? name with
    | none => .error .unknown
    | some f => if value.isSome then .error .needlessValue else p.setFlag f

/-- Letters behind one dash. The range option takes the rest of the argument as its value. -/
def Progress.short (p : Progress) : List Char → Except Refusal Progress
  | [] => .ok p
  | 'r' :: [] => p.rangeOption none
  | 'r' :: '=' :: value => p.rangeOption (some (String.ofList value))
  | 'r' :: value => p.rangeOption (some (String.ofList value))
  | c :: rest => do
    match shortFlag? c with
    | none => throw .unknown
    | some f => (← p.setFlag f).short rest

def Progress.plain (p : Progress) (argument : String) : Except Refusal Progress := do
  if !p.verbatim && p.waiting = .range none then
    return { p with waiting := .range (some argument) }
  if p.named then throw .unknown
  let p ← p.settle
  return { p with waiting := .file argument, named := true }

def Progress.take (p : Progress) (argument : String) : Except Refusal Progress :=
  if p.verbatim then p.plain argument
  else match argument.toList with
    | ['-', '-'] => .ok { p with verbatim := true }
    | '-' :: '-' :: body => p.long body
    | '-' :: c :: rest => p.short (c :: rest)
    | _ => p.plain argument

def Progress.finish (p : Progress) : Except Refusal Options := do
  let p ← p.settle
  match p.file with
  | some file => return { quiet := p.quiet, verbose := p.verbose, range := p.range, file }
  | none => throw .noFile

def parse (arguments : List String) : Except Refusal Options := do
  let p ← arguments.foldlM Progress.take {}
  p.finish

end Options

end PlainScore
