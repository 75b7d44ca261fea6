import PlainScore.Json.Token

/-! JSON values, and the reading of a value from the words of a text.
The reader is a pushdown machine: what it keeps of the open lists and objects is a stack,
so that a value may be nested as deep as it likes. -/
namespace PlainScore.Json

inductive Value where
  | null
  | bool (b : Bool)
  | number (n : Option Number)
  | text (s : Option String)
  | list (items : List Value)
  | object (members : List (Option String × Value))

inductive Frame where
  | list (done : List Value)
  | object (done : List (Option String × Value)) (name : Option String)

inductive Expect where
  | value
  | valueOrClose
  | name
  | nameOrClose
  | colon
  | commaOrClose
  | nothing (v : Value)

structure Reader where
  frames : List Frame
  expect : Expect

def Reader.start : Reader := ⟨[], .value⟩

def Reader.give (v : Value) : List Frame → Reader
  | [] => ⟨[], .nothing v⟩
  | .list done :: rest => ⟨.list (v :: done) :: rest, .commaOrClose⟩
  | .object done name :: rest => ⟨.object ((name, v) :: done) none :: rest, .commaOrClose⟩

def Reader.enter (frames : List Frame) : Token → Option Reader
  | .null => some (give .null frames)
  | .bool b => some (give (.bool b) frames)
  | .number n => some (give (.number n) frames)
  | .text s => some (give (.text s) frames)
  | .openList => some ⟨.list [] :: frames, .valueOrClose⟩
  | .openObject => some ⟨.object [] none :: frames, .nameOrClose⟩
  | .closeList | .closeObject | .colon | .comma => none

def Reader.close : List Frame → Token → Option Reader
  | .list done :: rest, .closeList => some (give (.list done.reverse) rest)
  | .object done _ :: rest, .closeObject => some (give (.object done.reverse) rest)
  | _, _ => none

def Reader.named : List Frame → Token → Option Reader
  | .object done _ :: rest, .text s => some ⟨.object done s :: rest, .colon⟩
  | _, _ => none

def Reader.step (r : Reader) (t : Token) : Option Reader :=
  match r.expect with
  | .value => Reader.enter r.frames t
  | .valueOrClose => if t = .closeList then close r.frames t else Reader.enter r.frames t
  | .name => named r.frames t
  | .nameOrClose => if t = .closeObject then close r.frames t else named r.frames t
  | .colon => if t = .colon then some ⟨r.frames, .value⟩ else none
  | .commaOrClose =>
    if t = .comma then
      match r.frames with
      | .list _ :: _ => some ⟨r.frames, .value⟩
      | .object _ _ :: _ => some ⟨r.frames, .name⟩
      | [] => none
    else close r.frames t
  | .nothing _ => none

def Value.ofTokens? (ts : List Token) : Option Value :=
  match ts.foldlM Reader.step Reader.start with
  | some ⟨_, .nothing v⟩ => some v
  | _ => none

def nesting (ts : List Token) : Nat :=
  (ts.foldl (fun (now, most) t => (t.opened now, max most (t.opened now))) (0, 0)).2

/-- A text whose every word has a meaning may be nested 127 deep. -/
def nestingLimit : Nat := 128

def read? (bytes : List UInt8) : Option (Value × List UInt8) := do
  let (ts, rest) ← words? bytes
  if ts.all Token.sound ∧ nesting ts < nestingLimit then return (← Value.ofTokens? ts, rest)
  else none

def isEnd (rest : List UInt8) : Bool := rest.all isSpace

/-- The value of a text of which only some members are wanted; the others need only be formed
like JSON. -/
def skim? (bytes : List UInt8) : Option Value := do
  let (ts, rest) ← words? bytes
  if isEnd rest then Value.ofTokens? ts else none

namespace Value

def number? : Value → Option Number
  | .number n => n
  | _ => none

def text? : Value → Option String
  | .text s => s
  | _ => none

def only? (members : List (Option String × Value)) (name : String) : Option Value :=
  match members.filter (fun m => m.1 == some name) with
  | [(_, v)] => some v
  | _ => none

end Value

end PlainScore.Json
