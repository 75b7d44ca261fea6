/-! Text as it is shown where control sequences have no meaning.
A control sequence is opened by an escape character. Nothing of it is shown, and neither are
control characters outside of sequences; line breaks, tabs and form feeds are. A line break
within a sequence is shown too, and so is the text behind it up to the next control
character, where the sequence goes on. -/
namespace PlainScore.Text

inductive Sequence where
  | none
  | escape
  | escapeMarks
  | control
  | title
  | device
  | deviceParameters
  | deviceMarks
  | string
  deriving DecidableEq, Repr

def isLayout (c : Char) : Bool := c == '\t' || c == '\n' || c == Char.ofNat 0x0C || c == '\r'

/-- Some sequences hold text of their own, to which control characters belong. -/
def Sequence.showsLayout : Sequence → Bool
  | .none | .escape | .escapeMarks | .control => true
  | .title | .device | .deviceParameters | .deviceMarks | .string => false

def stringEnd : UInt8 := 0x9C

def Sequence.ascii (n : Nat) : Sequence → Sequence
  | .none => .none
  | .escape =>
    if n < 0x30 then .escapeMarks
    else match Char.ofNat n with
      | '[' => .control
      | ']' => .title
      | 'P' => .device
      | 'X' | '^' | '_' => .string
      | _ => .none
  | .escapeMarks => if n < 0x30 then .escapeMarks else .none
  | .control => if n < 0x40 then .control else .none
  | .title => .title
  | .device => if n < 0x30 then .deviceMarks else if n < 0x40 then .deviceParameters else .string
  | .deviceParameters =>
    if n < 0x30 then .deviceMarks else if n < 0x3C then .deviceParameters else .string
  | .deviceMarks => if n < 0x30 then .deviceMarks else .string
  | .string => .string

/-- Behind a character that is no ASCII; one of its bytes may end a string. -/
def Sequence.foreign (c : Char) : Sequence → Sequence
  | .string => if (String.singleton c).toUTF8.toList.contains stringEnd then .none else .string
  | s => s

def Sequence.controlled (n : Nat) (s : Sequence) : Sequence :=
  if n = 0x1B then .escape
  else if n = 0x18 ∨ n = 0x1A then .none
  else if n = 0x07 ∧ s = .title then .none
  else s

def isControl (c : Char) : Bool := c.toNat < 0x20 || c.toNat == 0x7F

def Sequence.behind (c : Char) (s : Sequence) : Sequence :=
  if isControl c then s.controlled c.toNat
  else if c.toNat < 0x80 then s.ascii c.toNat
  else s.foreign c

def Sequence.shows (c : Char) (s : Sequence) : Bool :=
  if isControl c then isLayout c && s.showsLayout else s == .none

/-- What is shown of a text; `resumed` says that a line break within the sequence has been
shown. A character that is no ASCII then closes the sequence. -/
def shownFrom (s : Sequence) (resumed : Bool) : List Char → List Char
  | [] => []
  | c :: cs =>
    if resumed && Sequence.none.shows c then
      c :: shownFrom (if c.toNat < 0x80 then s else .none) true cs
    else if s.shows c then c :: shownFrom s true cs
    else shownFrom (s.behind c) false cs

def shown (text : String) : String := String.ofList (shownFrom .none false text.toList)

theorem shownFrom_sublist (s : Sequence) (resumed : Bool) (cs : List Char) :
    (shownFrom s resumed cs).Sublist cs := by
  induction cs generalizing s resumed with
  | nil => exact List.Sublist.refl _
  | cons c cs ih =>
    unfold shownFrom
    split
    · exact (ih _ _).cons_cons c
    · split
      · exact (ih _ _).cons_cons c
      · exact (ih _ _).cons c

end PlainScore.Text
