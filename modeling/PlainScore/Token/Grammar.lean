import PlainScore.Pitch
import PlainScore.Text.Blank

/-! The written form of a note.
A part is a pitch spelling, or the rest mark, followed by modifiers; a token is one part, or
several tied by plus signs. Blanks and bar lines may stand anywhere, also inside a token: a
text is cut into pieces in front of every note letter that no tie precedes. -/
namespace PlainScore.Token

def extend : Char := '-'

def shorten : Char := '/'

def dot : Char := '.'

def tie : Char := '+'

def barLine : Char := '|'

def isStep (c : Char) : Bool := "ABCDEFG".toList.contains c

def isAccidental (c : Char) : Bool := c == 'b' || c == '#'

def isOctave (c : Char) : Bool := "012345678".toList.contains c

def isNoteLetter (c : Char) : Bool := isStep c || c == Pitch.restMark

def isModifier (c : Char) : Bool := c == extend || c == shorten || c == dot

def isSeparator (c : Char) : Bool := Text.isBlank c || c == barLine

def spanPitch : List Char → Option (List Char × List Char)
  | [] => none
  | c :: cs =>
    if c = Pitch.restMark then some ([c], cs)
    else if isStep c then
      match cs with
      | [] => none
      | d :: cs =>
        if isOctave d then some ([c, d], cs)
        else if isAccidental d then
          match cs with
          | [] => none
          | e :: cs => if isOctave e then some ([c, d, e], cs) else none
        else none
    else none

def isPart (cs : List Char) : Bool :=
  match spanPitch cs with
  | some (_, modifiers) => modifiers.all isModifier
  | none => false

def parts (cs : List Char) : List (List Char) := Text.splitAll tie cs

def wellFormed (token : String) : Bool := (parts token.toList).all isPart

def spelling? (token : String) : Except Error String :=
  match spanPitch token.toList with
  | some (spelling, _) => .ok (String.ofList spelling)
  | none => .error (.malformedNote token)

/-- Whether the second of two neighbouring characters belongs to the note of the first. -/
def continues (before c : Char) : Bool := before == tie || !isNoteLetter c

/-- The text without separators, cut in front of every note. -/
def pieces (text : String) : List String :=
  ((text.toList.filter (!isSeparator ·)).splitBy continues).map String.ofList

end PlainScore.Token
