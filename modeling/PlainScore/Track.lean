import PlainScore.Note

/-! Tracks: the notes of one voice, in the order in which they are played. -/
namespace PlainScore

/-- Tokens that match the grammar, without the separators that were written between them. -/
structure Track where
  tokens : List String
  deriving DecidableEq, Repr

namespace Track

def parse (text : String) : Except Error Track :=
  let tokens := Token.pieces text
  match tokens.find? (!Token.wellFormed ·) with
  | some bad => .error (.malformedNote bad)
  | none => .ok ⟨tokens⟩

def parseRemark (t : Track) : Line := .debug s!"Parsed track with {t.tokens.length} notes"

/-- Adds the values of tokens to a total and stops behind the first that cannot be evaluated;
the tokens behind it are left. -/
def sumFrom (total : Float) : List String → Except Error Float × List String
  | [] => (.ok total, [])
  | token :: rest =>
    match Note.ofToken token with
    | .error e => (.error e, rest)
    | .ok note => sumFrom (total + note.value) rest

def total (t : Track) : Except Error Float := (sumFrom 0 t.tokens).1

def remarks (tokens : List String) : List Line := tokens.flatMap Note.remarks

def summed (tokens : List String) : List String :=
  tokens.take (tokens.length - (sumFrom 0 tokens).2.length)

def totalRemarks (t : Track) : List Line := remarks (summed t.tokens)

end Track

end PlainScore
