import PlainScore.Token.Value

/-! Notes: what a token stands for when it is played. -/
namespace PlainScore

structure Note where
  pitch : Pitch
  value : Float
  deriving DecidableEq

namespace Note

/-- The duration is determined first, then the pitch. The token need not be well formed. -/
def ofToken (token : String) : Except Error Note := do
  let value ← Token.value token
  let spelling ← Token.spelling? token
  let pitch ← Pitch.parse spelling
  return ⟨pitch, value⟩

def remarks (token : String) : List Line :=
  match (Token.value token : Except Error Float), Token.spelling? token with
  | .ok _, .ok spelling => Pitch.remarks spelling
  | _, _ => []

end Note

end PlainScore
