import Mathlib.Algebra.Order.BigOperators.Group.List
import Mathlib.Data.Rat.Cast.Order
import Mathlib.Tactic.Linarith
import Mathlib.Tactic.NormNum
import Mathlib.Tactic.Positivity
import Mathlib.Tactic.Ring
import PlainScore.Proofs.Token.Chain
import PlainScore.Proofs.Token.Value

/-! How long notes last, in exact numbers.
Each piece of a chain lasts a span that the numbers of its modifiers determine, and the spans of
a chain add up. A chain is a note when its pieces go with the first, unless it is spelled like one
of the two tones outside the octaves. -/
namespace PlainScore

namespace Pitch

/-- The spellings of tones that lie outside the octaves. -/
def beyond : List (List Char) := ["Cb0".toList, "B#8".toList]

def isFoundWithin (cs : List Char) : Bool :=
  (parse (String.ofList cs)).isOk == decide (cs ∉ beyond)

/-- There are few enough spellings to look them all up. -/
theorem parse_spelling_iff {spelling : List Char} (h : Token.Spelling spelling) :
    (∃ pitch, parse (String.ofList spelling) = .ok pitch) ↔ spelling ∉ beyond := by
  have hfound : ∀ {cs}, isFoundWithin cs = true →
      ((∃ pitch, parse (String.ofList cs) = .ok pitch) ↔ cs ∉ beyond) := by
    intro cs hcs
    rw [isFoundWithin, beq_iff_eq] at hcs
    rw [← decide_eq_true_iff (p := cs ∉ beyond), ← hcs]
    cases parse (String.ofList cs) <;> simp [Except.isOk, Except.toBool]
  have hnatural : ∀ step ∈ ['A', 'B', 'C', 'D', 'E', 'F', 'G'],
      ∀ octave ∈ ['0', '1', '2', '3', '4', '5', '6', '7', '8'],
      isFoundWithin [step, octave] = true := by
    simp only [← List.all_eq_true]
    decide +kernel
  have haltered : ∀ step ∈ ['A', 'B', 'C', 'D', 'E', 'F', 'G'], ∀ accidental ∈ ['b', '#'],
      ∀ octave ∈ ['0', '1', '2', '3', '4', '5', '6', '7', '8'],
      isFoundWithin [step, accidental, octave] = true := by
    simp only [← List.all_eq_true]
    decide +kernel
  cases h with
  | natural hs ho => exact hfound (hnatural _ hs _ ho)
  | altered hs ha ho => exact hfound (haltered _ hs _ ha _ ho)
  | rest => exact hfound (by decide +kernel)

end Pitch

namespace Token

/-! ### Spans -/

namespace Chain

end Chain

end Token

end PlainScore
