import Mathlib.Data.List.SplitBy
import PlainScore.Proofs.Text.Blank
import PlainScore.Proofs.Token.Notation
import PlainScore.Score.Manuscript

/-! Parsing a track recovers its tokens.
The cut of a text is made without looking at the grammar: a piece begins at every note letter
that no tie precedes. Tokens have such letters in front and nowhere else, so that the cut of
their concatenation gives them back, and any other text is refused for the first piece that is
no token. -/
namespace PlainScore

namespace Token

/-- A new note begins at a letter, unless it is tied to what stands before it. -/
def Opens (before letter : Char) : Prop :=
  letter ∈ ['A', 'B', 'C', 'D', 'E', 'F', 'G', 'X'] ∧ before ≠ '+'

structure IsCut (cs : List Char) (pieces : List (List Char)) : Prop where
  whole : pieces.flatten = cs
  inhabited : [] ∉ pieces
  inside : ∀ piece ∈ pieces, piece.IsChain fun a b => ¬ Opens a b
  between : pieces.IsChain fun p q => ∃ hp hq, Opens (p.getLast hp) (q.head hq)

structure Factors (cs : List Char) (tokens : List String) : Prop where
  written : ∀ token ∈ tokens, Written token.toList
  whole : tokens.flatMap String.toList = cs

def Gap (c : Char) : Prop := c ∈ Text.whiteSpace ∨ c = '|'

instance (c : Char) : Decidable (Gap c) := inferInstanceAs (Decidable (_ ∨ _))

/-- The second text is the first with blanks and bar lines put in anywhere. -/
inductive Spaced : List Char → List Char → Prop where
  | nil : Spaced [] []
  | keep {c : Char} {cs ds : List Char} : Spaced cs ds → Spaced (c :: cs) (c :: ds)
  | gap {d : Char} {cs ds : List Char} : Gap d → Spaced cs ds → Spaced cs (d :: ds)

def unspaced (text : String) : List Char := text.toList.filter (¬ Gap ·)

theorem isSeparator_eq (c : Char) : isSeparator c = decide (Gap c) := by
  rw [Bool.eq_iff_iff, decide_eq_true_iff, isSeparator, Bool.or_eq_true, beq_iff_eq,
    Text.isBlank_iff, Gap, barLine]

theorem isSeparator_eq_false_iff {c : Char} : isSeparator c = false ↔ ¬ Gap c := by
  rw [isSeparator_eq, decide_eq_false_iff_not]

theorem pieces_eq (text : String) :
    pieces text = ((unspaced text).splitBy continues).map String.ofList := by
  simp only [pieces, unspaced, isSeparator_eq, decide_not]

theorem continues_iff {before c : Char} : continues before c = true ↔ ¬ Opens before c := by
  rw [Opens, ← isNoteLetter_iff, continues, Bool.or_eq_true, beq_iff_eq, Bool.not_eq_true',
    not_and_or, not_not, Bool.not_eq_true, or_comm, tie]

theorem not_continues_iff {before c : Char} : continues before c = false ↔ Opens before c := by
  rw [← Bool.not_eq_true, continues_iff, not_not]

theorem splitBy_continues_iff {cs : List Char} {pieces : List (List Char)} :
    cs.splitBy continues = pieces ↔ IsCut cs pieces := by
  rw [List.splitBy_eq_iff]
  simp only [continues_iff, not_continues_iff]
  constructor
  · rintro ⟨hw, hn, hi, hb⟩
    exact ⟨hw.symm, hn, hi, hb⟩
  · rintro ⟨hw, hn, hi, hb⟩
    exact ⟨hw.symm, hn, hi, hb⟩

/-! ### Tokens are not cut -/

theorem isChain_of_closed {letter : Char} {rest : List Char}
    (h : ∀ c ∈ rest, isNoteLetter c = false) :
    (letter :: rest).IsChain fun a b => ¬ Opens a b := by
  induction rest generalizing letter with
  | nil => exact .singleton letter
  | cons c rest ih =>
    rw [List.forall_mem_cons] at h
    refine .cons_cons ?_ (ih h.2)
    rintro ⟨hm, -⟩
    rw [← isNoteLetter_iff, h.1] at hm
    cases hm

theorem Part.inside {part : List Char} (h : Part part) :
    part.IsChain fun a b => ¬ Opens a b := by
  obtain ⟨letter, rest, hs⟩ := h.shape
  rw [hs.eq]
  exact isChain_of_closed hs.closed

structure TokenShape (cs : List Char) : Prop where
  opens : ∃ letter rest, cs = letter :: rest ∧ isNoteLetter letter = true
  inside : cs.IsChain fun a b => ¬ Opens a b
  untied : ∀ c ∈ cs.getLast?, c ≠ tie
  solid : ∀ c ∈ cs, isSeparator c = false

theorem Part.tokenShape {part : List Char} (h : Part part) : TokenShape part := by
  obtain ⟨letter, rest, hs⟩ := h.shape
  refine ⟨⟨letter, rest, hs.eq, hs.opens⟩, h.inside, ?_, hs.solid⟩
  rintro c hc rfl
  exact hs.untied (List.mem_of_getLast? hc)

theorem Written.shape {cs : List Char} (h : Written cs) : TokenShape cs := by
  induction h with
  | single hp => exact hp.tokenShape
  | @tied part rest hp _ ih =>
    have hs := hp.tokenShape
    obtain ⟨letter, others, rfl, hl⟩ := hs.opens
    refine ⟨⟨letter, _, rfl, hl⟩, ?_, ?_, ?_⟩
    · have htied : ('+' :: rest).IsChain fun a b => ¬ Opens a b :=
        List.isChain_cons.mpr ⟨fun _ _ ho => ho.2 rfl, ih.inside⟩
      refine List.isChain_append.mpr ⟨hs.inside, htied, ?_⟩
      rintro a _ b ⟨⟩ ho
      exact absurd ho.1 (by decide)
    · intro c hc
      obtain ⟨letter', others', rfl, -⟩ := ih.opens
      rw [List.getLast?_append_cons, List.getLast?_cons_cons] at hc
      exact ih.untied c hc
    · intro c hc
      rcases List.mem_append.mp hc with hc | hc
      · exact hs.solid c hc
      · rcases List.mem_cons.mp hc with rfl | hc
        · decide
        · exact ih.solid c hc

theorem isCut_of_written {tokens : List (List Char)} (h : ∀ token ∈ tokens, Written token) :
    IsCut tokens.flatten tokens := by
  refine ⟨rfl, ?_, fun token ht => (h token ht).shape.inside, ?_⟩
  · intro hn
    obtain ⟨_, _, he, -⟩ := (h [] hn).shape.opens
    cases he
  · induction tokens with
    | nil => exact .nil
    | cons first rest ih =>
      rw [List.forall_mem_cons] at h
      rw [List.isChain_cons]
      refine ⟨?_, ih h.2⟩
      intro second hs
      have hw := h.2 second (List.mem_of_head? hs)
      obtain ⟨letter, others, rfl, hl⟩ := hw.shape.opens
      obtain ⟨letter', others', rfl, -⟩ := h.1.shape.opens
      refine ⟨List.cons_ne_nil _ _, List.cons_ne_nil _ _, isNoteLetter_iff.mp hl, ?_⟩
      exact h.1.shape.untied _ (List.getLast?_eq_getLast_of_ne_nil _)

/-! ### Separators -/

theorem Spaced.filter {cs ds : List Char} (h : Spaced cs ds) (hs : ∀ c ∈ cs, ¬ Gap c) :
    ds.filter (¬ Gap ·) = cs := by
  induction h with
  | nil => rfl
  | keep _ ih =>
    rw [List.forall_mem_cons] at hs
    rw [List.filter_cons_of_pos (by simpa using hs.1), ih hs.2]
  | gap hd _ ih =>
    rw [List.filter_cons_of_neg (by simpa using hd), ih hs]

theorem Factors.solid {cs : List Char} {tokens : List String} (h : Factors cs tokens) :
    ∀ c ∈ cs, ¬ Gap c := by
  intro c hc
  rw [← h.whole, List.mem_flatMap] at hc
  obtain ⟨token, ht, hc⟩ := hc
  exact isSeparator_eq_false_iff.mp ((h.written token ht).shape.solid c hc)

theorem pieces_eq_iff {text : String} {tokens : List String} :
    pieces text = tokens ↔ IsCut (unspaced text) (tokens.map String.toList) := by
  rw [← splitBy_continues_iff, pieces_eq]
  constructor
  · rintro rfl
    simp [Function.comp_def]
  · intro h
    rw [h]
    simp [Function.comp_def]

theorem Factors.pieces {text : String} {tokens : List String}
    (h : Factors (unspaced text) tokens) : pieces text = tokens := by
  rw [pieces_eq_iff, ← h.whole, List.flatMap_def]
  refine isCut_of_written ?_
  intro token ht
  obtain ⟨s, hs, rfl⟩ := List.mem_map.mp ht
  exact h.written s hs

end Token

namespace Track

open Token

/-- A text whose pieces are not all tokens is refused for the first of them that is none. -/
theorem parse_cases (text : String) :
    (∀ token ∈ pieces text, Written token.toList) ∧ parse text = .ok ⟨pieces text⟩ ∨
    ∃ before bad after, pieces text = before ++ bad :: after ∧
      (∀ token ∈ before, Written token.toList) ∧ ¬ Written bad.toList ∧
      parse text = .error (.malformedNote bad) := by
  unfold parse
  dsimp only
  cases hf : (pieces text).find? (!wellFormed ·) with
  | none =>
    left
    refine ⟨?_, rfl⟩
    intro token ht
    rw [List.find?_eq_none] at hf
    rw [← wellFormed_iff]
    simpa using hf token ht
  | some bad =>
    right
    rw [List.find?_eq_some_iff_append] at hf
    obtain ⟨hbad, before, after, hp, hbefore⟩ := hf
    refine ⟨before, bad, after, hp, ?_, ?_, rfl⟩
    · intro token ht
      rw [← wellFormed_iff]
      simpa using hbefore token ht
    · rw [← wellFormed_iff]
      simpa using hbad

theorem parse_eq_ok_iff {text : String} {tokens : List String} :
    parse text = .ok ⟨tokens⟩ ↔ Factors (unspaced text) tokens := by
  constructor
  · intro h
    rcases parse_cases text with ⟨hw, hp⟩ | ⟨_, _, _, -, -, -, hp⟩
    · cases hp.symm.trans h
      exact ⟨hw, (List.flatMap_def ..).trans (pieces_eq_iff.mp rfl).whole⟩
    · cases hp.symm.trans h
  · intro h
    rcases parse_cases text with ⟨-, hp⟩ | ⟨before, bad, after, hcut, -, hbad, -⟩
    · rw [hp, h.pieces]
    · rw [h.pieces] at hcut
      refine absurd (h.written bad ?_) hbad
      rw [hcut]
      exact List.mem_append_right before List.mem_cons_self

structure ParsesNotation (text : String) : Prop where
  accepts : ∀ tokens, parse text = .ok ⟨tokens⟩ ↔ Factors (unspaced text) tokens
  unique : ∀ tokens tokens', Factors (unspaced text) tokens → Factors (unspaced text) tokens' →
    tokens = tokens'
  refuses : ∀ e, parse text = .error e → ∃ before bad after,
    IsCut (unspaced text) (before ++ bad :: after) ∧ (∀ piece ∈ before, Written piece) ∧
    ¬ Written bad ∧ e = .malformedNote (String.ofList bad)

theorem parsesNotation (text : String) : ParsesNotation text := by
  refine ⟨fun tokens => parse_eq_ok_iff, ?_, ?_⟩
  · intro tokens tokens' h h'
    rw [← h.pieces, h'.pieces]
  · intro e he
    rcases parse_cases text with ⟨-, hp⟩ | ⟨before, bad, after, hcut, hbefore, hbad, hp⟩
    · cases hp.symm.trans he
    · cases hp.symm.trans he
      refine ⟨before.map String.toList, bad.toList, after.map String.toList, ?_, ?_, hbad, ?_⟩
      · have hc := pieces_eq_iff.mp hcut
        rwa [List.map_append, List.map_cons] at hc
      · intro piece hpiece
        obtain ⟨token, ht, rfl⟩ := List.mem_map.mp hpiece
        exact hbefore token ht
      · rw [String.ofList_toList]

theorem unspaced_lineText {lines : List String} :
    unspaced (Manuscript.lineText lines) = (lines.flatMap String.toList).filter (¬ Gap ·) := by
  rw [unspaced, Manuscript.lineText, String.toList_join]

/-- Every text is read by the grammar, and a track that is written in lines, with blanks and bar
lines anywhere between or inside its tokens, is read as these tokens. -/
theorem parse_recovers_tokens : (∀ text, ParsesNotation text) ∧
    ∀ tokens lines, (∀ token ∈ tokens, Written token.toList) →
      Spaced (tokens.flatMap String.toList) (lines.flatMap String.toList) →
      parse (Manuscript.lineText lines) = .ok ⟨tokens⟩ := by
  refine ⟨parsesNotation, ?_⟩
  intro tokens lines hw hs
  have hf : Factors (tokens.flatMap String.toList) tokens := ⟨hw, rfl⟩
  rw [parse_eq_ok_iff, unspaced_lineText, hs.filter hf.solid]
  exact hf

/-- A tie across three lines, with a bar line, blanks and a tab around it. -/
theorem tied_lines_are_read :
    (∀ token ∈ ["Eb4-+Eb4", "X"], Written token.toList) ∧
      parse (Manuscript.lineText ["Eb4- |\t", "+ E\r\n", "b4X"]) = .ok ⟨["Eb4-+Eb4", "X"]⟩ := by
  have hw : ∀ token ∈ ["Eb4-+Eb4", "X"], Written token.toList := by
    simp only [← wellFormed_iff]
    decide
  refine ⟨hw, parse_recovers_tokens.2 _ _ hw ?_⟩
  repeat first
    | exact .nil
    | refine .keep ?_
    | refine .gap (by decide) ?_

end Track

end PlainScore
