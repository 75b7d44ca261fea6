import Mathlib.Tactic.ByContra
import PlainScore.Note
import PlainScore.Proofs.Token.Notation

/-! Tokens as chains of pieces.
A piece is a spelling with its modifiers, and a token is a piece with those that are tied to it.
Evaluation goes through the pieces in order and stops at the first that is spelled otherwise than
the first one, or is lengthened and shortened at once. -/
namespace PlainScore

theorem Text.splitAll_intercalate {sep : Char} {parts : List (List Char)} (hne : parts ≠ [])
    (h : ∀ part ∈ parts, sep ∉ part) : splitAll sep ([sep].intercalate parts) = parts := by
  induction parts with
  | nil => exact absurd rfl hne
  | cons part rest ih =>
    obtain ⟨hpart, hrest⟩ := List.forall_mem_cons.mp h
    cases rest with
    | nil => rw [List.intercalate_singleton, splitAll_of_not_mem hpart]
    | cons next rest =>
      rw [List.intercalate_cons_cons, List.append_assoc, List.singleton_append,
        splitAll_append hpart, ih (List.cons_ne_nil next rest) hrest]

namespace Token

structure Piece where
  spelling : List Char
  modifiers : List Char
  spelled : Spelling spelling
  modifies : ∀ c ∈ modifiers, c ∈ ['-', '/', '.']

namespace Piece

def chars (p : Piece) : List Char := p.spelling ++ p.modifiers

def counts (p : Piece) : Modifiers := Token.modifiers p.modifiers

def Clashes (p : Piece) : Prop := '-' ∈ p.modifiers ∧ '/' ∈ p.modifiers

structure Fits (spelling : List Char) (p : Piece) : Prop where
  alike : p.spelling = spelling
  agrees : ¬ p.Clashes

variable {p : Piece}

theorem part (p : Piece) : Part p.chars := .mk p.spelled p.modifies

/-- A spelling can be told from what follows it. -/
theorem spelling_prefix_iff {spelling : List Char} (h : Spelling spelling) :
    spelling.isPrefixOf p.chars = true ↔ p.spelling = spelling := by
  constructor
  · intro hp
    obtain ⟨rest, hrest⟩ := List.isPrefixOf_iff_prefix.mp hp
    have hfront := spanPitch_complete h rest
    rw [hrest] at hfront
    cases (spanPitch_complete p.spelled p.modifiers).symm.trans hfront
    rfl
  · rintro rfl
    exact List.isPrefixOf_iff_prefix.mpr (List.prefix_append _ _)

end Piece

theorem Spelling.unmodified {spelling : List Char} (h : Spelling spelling) :
    ∀ c ∈ spelling, isModifier c = false := by
  have step : ∀ c ∈ ['A', 'B', 'C', 'D', 'E', 'F', 'G'], isModifier c = false := by
    simp [isModifier, extend, shorten, dot]
  have accidental : ∀ c ∈ ['b', '#'], isModifier c = false := by
    simp [isModifier, extend, shorten, dot]
  have octave : ∀ c ∈ ['0', '1', '2', '3', '4', '5', '6', '7', '8'], isModifier c = false := by
    simp [isModifier, extend, shorten, dot]
  cases h with
  | natural hs ho => simp [step _ hs, octave _ ho]
  | altered hs ha ho => simp [step _ hs, accidental _ ha, octave _ ho]
  | rest => simp [isModifier, extend, shorten, dot]

theorem Spelling.count_modifier {spelling : List Char} (h : Spelling spelling) {c : Char}
    (hc : isModifier c = true) : spelling.count c = 0 := by
  apply List.count_eq_zero_of_not_mem
  intro hmem
  rw [h.unmodified c hmem] at hc
  cases hc

namespace Piece

variable {p : Piece}

theorem modifiers_chars (p : Piece) : Token.modifiers p.chars = p.counts := by
  have hcount : ∀ {c}, isModifier c = true → p.chars.count c = p.modifiers.count c := by
    intro c hc
    rw [chars, List.count_append, p.spelled.count_modifier hc, Nat.zero_add]
  rw [counts, Token.modifiers, Token.modifiers, hcount (by decide), hcount (by decide),
    hcount (by decide)]

theorem clashes_iff : p.counts.clash = true ↔ p.Clashes := by
  simp only [counts, Token.modifiers, Modifiers.clash, Clashes, Bool.and_eq_true, decide_eq_true_eq,
    List.count_pos_iff]
  rfl

variable {α : Type} [Amount α]

theorem partQuarters_eq_ok (h : ¬ p.Clashes) :
    (partQuarters p.chars : Except Error α) = .ok p.counts.quarters := by
  unfold partQuarters
  dsimp only
  rw [modifiers_chars, if_neg (mt clashes_iff.mp h)]

theorem partQuarters_eq_error (h : p.Clashes) :
    (partQuarters p.chars : Except Error α) = .error (.malformedNote (String.ofList p.chars)) := by
  unfold partQuarters
  dsimp only
  rw [modifiers_chars, if_pos (clashes_iff.mpr h)]

end Piece

structure Chain where
  first : Piece
  rest : List Piece

namespace Chain

def pieces (c : Chain) : List Piece := c.first :: c.rest

def chars (c : Chain) : List Char := ['+'].intercalate (c.pieces.map Piece.chars)

def token (c : Chain) : String := String.ofList c.chars

theorem chars_single (p : Piece) : chars ⟨p, []⟩ = p.chars := List.intercalate_singleton

theorem chars_tied (p q : Piece) (rest : List Piece) :
    chars ⟨p, q :: rest⟩ = p.chars ++ '+' :: chars ⟨q, rest⟩ := by
  simp only [chars, pieces, List.map_cons, List.intercalate_cons_cons, List.append_assoc,
    List.singleton_append]

theorem written (first : Piece) (rest : List Piece) : Written (chars ⟨first, rest⟩) := by
  induction rest generalizing first with
  | nil =>
    rw [chars_single]
    exact .single first.part
  | cons next rest ih =>
    rw [chars_tied]
    exact .tied first.part (ih next)

theorem tie_mem_chars {c : Chain} (h : c.rest ≠ []) : tie ∈ c.chars := by
  obtain ⟨first, rest⟩ := c
  cases rest with
  | nil => exact absurd rfl h
  | cons next rest =>
    rw [chars_tied]
    exact List.mem_append_right _ List.mem_cons_self

theorem parts_chars (c : Chain) : parts c.chars = c.pieces.map Piece.chars := by
  have hne : c.pieces.map Piece.chars ≠ [] := List.cons_ne_nil _ _
  apply Text.splitAll_intercalate hne
  intro part hpart
  obtain ⟨p, -, rfl⟩ := List.mem_map.mp hpart
  exact p.part.untied

theorem spelling_token (c : Chain) :
    spelling? c.token = .ok (String.ofList c.first.spelling) := by
  have hfront : ∃ rest, c.chars = c.first.spelling ++ rest := by
    obtain ⟨first, rest⟩ := c
    cases rest with
    | nil => exact ⟨first.modifiers, chars_single first⟩
    | cons next rest => exact ⟨_, (chars_tied first next rest).trans (List.append_assoc ..)⟩
  obtain ⟨rest, hrest⟩ := hfront
  rw [spelling?, Chain.token, String.toList_ofList, hrest, spanPitch_complete c.first.spelled]

/-! ### Evaluation -/

variable {α : Type} [Amount α] {token : String} {spelling : List Char} {total : α}

def sum (total : α) (ps : List Piece) : α :=
  ps.foldl (fun total p => total + p.counts.quarters) total

theorem sumTied_fits (hs : Spelling spelling) {before : List Piece}
    (hb : ∀ q ∈ before, q.Fits spelling) (after : List (List Char)) :
    sumTied token spelling total (before.map Piece.chars ++ after) =
      sumTied token spelling (sum total before) after := by
  induction before generalizing total with
  | nil => rfl
  | cons p before ih =>
    obtain ⟨hp, hb⟩ := List.forall_mem_cons.mp hb
    have hpitch := (Piece.spelling_prefix_iff hs).mpr hp.alike
    rw [List.map_cons, List.cons_append, sumTied, if_pos hpitch,
      Piece.partQuarters_eq_ok hp.agrees]
    exact ih hb

/-- A piece that is spelled otherwise is blamed on the token, and a clash on the piece. -/
theorem sumTied_faulty (hs : Spelling spelling) {before after : List Piece} {p : Piece}
    (hb : ∀ q ∈ before, q.Fits spelling) (hp : ¬ p.Fits spelling) :
    sumTied token spelling total ((before ++ p :: after).map Piece.chars) =
      .error (.malformedNote (if p.spelling = spelling then String.ofList p.chars else token)) := by
  rw [List.map_append, sumTied_fits hs hb, List.map_cons, sumTied]
  by_cases ha : p.spelling = spelling
  · have hclash : p.Clashes := by
      by_contra hn
      exact hp ⟨ha, hn⟩
    rw [if_pos ((Piece.spelling_prefix_iff hs).mpr ha), Piece.partQuarters_eq_error hclash,
      if_pos ha]
  · rw [if_neg (mt (Piece.spelling_prefix_iff hs).mp ha), if_neg ha]

theorem quarters_tied (first next : Piece) (rest : List Piece) :
    (quarters (Chain.token ⟨first, next :: rest⟩) : Except Error α) =
      sumTied (Chain.token ⟨first, next :: rest⟩) first.spelling ((0 : Nat) : α)
        ((Chain.pieces ⟨first, next :: rest⟩).map Piece.chars) := by
  have hspell : spelling? (String.ofList first.chars) = .ok (String.ofList first.spelling) := by
    have h := spelling_token ⟨first, []⟩
    rwa [Chain.token, chars_single] at h
  have htie : (chars ⟨first, next :: rest⟩).contains tie = true :=
    List.contains_iff_mem.mpr (tie_mem_chars (List.cons_ne_nil next rest))
  rw [quarters, Chain.token, String.toList_ofList]
  dsimp only
  rw [if_pos htie, parts_chars]
  change (spelling? (String.ofList first.chars) >>= _) = _
  rw [hspell]
  simp only [bind, Except.bind, String.toList_ofList]

theorem quarters_single (first : Piece) :
    (quarters (Chain.token ⟨first, []⟩) : Except Error α) = partQuarters first.chars := by
  have hn : ¬ (chars ⟨first, []⟩).contains tie = true := by
    rw [chars_single, List.contains_iff_mem]
    exact first.part.untied
  rw [quarters, Chain.token, String.toList_ofList]
  dsimp only
  rw [if_neg hn, chars_single]

def Fits (c : Chain) : Prop := ∀ p ∈ c.pieces, p.Fits c.first.spelling

/-- The first piece that does not go with the first. -/
structure Falters (c : Chain) (before : List Piece) (p : Piece) (after : List Piece) : Prop where
  pieces : c.pieces = before ++ p :: after
  fits : ∀ q ∈ before, q.Fits c.first.spelling
  faulty : ¬ p.Fits c.first.spelling

theorem fits_or_falters (c : Chain) : c.Fits ∨ ∃ before p after, c.Falters before p after := by
  have hsplit : ∀ ps : List Piece, (∀ p ∈ ps, p.Fits c.first.spelling) ∨
      ∃ before p after, ps = before ++ p :: after ∧ (∀ q ∈ before, q.Fits c.first.spelling) ∧
        ¬ p.Fits c.first.spelling := by
    intro ps
    induction ps with
    | nil => exact .inl fun p hp => absurd hp List.not_mem_nil
    | cons p ps ih =>
      by_cases hp : p.Fits c.first.spelling
      · rcases ih with h | ⟨before, q, after, rfl, hb, hq⟩
        · exact .inl (List.forall_mem_cons.mpr ⟨hp, h⟩)
        · exact .inr ⟨p :: before, q, after, rfl, List.forall_mem_cons.mpr ⟨hp, hb⟩, hq⟩
      · exact .inr ⟨[], p, ps, rfl, fun q hq => absurd hq List.not_mem_nil, hp⟩
  rcases hsplit c.pieces with h | ⟨before, p, after, hc, hb, hp⟩
  · exact .inl h
  · exact .inr ⟨before, p, after, hc, hb, hp⟩

theorem quarters_falters {c : Chain} {before after : List Piece} {p : Piece}
    (h : c.Falters before p after) : (quarters c.token : Except Error α) = .error (.malformedNote
      (if p.spelling = c.first.spelling then String.ofList p.chars else c.token)) := by
  obtain ⟨hc, hb, hp⟩ := h
  obtain ⟨first, rest⟩ := c
  cases rest with
  | nil =>
    have hfirst : before = [] ∧ p = first := by
      cases before with
      | nil => exact ⟨rfl, (List.cons.inj hc).1.symm⟩
      | cons q before => simp [Chain.pieces] at hc
    obtain ⟨rfl, rfl⟩ := hfirst
    have hclash : p.Clashes := by
      by_contra hn
      exact hp ⟨rfl, hn⟩
    rw [quarters_single, Piece.partQuarters_eq_error hclash, if_pos rfl]
  | cons next rest =>
    rw [quarters_tied, hc, sumTied_faulty first.spelled hb hp]

theorem ofToken_falters {c : Chain} {before after : List Piece} {p : Piece}
    (h : c.Falters before p after) : Note.ofToken c.token = .error (.malformedNote
      (if p.spelling = c.first.spelling then String.ofList p.chars else c.token)) := by
  rw [Note.ofToken, value, quarters_falters h]
  rfl

end Chain

end Token

end PlainScore
