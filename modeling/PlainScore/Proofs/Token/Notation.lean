import PlainScore.Token.Grammar

/-! The notation as a grammar.
`Spelling`, `Part` and `Written` say which texts are tokens, without a reader. The reader of
`Token.Grammar` accepts the same ones, and the shape of a token tells where it begins. -/
namespace PlainScore

namespace Text

theorem splitAll_of_not_mem {sep : Char} {cs : List Char} (h : sep ∉ cs) :
    splitAll sep cs = [cs] := by
  induction cs with
  | nil => rfl
  | cons c cs ih =>
    rw [List.mem_cons, not_or] at h
    rw [splitAll, if_neg (Ne.symm h.1), ih h.2]

theorem splitAll_append {sep : Char} {first rest : List Char} (h : sep ∉ first) :
    splitAll sep (first ++ sep :: rest) = first :: splitAll sep rest := by
  induction first with
  | nil => rw [List.nil_append, splitAll, if_pos rfl]
  | cons c cs ih =>
    rw [List.mem_cons, not_or] at h
    rw [List.cons_append, splitAll, if_neg (Ne.symm h.1), ih h.2]

end Text

namespace Token

inductive Spelling : List Char → Prop where
  | natural {step octave : Char} : step ∈ ['A', 'B', 'C', 'D', 'E', 'F', 'G'] →
      octave ∈ ['0', '1', '2', '3', '4', '5', '6', '7', '8'] → Spelling [step, octave]
  | altered {step accidental octave : Char} : step ∈ ['A', 'B', 'C', 'D', 'E', 'F', 'G'] →
      accidental ∈ ['b', '#'] → octave ∈ ['0', '1', '2', '3', '4', '5', '6', '7', '8'] →
      Spelling [step, accidental, octave]
  | rest : Spelling ['X']

inductive Part : List Char → Prop where
  | mk {spelling modifiers : List Char} : Spelling spelling →
      (∀ c ∈ modifiers, c ∈ ['-', '/', '.']) → Part (spelling ++ modifiers)

inductive Written : List Char → Prop where
  | single {part : List Char} : Part part → Written part
  | tied {part rest : List Char} : Part part → Written rest → Written (part ++ '+' :: rest)

/-! ### Classes of characters -/

theorem isStep_iff {c : Char} : isStep c = true ↔ c ∈ ['A', 'B', 'C', 'D', 'E', 'F', 'G'] :=
  List.contains_iff_mem

theorem isOctave_iff {c : Char} :
    isOctave c = true ↔ c ∈ ['0', '1', '2', '3', '4', '5', '6', '7', '8'] :=
  List.contains_iff_mem

theorem isAccidental_iff {c : Char} : isAccidental c = true ↔ c ∈ ['b', '#'] := by
  simp [isAccidental]

theorem isModifier_iff {c : Char} : isModifier c = true ↔ c ∈ ['-', '/', '.'] := by
  simp [isModifier, extend, shorten, dot, or_assoc]

theorem isNoteLetter_iff {c : Char} :
    isNoteLetter c = true ↔ c ∈ ['A', 'B', 'C', 'D', 'E', 'F', 'G', 'X'] := by
  rw [isNoteLetter, Bool.or_eq_true, isStep_iff, beq_iff_eq, Pitch.restMark]
  simp only [List.mem_cons, List.not_mem_nil, or_false, or_assoc]

theorem ne_restMark_of_step {c : Char} (h : isStep c = true) : c ≠ Pitch.restMark := by
  rintro rfl
  revert h
  decide

theorem not_octave_of_accidental {c : Char} (h : isAccidental c = true) : isOctave c = false := by
  rw [isAccidental_iff] at h
  simp only [List.mem_cons, List.not_mem_nil, or_false] at h
  rcases h with rfl | rfl <;> decide

/-! ### The reader accepts the grammar -/

theorem spanPitch_complete {spelling : List Char} (h : Spelling spelling) (rest : List Char) :
    spanPitch (spelling ++ rest) = some (spelling, rest) := by
  cases h with
  | natural hs ho =>
    rw [← isStep_iff] at hs
    rw [← isOctave_iff] at ho
    simp [spanPitch, ne_restMark_of_step hs, hs, ho]
  | altered hs ha ho =>
    rw [← isStep_iff] at hs
    rw [← isAccidental_iff] at ha
    rw [← isOctave_iff] at ho
    simp [spanPitch, ne_restMark_of_step hs, hs, not_octave_of_accidental ha, ha, ho]
  | rest => rfl

theorem spanPitch_sound {cs spelling rest : List Char}
    (h : spanPitch cs = some (spelling, rest)) : Spelling spelling ∧ cs = spelling ++ rest := by
  revert h
  fun_cases spanPitch cs with
  | case2 =>
    rintro ⟨⟩
    exact ⟨.rest, rfl⟩
  | case4 step _ hs octave rest ho =>
    rintro ⟨⟩
    exact ⟨.natural (isStep_iff.mp hs) (isOctave_iff.mp ho), rfl⟩
  | case6 step _ hs accidental _ ha octave rest ho =>
    rintro ⟨⟩
    exact ⟨.altered (isStep_iff.mp hs) (isAccidental_iff.mp ha) (isOctave_iff.mp ho), rfl⟩
  | _ => exact fun h => by cases h

theorem isPart_iff {cs : List Char} : isPart cs = true ↔ Part cs := by
  constructor
  · intro h
    rw [isPart] at h
    cases hp : spanPitch cs with
    | none =>
      rw [hp] at h
      cases h
    | some found =>
      obtain ⟨spelling, modifiers⟩ := found
      obtain ⟨hs, rfl⟩ := spanPitch_sound hp
      rw [hp] at h
      refine .mk hs ?_
      intro c hc
      exact isModifier_iff.mp (List.all_eq_true.mp h c hc)
  · rintro ⟨hs, hm⟩
    rw [isPart, spanPitch_complete hs]
    refine List.all_eq_true.mpr ?_
    intro c hc
    exact isModifier_iff.mpr (hm c hc)

/-! ### The shape of a token -/

structure PartShape (part : List Char) (letter : Char) (rest : List Char) : Prop where
  eq : part = letter :: rest
  opens : isNoteLetter letter = true
  closed : ∀ c ∈ rest, isNoteLetter c = false
  untied : tie ∉ part
  solid : ∀ c ∈ part, isSeparator c = false

theorem Spelling.shape {spelling : List Char} (h : Spelling spelling) :
    ∃ letter rest, PartShape spelling letter rest := by
  have letter : ∀ {c : Char}, c ∈ ['A', 'B', 'C', 'D', 'E', 'F', 'G'] →
      isNoteLetter c = true ∧ tie ≠ c ∧ isSeparator c = false := by
    intro c hc
    simp only [List.mem_cons, List.not_mem_nil, or_false] at hc
    rcases hc with rfl | rfl | rfl | rfl | rfl | rfl | rfl <;> decide
  have accidental : ∀ {c : Char}, c ∈ ['b', '#'] →
      isNoteLetter c = false ∧ tie ≠ c ∧ isSeparator c = false := by
    intro c hc
    simp only [List.mem_cons, List.not_mem_nil, or_false] at hc
    rcases hc with rfl | rfl <;> decide
  have octave : ∀ {c : Char}, c ∈ ['0', '1', '2', '3', '4', '5', '6', '7', '8'] →
      isNoteLetter c = false ∧ tie ≠ c ∧ isSeparator c = false := by
    intro c hc
    simp only [List.mem_cons, List.not_mem_nil, or_false] at hc
    rcases hc with rfl | rfl | rfl | rfl | rfl | rfl | rfl | rfl | rfl <;> decide
  cases h with
  | natural hs ho =>
    obtain ⟨hl, hlt, hls⟩ := letter hs
    obtain ⟨hn, hot, hos⟩ := octave ho
    exact ⟨_, _, rfl, hl, by simpa using hn, by simp [hlt, hot], by simp [hls, hos]⟩
  | altered hs ha ho =>
    obtain ⟨hl, hlt, hls⟩ := letter hs
    obtain ⟨hm, hat, has⟩ := accidental ha
    obtain ⟨hn, hot, hos⟩ := octave ho
    exact ⟨_, _, rfl, hl, by simp [hm, hn], by simp [hlt, hat, hot], by simp [hls, has, hos]⟩
  | rest =>
    have hm : isNoteLetter 'X' = true ∧ tie ≠ 'X' ∧ isSeparator 'X' = false := by
      decide
    exact ⟨_, _, rfl, hm.1, by simp, by simp [hm.2.1], by simp [hm.2.2]⟩

theorem Part.shape {part : List Char} (h : Part part) :
    ∃ letter rest, PartShape part letter rest := by
  have modifier : ∀ {c : Char}, c ∈ ['-', '/', '.'] →
      isNoteLetter c = false ∧ tie ≠ c ∧ isSeparator c = false := by
    intro c hc
    simp only [List.mem_cons, List.not_mem_nil, or_false] at hc
    rcases hc with rfl | rfl | rfl <;> decide
  obtain ⟨hs, hm⟩ := h
  obtain ⟨letter, rest, rfl, ho, hc, hu, hsolid⟩ := hs.shape
  refine ⟨letter, rest ++ _, rfl, ho, ?_, ?_, ?_⟩
  · intro c hmem
    rcases List.mem_append.mp hmem with hr | hr
    · exact hc c hr
    · exact (modifier (hm c hr)).1
  · intro hmem
    rcases List.mem_append.mp hmem with hr | hr
    · exact hu hr
    · exact (modifier (hm _ hr)).2.1 rfl
  · intro c hmem
    rcases List.mem_append.mp hmem with hr | hr
    · exact hsolid c hr
    · exact (modifier (hm c hr)).2.2

theorem Part.untied {part : List Char} (h : Part part) : tie ∉ part := by
  obtain ⟨_, _, hs⟩ := h.shape
  exact hs.untied

theorem Written.complete {cs : List Char} (h : Written cs) : (parts cs).all isPart = true := by
  induction h with
  | single hp =>
    rw [parts, Text.splitAll_of_not_mem hp.untied, List.all_cons, isPart_iff.mpr hp]
    rfl
  | tied hp _ ih =>
    rw [parts] at ih
    change (Text.splitAll tie (_ ++ tie :: _)).all isPart = true
    rw [Text.splitAll_append hp.untied, List.all_cons, isPart_iff.mpr hp, ih]
    rfl

/-- The induction is on the length: what follows the first tie is shorter. -/
theorem written_of_parts {cs : List Char} (h : (parts cs).all isPart = true) : Written cs := by
  induction hl : cs.length using Nat.strongRecOn generalizing cs with
  | ind n ih =>
    subst hl
    by_cases ht : tie ∈ cs
    · obtain ⟨first, rest, rfl, hn⟩ := List.eq_append_cons_of_mem ht
      rw [parts, Text.splitAll_append hn, List.all_cons, Bool.and_eq_true, isPart_iff] at h
      have hlt : rest.length < (first ++ tie :: rest).length := by
        rw [List.length_append, List.length_cons]
        omega
      exact .tied h.1 (ih _ hlt h.2 rfl)
    · rw [parts, Text.splitAll_of_not_mem ht, List.all_cons, Bool.and_eq_true, isPart_iff] at h
      exact .single h.1

theorem wellFormed_iff {token : String} : wellFormed token = true ↔ Written token.toList :=
  ⟨written_of_parts, Written.complete⟩

end Token

end PlainScore
