import Mathlib.Data.List.DropRight
import PlainScore.Text.Blank

/-! What is left of a text when the blanks around it are taken away, and where its first separator
cuts it. `Stripped` and `FirstCut` tell this of the text; trimming and splitting compute it. -/
namespace PlainScore.Text

variable {sep c : Char} {cs core before after left right : List Char}

/-! ### Blanks -/

/-- The characters of the Unicode property White_Space. -/
def whiteSpace : List Char :=
  ['\t', '\n', '\x0b', '\x0c', '\r', ' ', '\u0085', '\u00a0', '\u1680', '\u2000', '\u2001',
    '\u2002', '\u2003', '\u2004', '\u2005', '\u2006', '\u2007', '\u2008', '\u2009', '\u200a',
    '\u2028', '\u2029', '\u202f', '\u205f', '\u3000']

theorem isBlank_iff : isBlank c = true ↔ c ∈ whiteSpace := by
  simp only [isBlank, whiteSpace, List.mem_cons, List.not_mem_nil, or_false, ← Char.toNat_inj,
    Char.reduceToNat, Bool.or_eq_true, Bool.and_eq_true, decide_eq_true_eq, beq_iff_eq]
  omega

theorem isBlank_eq_false_iff : isBlank c = false ↔ c ∉ whiteSpace := by
  rw [← isBlank_iff, Bool.not_eq_true]

def Blank (cs : List Char) : Prop := ∀ c ∈ cs, c ∈ whiteSpace

instance (cs : List Char) : Decidable (Blank cs) := List.decidableBAll (· ∈ whiteSpace) cs

/-! ### Trimming -/

/-- The text is the core with blanks around it, and the core has no blank at either end. -/
structure Stripped (cs core : List Char) : Prop where
  around : ∃ left right, Blank left ∧ Blank right ∧ cs = left ++ core ++ right
  first : ∀ c ∈ core.head?, c ∉ whiteSpace
  last : ∀ c ∈ core.getLast?, c ∉ whiteSpace

theorem trim_eq (cs : List Char) : trim cs = (cs.dropWhile isBlank).rdropWhile isBlank := rfl

theorem stripped_trim (cs : List Char) : Stripped cs (trim cs) := by
  rw [trim_eq]
  refine ⟨⟨cs.takeWhile isBlank, (cs.dropWhile isBlank).rtakeWhile isBlank, ?_, ?_, ?_⟩, ?_, ?_⟩
  · exact fun c hc => isBlank_iff.mp (List.mem_takeWhile_imp hc)
  · exact fun c hc => isBlank_iff.mp (List.mem_rtakeWhile_imp hc)
  · rw [List.append_assoc, List.rdropWhile_append_rtakeWhile, List.takeWhile_append_dropWhile]
  · -- What is left begins as what was left after the first step did.
    intro c hc
    obtain ⟨rest, hrest⟩ := List.rdropWhile_prefix isBlank (l := cs.dropWhile isBlank)
    have hhead : (cs.dropWhile isBlank).head? = some c := by
      rw [← hrest, List.head?_append_of_ne_nil _ (List.ne_nil_of_mem (List.mem_of_mem_head? hc))]
      exact hc
    have hnot := List.head?_dropWhile_not isBlank cs
    rw [hhead] at hnot
    exact isBlank_eq_false_iff.mp hnot
  · intro c hc
    obtain ⟨hne, rfl⟩ := List.mem_getLast?_eq_getLast hc
    rw [← isBlank_iff]
    exact List.rdropWhile_last_not isBlank _ hne

theorem dropWhile_blank (hl : Blank left) (hcs : ∀ c ∈ cs.head?, c ∉ whiteSpace) :
    (left ++ cs).dropWhile isBlank = cs := by
  rw [List.dropWhile_append_of_pos fun c hc => isBlank_iff.mpr (hl c hc)]
  cases cs with
  | nil => rfl
  | cons c cs =>
    apply List.dropWhile_cons_of_neg
    rw [isBlank_iff]
    exact hcs c rfl

theorem rdropWhile_blank (hr : Blank right) (hcs : ∀ c ∈ cs.getLast?, c ∉ whiteSpace) :
    (cs ++ right).rdropWhile isBlank = cs := by
  have hreverse : Blank right.reverse := fun c hc => hr c (List.mem_reverse.mp hc)
  rw [List.rdropWhile, List.reverse_append, dropWhile_blank hreverse, List.reverse_reverse]
  rwa [List.head?_reverse]

theorem Stripped.trim_eq (h : Stripped cs core) : trim cs = core := by
  obtain ⟨⟨left, right, hl, hr, rfl⟩, hfirst, hlast⟩ := h
  rw [Text.trim_eq, List.append_assoc]
  cases core with
  | nil =>
    have hnil : (left ++ ([] ++ right)).dropWhile isBlank = [] := by
      rw [List.dropWhile_eq_nil_iff]
      intro c hc
      exact isBlank_iff.mpr ((List.mem_append.mp hc).elim (hl c) (hr c))
    rw [hnil]
    rfl
  | cons c core =>
    have hdrop : (left ++ (c :: core ++ right)).dropWhile isBlank = c :: core ++ right :=
      dropWhile_blank hl hfirst
    rw [hdrop, rdropWhile_blank hr hlast]

/-! ### Splitting -/

structure FirstCut (sep : Char) (cs before after : List Char) : Prop where
  eq : cs = before ++ sep :: after
  first : sep ∉ before

theorem FirstCut.splitFirst_eq (h : FirstCut sep cs before after) :
    splitFirst sep cs = some (before, after) := by
  obtain ⟨rfl, hfirst⟩ := h
  induction before with
  | nil => rw [List.nil_append, splitFirst, if_pos rfl]
  | cons c before ih =>
    rw [List.mem_cons, not_or] at hfirst
    rw [List.cons_append, splitFirst, if_neg (Ne.symm hfirst.1), ih hfirst.2]
    rfl

theorem firstCut_of_splitFirst (h : splitFirst sep cs = some (before, after)) :
    FirstCut sep cs before after := by
  induction cs generalizing before with
  | nil => cases h
  | cons c cs ih =>
    rw [splitFirst] at h
    split at h
    · cases h
      exact ⟨by rw [‹c = sep›, List.nil_append], List.not_mem_nil⟩
    · obtain ⟨⟨front, rest⟩, hsplit, ⟨⟩⟩ := Option.map_eq_some_iff.mp h
      obtain ⟨rfl, hfirst⟩ := ih hsplit
      refine ⟨rfl, ?_⟩
      rw [List.mem_cons, not_or]
      exact ⟨Ne.symm ‹c ≠ sep›, hfirst⟩

theorem splitFirst_eq_some_iff :
    splitFirst sep cs = some (before, after) ↔ FirstCut sep cs before after :=
  ⟨firstCut_of_splitFirst, FirstCut.splitFirst_eq⟩

theorem splitFirst_eq_none_iff : splitFirst sep cs = none ↔ sep ∉ cs := by
  constructor
  · intro h hmem
    obtain ⟨before, after, heq, hfirst⟩ := List.eq_append_cons_of_mem hmem
    rw [FirstCut.splitFirst_eq ⟨heq, hfirst⟩] at h
    cases h
  · intro h
    cases hsplit : splitFirst sep cs with
    | none => rfl
    | some parts =>
      obtain ⟨rfl, -⟩ := firstCut_of_splitFirst hsplit
      exact absurd (List.mem_append_right _ List.mem_cons_self) h

end PlainScore.Text
