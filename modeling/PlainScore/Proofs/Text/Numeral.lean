import PlainScore.Proofs.Text.Blank
import PlainScore.Text.Numeral

/-! Which texts are numerals below a bound, and what is wrong with the others.
`Numeral` is the written form with the number that it denotes; `Misread` names the fault that comes
first from the left. Both tell what reading a numeral comes to. -/
namespace PlainScore.Text

structure Digits (cs : List Char) (n : Nat) : Prop where
  nonempty : cs ≠ []
  digits : ∀ c ∈ cs, c.isDigit = true
  value : Nat.ofDigitChars 10 cs 0 = n

inductive Numeral : List Char → Nat → Prop where
  | plain {cs : List Char} {n : Nat} : Digits cs n → Numeral cs n
  | signed {cs : List Char} {n : Nat} : Digits cs n → Numeral ('+' :: cs) n

/-- Where digits that follow the number `n` go wrong: at a character that is no digit, unless the
digits in front of it leave the bound. -/
inductive Breaks (bound n : Nat) : List Char → NumeralFault → Prop where
  | badDigit {digits rest : List Char} {c : Char} : (∀ d ∈ digits, d.isDigit = true) →
      Nat.ofDigitChars 10 digits n < bound → c.isDigit = false →
      Breaks bound n (digits ++ c :: rest) .badDigit
  | tooLarge {digits rest : List Char} : (∀ d ∈ digits, d.isDigit = true) →
      bound ≤ Nat.ofDigitChars 10 digits n → Breaks bound n (digits ++ rest) .tooLarge

inductive Misread (bound : Nat) : List Char → NumeralFault → Prop where
  | empty : Misread bound [] .empty
  | signAlone : Misread bound ['+'] .badDigit
  | plain {cs : List Char} {why : NumeralFault} : cs ≠ [] →
      (∀ rest, cs ≠ '+' :: rest) → Breaks bound 0 cs why → Misread bound cs why
  | signed {cs : List Char} {why : NumeralFault} : cs ≠ [] → Breaks bound 0 cs why →
      Misread bound ('+' :: cs) why

variable {bound n : Nat} {c : Char} {cs digits : List Char} {why : NumeralFault}

/-! ### Digits -/

theorem isDigit_iff : c.isDigit = true ↔ '0' ≤ c ∧ c ≤ '9' := by
  rw [Char.isDigit, Bool.and_eq_true, decide_eq_true_iff, decide_eq_true_iff]
  rfl

theorem digit?_of_isDigit (h : c.isDigit = true) : digit? c = some (c.toNat - '0'.toNat) := by
  rw [digit?, if_pos (isDigit_iff.mp h)]

theorem digit?_of_not_isDigit (h : c.isDigit = false) : digit? c = none := by
  rw [digit?, if_neg]
  rw [← isDigit_iff, h]
  exact Bool.false_ne_true

theorem toNat_of_isDigit (h : c.isDigit = true) : 48 ≤ c.toNat ∧ c.toNat ≤ 57 := isDigit_iff.mp h

theorem digit?_some {d : Nat} (h : digit? c = some d) : d < 10 ∧ c = d.digitChar := by
  cases hc : c.isDigit with
  | false =>
    rw [digit?_of_not_isDigit hc] at h
    cases h
  | true =>
    have hrange := toNat_of_isDigit hc
    rw [digit?_of_isDigit hc] at h
    have hd : c.toNat - 48 = d := Option.some.inj h
    have hlt : d < 10 := by omega
    refine ⟨hlt, Char.toNat_inj.mp ?_⟩
    rw [Nat.toNat_digitChar_of_lt_ten hlt]
    omega

theorem le_ofDigitChars (cs : List Char) (n : Nat) : n ≤ Nat.ofDigitChars 10 cs n := by
  induction cs generalizing n with
  | nil => exact Nat.le_of_eq Nat.ofDigitChars_nil.symm
  | cons c cs ih =>
    have htail := ih (10 * n + (c.toNat - '0'.toNat))
    rw [Nat.ofDigitChars_cons]
    omega

theorem readDigits_digit (h : c.isDigit = true) : readDigits bound n (c :: cs) =
    if 10 * n + (c.toNat - '0'.toNat) < bound
    then readDigits bound (10 * n + (c.toNat - '0'.toNat)) cs else .error .tooLarge := by
  rw [readDigits, digit?_of_isDigit h]

theorem readDigits_no_digit (h : c.isDigit = false) :
    readDigits bound n (c :: cs) = .error .badDigit := by
  rw [readDigits, digit?_of_not_isDigit h]

/-- The number only grows, so the bound is kept on the way when it is kept in the end. -/
theorem readDigits_append (hd : ∀ c ∈ digits, c.isDigit = true)
    (hlt : Nat.ofDigitChars 10 digits n < bound) :
    readDigits bound n (digits ++ cs) = readDigits bound (Nat.ofDigitChars 10 digits n) cs := by
  induction digits generalizing n with
  | nil => rw [List.nil_append, Nat.ofDigitChars_nil]
  | cons c digits ih =>
    obtain ⟨hc, hd⟩ := List.forall_mem_cons.mp hd
    rw [Nat.ofDigitChars_cons] at hlt ⊢
    have hstep : 10 * n + (c.toNat - '0'.toNat) < bound :=
      Nat.lt_of_le_of_lt (le_ofDigitChars digits _) hlt
    rw [List.cons_append, readDigits_digit hc, if_pos hstep, ih hd hlt]

theorem readDigits_overflow (hd : ∀ c ∈ digits, c.isDigit = true) (hn : n < bound)
    (hle : bound ≤ Nat.ofDigitChars 10 digits n) :
    readDigits bound n (digits ++ cs) = .error .tooLarge := by
  induction digits generalizing n with
  | nil => exact absurd hn (Nat.not_lt.mpr hle)
  | cons c digits ih =>
    obtain ⟨hc, hd⟩ := List.forall_mem_cons.mp hd
    rw [Nat.ofDigitChars_cons] at hle
    rw [List.cons_append, readDigits_digit hc]
    by_cases hstep : 10 * n + (c.toNat - '0'.toNat) < bound
    · rw [if_pos hstep, ih hd hstep hle]
    · rw [if_neg hstep]

theorem Breaks.readDigits_eq (h : Breaks bound n cs why) (hn : n < bound) :
    readDigits bound n cs = .error why := by
  cases h with
  | badDigit hd hlt hc => rw [readDigits_append hd hlt, readDigits_no_digit hc]
  | tooLarge hd hle => exact readDigits_overflow hd hn hle

theorem Breaks.cons (hc : c.isDigit = true)
    (h : Breaks bound (10 * n + (c.toNat - '0'.toNat)) cs why) : Breaks bound n (c :: cs) why := by
  cases h with
  | badDigit hd hlt hno =>
    rw [← Nat.ofDigitChars_cons] at hlt
    exact .badDigit (List.forall_mem_cons.mpr ⟨hc, hd⟩) hlt hno
  | tooLarge hd hle =>
    rw [← Nat.ofDigitChars_cons] at hle
    exact .tooLarge (List.forall_mem_cons.mpr ⟨hc, hd⟩) hle

/-- All digits are taken, or the first fault is found. -/
theorem readDigits_sound (cs : List Char) (hn : n < bound) : match readDigits bound n cs with
    | .ok m => (∀ c ∈ cs, c.isDigit = true) ∧ Nat.ofDigitChars 10 cs n = m ∧ m < bound
    | .error why => Breaks bound n cs why := by
  induction cs generalizing n with
  | nil => exact ⟨fun _ hc => absurd hc List.not_mem_nil, Nat.ofDigitChars_nil, hn⟩
  | cons c cs ih =>
    cases hc : c.isDigit with
    | false =>
      rw [readDigits_no_digit hc]
      exact @Breaks.badDigit bound n [] cs c (fun _ hd => absurd hd List.not_mem_nil) hn hc
    | true =>
      rw [readDigits_digit hc]
      by_cases hstep : 10 * n + (c.toNat - '0'.toNat) < bound
      · rw [if_pos hstep]
        have htail := ih hstep
        cases hread : readDigits bound (10 * n + (c.toNat - '0'.toNat)) cs with
        | ok m =>
          rw [hread] at htail
          rw [← Nat.ofDigitChars_cons] at htail
          exact ⟨List.forall_mem_cons.mpr ⟨hc, htail.1⟩, htail.2⟩
        | error why =>
          rw [hread] at htail
          exact .cons hc htail
      · rw [if_neg hstep]
        have hone : ∀ d ∈ [c], d.isDigit = true := by simpa using hc
        refine @Breaks.tooLarge bound n [c] cs hone ?_
        rw [Nat.ofDigitChars_cons, Nat.ofDigitChars_nil]
        exact Nat.not_lt.mp hstep

/-! ### Numerals -/

theorem readNumeral_signed (h : cs ≠ []) :
    readNumeral bound ('+' :: cs) = readDigits bound 0 cs := by
  cases cs with
  | nil => exact absurd rfl h
  | cons c cs => rfl

theorem readNumeral_plain (h : cs ≠ []) (hplus : ∀ rest, cs ≠ '+' :: rest) :
    readNumeral bound cs = readDigits bound 0 cs := by
  fun_cases readNumeral bound cs with
  | case1 => exact absurd rfl h
  | case2 => exact absurd rfl (hplus [])
  | case3 => exact absurd rfl (hplus _)
  | case4 => rfl

theorem Digits.readDigits_eq (h : Digits cs n) (hlt : n < bound) :
    readDigits bound 0 cs = .ok n := by
  have hread := @readDigits_append bound 0 [] cs h.digits (h.value.symm ▸ hlt)
  rwa [List.append_nil, h.value] at hread

theorem Digits.unsigned (h : Digits cs n) (rest : List Char) : cs ≠ '+' :: rest := by
  rintro rfl
  exact absurd (h.digits '+' List.mem_cons_self) (by decide)

theorem Numeral.readNumeral_eq (h : Numeral cs n) (hlt : n < bound) :
    readNumeral bound cs = .ok n := by
  cases h with
  | plain hd => rw [readNumeral_plain hd.nonempty hd.unsigned, hd.readDigits_eq hlt]
  | signed hd => rw [readNumeral_signed hd.nonempty, hd.readDigits_eq hlt]

theorem Misread.readNumeral_eq (h : Misread bound cs why) (hb : 0 < bound) :
    readNumeral bound cs = .error why := by
  cases h with
  | empty | signAlone => rfl
  | plain hne hplus h => rw [readNumeral_plain hne hplus, h.readDigits_eq hb]
  | signed hne h => rw [readNumeral_signed hne, h.readDigits_eq hb]

theorem digits_of_readDigits (hb : 0 < bound) (hne : cs ≠ [])
    (h : readDigits bound 0 cs = .ok n) : Digits cs n ∧ n < bound := by
  have hsound := readDigits_sound cs hb
  rw [h] at hsound
  obtain ⟨hd, hvalue, hlt⟩ := hsound
  exact ⟨⟨hne, hd, hvalue⟩, hlt⟩

theorem breaks_of_readDigits (hb : 0 < bound) (h : readDigits bound 0 cs = .error why) :
    Breaks bound 0 cs why := by
  have hsound := readDigits_sound cs hb
  rwa [h] at hsound

theorem readNumeral_ok_iff (hb : 0 < bound) :
    readNumeral bound cs = .ok n ↔ Numeral cs n ∧ n < bound := by
  refine ⟨?_, fun h => h.1.readNumeral_eq h.2⟩
  fun_cases readNumeral bound cs with
  | case1 | case2 => exact nofun
  | case3 cs hne => exact fun h => (digits_of_readDigits hb hne h).imp_left .signed
  | case4 cs hne => exact fun h => (digits_of_readDigits hb hne h).imp_left .plain

theorem readNumeral_error_iff (hb : 0 < bound) :
    readNumeral bound cs = .error why ↔ Misread bound cs why := by
  refine ⟨?_, fun h => h.readNumeral_eq hb⟩
  fun_cases readNumeral bound cs with
  | case1 =>
    rintro ⟨⟩
    exact .empty
  | case2 =>
    rintro ⟨⟩
    exact .signAlone
  | case3 cs hne => exact fun h => .signed hne (breaks_of_readDigits hb h)
  | case4 cs hne _ hplus => exact fun h => .plain hne hplus (breaks_of_readDigits hb h)

/-! ### Numerals between blanks -/

def Holds (bound : Nat) (cs : List Char) (n : Nat) : Prop :=
  ∃ core, Stripped cs core ∧ Numeral core n ∧ n < bound

def Spoils (bound : Nat) (cs : List Char) (why : NumeralFault) : Prop :=
  ∃ core, Stripped cs core ∧ Misread bound core why

/-- The number as it is printed, with blanks around it or none. -/
def Padded (n : Nat) (text : String) : Prop :=
  ∃ left right : String, Blank left.toList ∧ Blank right.toList ∧ text = left ++ toString n ++ right

theorem readNumeral_trim_ok_iff (hb : 0 < bound) :
    readNumeral bound (trim cs) = .ok n ↔ Holds bound cs n := by
  rw [readNumeral_ok_iff hb]
  constructor
  · exact fun h => ⟨trim cs, stripped_trim cs, h⟩
  · rintro ⟨core, hcore, h⟩
    rwa [hcore.trim_eq]

theorem readNumeral_trim_error_iff (hb : 0 < bound) :
    readNumeral bound (trim cs) = .error why ↔ Spoils bound cs why := by
  rw [readNumeral_error_iff hb]
  constructor
  · exact fun h => ⟨trim cs, stripped_trim cs, h⟩
  · rintro ⟨core, hcore, h⟩
    rwa [hcore.trim_eq]

theorem not_mem_whiteSpace_of_isDigit (h : c.isDigit = true) : c ∉ whiteSpace := by
  have hrange := toNat_of_isDigit h
  rw [← isBlank_eq_false_iff]
  simp only [isBlank, Bool.or_eq_false_iff, Bool.and_eq_false_iff, decide_eq_false_iff_not,
    beq_eq_false_iff_ne]
  omega

theorem stripped_digits {left digits right : List Char} (hl : Blank left) (hr : Blank right)
    (hd : ∀ c ∈ digits, c.isDigit = true) : Stripped (left ++ digits ++ right) digits := by
  refine ⟨⟨left, right, hl, hr, rfl⟩, ?_, ?_⟩
  · exact fun c hc => not_mem_whiteSpace_of_isDigit (hd c (List.mem_of_mem_head? hc))
  · exact fun c hc => not_mem_whiteSpace_of_isDigit (hd c (List.mem_of_mem_getLast? hc))

theorem isDigit_toDigits : ∀ c ∈ Nat.toDigits 10 n, c.isDigit = true :=
  fun _ hc => Nat.isDigit_of_mem_toDigits (by decide) (by decide) hc

theorem numeral_toDigits (n : Nat) : Numeral (Nat.toDigits 10 n) n :=
  .plain ⟨Nat.toDigits_ne_nil, isDigit_toDigits, Nat.ofDigitChars_ten_toDigits⟩

theorem Padded.toList {text : String} (h : Padded n text) : ∃ left right, Blank left ∧
    Blank right ∧ text.toList = left ++ Nat.toDigits 10 n ++ right := by
  obtain ⟨left, right, hl, hr, rfl⟩ := h
  refine ⟨left.toList, right.toList, hl, hr, ?_⟩
  rw [String.toList_append, String.toList_append, Nat.toString_eq_repr, Nat.toList_repr]

theorem Padded.holds {text : String} (h : Padded n text) (hn : n < bound) :
    Holds bound text.toList n := by
  obtain ⟨left, right, hl, hr, heq⟩ := h.toList
  rw [heq]
  exact ⟨_, stripped_digits hl hr isDigit_toDigits, numeral_toDigits n, hn⟩

/-- A separator that is neither a blank nor a digit ends what was printed in front of it. -/
theorem Padded.cut {before : String} (h : Padded n before) (sep : Char) (after : String)
    (hblank : sep ∉ whiteSpace) (hdigit : sep.isDigit = false) :
    FirstCut sep (before ++ String.singleton sep ++ after).toList before.toList after.toList := by
  obtain ⟨left, right, hl, hr, heq⟩ := h.toList
  constructor
  · rw [String.toList_append, String.toList_append, String.toList_singleton, List.append_assoc]
    rfl
  · rw [heq, List.mem_append, List.mem_append]
    rintro ((hsep | hsep) | hsep)
    · exact hblank (hl sep hsep)
    · rw [isDigit_toDigits sep hsep] at hdigit
      cases hdigit
    · exact hblank (hr sep hsep)

end PlainScore.Text
