import PlainScore.Decimal.Scaled

/-! The words of a JSON text: punctuation, names, numbers and strings.
Cutting a text into words asks only for their form. A number may still be too large and a
string may still hold halves of surrogate pairs or bytes that are no UTF-8; such a word has
no meaning and whoever needs its value refuses it. A word ends where it cannot go on, so
two words need nothing between them. -/
namespace PlainScore.Json

inductive Number where
  | integer (n : Int)
  | real (x : Float)
  deriving DecidableEq, Repr

def Number.toFloat : Number → Float
  | .integer n => Float.ofInt n
  | .real x => x

def Number.toFloat32 : Number → Float32
  | .integer n => Float32.ofInt n
  | .real x => x.toFloat32

inductive Token where
  | openList | closeList | openObject | closeObject | colon | comma
  | null
  | bool (b : Bool)
  | number (n : Option Number)
  | text (s : Option String)
  deriving DecidableEq, Repr

def Token.sound : Token → Bool
  | .number n => n.isSome
  | .text s => s.isSome
  | _ => true

/-! ### Strings -/

/-- A byte of a string, or the UTF-16 unit that a numeric escape stands for. -/
inductive Piece where
  | byte (b : UInt8)
  | unit (u : Nat)
  deriving DecidableEq, Repr

def hexDigit? (b : UInt8) : Option Nat :=
  let n := b.toNat
  if 48 ≤ n ∧ n ≤ 57 then some (n - 48)
  else if 65 ≤ n ∧ n ≤ 70 then some (n - 55)
  else if 97 ≤ n ∧ n ≤ 102 then some (n - 87)
  else none

def hexUnit? (a b c d : UInt8) : Option Nat := do
  let a ← hexDigit? a
  let b ← hexDigit? b
  let c ← hexDigit? c
  let d ← hexDigit? d
  return ((a * 16 + b) * 16 + c) * 16 + d

def escaped? (b : UInt8) : Option UInt8 :=
  match Char.ofNat b.toNat with
  | '"' => some 0x22
  | '\\' => some 0x5C
  | '/' => some 0x2F
  | 'b' => some 0x08
  | 'f' => some 0x0C
  | 'n' => some 0x0A
  | 'r' => some 0x0D
  | 't' => some 0x09
  | _ => none

def readText (done : List Piece) : List UInt8 → Option (List Piece × List UInt8)
  | [] => none
  | b :: rest =>
    if b = 0x22 then some (done.reverse, rest)
    else if b < 0x20 then none
    else if b ≠ 0x5C then readText (.byte b :: done) rest
    else match rest with
      | 0x75 :: h :: i :: j :: k :: rest =>
        match hexUnit? h i j k with
        | some u => readText (.unit u :: done) rest
        | none => none
      | e :: rest =>
        match escaped? e with
        | some b => readText (.byte b :: done) rest
        | none => none
      | [] => none

theorem readText_length {done : List Piece} {bytes : List UInt8} {pieces : List Piece}
    {rest : List UInt8} (h : readText done bytes = some (pieces, rest)) :
    rest.length < bytes.length := by
  fun_induction readText done bytes <;> simp_all <;> omega

def bytesOf (c : Char) : List UInt8 := (String.singleton c).toUTF8.toList

/-- The UTF-8 bytes of the pieces; a surrogate is followed by its other half. -/
def bytesOfPieces? : List Piece → Option (List UInt8)
  | [] => some []
  | .byte b :: rest => (bytesOfPieces? rest).map (b :: ·)
  | .unit u :: rest =>
    if u < 0xD800 ∨ 0xDFFF < u then (bytesOfPieces? rest).map (bytesOf (Char.ofNat u) ++ ·)
    else if 0xDC00 ≤ u then none
    else match rest with
      | .unit v :: rest =>
        if 0xDC00 ≤ v ∧ v ≤ 0xDFFF then
          (bytesOfPieces? rest).map
            (bytesOf (Char.ofNat (0x10000 + (u - 0xD800) * 1024 + (v - 0xDC00))) ++ ·)
        else none
      | _ => none

def textOf? (pieces : List Piece) : Option String := do
  let bytes ← bytesOfPieces? pieces
  String.fromUTF8? bytes.toByteArray

/-! ### Numbers -/

def isDigit (b : UInt8) : Bool := 0x30 ≤ b && b ≤ 0x39

def spanDigits (bytes : List UInt8) : List Nat × List UInt8 :=
  ((bytes.takeWhile isDigit).map fun b => b.toNat - 0x30, bytes.dropWhile isDigit)

theorem spanDigits_length (bytes : List UInt8) : (spanDigits bytes).2.length ≤ bytes.length :=
  (List.dropWhile_sublist _).length_le

def digits? (bytes : List UInt8) : Option (List Nat × List UInt8) :=
  match spanDigits bytes with
  | ([], _) => none
  | found => some found

theorem digits?_length {bytes rest : List UInt8} {ds : List Nat}
    (h : digits? bytes = some (ds, rest)) : rest.length < bytes.length := by
  cases bytes with
  | nil => simp [digits?, spanDigits] at h
  | cons b bytes =>
    have hs := spanDigits_length bytes
    by_cases hb : isDigit b = true
    · simp only [digits?, spanDigits, List.takeWhile_cons_of_pos hb, List.dropWhile_cons_of_pos hb,
        List.map_cons, Option.some.injEq, Prod.mk.injEq] at h
      obtain ⟨-, rfl⟩ := h
      simpa [spanDigits, Nat.lt_succ_iff] using hs
    · simp [digits?, spanDigits, List.takeWhile_cons_of_neg hb] at h

def wholePart? (bytes : List UInt8) : Option (List Nat × List UInt8) :=
  match digits? bytes with
  | some (0 :: _ :: _, _) => none
  | found => found

theorem wholePart?_length {bytes rest : List UInt8} {ds : List Nat}
    (h : wholePart? bytes = some (ds, rest)) : rest.length < bytes.length := by
  unfold wholePart? at h
  split at h
  · contradiction
  · exact digits?_length h

def fractionPart? : List UInt8 → Option (Option (List Nat) × List UInt8)
  | 0x2E :: bytes => (digits? bytes).map fun (ds, rest) => (some ds, rest)
  | bytes => some (none, bytes)

theorem fractionPart?_length {bytes rest : List UInt8} {ds : Option (List Nat)}
    (h : fractionPart? bytes = some (ds, rest)) : rest.length ≤ bytes.length := by
  unfold fractionPart? at h
  split at h
  · obtain ⟨⟨found, left⟩, hf, he⟩ := Option.map_eq_some_iff.1 h
    obtain ⟨-, rfl⟩ := Prod.mk.inj he
    exact Nat.le_succ_of_le (Nat.le_of_lt (digits?_length hf))
  · obtain ⟨-, rfl⟩ := Prod.mk.inj (Option.some.inj h)
    exact Nat.le_refl _

def value (ds : List Nat) : Nat := ds.foldl (fun n d => 10 * n + d) 0

def signedDigits? : List UInt8 → Option (Int × List UInt8)
  | 0x2D :: bytes => (digits? bytes).map fun (ds, rest) => (-(value ds : Int), rest)
  | 0x2B :: bytes => (digits? bytes).map fun (ds, rest) => ((value ds : Int), rest)
  | bytes => (digits? bytes).map fun (ds, rest) => ((value ds : Int), rest)

theorem signedDigits?_length {bytes rest : List UInt8} {n : Int}
    (h : signedDigits? bytes = some (n, rest)) : rest.length < bytes.length := by
  unfold signedDigits? at h
  split at h <;>
  · obtain ⟨⟨found, left⟩, hf, he⟩ := Option.map_eq_some_iff.1 h
    obtain ⟨-, rfl⟩ := Prod.mk.inj he
    have := digits?_length hf
    simp only [List.length_cons] at *
    omega

def exponentPart? : List UInt8 → Option (Option Int × List UInt8)
  | 0x65 :: bytes | 0x45 :: bytes => (signedDigits? bytes).map fun (n, rest) => (some n, rest)
  | bytes => some (none, bytes)

theorem exponentPart?_length {bytes rest : List UInt8} {n : Option Int}
    (h : exponentPart? bytes = some (n, rest)) : rest.length ≤ bytes.length := by
  unfold exponentPart? at h
  split at h
  · obtain ⟨⟨found, left⟩, hf, he⟩ := Option.map_eq_some_iff.1 h
    obtain ⟨-, rfl⟩ := Prod.mk.inj he
    exact Nat.le_succ_of_le (Nat.le_of_lt (signedDigits?_length hf))
  · obtain ⟨⟨found, left⟩, hf, he⟩ := Option.map_eq_some_iff.1 h
    obtain ⟨-, rfl⟩ := Prod.mk.inj he
    exact Nat.le_succ_of_le (Nat.le_of_lt (signedDigits?_length hf))
  · obtain ⟨-, rfl⟩ := Prod.mk.inj (Option.some.inj h)
    exact Nat.le_refl _

/-- Whole numbers of 64 bits are kept as they are; a negative zero is a real number. -/
def numberOf (negative : Bool) (whole : List Nat) (fraction : Option (List Nat))
    (exponent : Option Int) : Option Number :=
  let real := (Decimal.scaled? negative whole (fraction.getD []) (exponent.getD 0)).map Number.real
  let n := value whole
  if fraction.isSome || exponent.isSome || Nat.pow 2 64 ≤ n then real
  else if ¬ negative then some (.integer n)
  else if 0 < n ∧ n ≤ Nat.pow 2 63 then some (.integer (-n))
  else real

def unsigned? (negative : Bool) (bytes : List UInt8) : Option (Option Number × List UInt8) :=
  match wholePart? bytes with
  | none => none
  | some (whole, rest) =>
    match fractionPart? rest with
    | none => none
    | some (fraction, rest) =>
      match exponentPart? rest with
      | none => none
      | some (exponent, rest) => some (numberOf negative whole fraction exponent, rest)

theorem unsigned?_length {negative : Bool} {bytes rest : List UInt8} {n : Option Number}
    (h : unsigned? negative bytes = some (n, rest)) : rest.length < bytes.length := by
  unfold unsigned? at h
  split at h
  · contradiction
  next whole afterWhole hw =>
    split at h
    · contradiction
    next fraction afterFraction hf =>
      split at h
      · contradiction
      next exponent afterExponent he =>
        obtain ⟨-, rfl⟩ := Prod.mk.inj (Option.some.inj h)
        have := wholePart?_length hw
        have := fractionPart?_length hf
        have := exponentPart?_length he
        omega

def number? : List UInt8 → Option (Option Number × List UInt8)
  | 0x2D :: bytes => unsigned? true bytes
  | bytes => unsigned? false bytes

theorem number?_length {bytes rest : List UInt8} {n : Option Number}
    (h : number? bytes = some (n, rest)) : rest.length < bytes.length := by
  unfold number? at h
  split at h
  · exact Nat.lt_succ_of_lt (unsigned?_length h)
  · exact unsigned?_length h

/-! ### Words -/

def isSpace (b : UInt8) : Bool := b == 0x20 || b == 0x09 || b == 0x0A || b == 0x0D

def punctuation? (b : UInt8) : Option Token :=
  match Char.ofNat b.toNat with
  | '[' => some .openList
  | ']' => some .closeList
  | '\x7b' => some .openObject
  | '\x7d' => some .closeObject
  | ':' => some .colon
  | ',' => some .comma
  | _ => none

def names : List (Token × List UInt8) :=
  [(.null, "null".toUTF8.toList), (.bool true, "true".toUTF8.toList),
   (.bool false, "false".toUTF8.toList)]

def word? (bytes : List UInt8) : Option (Token × List UInt8) :=
  match bytes with
  | [] => none
  | b :: rest =>
    if b = 0x22 then (readText [] rest).map fun (pieces, rest) => (.text (textOf? pieces), rest)
    else match punctuation? b with
      | some t => some (t, rest)
      | none =>
        match names.find? (·.2.isPrefixOf bytes) with
        | some (t, spelling) => some (t, rest.drop (spelling.length - 1))
        | none => (number? bytes).map fun (n, rest) => (.number n, rest)

theorem word?_length {bytes rest : List UInt8} {t : Token} (h : word? bytes = some (t, rest)) :
    rest.length < bytes.length := by
  unfold word? at h
  split at h
  · contradiction
  next b bytes =>
    split at h
    · obtain ⟨⟨pieces, left⟩, hr, he⟩ := Option.map_eq_some_iff.1 h
      obtain ⟨-, rfl⟩ := Prod.mk.inj he
      exact Nat.lt_succ_of_lt (readText_length hr)
    · split at h
      · obtain ⟨-, rfl⟩ := Prod.mk.inj (Option.some.inj h)
        exact Nat.lt_succ_self _
      · split at h
        · obtain ⟨-, rfl⟩ := Prod.mk.inj (Option.some.inj h)
          simp only [List.length_drop, List.length_cons]
          omega
        · obtain ⟨⟨n, left⟩, hn, he⟩ := Option.map_eq_some_iff.1 h
          obtain ⟨-, rfl⟩ := Prod.mk.inj he
          exact number?_length hn

def Token.opened (before : Nat) : Token → Nat
  | .openList | .openObject => before + 1
  | .closeList | .closeObject => before - 1
  | _ => before

/-- The words up to the first behind which nothing is open, after those already found, and
what follows them. -/
def wordsFrom (opened : Nat) (done : List Token) (bytes : List UInt8) :
    Option (List Token × List UInt8) :=
  match _h : word? (bytes.dropWhile isSpace) with
  | none => none
  | some (t, rest) =>
    if t.opened opened = 0 then some ((t :: done).reverse, rest)
    else wordsFrom (t.opened opened) (t :: done) rest
termination_by bytes.length
decreasing_by
  have hw := word?_length _h
  have hs : (bytes.dropWhile isSpace).length ≤ bytes.length :=
    (List.dropWhile_sublist _).length_le
  omega

def words? (bytes : List UInt8) : Option (List Token × List UInt8) := wordsFrom 0 [] bytes

end PlainScore.Json
