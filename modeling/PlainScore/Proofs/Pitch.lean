import PlainScore.Proofs.Text.Numeral
import PlainScore.Proofs.Token.Duration

/-! The two readers of pitches. The notation reads a spelling character by character and knows
nothing of tones; a pitch is made from a spelling by looking up its name, and the octaves are
checked when the name has been resolved. -/
namespace PlainScore.Pitch

def Spelled (s : String) : Prop := Token.spanPitch s.toList = some (s.toList, [])

instance (s : String) : Decidable (Spelled s) := inferInstanceAs (Decidable (_ = _))

variable {s name : String} {c : Char} {index d : Nat} {shift n : Int} {pitch : Pitch}

theorem spelled_iff : Spelled s ↔ Token.Spelling s.toList := by
  constructor
  · exact fun h => (Token.spanPitch_sound h).1
  · intro h
    have hwhole := Token.spanPitch_complete h []
    rwa [List.append_nil] at hwhole

/-! ### Names -/

def isName : List Char → Bool
  | [step] => Token.isStep step
  | [step, accidental] => Token.isStep step && Token.isAccidental accidental
  | _ => false

theorem spelling_of_name {cs : List Char} (h : isName cs = true) (hc : Token.isOctave c = true) :
    Token.Spelling (cs ++ [c]) := by
  rw [Token.isOctave_iff] at hc
  revert h
  fun_cases isName cs with
  | case1 step => exact fun hs => .natural (Token.isStep_iff.mp hs) hc
  | case2 step accidental =>
    rw [Bool.and_eq_true]
    rintro ⟨hs, ha⟩
    exact .altered (Token.isStep_iff.mp hs) (Token.isAccidental_iff.mp ha) hc
  | case3 => exact nofun

theorem isName_names : ∀ name ∈ names, isName name.toList = true := by decide

/-- One alias takes a tone down to the octave below. -/
theorem isName_aliases : ∀ a ∈ aliases, isName a.1.toList = true ∧ (0 ≤ a.2.2 ∨
    a.1 = "Cb" ∧ a.2.2 = -1) := by decide

structure Placed (name : String) (index : Nat) (shift : Int) : Prop where
  formed : isName name.toList = true
  within : index < names.length
  shift : 0 ≤ shift ∨ name = "Cb" ∧ shift = -1

theorem placed (h : place? name = some (index, shift)) : Placed name index shift := by
  unfold place? at h
  cases hfound : names.findIdx? (· == name) with
  | some i =>
    rw [hfound] at h
    cases h
    obtain ⟨hi, hname, -⟩ := List.findIdx?_eq_some_iff_getElem.mp hfound
    have hmem : name ∈ names := beq_iff_eq.mp hname ▸ List.getElem_mem hi
    exact ⟨isName_names name hmem, hi, .inl le_rfl⟩
  | none =>
    rw [hfound] at h
    obtain ⟨⟨other, target, shift⟩, halias, h⟩ := Option.bind_eq_some_iff.mp h
    obtain ⟨i, htarget, h⟩ := Option.bind_eq_some_iff.mp h
    cases h
    obtain ⟨hi, -, -⟩ := List.findIdx?_eq_some_iff_getElem.mp htarget
    have hother := List.find?_some halias
    obtain ⟨hname, hshift⟩ := isName_aliases _ (List.mem_of_find?_eq_some halias)
    cases beq_iff_eq.mp hother
    exact ⟨hname, hi, hshift⟩

/-! ### Keys -/

structure Keyed (s : String) (n : Int) (name : String) (d index : Nat) (shift : Int) : Prop where
  spelling : s.toList = name.toList ++ [d.digitChar]
  digit : d < 10
  placed : Placed name index shift
  inside : leastOctave ≤ d + shift ∧ d + shift ≤ greatestOctave
  key : n = index + 12 * (d + shift + 1)

theorem keyed (h : keyNumber? s = some n) : ∃ name d index shift, Keyed s n name d index shift := by
  obtain ⟨⟨name, d⟩, hparts, hrest⟩ := Option.bind_eq_some_iff.mp h
  obtain ⟨⟨index, shift⟩, hplace, hkey⟩ := Option.bind_eq_some_iff.mp hrest
  obtain ⟨c, hlast, hname⟩ := Option.bind_eq_some_iff.mp hparts
  obtain ⟨d', hdigit, hsame⟩ := Option.bind_eq_some_iff.mp hname
  cases hsame
  obtain ⟨hd, hc⟩ := Text.digit?_some hdigit
  by_cases hinside : leastOctave ≤ (d : Int) + shift ∧ (d : Int) + shift ≤ greatestOctave
  · refine ⟨_, d, index, shift, ?_, hd, placed hplace, hinside, ?_⟩
    · rw [String.toList_ofList, ← hc, List.dropLast_append_getLast? c hlast]
    · exact (Option.some.inj ((if_pos hinside).symm.trans hkey)).symm
  · exact absurd ((if_neg hinside).symm.trans hkey) nofun

/-- The octave of a spelling is a digit that the notation knows, unless it is brought down. -/
theorem Keyed.spelled (h : Keyed s n name d index shift) : Spelled s ∨ s = "Cb9" := by
  obtain ⟨hspelling, hd, ⟨hname, -, hshift⟩, ⟨-, hinside⟩, -⟩ := h
  by_cases hnine : d = 9
  · right
    subst hnine
    rcases hshift with hshift | ⟨rfl, -⟩
    · unfold greatestOctave at hinside
      omega
    · exact String.toList_inj.mp hspelling
  · left
    have hoctaves : ∀ d < 9, Token.isOctave d.digitChar = true := by decide
    rw [spelled_iff, hspelling]
    exact spelling_of_name hname (hoctaves d (by omega))

theorem Keyed.bounds (h : Keyed s n name d index shift) : 12 ≤ n ∧ n ≤ 119 := by
  obtain ⟨-, -, ⟨-, hindex, -⟩, hinside, rfl⟩ := h
  have hlength : names.length = 12 := rfl
  unfold leastOctave greatestOctave at hinside
  omega

/-! ### Pitches -/

theorem parse_ok (h : parse s = .ok pitch) : s = "X" ∧ pitch = .rest ∨
    ∃ n, keyNumber? s = some n ∧ pitch = .tone s (UInt8.ofNat n.toNat) := by
  rw [parse] at h
  split at h
  · cases h
    exact .inl ⟨String.toList_inj.mp ‹_›, rfl⟩
  · split at h
    · cases h
      exact .inr ⟨_, ‹_›, rfl⟩
    · cases h

theorem not_mem_beyond : s.toList ∉ beyond ↔ s ≠ "Cb0" ∧ s ≠ "B#8" := by
  simp [beyond, ← String.toList_inj]

theorem resolved_iff : (∃ pitch, parse s = .ok pitch) ↔
    Spelled s ∧ s ≠ "Cb0" ∧ s ≠ "B#8" ∨ s = "Cb9" := by
  have hspelled : Spelled s → ((∃ pitch, parse s = .ok pitch) ↔ s ≠ "Cb0" ∧ s ≠ "B#8") := by
    intro h
    have hlook := parse_spelling_iff (spelled_iff.mp h)
    rwa [String.ofList_toList, not_mem_beyond] at hlook
  constructor
  · rintro ⟨pitch, h⟩
    have hwritten : Spelled s ∨ s = "Cb9" := by
      rcases parse_ok h with ⟨rfl, -⟩ | ⟨n, hn, -⟩
      · exact .inl (by decide)
      · obtain ⟨name, d, index, shift, hkeyed⟩ := keyed hn
        exact hkeyed.spelled
    exact hwritten.imp_left fun hs => ⟨hs, (hspelled hs).mp ⟨pitch, h⟩⟩
  · rintro (⟨hs, hwithin⟩ | rfl)
    · exact (hspelled hs).mpr hwithin
    · exact ⟨.tone "Cb9" 119, by decide +kernel⟩

structure Agrees (s : String) : Prop where
  resolved : (∃ pitch, parse s = .ok pitch) ↔ Spelled s ∧ s ≠ "Cb0" ∧ s ≠ "B#8" ∨ s = "Cb9"
  key : ∀ spelling key, parse s = .ok (.tone spelling key) →
    ∃ n, keyNumber? s = some n ∧ 12 ≤ n ∧ n ≤ 119 ∧ (key.toNat : Int) = n
  text : ∀ pitch, parse s = .ok pitch → pitch.text = s

/-- Both readers know the same pitches, the ends of the octaves apart. -/
theorem readers_agree_within_octaves (s : String) : Agrees s := by
  refine ⟨resolved_iff, ?_, ?_⟩
  · intro spelling key h
    rcases parse_ok h with ⟨-, h⟩ | ⟨n, hn, h⟩
    · cases h
    · cases h
      obtain ⟨name, d, index, shift, hkeyed⟩ := keyed hn
      obtain ⟨hlow, hhigh⟩ := hkeyed.bounds
      have hbyte : n.toNat < 2 ^ 8 := by omega
      refine ⟨n, hn, hlow, hhigh, ?_⟩
      rw [UInt8.toNat_ofNat', Nat.mod_eq_of_lt hbyte, Int.toNat_of_nonneg (by omega)]
  · intro pitch h
    rcases parse_ok h with ⟨rfl, rfl⟩ | ⟨n, -, rfl⟩
    · rfl
    · rfl

/-- The flat of the first octave is the last tone of the octave below. -/
theorem lowered_flat_is_resolved : (∃ pitch, parse "Cb1" = .ok pitch) ∧
    (∃ n, keyNumber? "Cb1" = some n ∧ 12 ≤ n ∧ n ≤ 119 ∧ ((23 : UInt8).toNat : Int) = n) ∧
    (tone "Cb1" 23).text = "Cb1" := by
  have hagrees := readers_agree_within_octaves "Cb1"
  have hparse : parse "Cb1" = .ok (.tone "Cb1" 23) := by decide +kernel
  exact ⟨hagrees.resolved.mpr (.inl (by decide)), hagrees.key _ _ hparse, hagrees.text _ hparse⟩

/-- A flat comes down from an octave that the notation does not know. -/
theorem ninth_octave_is_resolved : parse "Cb9" = .ok (.tone "Cb9" 119) ∧ ¬ Spelled "Cb9" := by
  decide +kernel

end PlainScore.Pitch
