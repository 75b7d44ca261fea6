import PlainScore.CommandLine.Range
import PlainScore.Proofs.Score.Loading
import PlainScore.Proofs.Text.Numeral

/-! Which texts are ranges of subsheets, which fault is reported of the others, and what a range
selects. `Written` and `FirstFault` follow the written form: the first comma, and the numbers on
either side of it. -/
namespace PlainScore.Range

open Text (FirstCut Holds Spoils Padded)

structure Written (text : String) (r : Range) : Prop where
  numbers : ∃ before after, FirstCut ',' text.toList before after ∧ Holds bound before r.start ∧
    Holds bound after r.stop
  nonempty : r.start < r.stop

/-- The fault names what is wrong first: each number is looked at when all in front of it is in
order. -/
inductive FirstFault (text : String) : RangeFault → Prop where
  | noComma : ',' ∉ text.toList → FirstFault text (.noComma text)
  | badStart {before after : List Char} {why : Text.NumeralFault} :
      FirstCut ',' text.toList before after → Spoils bound before why →
      FirstFault text (.badStart (String.ofList before) why)
  | badStop {before after : List Char} {start : Nat} {why : Text.NumeralFault} :
      FirstCut ',' text.toList before after → Holds bound before start → Spoils bound after why →
      FirstFault text (.badStop (String.ofList after) why)
  | empty {before after : List Char} {start stop : Nat} :
      FirstCut ',' text.toList before after → Holds bound before start → Holds bound after stop →
      stop ≤ start → FirstFault text (.empty start stop)

variable {text before after : String} {cs : List Char} {n start stop : Nat} {r : Range}
  {fault : RangeFault} {why : Text.NumeralFault} {ss : List Sheet}

/-! ### Reading -/

theorem number_ok_iff : Text.readNumeral bound (Text.trim cs) = .ok n ↔ Holds bound cs n :=
  Text.readNumeral_trim_ok_iff (by decide)

theorem number_error_iff : Text.readNumeral bound (Text.trim cs) = .error why ↔
    Spoils bound cs why :=
  Text.readNumeral_trim_error_iff (by decide)

/-- What reading comes to, whatever the text. -/
theorem parse_sound (text : String) : match parse text with
    | .ok r => Written text r
    | .error fault => FirstFault text fault := by
  fun_cases parse text with
  | case1 hcut => exact .noComma (Text.splitFirst_eq_none_iff.mp hcut)
  | case2 before after hcut why hstart =>
    rw [Text.splitFirst_eq_some_iff] at hcut
    exact .badStart hcut (number_error_iff.mp hstart)
  | case3 before after hcut start hstart why hstop =>
    rw [Text.splitFirst_eq_some_iff] at hcut
    exact .badStop hcut (number_ok_iff.mp hstart) (number_error_iff.mp hstop)
  | case4 before after hcut start hstart stop hstop hlt =>
    rw [Text.splitFirst_eq_some_iff] at hcut
    rw [number_ok_iff] at hstart hstop
    exact ⟨⟨before, after, hcut, hstart, hstop⟩, hlt⟩
  | case5 before after hcut start hstart stop hstop hle =>
    rw [Text.splitFirst_eq_some_iff] at hcut
    rw [number_ok_iff] at hstart hstop
    exact .empty hcut hstart hstop (Nat.not_lt.mp hle)

theorem Written.parse_eq (h : Written text r) : parse text = .ok r := by
  obtain ⟨⟨before, after, hcut, hstart, hstop⟩, hlt⟩ := h
  rw [← number_ok_iff] at hstart hstop
  simp only [parse, hcut.splitFirst_eq, hstart, hstop, if_pos hlt]

theorem FirstFault.parse_eq (h : FirstFault text fault) : parse text = .error fault := by
  cases h with
  | noComma hcut =>
    rw [← Text.splitFirst_eq_none_iff] at hcut
    simp only [parse, hcut]
  | badStart hcut hstart =>
    rw [← number_error_iff] at hstart
    simp only [parse, hcut.splitFirst_eq, hstart]
  | badStop hcut hstart hstop =>
    rw [← number_ok_iff] at hstart
    rw [← number_error_iff] at hstop
    simp only [parse, hcut.splitFirst_eq, hstart, hstop]
  | empty hcut hstart hstop hle =>
    rw [← number_ok_iff] at hstart hstop
    simp only [parse, hcut.splitFirst_eq, hstart, hstop, if_neg (Nat.not_lt.mpr hle)]

theorem parse_ok_iff : parse text = .ok r ↔ Written text r := by
  refine ⟨fun h => ?_, Written.parse_eq⟩
  have hsound := parse_sound text
  rwa [h] at hsound

theorem parse_error_iff : parse text = .error fault ↔ FirstFault text fault := by
  refine ⟨fun h => ?_, FirstFault.parse_eq⟩
  have hsound := parse_sound text
  rwa [h] at hsound

/-! ### Printing -/

theorem written_printed (hlt : start < stop) (hb : stop < bound) (hbefore : Padded start before)
    (hafter : Padded stop after) : Written (before ++ "," ++ after) ⟨start, stop⟩ := by
  have hcut : FirstCut ',' (before ++ "," ++ after).toList before.toList after.toList :=
    hbefore.cut ',' after (by decide) (by decide)
  exact ⟨⟨_, _, hcut, hbefore.holds (hlt.trans hb), hafter.holds hb⟩, hlt⟩

/-! ### Selecting -/

structure Selects (r : Range) (ss : List Sheet) : Prop where
  fails : (∃ e, (Score.medley ss).select r.start r.stop = .error e) ↔ ss.length < r.stop
  keeps : r.stop ≤ ss.length → ∃ kept, (Score.medley ss).select r.start r.stop =
    .ok (.medley kept) ∧ kept.length = r.stop - r.start ∧ 1 ≤ kept.length

/-- A range that is not empty can only reach too far. -/
theorem selects (hlt : r.start < r.stop) (ss : List Sheet) : Selects r ss := by
  have hkeeps : r.stop ≤ ss.length → (Score.medley ss).select r.start r.stop =
      .ok (.medley ((ss.take r.stop).drop r.start)) :=
    fun hle => Score.select_medley_ok_iff.mpr ⟨⟨hlt, hle⟩, rfl⟩
  constructor
  · constructor
    · rintro ⟨e, he⟩
      rw [← Nat.not_le]
      intro hle
      rw [hkeeps hle] at he
      cases he
    · intro hover
      rw [Score.select, if_pos (.inr hover)]
      exact ⟨_, rfl⟩
  · intro hle
    refine ⟨_, hkeeps hle, ?_⟩
    rw [List.length_drop, List.length_take, Nat.min_eq_left hle]
    exact ⟨rfl, by omega⟩

structure Exact : Prop where
  accepts : ∀ text r, parse text = .ok r ↔ Written text r
  refuses : ∀ text fault, parse text = .error fault ↔ FirstFault text fault
  printed : ∀ start stop before after, start < stop → stop < bound → Padded start before →
    Padded stop after → parse (before ++ "," ++ after) = .ok ⟨start, stop⟩
  selects : ∀ text r, parse text = .ok r → ∀ ss, Selects r ss

/-- Exactly the written ranges are read, the first fault of any other text is reported, and a
range that was read selects as many sheets as it spans unless it ends behind the last. -/
theorem ranges_are_read_as_written : Exact := by
  refine ⟨fun text r => parse_ok_iff, fun text fault => parse_error_iff, ?_, ?_⟩
  · intro start stop before after hlt hb hbefore hafter
    exact (written_printed hlt hb hbefore hafter).parse_eq
  · intro text r h ss
    exact selects (parse_ok_iff.mp h).nonempty ss

/-- Signs, zeros and blanks of any kind do no harm, and the start is looked at before the end. -/
theorem padded_range_is_read : Written "\t+1 ,03\u3000" ⟨1, 3⟩ ∧
    FirstFault "+,-,3" (.badStart "+" .badDigit) ∧ parse (" 1" ++ "," ++ "3\n") = .ok ⟨1, 3⟩ ∧
    ∃ kept, (Score.medley [.scale, .scale, .scale]).select 1 3 = .ok (.medley kept) ∧
      kept.length = 2 ∧ 1 ≤ kept.length := by
  have hread : parse (" 1" ++ "," ++ "3\n") = .ok ⟨1, 3⟩ :=
    ranges_are_read_as_written.printed 1 3 " 1" "3\n" (by decide) (by decide)
      ⟨" ", "", by decide, by decide, by decide⟩ ⟨"", "\n", by decide, by decide, by decide⟩
  refine ⟨(ranges_are_read_as_written.accepts _ _).mp (by decide +kernel),
    (ranges_are_read_as_written.refuses _ _).mp (by decide +kernel), hread, ?_⟩
  exact (ranges_are_read_as_written.selects _ _ hread [.scale, .scale, .scale]).keeps le_rfl

end PlainScore.Range
