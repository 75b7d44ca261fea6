import PlainScore.Proofs.Score.Loading
import PlainScore.Proofs.Token.Chain
import PlainScore.Track.Cursor

/-! What the error of a tie names.
The pieces of a tie are looked at in order, and the first that does not go with the first one is
reported: a change of pitch with the whole token, a clash with nothing but the piece itself.
Cursors, tracks and sheets pass the error on as it is. -/
namespace PlainScore

namespace Token.Chain

variable {c : Chain} {p : Piece} {e : Error}

/-- The whole token is blamed for a change of pitch, and a piece alone for its clash. -/
inductive Blames (c : Chain) (p : Piece) : Error → Prop where
  | pitch : p.spelling ≠ c.first.spelling → Blames c p (.malformedNote c.token)
  | clash : p.spelling = c.first.spelling → p.Clashes →
      Blames c p (.malformedNote (String.ofList p.chars))

structure Reports (c : Chain) (e : Error) : Prop where
  note : Note.ofToken c.token = .error e
  next : ∀ rest, (Cursor.mk (c.token :: rest)).next = (some (.error e), ⟨rest⟩)
  nth : ∀ before rest,
    (Cursor.mk (before ++ c.token :: rest)).nth before.length = (some (.error e), ⟨rest⟩)
  total : ∀ before after, (∀ token ∈ before, ∃ note, Note.ofToken token = .ok note) →
    (Track.mk (before ++ c.token :: after)).total = .error e
  sheet : ∀ bpm meter earlier before after later, bpm.isFinite = true ∧ 0 < bpm →
    meter.numerator ≠ 0 ∧ meter.denominator ≠ 0 →
    (∀ token ∈ earlier.flatMap Track.tokens ++ before, ∃ note, Note.ofToken token = .ok note) →
    Sheet.make bpm meter (earlier ++ ⟨before ++ c.token :: after⟩ :: later) = .error e

theorem reports_of_note (h : Note.ofToken c.token = .error e) : c.Reports e := by
  refine ⟨h, ?_, ?_, ?_, ?_⟩
  · intro rest
    simp only [Cursor.next, h]
  · intro before rest
    simp only [Cursor.nth, List.drop_left, h]
  · intro before after hb
    exact Track.total_error_iff.mpr ⟨before, c.token, after, rfl, hb, h⟩
  · intro bpm meter earlier before after later ht hm hb
    have hne : earlier ++ ⟨before ++ c.token :: after⟩ :: later ≠ [] :=
      List.append_ne_nil_of_right_ne_nil earlier (List.cons_ne_nil _ later)
    have hfirst : FirstRefused Note.ofToken
        ((earlier ++ ⟨before ++ c.token :: after⟩ :: later).flatMap Track.tokens) e := by
      refine ⟨earlier.flatMap Track.tokens ++ before, c.token,
        after ++ later.flatMap Track.tokens, ?_, hb, h⟩
      simp only [List.flatMap_append, List.flatMap_cons, List.append_assoc, List.cons_append]
    rw [Sheet.make_error_iff, Sheet.fault?_playable (s := ⟨bpm, meter, _⟩) ht,
      if_neg (not_or.mpr hm), if_neg hne]
    exact Sheet.firstFailure_eq_some_iff.mpr hfirst

theorem Falters.exists_blame {before after : List Piece} (h : c.Falters before p after) :
    ∃ e, c.Blames p e ∧ c.Reports e := by
  have hnote := ofToken_falters h
  by_cases ha : p.spelling = c.first.spelling
  · rw [if_pos ha] at hnote
    have hclash : p.Clashes := by
      by_contra hn
      exact h.faulty ⟨ha, hn⟩
    exact ⟨_, .clash ha hclash, reports_of_note hnote⟩
  · rw [if_neg ha] at hnote
    exact ⟨_, .pitch ha, reports_of_note hnote⟩

/-- A piece of a tie is never the whole token. -/
theorem Blames.eq_token_iff (h : c.Blames p e) (htie : c.rest ≠ []) :
    e = .malformedNote c.token ↔ p.spelling ≠ c.first.spelling := by
  cases h with
  | pitch hp => exact ⟨fun _ => hp, fun _ => rfl⟩
  | clash hp _ =>
    refine ⟨fun he => ?_, fun hn => absurd hp hn⟩
    have hchars : p.chars = c.chars := String.ofList_inj.mp (Error.malformedNote.inj he)
    have hmem := tie_mem_chars htie
    rw [← hchars] at hmem
    exact absurd hmem p.part.untied

/-- Of a tie whose pieces do not go together, the first that does not go with the first one decides
what the error names: the whole token if that piece has another pitch, and nothing but the piece
if it clashes. -/
theorem first_faulty_piece_is_reported (htie : c.rest ≠ []) (h : ¬ c.Fits) :
    ∃ before p after e, c.Falters before p after ∧ c.Blames p e ∧ c.Reports e ∧
      (e = .malformedNote c.token ↔ p.spelling ≠ c.first.spelling) := by
  rcases c.fits_or_falters with hfits | ⟨before, p, after, hfalters⟩
  · exact absurd hfits h
  · obtain ⟨e, hblames, hreports⟩ := hfalters.exists_blame
    exact ⟨before, p, after, e, hfalters, hblames, hreports, hblames.eq_token_iff htie⟩

def clashing : Chain :=
  ⟨⟨['C', '4'], [], .natural (by decide) (by decide), by simp⟩,
    [⟨['C', '4'], ['-', '/'], .natural (by decide) (by decide), by simp⟩]⟩

theorem clashing_is_reported : clashing.token = "C4+C4-/" ∧ clashing.rest ≠ [] ∧
    ¬ clashing.Fits ∧ ∃ before p after e, clashing.Falters before p after ∧
      clashing.Blames p e ∧ clashing.Reports e ∧
      (e = .malformedNote clashing.token ↔ p.spelling ≠ clashing.first.spelling) := by
  have htie : clashing.rest ≠ [] := List.cons_ne_nil _ _
  have hfits : ¬ clashing.Fits := by
    intro h
    have hmem := List.mem_cons_of_mem clashing.first (List.mem_singleton_self clashing.rest[0])
    exact (h _ hmem).agrees ⟨by decide, by decide⟩
  exact ⟨by decide +kernel, htie, hfits, first_faulty_piece_is_reported htie hfits⟩

/-- Both pieces have one pitch, and the error names the second only. -/
theorem clash_is_blamed_on_the_piece : Track.parse "C4+C4-/" = .ok ⟨["C4+C4-/"]⟩ ∧
    Note.ofToken "C4+C4-/" = .error (.malformedNote "C4-/") ∧
    Note.ofToken "C4+C4-/" ≠ .error (.malformedNote "C4+C4-/") := by
  decide +kernel

end Token.Chain

end PlainScore
