import PlainScore.Proofs.Synth.Stops

/-! How many samples the notes of a track have, and which of its notes a run comes to.
The last track is played to its end. Of any other track no more notes are taken than it needs to
cover the bar in which the last track ends. -/
namespace PlainScore

namespace Sheet

variable (sheet : Sheet) (params : Audio.Params)

def noteCount (token : String) : Nat :=
  match Note.ofToken token with
  | .ok note => params.sampleCount
      (note.value * Float.ofNat sheet.meter.denominator * sheet.beatDuration)
  | .error _ => 0

def count (tokens : List String) : Nat := (tokens.map (sheet.noteCount params)).sum

/-- The tokens up to the one with which they have so many samples; all, if they never have. -/
def reaching : Nat → List String → List String
  | _, [] => []
  | n, token :: rest =>
    if n = 0 then [] else token :: reaching (n - sheet.noteCount params token) rest

def lastBarEnd : Nat := (sheet.wholeBars params + 1) * sheet.capacity params

/-- The tokens of a track that a run takes, if it ends well. -/
def taken (track : Nat) : List String :=
  if track + 1 = sheet.tracks.length then sheet.tokensOf track
  else sheet.reaching params (sheet.lastBarEnd params) (sheet.tokensOf track)

def takenTracks : List Track :=
  (List.range sheet.tracks.length).map fun i => ⟨sheet.taken params i⟩

variable {sheet params}

theorem length_noteSamples (token : String) :
    (sheet.noteSamples params token).length = sheet.noteCount params token := by
  rw [noteSamples, noteCount]
  cases Note.ofToken token with
  | error e => rfl
  | ok note => simp [Audio.tone]

theorem length_voice (tokens : List String) :
    (sheet.voice params tokens).length = sheet.count params tokens := by
  rw [voice, List.length_flatMap, count]
  congr 1
  exact List.map_congr_left fun token _ => length_noteSamples token

@[simp] theorem count_nil : sheet.count params [] = 0 := rfl

theorem count_cons (token : String) (rest : List String) :
    sheet.count params (token :: rest) =
      sheet.noteCount params token + sheet.count params rest := by
  rw [count, List.map_cons, List.sum_cons, count]

theorem count_append (xs ys : List String) :
    sheet.count params (xs ++ ys) = sheet.count params xs + sheet.count params ys := by
  rw [count, List.map_append, List.sum_append, count, count]

theorem wholeBars_eq_count : sheet.wholeBars params =
    sheet.count params (sheet.tokensOf (sheet.tracks.length - 1)) / sheet.capacity params := by
  rw [wholeBars, lastVoice, getD_voices, length_voice]

/-- Tokens are those up to a count of samples when they have it only with the last of them, and
when none is left if they do not have it. -/
theorem reaching_eq {n : Nat} {before rest : List String}
    (hneeded : ∀ first token, before = first ++ [token] → sheet.count params first < n)
    (hreached : rest = [] ∨ n ≤ sheet.count params before) :
    sheet.reaching params n (before ++ rest) = before := by
  induction before generalizing n with
  | nil =>
    cases rest with
    | nil => rfl
    | cons token rest =>
      obtain rfl : n = 0 := by simpa using hreached
      rfl
  | cons token before ih =>
    have hpos : 0 < n := by
      have hsplit := List.dropLast_concat_getLast (List.cons_ne_nil token before)
      exact Nat.zero_lt_of_lt (hneeded _ _ hsplit.symm)
    rw [List.cons_append, reaching, if_neg (Nat.ne_of_gt hpos)]
    congr 1
    refine ih ?_ ?_
    · intro first last he
      have hlt := hneeded (token :: first) last (by rw [he]; rfl)
      rw [count_cons] at hlt
      omega
    · refine hreached.imp_right fun hle => ?_
      rw [count_cons] at hle
      omega

theorem takenTracks_eq_tracks (h : ∀ i < sheet.tracks.length,
    sheet.taken params i = sheet.tokensOf i) : sheet.takenTracks params = sheet.tracks := by
  apply List.ext_getElem
  · simp [takenTracks]
  · intro i hi hi'
    simp only [takenTracks, List.getElem_map, List.getElem_range, h i hi']
    simp [tokensOf, hi']

end Sheet

end PlainScore
