import PlainScore.Proofs.Synth.Bars

/-! What the synthesizer does with the next note of a track, and how it ends.
`Pulled` lists the outcomes of one look at a track that wants notes; a mixer is never asked for
something that it refuses. -/
namespace PlainScore

namespace Audio

theorem render_of_long {p : Params} {frequency duration : Float}
    (h : sampleLimit < p.sampleCount duration) : render p frequency duration = .error .outOfRoom :=
  if_pos h

theorem render_of_short {p : Params} {frequency duration : Float}
    (h : ¬ sampleLimit < p.sampleCount duration) :
    render p frequency duration = .ok (tone p frequency duration) :=
  if_neg h

end Audio

namespace Sheet

def noteSamples (sheet : Sheet) (params : Audio.Params) (token : String) : List Sample :=
  match Note.ofToken token with
  | .ok note => Audio.tone params note.pitch.frequency
      (note.value * Float.ofNat sheet.meter.denominator * sheet.beatDuration)
  | .error _ => []

def voice (sheet : Sheet) (params : Audio.Params) (tokens : List String) : List Sample :=
  tokens.flatMap (sheet.noteSamples params)

def voices (sheet : Sheet) (params : Audio.Params) : List (List Sample) :=
  sheet.tracks.map fun t => sheet.voice params t.tokens

/-- The samples of a bar of the sheet; a bar has at least one. -/
def capacity (sheet : Sheet) (params : Audio.Params) : Nat :=
  max (params.sampleCount sheet.barDuration) 1

@[simp] theorem voice_nil (sheet : Sheet) (params : Audio.Params) : sheet.voice params [] = [] :=
  rfl

theorem voice_cons (sheet : Sheet) (params : Audio.Params) (token : String)
    (rest : List String) : sheet.voice params (token :: rest) =
      sheet.noteSamples params token ++ sheet.voice params rest :=
  List.flatMap_cons

end Sheet

namespace Synth

variable {s : Synth}

/-- The synthesizer `u` is `s` after a note of a track has gone to its mixer. -/
structure NoteTaken (s : Synth) (track : Nat) (token : String) (rest : List String)
    (u : Synth) : Prop where
  sheet : u.sheet = s.sheet
  params : u.params = s.params
  status : u.status = s.status
  exhausted : u.exhausted = s.exhausted
  left : u.left = s.left.set track rest
  totals : ∃ note, Note.ofToken token = .ok note ∧
    u.totals = s.totals.modify track (· + note.value)
  mixer_sound : u.mixer.Sound
  capacity : u.mixer.capacity = s.mixer.capacity
  lanes_length : u.mixer.lanes.length = s.mixer.lanes.length
  pending : ∀ i, u.mixer.pending i =
    if i = track then s.mixer.pending track ++ s.sheet.noteSamples s.params token
    else s.mixer.pending i

theorem NoteTaken.sound {track : Nat} {token : String} {rest : List String} {u : Synth}
    (h : NoteTaken s track token rest u) (hs : s.Sound)
    (hl : s.left.getD track [] = token :: rest) : u.Sound := by
  have hn : u.left.length = s.left.length := by rw [h.left, List.length_set]
  refine ⟨h.mixer_sound, ?_, ?_, ?_⟩
  · rw [h.lanes_length, hn, hs.lanes_length]
  · rw [h.exhausted, hn, hs.exhausted_length]
  · intro i hi
    rw [h.exhausted] at hi
    obtain ⟨he, hne⟩ := hs.exhausted_left i hi
    have hit : i ≠ track := by
      rintro rfl
      rw [hl] at he
      cases he
    refine ⟨?_, by rwa [lastTrack, hn]⟩
    rw [h.left, List.getD_eq_getElem?_getD, List.getElem?_set_ne (Ne.symm hit),
      ← List.getD_eq_getElem?_getD]
    exact he

def exhaust (s : Synth) (track : Nat) : Synth :=
  { s.write (.debug s!"No more notes in track {track}") with
    exhausted := s.exhausted.set track true }

theorem exhaust_sound (h : s.Sound) {track : Nat} (hl : s.left.getD track [] = [])
    (ht : track ≠ s.lastTrack) : (s.exhaust track).Sound := by
  refine ⟨h.mixer_sound, h.lanes_length, (List.length_set ..).trans h.exhausted_length, ?_⟩
  intro i hi
  by_cases hit : i = track
  · subst hit
    exact ⟨hl, ht⟩
  · exact h.exhausted_left i ((List.getElem?_set_ne (Ne.symm hit)).symm.trans hi)

theorem noteTaken (h : s.Sound) {track : Nat} (ht : track < s.mixer.lanes.length)
    (hf : Lane.isFull s.mixer.capacity s.mixer.lanes[track] = false) {token : String}
    {rest : List String} {note : Note} (hn : Note.ofToken token = .ok note)
    (journal : Journal) :
    NoteTaken s track token rest { s with
      left := s.left.set track rest
      totals := s.totals.modify track (· + note.value)
      mixer := { s.mixer with
        lanes := s.mixer.lanes.set track
          (Lane.push s.mixer.capacity (s.sheet.noteSamples s.params token)
            s.mixer.lanes[track]) }
      journal := journal } := by
  have hl := List.getElem?_eq_getElem ht
  have hs := h.mixer_sound.lanes_sound _ (List.getElem_mem ht)
  refine ⟨rfl, rfl, rfl, rfl, rfl, ⟨note, hn, rfl⟩,
    h.mixer_sound.setLane (Lane.push_sound hs hf), rfl, List.length_set .., ?_⟩
  intro i
  rw [Mixer.pending_setLane _ ht, Lane.pending_push hs hf, Mixer.pending_of_getElem? hl]

inductive Pulled (s : Synth) (track : Nat) : Synth → Prop where
  | ended : s.left.getD track [] = [] → track = s.lastTrack →
      Pulled s track (s.write (.debug s!"No more notes in track {track}")).serveRemainder
  | exhausted : s.left.getD track [] = [] → track ≠ s.lastTrack →
      Pulled s track ((s.exhaust track).advance (track + 1))
  | refused {token : String} {rest : List String} {e : Error} {u : Synth} :
      s.left.getD track [] = token :: rest → Note.ofToken token = .error e →
      u.status = s.status → Pulled s track (u.fail e)
  | lost {token : String} {rest : List String} {note : Note} {u : Synth} :
      s.left.getD track [] = token :: rest → Note.ofToken token = .ok note →
      sampleLimit < s.params.sampleCount (s.noteDuration note) →
      u.status = s.status → Pulled s track (u.finish (.error .outOfRoom))
  | full {token : String} {rest : List String} {u : Synth} :
      s.left.getD track [] = token :: rest → NoteTaken s track token rest u →
      u.mixer.isTrackFull track = true → Pulled s track (u.advance (track + 1))
  | wanting {token : String} {rest : List String} {u : Synth} :
      s.left.getD track [] = token :: rest → NoteTaken s track token rest u →
      u.mixer.isTrackFull track = false → Pulled s track { u with phase := .polling track }

theorem play_spec (h : s.Sound) {track : Nat} (hw : s.wants track = true)
    (ht : track < s.left.length) {token : String} {rest : List String} {note : Note}
    (hl : s.left.getD track [] = token :: rest) (hn : Note.ofToken token = .ok note)
    {u : Synth} (hu : u = { s with
      left := s.left.set track rest
      journal := s.journal.writeAll (Note.remarks token) }) :
    Pulled s track (u.play track note) := by
  subst hu
  have hd : s.noteDuration note =
      note.value * Float.ofNat s.sheet.meter.denominator * s.sheet.beatDuration := rfl
  simp only [play, write, noteDuration]
  rw [← hd]
  by_cases hc : sampleLimit < s.params.sampleCount (s.noteDuration note)
  · rw [Audio.render_of_long hc]
    exact .lost hl hn hc rfl
  · have hlt : track < s.mixer.lanes.length := by rw [h.lanes_length]; exact ht
    have hl' := List.getElem?_eq_getElem hlt
    have hs := h.mixer_sound.lanes_sound _ (List.getElem_mem hlt)
    have hf : Lane.isFull s.mixer.capacity s.mixer.lanes[track] = false := by
      rw [hs.not_full_iff, ← Mixer.pending_of_getElem? hl']
      exact ((h.wants_iff ht).mp hw).2
    have htone : Audio.tone s.params note.pitch.frequency (s.noteDuration note) =
        s.sheet.noteSamples s.params token := by
      simp only [Sheet.noteSamples, hn, noteDuration]
    have hset : (s.mixer.lanes.set track (Lane.push s.mixer.capacity
        (s.sheet.noteSamples s.params token) s.mixer.lanes[track]))[track]? =
        some (Lane.push s.mixer.capacity (s.sheet.noteSamples s.params token)
          s.mixer.lanes[track]) := by
      simp [hlt]
    rw [Audio.render_of_short hc, htone]
    simp only [Mixer.append_of_open _ hl' hf]
    split
    · rename_i hfull
      refine .full hl (noteTaken h hlt hf hn _) ?_
      rw [Mixer.isTrackFull_of_getElem? hset]
      exact hfull
    · rename_i hfull
      refine .wanting hl (noteTaken h hlt hf hn _) ?_
      rw [Mixer.isTrackFull_of_getElem? hset]
      exact Bool.not_eq_true _ ▸ hfull

theorem pull_spec (h : s.Sound) {track : Nat} (ht : track < s.left.length)
    (hw : s.wants track = true) : Pulled s track (s.pull track) := by
  unfold pull
  cases hl : s.left.getD track [] with
  | nil =>
    dsimp only
    by_cases hlast : track = s.lastTrack
    · rw [if_pos (by exact hlast)]
      exact .ended hl hlast
    · rw [if_neg (by exact hlast)]
      exact .exhausted hl hlast
  | cons token rest =>
    dsimp only
    cases hn : Note.ofToken token with
    | error e => exact .refused hl hn rfl
    | ok note => exact play_spec h hw ht hl hn rfl

/-- What is still pending makes a last bar, which may be shorter than the others. -/
theorem serveRemainder_spec (h : s.Sound) :
    (∀ row ∈ s.mixer.queues.rows, row = []) ∧ s.serveRemainder = s.conclude ∨
    (∃ row ∈ s.mixer.queues.rows, row ≠ []) ∧ ∃ u, BarTaken s u ∧ s.serveRemainder =
      { u with phase := .serving ((if s.mixer.isFull then id else Mixer.trim)
          (overlay s.mixer.queues.rows 0 s.mixer.capacity)) true } := by
  unfold serveRemainder
  cases he : s.mixer.isEmpty with
  | true => exact .inl ⟨h.mixer_sound.isEmpty_iff.mp he, rfl⟩
  | false =>
    have hrows : ∃ row ∈ s.mixer.queues.rows, row ≠ [] := by
      by_contra hn
      push Not at hn
      rw [h.mixer_sound.isEmpty_iff.mpr hn] at he
      cases he
    have hlanes : s.mixer.lanes ≠ [] := by
      rintro hl
      rw [Mixer.isEmpty, hl] at he
      cases he
    obtain ⟨m, hm, hq, hf⟩ := h.mixer_sound.forceFlush hlanes
    refine .inr ⟨hrows, { s.write (.debug "Serving the remainder of buffer") with mixer := m },
      ⟨rfl, rfl, rfl, rfl, rfl, rfl, hm, hq⟩, ?_⟩
    simp only [Bool.false_eq_true, if_false, write, hf]

end Synth

end PlainScore
