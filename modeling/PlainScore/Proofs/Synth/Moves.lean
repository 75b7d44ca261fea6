import PlainScore.Proofs.Handoff
import PlainScore.Synth

/-! What a single step of a synthesizer can be.
`Moved` lists the kinds of steps with all that other threads can see of them. The work between
two bars is one kind: it neither touches the output nor the finished flag. -/
namespace PlainScore

namespace Synth

variable {s t : Synth}

/-- The end marker was sent, or found nobody to take it. -/
def hasEnded (s : Synth) : Bool :=
  match s.phase with
  | .marking _ | .leaving _ | .done _ => true
  | _ => false

def hasMarked (s : Synth) : Bool :=
  match s.phase with
  | .leaving _ | .done _ => true
  | _ => false

theorem hasEnded_of_marked (h : s.hasMarked = true) : s.hasEnded = true := by
  rw [hasMarked] at h
  rw [hasEnded]
  split at h <;> simp_all

theorem not_marked_of_not_ended (h : s.hasEnded = false) : s.hasMarked = false := by
  rw [← Bool.not_eq_true] at h ⊢
  exact fun hm => h (hasEnded_of_marked hm)

theorem marked_of_result (h : s.result?.isSome = true) : s.hasMarked = true := by
  rw [result?] at h
  rw [hasMarked]
  split at h <;> simp_all

theorem no_result_of_not_ended (h : s.hasEnded = false) : s.result? = none := by
  rw [← Option.not_isSome_iff_eq_none]
  intro hr
  rw [hasEnded_of_marked (marked_of_result hr)] at h
  cases h

theorem phase_of_result {result : Result} (h : s.result? = some result) :
    s.phase = .done result := by
  rw [result?] at h
  split at h
  · rename_i hp
    cases h
    exact hp
  · cases h

theorem done_of_cannotStep (h : s.canStep {} = false) : ∃ result, s.phase = .done result := by
  rw [canStep] at h
  cases hp : s.phase with
  | done result => exact ⟨result, rfl⟩
  | _ => simp [hp, Handoff.canSend] at h

theorem cannotStep_of_done {result : Result} (h : s.phase = .done result) (output : Handoff) :
    s.canStep output = false := by
  rw [canStep, h]

/-- Only the output can keep a run waiting, and only before the end marker. -/
theorem canStep_of_free {output : Handoff} (hr : s.result? = none)
    (hf : output.slot = none ∨ output.receiver = false ∨ s.hasEnded = true) :
    s.canStep output = true := by
  rw [result?] at hr
  rw [canStep, Handoff.canSend]
  rw [hasEnded] at hf
  split at hr <;> split <;> simp_all

structure Goes (s t : Synth) : Prop where
  not_ended : t.hasEnded = false
  finished : t.status.finished = s.status.finished

theorem goes_fail (s : Synth) (e : Error) : Goes s (s.fail e) := ⟨rfl, rfl⟩

theorem goes_conclude (s : Synth) : Goes s s.conclude := ⟨rfl, rfl⟩

theorem goes_serveRemainder (s : Synth) : Goes s s.serveRemainder := by
  unfold serveRemainder
  split
  · exact goes_conclude s
  · dsimp only
    split <;> exact ⟨rfl, rfl⟩

theorem goes_closeBar (s : Synth) : Goes s s.closeBar := by
  unfold closeBar
  split
  · exact goes_fail s _
  · dsimp only
    split <;> exact ⟨rfl, rfl⟩

theorem goes_advance (s : Synth) (start : Nat) : Goes s (s.advance start) := by
  unfold advance
  split
  · exact ⟨rfl, rfl⟩
  · exact goes_closeBar s

theorem goes_play (s : Synth) (track : Nat) (note : Note) : Goes s (s.play track note) := by
  unfold play
  dsimp only
  split
  · exact ⟨rfl, rfl⟩
  · split
    · exact ⟨rfl, rfl⟩
    · split
      · have h := goes_advance { s with
          totals := s.totals.modify track (· + note.value)
          journal := s.journal.write (noteRemark note track)
          mixer := ‹Mixer› } (track + 1)
        exact ⟨h.not_ended, h.finished⟩
      · exact ⟨rfl, rfl⟩

theorem goes_pull (s : Synth) (track : Nat) : Goes s (s.pull track) := by
  unfold pull
  split
  · dsimp only
    split
    · have h := goes_serveRemainder (s.write (.debug s!"No more notes in track {track}"))
      exact ⟨h.not_ended, h.finished⟩
    · have h := goes_advance { s.write (.debug s!"No more notes in track {track}") with
        exhausted := s.exhausted.set track true } (track + 1)
      exact ⟨h.not_ended, h.finished⟩
  · dsimp only
    split
    · exact ⟨rfl, rfl⟩
    · exact ⟨(goes_play _ _ _).not_ended, (goes_play _ _ _).finished⟩

theorem goes_start (s : Synth) : Goes s s.start := by
  unfold start
  dsimp only
  split
  · exact ⟨(goes_serveRemainder _).not_ended, (goes_serveRemainder _).finished⟩
  · exact ⟨(goes_advance _ _).not_ended, (goes_advance _ _).finished⟩

theorem step_serving {bar : List Sample} {last : Bool} {output : Handoff}
    (hp : s.phase = .serving bar last) (hc : output.canSend = true) (interrupted : Bool) :
    s.step interrupted output =
      if output.receiver then
        (if last then s.conclude else s.advance 0, { output with slot := some (.samples bar) })
      else (s.fail (.closed .synthesizerOutput), output) := by
  simp only [step, hp]
  rcases Handoff.canSend_cases hc with hr | ⟨hr, hs⟩
  · simp only [Handoff.trySend_closed _ hr, hr, Bool.false_eq_true, if_false]
  · simp only [Handoff.trySend_sent _ hr hs, hr, if_true]

theorem step_ending {result : Result} {output : Handoff} (hp : s.phase = .ending result)
    (hc : output.canSend = true) (interrupted : Bool) :
    s.step interrupted output =
      if output.receiver then
        ({ s with phase := .marking result }, { output with slot := some .endOfStream })
      else
        ({ s.write (.debug "End of stream not delivered, receiver is gone") with
            phase := .marking result }, output) := by
  simp only [step, hp]
  rcases Handoff.canSend_cases hc with hr | ⟨hr, hs⟩
  · simp only [Handoff.trySend_closed _ hr, hr, Bool.false_eq_true, if_false]
  · simp only [Handoff.trySend_sent _ hr hs, hr, if_true]

/-- The kinds of steps. A step that does not depend on the flag or on the other end is the one
that the synthesizer makes by itself, at an empty output and without an interrupt. -/
inductive Moved (s : Synth) (interrupted : Bool) (output : Handoff) : Synth → Handoff → Prop where
  | worked {t : Synth} : s.hasEnded = false → Goes s t → s.step false {} = (t, {}) →
      Moved s interrupted output t output
  | stopped {track : Nat} : s.phase = .polling track → interrupted = true →
      Moved s interrupted output (s.fail .interrupted) output
  | served {bar : List Sample} {last : Bool} {t : Synth} : s.phase = .serving bar last →
      output.receiver = true → output.slot = none → Goes s t →
      s.step false {} = (t, { slot := some (.samples bar) }) →
      Moved s interrupted output t { output with slot := some (.samples bar) }
  | refused {bar : List Sample} {last : Bool} : s.phase = .serving bar last →
      output.receiver = false →
      Moved s interrupted output (s.fail (.closed .synthesizerOutput)) output
  | ended {result : Result} : s.phase = .ending result →
      output.receiver = true → output.slot = none →
      Moved s interrupted output { s with phase := .marking result }
        { output with slot := some .endOfStream }
  | unheard {result : Result} : s.phase = .ending result → output.receiver = false →
      Moved s interrupted output
        { s.write (.debug "End of stream not delivered, receiver is gone") with
          phase := .marking result } output
  | marked {result : Result} : s.phase = .marking result →
      Moved s interrupted output
        { s with status := { s.status with finished := true }, phase := .leaving result } output
  | left {result : Result} : s.phase = .leaving result →
      Moved s interrupted output { s with phase := .done result } output.dropSender

theorem step_moved {output : Handoff} (hc : s.canStep output = true) (interrupted : Bool) :
    Moved s interrupted output (s.step interrupted output).1 (s.step interrupted output).2 := by
  rw [canStep] at hc
  have hopen : Handoff.canSend {} = true := rfl
  cases hp : s.phase with
  | ready =>
    simp only [step, hp]
    exact .worked (by rw [hasEnded, hp]) (goes_start s) (by simp only [step, hp])
  | polling track =>
    simp only [step, hp]
    cases interrupted with
    | true => exact .stopped hp rfl
    | false =>
      exact .worked (by rw [hasEnded, hp]) (goes_pull s track)
        (by simp only [step, hp, Bool.false_eq_true, if_false])
  | serving bar last =>
    rw [hp] at hc
    rw [step_serving hp hc]
    rcases Handoff.canSend_cases hc with hr | ⟨hr, hs⟩
    · rw [if_neg (by rw [hr]; exact Bool.false_ne_true)]
      exact .refused hp hr
    · rw [if_pos hr]
      refine .served hp hr hs ?_ (by rw [step_serving hp hopen]; rfl)
      split
      · exact goes_conclude s
      · exact goes_advance s 0
  | ending result =>
    rw [hp] at hc
    rw [step_ending hp hc]
    rcases Handoff.canSend_cases hc with hr | ⟨hr, hs⟩
    · rw [if_neg (by rw [hr]; exact Bool.false_ne_true)]
      exact .unheard hp hr
    · rw [if_pos hr]
      exact .ended hp hr hs
  | marking result =>
    simp only [step, hp]
    exact .marked hp
  | leaving result =>
    simp only [step, hp]
    exact .left hp
  | done result =>
    rw [hp] at hc
    cases hc

end Synth

end PlainScore
