import PlainScore.Proofs.Synth.Performance

/-! Only what remains at the end of a run can be less than a bar.
A run that ends with an error, an interrupt among others, has sent whole bars alone: the bar that
is being filled is dropped. A run that finds itself interrupted at its first note has sent
nothing. -/
namespace PlainScore

def WholeBars (count : Nat) (sent : List Chunk) : Prop :=
  ∀ bar, .samples bar ∈ sent → bar.length = count

theorem WholeBars.snoc {count : Nat} {sent : List Chunk} (h : WholeBars count sent)
    {bar : List Sample} (hb : bar.length = count) :
    WholeBars count (sent ++ [.samples bar]) := by
  intro b hm
  rcases List.mem_append.mp hm with hm | hm
  · exact h b hm
  · cases List.mem_singleton.mp hm
    exact hb

theorem WholeBars.marked {count : Nat} {sent : List Chunk} (h : WholeBars count sent) :
    WholeBars count (sent ++ [.endOfStream]) := by
  intro b hm
  rcases List.mem_append.mp hm with hm | hm
  · exact h b hm
  · cases List.mem_singleton.mp hm

namespace Synth

variable {s t : Synth} {count : Nat} {sent : List Chunk}

/-- Whatever was sent until now is whole bars, unless the run ends well. -/
def Sized (count : Nat) (sent : List Chunk) (s : Synth) : Prop :=
  match s.phase with
  | .ready | .polling _ => s.mixer.capacity = count ∧ WholeBars count sent
  | .serving bar last =>
    (last = false → s.mixer.capacity = count ∧ bar.length = count) ∧ WholeBars count sent
  | .ending r | .marking r | .leaving r | .done r => ∀ e, r = .error e → WholeBars count sent

def Announced (s : Synth) : Prop := s.phase = .ready ∨ s.status.started = true

structure Tidy (count : Nat) (sent : List Chunk) (s : Synth) : Prop where
  announced : s.Announced
  sized : s.Sized count sent

theorem tidy_finish (hs : s.status.started = true) (hw : WholeBars count sent) (r : Result) :
    (s.finish r).Tidy count sent :=
  ⟨.inr hs, fun _ _ => hw⟩

theorem tidy_conclude (hs : s.status.started = true) : s.conclude.Tidy count sent :=
  ⟨.inr hs, fun _ he => by cases he⟩

theorem advance_tidy (h : s.Sound) (hn : s.left ≠ []) {start : Nat}
    (hbefore : ∀ i < start, s.wants i = false) (hs : s.status.started = true)
    (hc : s.mixer.capacity = count) (hw : WholeBars count sent) :
    (s.advance start).Tidy count sent := by
  rcases advance_spec hbefore with ⟨track, -, -, -, ha⟩ | ⟨hall, ha⟩
  · rw [ha]
    exact ⟨.inr hs, hc, hw⟩
  · obtain ⟨v, hv, hclose⟩ := closeBar_spec h hn hall
    have hlen : (overlay s.mixer.queues.rows 0 s.mixer.capacity).length = count := by
      rw [overlay, List.length_map, List.length_range, hc]
    rw [ha, hclose]
    exact ⟨.inr (hv.status ▸ hs), fun _ => ⟨hv.capacity.trans hc, hlen⟩, hw⟩

theorem serveRemainder_tidy (h : s.Sound) (hs : s.status.started = true)
    (hw : WholeBars count sent) : s.serveRemainder.Tidy count sent := by
  rcases serveRemainder_spec h with ⟨-, hr⟩ | ⟨-, v, hv, hr⟩
  · rw [hr]
    exact tidy_conclude hs
  · rw [hr]
    refine ⟨.inr (hv.status ▸ hs), ?_, hw⟩
    intro hl
    cases hl

theorem pull_tidy (h : s.Sound) {track : Nat} (ht : track < s.left.length)
    (hwants : s.wants track = true) (hbefore : ∀ i < track, s.wants i = false)
    (hs : s.status.started = true) (hc : s.mixer.capacity = count)
    (hw : WholeBars count sent) : (s.pull track).Tidy count sent := by
  have hn : s.left ≠ [] := List.ne_nil_of_length_pos (Nat.zero_lt_of_lt ht)
  have hp := pull_spec h ht hwants
  generalize s.pull track = v at hp ⊢
  cases hp with
  | ended => exact serveRemainder_tidy (h.write _) hs hw
  | exhausted hl hlast =>
    exact advance_tidy (exhaust_sound h hl hlast) hn (before_exhausted hbefore) hs hc hw
  | refused _ _ hstatus => exact tidy_finish (hstatus ▸ hs) hw _
  | lost _ _ _ hstatus => exact tidy_finish (hstatus ▸ hs) hw _
  | full hl hu hf =>
    exact advance_tidy (hu.sound h hl) (hu.left_ne_nil hn)
      (hu.before_full h hl hbefore hwants hf) (hu.status ▸ hs) (hu.capacity.trans hc) hw
  | wanting hl hu hf => exact ⟨.inr (hu.status ▸ hs), hu.capacity.trans hc, hw⟩

theorem start_tidy (h : s.Sound) (hc : s.mixer.capacity = count) (hw : WholeBars count sent) :
    s.start.Tidy count sent := by
  have hs := h.started
  unfold start
  dsimp only
  split
  · exact serveRemainder_tidy (hs.write _) rfl hw
  · rename_i hn
    exact advance_tidy (hs.write _) hn (fun i hi => absurd hi (Nat.not_lt_zero i)) rfl hc hw

/-- The step lemma: what is sent while there is a receiver is whole, the remainder apart. -/
theorem Tidy.step {taken : List Chunk} {output : Handoff}
    (h : s.Tidy count (taken ++ output.slot.toList)) (hv : s.Valid)
    (hr : output.receiver = true) (hc : s.canStep output = true) (interrupted : Bool) :
    (s.step interrupted output).1.Tidy count
      (taken ++ (s.step interrupted output).2.slot.toList) := by
  have hsized := h.sized
  have started : s.phase ≠ .ready → s.status.started = true := fun hne =>
    h.announced.resolve_left hne
  rw [Sized] at hsized
  rw [Valid] at hv
  rw [canStep] at hc
  have slot_none : output.canSend = true → output.slot = none := by
    intro hs
    rcases Handoff.canSend_cases hs with hn | ⟨-, hn⟩
    · cases hr.symm.trans hn
    · exact hn
  cases hp : s.phase with
  | ready =>
    rw [hp] at hv hsized
    simp only [Synth.step, hp]
    exact start_tidy hv hsized.1 hsized.2
  | polling track =>
    rw [hp] at hv hsized
    obtain ⟨hs, ht, hw, hbefore⟩ := hv
    have hstarted := started (by simp [hp])
    simp only [Synth.step, hp]
    cases interrupted with
    | true => exact tidy_finish hstarted hsized.2 _
    | false => exact pull_tidy hs ht hw hbefore hstarted hsized.1 hsized.2
  | serving bar last =>
    rw [hp] at hv hc hsized
    have hstarted := started (by simp [hp])
    rw [step_serving hp hc, if_pos hr]
    rw [slot_none hc, Option.toList_none, List.append_nil] at hsized
    cases last with
    | true =>
      exact tidy_conclude hstarted
    | false =>
      obtain ⟨hcap, hlen⟩ := hsized.1 rfl
      exact advance_tidy hv.1 hv.2 (fun i hi => absurd hi (Nat.not_lt_zero i)) hstarted hcap
        (hsized.2.snoc hlen)
  | ending result =>
    rw [hp] at hc hsized
    rw [step_ending hp hc, if_pos hr]
    rw [slot_none hc, Option.toList_none, List.append_nil] at hsized
    exact ⟨.inr (started (by simp [hp])), fun e he => (hsized e he).marked⟩
  | marking result =>
    rw [hp] at hsized
    simp only [Synth.step, hp]
    exact ⟨.inr (started (by simp [hp])), hsized⟩
  | leaving result =>
    rw [hp] at hsized
    simp only [Synth.step, hp]
    exact ⟨.inr (started (by simp [hp])), hsized⟩
  | done result =>
    rw [hp] at hc
    cases hc

theorem new_tidy {sheet : Sheet} {params : Audio.Params} (h : new sheet params = .ok s) :
    s.Tidy (sheet.capacity params) [] := by
  obtain ⟨rfl, -⟩ := new_sound h
  exact ⟨.inl rfl, rfl, by simp [WholeBars]⟩

theorem Tidy.whole_of_error {f : Failure} (h : s.Tidy count sent)
    (hr : s.result? = some (.error f)) : WholeBars count sent := by
  have hs := h.sized
  rw [Sized, phase_of_result hr] at hs
  exact hs f rfl

/-! ### Interrupted before the first note -/

/-- Until its first note is asked for, and from there on if the flag was set by then, a run has
nothing to send but the end marker. -/
def Mute (s : Synth) : Prop :=
  match s.phase with
  | .ready => ∃ track, s.start.phase = .polling track
  | .polling _ => True
  | .serving _ _ => False
  | .ending r | .marking r | .leaving r | .done r => r = .error (.reported .interrupted)

theorem new_mute {sheet : Sheet} {params : Audio.Params} (h : new sheet params = .ok s)
    (hn : sheet.tracks ≠ []) : s.Mute := by
  obtain ⟨rfl, hs⟩ := new_sound h
  have hl : (fresh sheet params).left ≠ [] := by
    rw [fresh, ne_eq, List.map_eq_nil_iff]
    exact hn
  have hlt : 0 < (fresh sheet params).left.length := List.length_pos_iff.mpr hl
  have hwants : (fresh sheet params).wants 0 = true := by
    rw [hs.wants_iff hlt, fresh_pending]
    refine ⟨?_, hs.mixer_sound.capacity_pos⟩
    rw [fresh, List.getElem?_replicate, if_pos (List.length_pos_iff.mpr hn)]
  refine ⟨0, ?_⟩
  rw [start]
  dsimp only
  rw [if_neg (by exact hl), advance_of_wants (by exact hlt) (by exact hwants)]

/-- The flag is looked at before every note, so that a run that is still mute stays so. -/
theorem Mute.step {output : Handoff} (h : s.Mute) (hr : output.receiver = true)
    (hc : s.canStep output = true) :
    (s.step true output).1.Mute ∧ ∀ bar, (s.step true output).2.slot = some (.samples bar) →
      output.slot = some (.samples bar) := by
  rw [Mute] at h
  rw [canStep] at hc
  cases hp : s.phase with
  | ready =>
    rw [hp] at h
    obtain ⟨track, ht⟩ := h
    simp only [Synth.step, hp]
    refine ⟨?_, fun _ hs => hs⟩
    rw [Mute, ht]
    trivial
  | polling track =>
    simp only [Synth.step, hp]
    exact ⟨rfl, fun _ hs => hs⟩
  | serving bar last =>
    rw [hp] at h
    cases h
  | ending result =>
    rw [hp] at h hc
    rw [step_ending hp hc, if_pos hr]
    exact ⟨h, fun _ hs => by cases hs⟩
  | marking result =>
    rw [hp] at h
    simp only [Synth.step, hp]
    exact ⟨h, fun _ hs => hs⟩
  | leaving result =>
    rw [hp] at h
    simp only [Synth.step, hp]
    exact ⟨h, fun _ hs => hs⟩
  | done result =>
    rw [hp] at hc
    cases hc

theorem Mute.result {result : Result} (h : s.Mute) (hr : s.result? = some result) :
    result = .error (.reported .interrupted) := by
  rw [Mute, phase_of_result hr] at h
  exact h

end Synth

end PlainScore
