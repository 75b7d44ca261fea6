import PlainScore.Proofs.Session.Progress
import PlainScore.Proofs.Synth.Stops

/-! A synthesizer and a listener who takes everything.
What the listener has heard, what is in the output and what the synthesizer still has to send
make up the performance of the sheet, or a part of it that an interrupt leaves. -/
namespace PlainScore

namespace Session

structure Hears (own : Performance) (s : Session) (l : Listener) (synth : Synth) : Prop where
  consumer : s.consumer = .listener l
  producer : s.producer = .lone synth
  unlimited : l.limit = none
  follows : synth.Follows own s.interrupted l.heard s.output
  ended : l.gone = true → s.output.slot = none ∧ synth.result?.isSome = true

variable {own : Performance} {s : Session} {l : Listener} {synth : Synth}

theorem consume_preserves_hears (h : Hears own s l synth) (hi : s.Invariant)
    (hc : l.canStep s.output = true) :
    Hears own (next s .consume) (l.step s.output).1 synth := by
  have hm := Listener.step_moved hc
  have hlinked := hi.lone h.producer
  rw [next_consume h.consumer]
  generalize l.step s.output = after at hm ⊢
  obtain ⟨k, out⟩ := after
  dsimp only at hm ⊢
  cases hm with
  | left _ hs => simp [Listener.satisfied, h.unlimited] at hs
  | heard hg _ hslot =>
    exact ⟨rfl, h.producer, h.unlimited, h.follows.take hslot,
      fun hgone => absurd (hg.symm.trans hgone) Bool.false_ne_true⟩
  | ended _ _ hslot hd =>
    refine ⟨rfl, h.producer, h.unlimited, h.follows.of_slot hslot.symm, fun _ => ⟨rfl, ?_⟩⟩
    rw [← Option.not_isNone, ← hlinked.sender, hd]
    rfl

theorem Hears.listening (h : Hears own s l synth) (hi : s.Invariant)
    (hc : synth.canStep s.output = true) : l.gone = false ∧ s.output.receiver = true := by
  have hgone : l.gone = false := by
    rw [← Bool.not_eq_true]
    intro hg
    obtain ⟨result, hr⟩ := Option.isSome_iff_exists.mp (h.ended hg).2
    rw [Synth.cannotStep_of_done (Synth.phase_of_result hr)] at hc
    cases hc
  refine ⟨hgone, ?_⟩
  rw [hi.receiver, h.consumer, Consumer.listens, hgone]
  rfl

theorem next_produce (h : s.producer = .lone synth) : next s .produce = { s with
    producer := .lone (synth.step s.interrupted s.output).1
    output := (synth.step s.interrupted s.output).2 } := by
  simp only [next, h, Producer.step]

theorem produce_preserves_hears (h : Hears own s l synth) (hi : s.Invariant)
    (hc : synth.canStep s.output = true) :
    Hears own (next s .produce) l (synth.step s.interrupted s.output).1 := by
  obtain ⟨hgone, hreceiver⟩ := h.listening hi hc
  rw [next_produce h.producer]
  exact ⟨h.consumer, rfl, h.unlimited, h.follows.step hreceiver hc,
    fun hg => absurd (hgone.symm.trans hg) Bool.false_ne_true⟩

theorem step_preserves_hears (h : Hears own s l synth) (hi : s.Invariant) {e : Event}
    (he : Enabled s e) : ∃ l synth, Hears own (next s e) l synth := by
  cases e with
  | consume =>
    have hc := canStep_of_enabled h.consumer he
    exact ⟨_, _, consume_preserves_hears h hi hc⟩
  | produce =>
    have hc : synth.canStep s.output = true := by
      simpa only [Enabled, h.producer, Producer.canStep] using he
    exact ⟨_, _, produce_preserves_hears h hi hc⟩
  | produceChild i => simp [Enabled, h.producer] at he
  | interrupt =>
    exact ⟨_, _, h.consumer, h.producer, h.unlimited, h.follows.interrupt, h.ended⟩

theorem execution_preserves_hears {t : Session} {es : List Event} (he : Execution s es t)
    (h : Hears own s l synth) (hi : s.Invariant) : ∃ l synth, Hears own t l synth := by
  refine execution_preserves (P := fun s => ∃ l synth, Hears own s l synth) ?_ he ⟨l, synth, h⟩ hi
  rintro s e ⟨l, synth, h⟩ hi he
  exact step_preserves_hears h hi he

theorem ofSheet_hears {sheet : Sheet} {params : Audio.Params}
    (hp : sheet.Performs params own) {start : Session}
    (h : ofSheet sheet params (.listener (.new none)) = .ok start) :
    ∃ l synth, Hears own start l synth := by
  obtain ⟨synth, hn, rfl⟩ := ofSheet_lone h
  exact ⟨_, _, rfl, rfl, rfl, Synth.follows_new hp hn, fun hg => by cases hg⟩

theorem Hears.heard_begins (h : Hears own s l synth) :
    ∃ p, own.Allows s.interrupted p ∧ l.heard <+: p.chunks := by
  obtain ⟨p, ha, rest, -, he⟩ := h.follows
  rw [List.append_assoc] at he
  exact ⟨p, ha, he ▸ List.prefix_append _ _⟩

theorem Hears.heard_all (h : Hears own s l synth) (hi : s.Invariant) (hq : s.Quiet) :
    ∃ p, own.Allows s.interrupted p ∧ l.heard = p.chunks ∧ l.gone = true ∧
      synth.result? = some p.result := by
  have hgone : l.gone = true := by
    have := (hq.ended hi).2
    rwa [h.consumer] at this
  obtain ⟨hslot, hover⟩ := h.ended hgone
  obtain ⟨p, ha, hs, he⟩ :=
    h.follows.all_sent (Synth.hasEnded_of_marked (Synth.marked_of_result hover))
  obtain ⟨result, hr⟩ := Option.isSome_iff_exists.mp hover
  rw [hslot] at he
  refine ⟨p, ha, by simpa using he, hgone, ?_⟩
  rw [hr, hs.result_of_done (Synth.phase_of_result hr)]

/-- A listener who takes everything hears a performance chunk by chunk, and has heard all of it
when no thread can move any more. -/
def Delivers (p : Performance) (s : Session) : Prop :=
  ∃ l synth, s.consumer = .listener l ∧ s.producer = .lone synth ∧ l.heard <+: p.chunks ∧
    (s.Quiet → l.heard = p.chunks ∧ synth.result? = some p.result)

/-- Whatever a sheet performs by itself, a listener who takes everything hears, in whatever order
the threads move. -/
theorem listener_hears_performance {sheet : Sheet} {params : Audio.Params}
    (hp : sheet.Performs params own) :
    ∃ start, ofSheet sheet params (.listener (.new none)) = .ok start ∧
      ∀ es s, Execution start es s → .interrupt ∉ es →
        threadSteps es ≤ start.weight ∧ s.Delivers own := by
  have ⟨synth, hs, _⟩ := hp
  have hstart : ofSheet sheet params (.listener (.new none)) =
      .ok ⟨false, {}, .lone synth, .listener (.new none)⟩ := by
    rw [ofSheet, hs]
    rfl
  refine ⟨_, hstart, ?_⟩
  intro es s he hu
  have hinv := ofSheet_invariant hstart rfl rfl
  have hw := execution_lowers_weight he hinv
  obtain ⟨_, _, hh⟩ := ofSheet_hears hp hstart
  obtain ⟨l, synth, h⟩ := execution_preserves_hears he hh hinv
  have hflag := uninterrupted_of_listener he ⟨_, rfl⟩ hu
  refine ⟨by omega, l, synth, h.consumer, h.producer, ?_, ?_⟩
  · obtain ⟨p, ha, hpre⟩ := h.heard_begins
    rw [hflag] at ha
    cases ha.eq_of_uninterrupted
    exact hpre
  · intro hq
    obtain ⟨p, ha, heq, -, hr⟩ := h.heard_all (execution_preserves_invariant he hinv) hq
    rw [hflag] at ha
    cases ha.eq_of_uninterrupted
    exact ⟨heq, hr⟩

/-- A sheet with tracks whose notes can all be evaluated and held in memory, without an
interrupt. In whatever order the threads move, within so many steps the listener hears the
overlay of the voices, bar by bar, then what is left of them, and the end marker; and the
synthesizer ends well. -/
theorem listener_hears_overlay {sheet : Sheet} {params : Audio.Params}
    (hroom : sheet.capacity params ≤ sampleLimit) (hn : sheet.tracks ≠ [])
    (hplay : ∀ t ∈ sheet.tracks, ∀ token ∈ t.tokens, sheet.Playable params token) :
    ∃ start bars report, ofSheet sheet params (.listener (.new none)) = .ok start ∧
      sheet.Overlaid params bars ∧
      ∀ es s, Execution start es s → .interrupt ∉ es →
        threadSteps es ≤ start.weight ∧ s.Delivers ⟨bars, .ok report⟩ := by
  obtain ⟨report, hp⟩ := Sheet.performs_overlay hroom hn hplay
  obtain ⟨start, hstart, hrun⟩ := listener_hears_performance hp
  exact ⟨start, _, report, hstart, sheet.overlaid_bars params, hrun⟩

/-- A whole note and a half note over a whole note and a quarter, in common time: one bar is whole,
and both tracks go on behind it. -/
theorem two_tracks_are_overlaid :
    ∃ start bars report,
      ofSheet ⟨120, ⟨4, 4⟩, [⟨["C4---", "D4-"]⟩, ⟨["G3---", "A3"]⟩]⟩ {} (.listener (.new none)) =
        .ok start ∧
      Sheet.Overlaid ⟨120, ⟨4, 4⟩, [⟨["C4---", "D4-"]⟩, ⟨["G3---", "A3"]⟩]⟩ {} bars ∧
      ∀ es s, Execution start es s → .interrupt ∉ es →
        threadSteps es ≤ start.weight ∧ s.Delivers ⟨bars, .ok report⟩ := by
  refine listener_hears_overlay (by decide +kernel) (by simp) ?_
  simp only [List.mem_cons, List.not_mem_nil, or_false, forall_eq_or_imp, forall_eq]
  exact ⟨⟨⟨⟨.tone "C4" 60, 1⟩, by decide +kernel, by decide +kernel⟩,
      ⟨⟨.tone "D4" 62, 0.5⟩, by decide +kernel, by decide +kernel⟩⟩,
    ⟨⟨.tone "G3" 55, 1⟩, by decide +kernel, by decide +kernel⟩,
    ⟨⟨.tone "A3" 57, 0.25⟩, by decide +kernel, by decide +kernel⟩⟩

/-- A sheet with tracks, whatever tokens it has, without an interrupt. In whatever order the
threads move, what is heard and how the run ends is settled by the track that stops first. -/
theorem listener_hears_to_first_stop {sheet : Sheet} {params : Audio.Params}
    (hroom : sheet.capacity params ≤ sampleLimit) (hn : sheet.tracks ≠ []) :
    ∃ start own, ofSheet sheet params (.listener (.new none)) = .ok start ∧
      sheet.Ends params own ∧
      ∀ es s, Execution start es s → .interrupt ∉ es →
        threadSteps es ≤ start.weight ∧ s.Delivers own := by
  obtain ⟨own, hp, hends⟩ := Sheet.performs_to_first_stop hroom hn
  obtain ⟨start, hstart, hrun⟩ := listener_hears_performance hp
  exact ⟨start, own, hstart, hends, hrun⟩

/-- Two tracks with a token that cannot be evaluated, in the second bar of the first and in the
first bar of the other. -/
theorem failing_tracks_are_heard_to_first_stop :
    ∃ start own, ofSheet ⟨120, ⟨4, 4⟩, [⟨["C4---", "E4-/"]⟩, ⟨["G3", "C4+D4"]⟩]⟩ {}
        (.listener (.new none)) = .ok start ∧
      Sheet.Ends ⟨120, ⟨4, 4⟩, [⟨["C4---", "E4-/"]⟩, ⟨["G3", "C4+D4"]⟩]⟩ {} own ∧
      ∀ es s, Execution start es s → .interrupt ∉ es →
        threadSteps es ≤ start.weight ∧ s.Delivers own :=
  listener_hears_to_first_stop (by decide +kernel) (by simp)

end Session

end PlainScore
