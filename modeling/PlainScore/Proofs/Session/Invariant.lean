import PlainScore.Proofs.Relay.Invariant
import PlainScore.Proofs.Session.Consumers

/-! What holds of all threads together.
The two ends of the output tell where their threads are: the receiving end is there until the
consumer hangs up, the sending end until the producer's thread is over. -/
namespace PlainScore

theorem Synth.step_receiver {s : Synth} {output : Handoff} (hc : s.canStep output = true)
    (interrupted : Bool) : (s.step interrupted output).2.receiver = output.receiver := by
  have hm := Synth.step_moved hc interrupted
  generalize s.step interrupted output = next at hm ⊢
  obtain ⟨t, out⟩ := next
  dsimp only at hm
  cases hm <;> rfl

namespace Relay

variable {r : Relay} {output : Handoff}

structure Linked (r : Relay) (output : Handoff) : Prop where
  invariant : r.Invariant
  sender : output.sender = r.result?.isNone

theorem Linked.step (h : r.Linked output) (hc : r.canStep output = true) (interrupted : Bool) :
    (r.step interrupted output).1.Linked (r.step interrupted output).2 := by
  refine ⟨step_preserves_invariant h.invariant hc interrupted, ?_⟩
  have hs := h.sender
  rw [result?] at hs
  have hm := step_moved hc interrupted
  generalize r.step interrupted output = next at hm ⊢
  obtain ⟨t, out⟩ := next
  dsimp only at hm ⊢
  cases hm with
  | left => rfl
  | discarded hp =>
    rw [hp] at hs
    rw [hs, result?, setChild_phase, hp]
  | _ hp =>
    rw [hp] at hs
    exact hs

theorem step_receiver (hc : r.canStep output = true) (interrupted : Bool) :
    (r.step interrupted output).2.receiver = output.receiver := by
  have hm := step_moved hc interrupted
  generalize r.step interrupted output = next at hm ⊢
  obtain ⟨t, out⟩ := next
  dsimp only at hm
  cases hm <;> rfl

theorem cannotStep_of_result (h : r.result?.isSome = true) : r.canStep output = false := by
  rw [result?] at h
  rw [canStep]
  split at h <;> simp_all

end Relay

namespace Session

def Producer.Linked (output : Handoff) : Producer → Prop
  | .lone s => s.Linked output
  | .relay r => r.Linked output

structure Invariant (s : Session) : Prop where
  receiver : s.output.receiver = s.consumer.listens
  linked : s.producer.Linked s.output
  waited : ∀ p, s.consumer = .playback p → s.consumer.isOver = true →
    s.producer.result?.isSome = true

variable {s : Session}

theorem Invariant.lone (h : s.Invariant) {synth : Synth} (hp : s.producer = .lone synth) :
    synth.Linked s.output := by
  have hl := h.linked
  rwa [hp] at hl

theorem Invariant.relay (h : s.Invariant) {r : Relay} (hp : s.producer = .relay r) :
    r.Linked s.output := by
  have hl := h.linked
  rwa [hp] at hl

theorem Producer.cannotStep_of_result {p : Producer} (h : p.result?.isSome = true)
    (output : Handoff) : p.canStep output = false := by
  cases p with
  | lone s =>
    rw [Producer.result?, Option.isSome_map, Option.isSome_iff_exists] at h
    obtain ⟨result, hr⟩ := h
    exact Synth.cannotStep_of_done (Synth.phase_of_result hr) output
  | relay r =>
    rw [Producer.result?, Option.isSome_map] at h
    exact Relay.cannotStep_of_result h

theorem stepChild_preserves_result (r : Relay) (interrupted : Bool) (i : Nat) :
    (r.stepChild interrupted i).result? = r.result? := by
  rw [Relay.stepChild]
  split <;> rfl

theorem Producer.Linked.of_sender {p : Producer} {output output' : Handoff}
    (h : p.Linked output) (hs : output'.sender = output.sender) : p.Linked output' := by
  cases p with
  | lone s => exact Synth.Linked.of_sender h hs
  | relay r => exact ⟨h.invariant, hs.trans h.sender⟩

theorem Producer.Linked.step {p : Producer} {output : Handoff} (h : p.Linked output)
    (hc : p.canStep output = true) (interrupted : Bool) :
    (p.step interrupted output).1.Linked (p.step interrupted output).2 := by
  cases p with
  | lone s => exact Synth.Linked.step h hc interrupted
  | relay r => exact Relay.Linked.step h hc interrupted

theorem Producer.step_receiver {p : Producer} {output : Handoff}
    (hc : p.canStep output = true) (interrupted : Bool) :
    (p.step interrupted output).2.receiver = output.receiver := by
  cases p with
  | lone s => exact Synth.step_receiver hc interrupted
  | relay r => exact Relay.step_receiver hc interrupted

theorem step_preserves_invariant (h : s.Invariant) {e : Event} (he : Enabled s e) :
    (next s e).Invariant := by
  cases e with
  | consume =>
    obtain ⟨hs, hr, ho⟩ := Consumer.step_spec h.receiver he
    exact ⟨hr, h.linked.of_sender hs, fun p hp hover => ho ⟨p, hp⟩ hover⟩
  | produce =>
    have hc : s.producer.canStep s.output = true := he
    have hr := (Producer.step_receiver hc s.interrupted).trans h.receiver
    refine ⟨hr, h.linked.step hc _, ?_⟩
    intro p hp hover
    rw [Producer.cannotStep_of_result (h.waited p hp hover)] at hc
    cases hc
  | produceChild i =>
    obtain ⟨hr, hl, hw⟩ := h
    obtain ⟨flag, output, producer, consumer⟩ := s
    cases producer with
    | lone synth => exact he.elim
    | relay r =>
      obtain ⟨c, hchild, hc⟩ := (Option.any_eq_true _ _).mp he
      refine ⟨hr, ⟨Relay.stepChild_preserves_invariant hl.invariant hchild hc flag, ?_⟩, ?_⟩
      · rw [stepChild_preserves_result]
        exact hl.sender
      · intro p hp hover
        have := hw p hp hover
        simpa [next, Producer.result?, stepChild_preserves_result] using this
  | interrupt => exact ⟨h.receiver, h.linked, h.waited⟩

theorem execution_preserves_invariant {t : Session} {es : List Event} (h : Execution s es t)
    (hs : s.Invariant) : t.Invariant := by
  induction h with
  | nil => exact hs
  | cons hstep _ ih =>
    obtain ⟨he, rfl⟩ := hstep
    exact ih (step_preserves_invariant hs he)

/-- The run lemma: what every step preserves holds at the end of a run. -/
theorem execution_preserves {P : Session → Prop}
    (hstep : ∀ {s : Session} {e : Event}, P s → s.Invariant → Enabled s e → P (next s e))
    {t : Session} {es : List Event} (he : Execution s es t) (h : P s) (hi : s.Invariant) : P t := by
  induction he with
  | nil => exact h
  | cons hnext _ ih =>
    obtain ⟨he, rfl⟩ := hnext
    exact ih (hstep h hi he) (step_preserves_invariant hi he)

/-! ### The interrupt flag -/

theorem next_keeps_interrupt (h : s.interrupted = true) (e : Event) :
    (next s e).interrupted = true := by
  cases e with
  | consume => simp only [next, h, Bool.true_or]
  | produce => exact h
  | produceChild i =>
    simp only [next]
    split <;> exact h
  | interrupt => rfl

theorem execution_keeps_interrupt {t : Session} {es : List Event} (he : Execution s es t)
    (h : s.interrupted = true) : t.interrupted = true := by
  induction he with
  | nil => exact h
  | cons hstep _ ih =>
    obtain ⟨-, rfl⟩ := hstep
    exact ih (next_keeps_interrupt h _)

theorem uninterrupted_before {e : Event} (h : (next s e).interrupted = false) :
    s.interrupted = false := by
  rw [← Bool.not_eq_true]
  intro hs
  rw [next_keeps_interrupt hs e] at h
  cases h

theorem uninterrupted_at_start {t : Session} {es : List Event} (he : Execution s es t)
    (h : t.interrupted = false) : s.interrupted = false := by
  rw [← Bool.not_eq_true]
  intro hs
  rw [execution_keeps_interrupt he hs] at h
  cases h

/-- The run lemma for runs that nobody interrupts. -/
theorem uninterrupted_preserves {P : Session → Prop}
    (hstep : ∀ {s : Session} {e : Event}, P s → s.Invariant → Enabled s e →
      (next s e).interrupted = false → P (next s e))
    {t : Session} {es : List Event} (he : Execution s es t) (h : P s) (hi : s.Invariant)
    (hflag : t.interrupted = false) : P t := by
  induction he with
  | nil => exact h
  | cons hnext hrest ih =>
    obtain ⟨he, rfl⟩ := hnext
    have hafter := uninterrupted_at_start hrest hflag
    exact ih (hstep h hi he hafter) (step_preserves_invariant hi he) hflag

theorem execution_append {t : Session} {es es' : List Event} (h : Execution s (es ++ es') t) :
    ∃ u, Execution s es u ∧ Execution u es' t := by
  induction es generalizing s with
  | nil => exact ⟨s, .nil s, h⟩
  | cons e es ih =>
    cases h with
    | cons hstep hrest =>
      obtain ⟨u, hu, ht⟩ := ih hrest
      exact ⟨u, .cons hstep hu, ht⟩

def Admits : Session → List Event → Prop
  | _, [] => True
  | s, e :: es => Enabled s e ∧ Admits (next s e) es

instance (s : Session) (es : List Event) : Decidable (s.Admits es) := by
  induction es generalizing s with
  | nil => exact isTrue trivial
  | cons e es ih => exact instDecidableAnd

theorem Admits.execution {es : List Event} (h : s.Admits es) :
    Execution s es (es.foldl next s) := by
  induction es generalizing s with
  | nil => exact .nil s
  | cons e es ih => exact .cons ⟨h.1, rfl⟩ (ih h.2)

/-! ### Sessions with a listener -/

theorem next_consume {l : Listener} (h : s.consumer = .listener l) : next s .consume =
    { s with consumer := .listener (l.step s.output).1, output := (l.step s.output).2 } := by
  simp only [next, h, Consumer.step, Consumer.interruptsNext, Bool.or_false]

theorem canStep_of_enabled {l : Listener} (h : s.consumer = .listener l)
    (he : Enabled s .consume) : l.canStep s.output = true := by
  simpa only [Enabled, h, Consumer.canStep] using he

theorem uninterrupted_of_listener {t : Session} {es : List Event} (he : Execution s es t)
    (hl : ∃ l, s.consumer = .listener l) (hn : .interrupt ∉ es) :
    t.interrupted = s.interrupted := by
  induction he with
  | nil => rfl
  | @cons s t u e es hstep _ ih =>
    obtain ⟨-, rfl⟩ := hstep
    obtain ⟨l, hl⟩ := hl
    rw [List.mem_cons, not_or] at hn
    cases e with
    | consume =>
      have hnext := next_consume hl
      rw [hnext] at ih
      exact ih ⟨_, rfl⟩ hn.2
    | produce => exact ih ⟨l, hl⟩ hn.2
    | produceChild i =>
      have hnext : (next s (.produceChild i)).consumer = s.consumer ∧
          (next s (.produceChild i)).interrupted = s.interrupted := by
        simp only [next]
        split <;> exact ⟨rfl, rfl⟩
      rw [ih ⟨l, hnext.1.trans hl⟩ hn.2, hnext.2]
    | interrupt => exact absurd rfl hn.1

/-! ### Sessions before their first event -/

theorem ofSheets_invariant (sheets : List Sheet) (params : Audio.Params) (consumer : Consumer)
    (spawnFault : Nat → Option FileFault) (hl : consumer.listens = true)
    (ho : consumer.isOver = false) : (ofSheets sheets params consumer spawnFault).Invariant := by
  refine ⟨hl.symm, ⟨Relay.new_invariant sheets params spawnFault, rfl⟩, ?_⟩
  intro p _ hover
  exact absurd (ho.symm.trans hover) Bool.false_ne_true

theorem ofSheet_of_new {sheet : Sheet} {params : Audio.Params} {synth : Synth}
    (h : Synth.new sheet params = .ok synth) (consumer : Consumer) :
    ofSheet sheet params consumer = .ok ⟨false, {}, .lone synth, consumer⟩ := by
  rw [ofSheet, h]
  rfl

theorem ofSheet_lone {sheet : Sheet} {params : Audio.Params} {consumer : Consumer}
    (h : ofSheet sheet params consumer = .ok s) :
    ∃ synth, Synth.new sheet params = .ok synth ∧ s = ⟨false, {}, .lone synth, consumer⟩ := by
  unfold ofSheet at h
  cases hn : Synth.new sheet params with
  | error f =>
    rw [hn] at h
    cases h
  | ok synth =>
    rw [hn] at h
    cases h
    exact ⟨synth, rfl, rfl⟩

theorem ofSheet_invariant {sheet : Sheet} {params : Audio.Params} {consumer : Consumer}
    (h : ofSheet sheet params consumer = .ok s) (hl : consumer.listens = true)
    (ho : consumer.isOver = false) : s.Invariant := by
  obtain ⟨synth, hn, rfl⟩ := ofSheet_lone h
  refine ⟨hl.symm, Synth.new_linked hn, ?_⟩
  intro p _ hover
  exact absurd (ho.symm.trans hover) Bool.false_ne_true

end Session

end PlainScore
