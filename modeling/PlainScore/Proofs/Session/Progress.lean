import PlainScore.Proofs.Session.Weight

/-! Nobody waits for ever.
When no thread can move, all of them are through. Together with the weight of a session this
means that every playback returns, and that its producer and all children have ended by then. -/
namespace PlainScore

namespace Relay

variable {r : Relay} {output : Handoff}

theorem over_of_stuck (h : r.Invariant) (hs : output.canSend = true)
    (hc : r.canStep output = false)
    (hall : ∀ i c, r.child? i = some c → c.canStep = false) : r.result?.isSome = true := by
  have hcount := h.count
  have child_exists : ∀ {i}, i < r.children.length → ∃ c, r.child? i = some c := fun hi =>
    ⟨_, List.getElem?_eq_getElem hi⟩
  have receivable : ∀ {i c}, r.child? i = some c → c.Sound → c.Open →
      c.output.canReceive = true := by
    intro i c hchild hsound hopen
    by_contra hn
    simp only [Handoff.canReceive, Bool.or_eq_true, not_or, Bool.not_eq_true,
      Option.isSome_eq_false_iff, Option.isNone_iff_eq_none, Bool.not_eq_false'] at hn
    obtain ⟨hslot, hsender⟩ := hn
    have hr := hsound.linked.sender
    rw [hsender] at hr
    have hmove := Child.Sound.canStep_of_empty (Option.isNone_iff_eq_none.mp hr.symm) hslot
    rw [hall i c hchild] at hmove
    cases hmove
  have joinable : ∀ {i c}, r.child? i = some c → c.Closing → c.synth.result?.isSome = true := by
    intro i c hchild hclosing
    by_contra hn
    have hmove := hclosing.canStep (Option.not_isSome_iff_eq_none.mp hn)
    rw [hall i c hchild] at hmove
    cases hmove
  rw [canStep] at hc
  cases hp : r.phase with
  | starting | checking | draining | leaving =>
    rw [hp] at hc
    cases hc
  | sending | ending =>
    rw [hp] at hc
    exact absurd (hs.symm.trans hc) (by decide)
  | receiving i =>
    rw [hp] at hc hcount
    obtain ⟨c, hchild⟩ := child_exists (i := i) (by rw [hcount]; exact Nat.lt_succ_self i)
    obtain ⟨hsound, hopen⟩ := h.owing (by simp [hp]) hchild
    simp only [hchild, Option.any_some, receivable hchild hsound hopen] at hc
    cases hc
  | joining i =>
    rw [hp] at hc hcount
    obtain ⟨c, hchild⟩ := child_exists (i := i) (by rw [hcount]; exact Nat.lt_succ_self i)
    have hclosing := h.closing (by simp [hp]) hchild
    simp only [hchild, Option.any_some, joinable hchild hclosing] at hc
    cases hc
  | discarding result i =>
    rw [hp] at hc hcount
    obtain ⟨c, hchild⟩ := child_exists hcount
    obtain ⟨hsound, hopen⟩ := h.owing (by simp [hp]) hchild
    simp only [hchild, Option.any_some, receivable hchild hsound hopen] at hc
    cases hc
  | reaping result i =>
    rw [hp] at hc hcount
    obtain ⟨c, hchild⟩ := child_exists hcount
    have hclosing := h.closing (by simp [hp]) hchild
    simp only [hchild, Option.any_some, joinable hchild hclosing] at hc
    cases hc
  | done result => rw [result?, hp]; rfl

theorem Invariant.children_over (h : r.Invariant) (hr : r.result?.isSome = true) {i : Nat}
    {c : Child} (hchild : r.child? i = some c) : c.synth.result?.isSome = true := by
  have hx := (h.children i c hchild).2
  rw [result?] at hr
  split at hr
  · rename_i hp
    rw [hp] at hx
    exact hx.2
  · cases hr

end Relay

namespace Session

variable {s : Session}

def Quiet (s : Session) : Prop := ∀ e, Enabled s e → e = .interrupt

theorem Quiet.consumer (h : s.Quiet) :
    s.consumer.canStep s.output s.producer.result? = false := by
  rw [← Bool.not_eq_true]
  intro hc
  cases h .consume hc

theorem Quiet.producer (h : s.Quiet) : s.producer.canStep s.output = false := by
  rw [← Bool.not_eq_true]
  intro hc
  cases h .produce hc

theorem Quiet.child {r : Relay} (h : s.Quiet) (hp : s.producer = .relay r) {i : Nat}
    {c : Relay.Child} (hc : r.child? i = some c) : c.canStep = false := by
  rw [← Bool.not_eq_true]
  intro hs
  have he : Enabled s (.produceChild i) := by
    rw [Enabled, hp]
    exact (Option.any_eq_true _ _).mpr ⟨c, hc, hs⟩
  cases h _ he

theorem Quiet.producer_over (h : s.Quiet) (hi : s.Invariant) (hs : s.output.canSend = true) :
    s.producer.result?.isSome = true := by
  have hc := h.producer
  have hl := hi.linked
  cases hp : s.producer with
  | lone synth =>
    rw [hp] at hc
    rw [Producer.result?, Option.isSome_map]
    by_contra hn
    have hfree : s.output.slot = none ∨ s.output.receiver = false ∨ synth.hasEnded = true := by
      rcases Handoff.canSend_cases hs with hr | ⟨-, hslot⟩
      · exact .inr (.inl hr)
      · exact .inl hslot
    have hmove := Synth.canStep_of_free (Option.not_isSome_iff_eq_none.mp hn) hfree
    cases hmove.symm.trans hc
  | relay r =>
    rw [hp] at hc hl
    rw [Producer.result?, Option.isSome_map]
    exact Relay.over_of_stuck (Relay.Linked.invariant hl) hs hc fun i c hchild => h.child hp hchild

theorem Producer.Linked.sender {p : Producer} {output : Handoff} (h : p.Linked output) :
    output.sender = p.result?.isNone := by
  cases p with
  | lone synth =>
    rw [Producer.result?, Option.isNone_map]
    exact Synth.Linked.sender h
  | relay r =>
    rw [Producer.result?, Option.isNone_map]
    exact Relay.Linked.sender h

theorem stuck_listening {c : Consumer} {input : Handoff} {produced : Option Playback.Result}
    (hl : c.listens = true) (hc : c.canStep input produced = false) :
    input.canReceive = false := by
  cases c with
  | listener l =>
    simp only [Consumer.listens, Bool.not_eq_true'] at hl
    simp only [Consumer.canStep, Listener.canStep, hl, Bool.not_false, Bool.true_and,
      Bool.or_eq_false_iff] at hc
    exact hc.2
  | playback p =>
    simp only [Consumer.listens] at hl
    simp only [Consumer.canStep, Playback.canStep] at hc
    split at hl
    · cases hl
    · cases hl
    · split at hc <;> simp_all

theorem Quiet.ended (h : s.Quiet) (hi : s.Invariant) :
    s.producer.result?.isSome = true ∧ s.consumer.isOver = true := by
  cases hl : s.consumer.listens with
  | true =>
    have hr := stuck_listening hl h.consumer
    simp only [Handoff.canReceive, Bool.or_eq_false_iff, Option.isSome_eq_false_iff,
      Bool.not_eq_false'] at hr
    obtain ⟨hslot, hsender⟩ := hr
    have hover := h.producer_over hi (by rw [Handoff.canSend, hslot, Bool.true_or])
    rw [hi.linked.sender, ← Option.not_isSome, hover] at hsender
    cases hsender
  | false =>
    have hgone := hi.receiver.trans hl
    have hover := h.producer_over hi (by rw [Handoff.canSend, hgone, Bool.not_false, Bool.or_true])
    refine ⟨hover, ?_⟩
    have hc := h.consumer
    cases hcons : s.consumer with
    | listener l =>
      rw [hcons] at hl
      simpa [Consumer.listens, Consumer.isOver] using hl
    | playback p =>
      rw [hcons] at hl hc
      simp only [Consumer.listens] at hl
      simp only [Consumer.canStep, Playback.canStep] at hc
      split at hl
      · rename_i hp
        simp only [hp] at hc
        rw [hover] at hc
        cases hc
      · rename_i hp
        rw [Consumer.isOver, Playback.result?, hp]
        rfl
      · cases hl

/-- Left to themselves, the threads come to rest. -/
theorem exists_quiet (hi : s.Invariant) :
    ∃ es t, Execution s es t ∧ .interrupt ∉ es ∧ t.Quiet := by
  induction hw : s.weight using Nat.strongRecOn generalizing s with
  | ind n ih =>
    subst hw
    by_cases hq : s.Quiet
    · exact ⟨[], s, .nil s, List.not_mem_nil, hq⟩
    · rw [Quiet] at hq
      push Not at hq
      obtain ⟨e, he, hne⟩ := hq
      obtain ⟨es, t, ht, hn, hqt⟩ :=
        ih _ (step_lowers_weight hi he hne) (step_preserves_invariant hi he) rfl
      refine ⟨e :: es, t, .cons ⟨he, rfl⟩ ht, ?_, hqt⟩
      rw [List.mem_cons, not_or]
      exact ⟨Ne.symm hne, hn⟩

/-! ### Playbacks -/

structure LeavesNobodyBehind (s : Session) : Prop where
  moves : s.consumer.isOver = false → ∃ e, e ≠ .interrupt ∧ Enabled s e
  ended : s.consumer.isOver = true → s.producer.result?.isSome = true ∧
    ∀ r i c, s.producer = .relay r → r.child? i = some c → c.synth.result?.isSome = true
  /-- The end marker that a child is drained for is in its output, or the child is there to send
  it. -/
  drains : ∀ r result i, s.producer = .relay r → r.phase = .discarding result i →
    ∃ c, r.child? i = some c ∧ c.joined = false ∧
      (c.output.slot = some .endOfStream ∨ c.synth.hasEnded = false ∧ c.output.sender = true)
  reaps : ∀ r result i c, s.producer = .relay r → r.phase = .draining result i →
    r.child? i = some c → c.joined = false → c.isPending = false →
    c.output.slot = some .endOfStream ∧ c.synth.hasEnded = true

theorem Invariant.leavesNobodyBehind (h : s.Invariant) {p : Playback}
    (hp : s.consumer = .playback p) : s.LeavesNobodyBehind := by
  have hrelay : ∀ {r}, s.producer = .relay r → r.Invariant := fun hr => (h.relay hr).invariant
  constructor
  · intro hn
    by_contra hstuck
    push Not at hstuck
    have hq : s.Quiet := by
      intro e he
      by_contra hne
      exact hstuck e hne he
    rw [(hq.ended h).2] at hn
    cases hn
  · intro hover
    have hres := h.waited p hp hover
    refine ⟨hres, fun r i c hr hchild => (hrelay hr).children_over ?_ hchild⟩
    rw [hr, Producer.result?, Option.isSome_map] at hres
    exact hres
  · intro r result i hr hphase
    have hcount := (hrelay hr).count
    rw [hphase] at hcount
    have hchild : r.child? i = some r.children[i] := List.getElem?_eq_getElem hcount
    obtain ⟨hsound, hopen⟩ := (hrelay hr).owing (by simp [hphase]) hchild
    refine ⟨_, hchild, hopen.1, ?_⟩
    cases he : r.children[i].synth.hasEnded with
    | true => exact .inl (hopen.2 he)
    | false =>
      refine .inr ⟨rfl, ?_⟩
      rw [hsound.linked.sender, Synth.no_result_of_not_ended he]
      rfl
  · intro r result i c hr hphase hchild hjoined hpending
    obtain ⟨-, hchildren⟩ := hrelay hr
    rw [hphase] at hchildren
    obtain ⟨hsound, hx⟩ := hchildren i c hchild
    have hopen := Relay.open_of_not_joined (by simpa using hx) hjoined
    refine hopen.marker_of_finished hsound ?_
    simpa [Relay.Child.isPending, hjoined] using hpending

theorem ofScore_invariant {score : Score} {params : Audio.Params} {sink : Sink}
    {spawnFault : Nat → Option FileFault} (h : ofScore score params sink spawnFault = .ok s) :
    s.Invariant ∧ ∃ p, s.consumer = .playback p := by
  cases score with
  | single sheet =>
    obtain ⟨synth, -, rfl⟩ := ofSheet_lone h
    exact ⟨ofSheet_invariant h rfl rfl, _, rfl⟩
  | medley sheets =>
    cases h
    exact ⟨ofSheets_invariant sheets params _ spawnFault rfl rfl, _, rfl⟩

theorem execution_keeps_playback {t : Session} {es : List Event} (h : Execution s es t)
    (hp : ∃ p, s.consumer = .playback p) : ∃ p, t.consumer = .playback p := by
  induction h with
  | nil => exact hp
  | @cons s _ _ e _ hstep _ ih =>
    obtain ⟨-, rfl⟩ := hstep
    obtain ⟨p, hp⟩ := hp
    refine ih ?_
    cases e with
    | consume =>
      simp only [next, hp, Consumer.step]
      exact ⟨_, rfl⟩
    | produceChild i =>
      simp only [next]
      split <;> exact ⟨p, hp⟩
    | _ => exact ⟨p, hp⟩

/-- However the threads of a playback come to move, whatever the sink refuses, whenever the run
is interrupted and whichever notes or threads fail: the playback returns after so many steps at
most, and nobody waits for ever or is left behind. -/
theorem playback_leaves_nobody_behind {score : Score} {params : Audio.Params} {sink : Sink}
    {spawnFault : Nat → Option FileFault} {start : Session}
    (h : ofScore score params sink spawnFault = .ok start) {es : List Event}
    (he : Execution start es s) : threadSteps es ≤ start.weight ∧ s.LeavesNobodyBehind := by
  obtain ⟨hi, hp⟩ := ofScore_invariant h
  obtain ⟨p, hp⟩ := execution_keeps_playback he hp
  have hw := execution_lowers_weight he hi
  exact ⟨by omega, (execution_preserves_invariant he hi).leavesNobodyBehind hp⟩

/-- Two sheets at a sink that takes nothing; the first has a note that cannot be evaluated. -/
def turnedDown : Session :=
  ofSheets [⟨1323000, ⟨1, 4⟩, [⟨["C4-", "C4-/"]⟩]⟩, ⟨1323000, ⟨1, 4⟩, [⟨["A4"]⟩]⟩] {}
    (.playback (.new {} { Sink.memory with writeFault := fun _ => some .interrupted }))

/-- The first bar is refused, the relay finds its output closed and drains its child, and the run is
interrupted. -/
def givingUp : List Event :=
  [.produce, .produceChild 0, .produceChild 0, .produceChild 0, .produce, .produce, .produce,
    .consume, .consume, .consume, .produceChild 0, .produce, .produce, .produce, .produce, .produce,
    .interrupt]

/-- The playback waits for the relay then, and the relay for its child. -/
theorem interrupted_medley_leaves_nobody_behind :
    ofScore (.medley [⟨1323000, ⟨1, 4⟩, [⟨["C4-", "C4-/"]⟩]⟩, ⟨1323000, ⟨1, 4⟩, [⟨["A4"]⟩]⟩]) {}
        { Sink.memory with writeFault := fun _ => some .interrupted } = .ok turnedDown ∧
      ∃ s, Execution turnedDown givingUp s ∧ threadSteps givingUp ≤ turnedDown.weight ∧
        s.LeavesNobodyBehind ∧
        ¬ Enabled s .consume ∧ ¬ Enabled s .produce ∧ Enabled s (.produceChild 0) := by
  have hstart : ofScore
      (.medley [⟨1323000, ⟨1, 4⟩, [⟨["C4-", "C4-/"]⟩]⟩, ⟨1323000, ⟨1, 4⟩, [⟨["A4"]⟩]⟩]) {}
      { Sink.memory with writeFault := fun _ => some .interrupted } = .ok turnedDown := rfl
  have hrun : Execution turnedDown givingUp _ := Admits.execution (by decide +kernel)
  obtain ⟨hsteps, hnobody⟩ := playback_leaves_nobody_behind hstart hrun
  exact ⟨hstart, _, hrun, hsteps, hnobody, by decide +kernel⟩

end Session

end PlainScore
