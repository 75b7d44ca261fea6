import PlainScore.Proofs.Session.Failures
import PlainScore.Proofs.Synth.Room

/-! Threads are lost only for want of room.
A thread panics when it asks for a vector of more samples than there can be. With accepted sheets
that is a matter of their bars and notes alone, and it is not looked at when a sheet is made. The
one who prepares a playback of a single sheet makes its synthesizer and is lost with it; a thread
that is lost later is reported by the playback that waits for it. -/
namespace PlainScore

theorem Playback.result_of_step {p : Playback} {input : Handoff} {produced : Option Result}
    {result : Except Error Unit} (hc : p.canStep input produced = true)
    (hr : (p.step produced input).1.result? = some result) :
    ∃ consumed own, produced = some own ∧ result = combine consumed own := by
  have hm := step_moved hc
  generalize p.step produced input = after at hm hr
  obtain ⟨q, out⟩ := after
  dsimp only at hm hr
  cases hm with
  | @put bar =>
    rcases p.put_phase bar with hq | ⟨consumed, hq⟩
    · rw [result?, hq] at hr
      cases hr
    · rw [result?, hq] at hr
      cases hr
  | finished =>
    obtain ⟨consumed, hq⟩ := p.finish_phase
    rw [result?, hq] at hr
    cases hr
  | @joined consumed own _ hproduced =>
    cases hr
    exact ⟨consumed, own, hproduced, rfl⟩
  | _ => cases hr

namespace Relay

theorem Fails.oversized {sheets : List Sheet} {params : Audio.Params}
    (h : Relay.Fails sheets params .outOfRoom) : ∃ sheet ∈ sheets, sheet.Oversized params := by
  generalize hf : Failure.outOfRoom = f at h
  cases h with
  | lost hs hn =>
    rw [Synth.new_eq] at hn
    split at hn
    · rename_i hlong
      exact ⟨_, hs, .inl hlong.2⟩
    · cases hn
  | _ => cases hf

end Relay

namespace Sheet

theorem Fails.oversized {sheet : Sheet} {params : Audio.Params}
    (h : sheet.Fails params .outOfRoom) : sheet.Oversized params := by
  cases h with
  | outOfRoom ht htoken hlong => exact .inr ⟨_, ht, _, htoken, hlong⟩

end Sheet

namespace Session

variable {sheets : List Sheet} {params : Audio.Params} {s start : Session}

inductive LosesThread (s : Session) : Prop where
  | synth {synth : Synth} : s.Synthesizes synth → synth.result? = some (.error .outOfRoom) →
      s.LosesThread
  | producer : s.producer.result? = some (.error .outOfRoom) → s.LosesThread

theorem Accountable.oversized {sink? : Option Sink} (h : s.Accountable sheets params sink?)
    (hi : s.Invariant) (hl : s.LosesThread) : ∃ sheet ∈ sheets, sheet.Oversized params := by
  cases hl with
  | synth hs hr =>
    obtain ⟨-, sheet, hmem, ha⟩ := h.synthesizes hi hs
    exact ⟨sheet, hmem, (ha.fails hr).oversized⟩
  | producer hr =>
    cases h.producer.fails hr with
    | lone hmem hf => exact ⟨_, hmem, hf.oversized⟩
    | relay hf => exact hf.oversized

/-- What a playback has returned is put together from its own outcome and its producer's. -/
def Combines (s : Session) : Prop :=
  ∀ p result, s.consumer = .playback p → p.result? = some result →
    ∃ consumed own, s.producer.result? = some own ∧ result = Playback.combine consumed own

theorem step_preserves_combines (h : s.Combines) {e : Event} (he : Enabled s e) :
    (next s e).Combines := by
  intro p result hp hr
  cases e with
  | consume =>
    cases hc : s.consumer with
    | listener l =>
      simp only [next, hc, Consumer.step] at hp
      cases hp
    | playback before =>
      have hcan : before.canStep s.output s.producer.result? = true := by
        simpa only [Enabled, hc, Consumer.canStep] using he
      simp only [next, hc, Consumer.step] at hp
      cases hp
      exact Playback.result_of_step hcan hr
  | produce =>
    obtain ⟨consumed, own, hown, -⟩ := h p result hp hr
    have hstuck := Producer.cannotStep_of_result (Option.isSome_of_mem hown) s.output
    rw [Enabled, hstuck] at he
    cases he
  | produceChild i =>
    obtain ⟨r, c, hproducer, -, -, hnext⟩ := next_produceChild he
    rw [hnext] at hp ⊢
    obtain ⟨consumed, own, hown, hresult⟩ := h p result hp hr
    refine ⟨consumed, own, ?_, hresult⟩
    rw [hproducer, Producer.result?] at hown
    rw [Producer.result?, stepChild_preserves_result, hown]
  | interrupt => exact h p result hp hr

theorem execution_preserves_combines {t : Session} {es : List Event} (he : Execution s es t)
    (h : s.Combines) (hi : s.Invariant) : t.Combines :=
  execution_preserves (fun h _ he => step_preserves_combines h he) he h hi

theorem Begins.combines (h : Begins params sheets start) : start.Combines := by
  intro p result hp hr
  obtain ⟨-, hover⟩ := h.shape.1.listens
  rw [hp, Consumer.isOver, hr] at hover
  cases hover

theorem ofSheet_fails_iff {sheet : Sheet} {consumer : Consumer} {f : Failure} :
    ofSheet sheet params consumer = .error f ↔ Synth.new sheet params = .error f := by
  rw [ofSheet]
  cases Synth.new sheet params <;> simp [bind, Except.bind, pure, Except.pure]

structure PanicsForRoomOnly (sheets : List Sheet) (params : Audio.Params) : Prop where
  construction : ∀ sheet ∈ sheets,
    (Synth.new sheet params = .error .outOfRoom ↔ sampleLimit < sheet.capacity params)
  alone : ∀ sheet ∈ sheets, ∀ sink spawnFault,
    (ofScore (.single sheet) params sink spawnFault = .error .outOfRoom ↔
      sampleLimit < sheet.capacity params)
  together : ∀ sink spawnFault, ∃ start, ofScore (.medley sheets) params sink spawnFault = .ok start
  runs : ∀ start es s, Begins params sheets start → Execution start es s → s.LosesThread →
    ∃ sheet ∈ sheets, sheet.Oversized params
  /-- What a playback returns after its producer was lost says so. -/
  reported : ∀ start es s p result, Begins params sheets start → Execution start es s →
    s.consumer = .playback p → p.result? = some result →
    s.producer.result? = some (.error .outOfRoom) → result = .error (.workerLost .producer)
  prepared : (∀ sheet ∈ sheets, sheet.LeavesRoom) → ∀ score : Score, score.sheets = sheets →
    ∀ sink spawnFault, ∃ start, ofScore score params sink spawnFault = .ok start
  made : (∀ sheet ∈ sheets, sheet.LeavesRoom) →
    ∀ sheet ∈ sheets, ∃ synth, Synth.new sheet params = .ok synth
  kept : (∀ sheet ∈ sheets, sheet.LeavesRoom) →
    ∀ start es s, Begins params sheets start → Execution start es s → ¬ s.LosesThread

/-- Accepted sheets, their meters in numbers of 32 bits. Synthesizers and runs of one sheet or of
several in a row panic only because a bar or a note is too long, and not at all when the exact
lengths leave room. -/
theorem accepted_sheets_panic_for_room_only (params : Audio.Params)
    (ha : ∀ sheet ∈ sheets, sheet.Accepted)
    (hm : ∀ sheet ∈ sheets,
      sheet.meter.numerator < Meter.bound ∧ sheet.meter.denominator < Meter.bound) :
    PanicsForRoomOnly sheets params := by
  have hnew : (∀ sheet ∈ sheets, sheet.LeavesRoom) →
      ∀ sheet ∈ sheets, Synth.new sheet params = .ok (Synth.fresh sheet params) := by
    intro hroom sheet hs
    exact Synth.new_of_room (.inr ((hroom sheet hs).capacity_le (ha sheet hs) (hm sheet hs).1))
  have hruns : ∀ start es s, Begins params sheets start → Execution start es s →
      s.LosesThread → ∃ sheet ∈ sheets, sheet.Oversized params := by
    intro start es s hb he hl
    obtain ⟨hi, hstart⟩ := hb.accountable
    have hs := execution_preserves_accountable he hstart hi
    exact hs.oversized (execution_preserves_invariant he hi) hl
  constructor
  · exact fun sheet hs => (ha sheet hs).new_fails_iff
  · intro sheet hs sink spawnFault
    exact ofSheet_fails_iff.trans (ha sheet hs).new_fails_iff
  · exact fun sink spawnFault => ⟨_, rfl⟩
  · exact hruns
  · intro start es s p result hb he hp hr hlost
    have hcombines := execution_preserves_combines he hb.combines hb.accountable.1
    obtain ⟨consumed, own, hown, rfl⟩ := hcombines p result hp hr
    rw [hlost] at hown
    cases hown
    rfl
  · rintro hroom score rfl sink spawnFault
    cases score with
    | single sheet =>
      have hsheet := hnew hroom sheet (List.mem_singleton_self sheet)
      exact ⟨_, ofSheet_of_new hsheet (.playback (.new params sink))⟩
    | medley sheets => exact ⟨_, rfl⟩
  · exact fun hroom sheet hs => ⟨_, hnew hroom sheet hs⟩
  · intro hroom start es s hb he hl
    obtain ⟨sheet, hs, hlong⟩ := hruns start es s hb he hl
    exact (hroom sheet hs).not_oversized (ha sheet hs) (hm sheet hs).1 (hm sheet hs).2 hlong

/-- Two sheets at a slow tempo and in a long meter: a drone and a dotted note over rests. -/
def slow : List Sheet :=
  [⟨0.25, ⟨1000, 1⟩, [⟨["C2---"]⟩]⟩, ⟨7.5, ⟨3, 8⟩, [⟨["A4."]⟩, ⟨["X", "X"]⟩]⟩]

theorem slow_sheets_keep_their_threads : PanicsForRoomOnly slow {} ∧
    ∀ start es s, Begins {} slow start → Execution start es s → ¬ s.LosesThread := by
  have h : PanicsForRoomOnly slow {} :=
    accepted_sheets_panic_for_room_only {} (by decide +kernel) (by decide +kernel)
  exact ⟨h, h.kept (by decide +kernel)⟩

end Session

end PlainScore
