import PlainScore.Proofs.Relay.Failures
import PlainScore.Proofs.Session.Outcome

/-! What a session can fail with.
Whatever the threads do, the results they end with are accounted for: by the notes of the sheets,
by what the surroundings refuse, or by the sink of a playback. None of them is a misuse of the bar
buffer, and with accepted sheets none is a note that cannot be evaluated. -/
namespace PlainScore

def Sink.Raises (sink : Sink) (e : Error) : Prop :=
  (∃ number, sink.writeFault number = some e) ∨ sink.finishFault = some e

namespace Playback

inductive Fails (sink : Sink) (cause : Failure → Prop) : Error → Prop where
  | sink {e : Error} : sink.Raises e → Fails sink cause e
  | producer {e : Error} : cause (.reported e) → Fails sink cause e
  | producerLost : cause .outOfRoom → Fails sink cause (.workerLost .producer)

structure Accountable (sink : Sink) (cause : Failure → Prop) (p : Playback) : Prop where
  sink_eq : p.sink = sink
  failed : match p.phase with
    | .hangingUp consumed | .joining consumed => ∀ e, consumed = .error e → sink.Raises e
    | .done result => ∀ e, result = .error e → Fails sink cause e
    | _ => True

variable {sink : Sink} {cause : Failure → Prop} {p : Playback} {input : Handoff}
  {produced : Option Result}

theorem fails_of_combine {consumed : Except Error Unit} {result : Result} {e : Error}
    (hc : ∀ e, consumed = .error e → sink.Raises e) (hr : ∀ f, result = .error f → cause f)
    (h : combine consumed result = .error e) : Fails sink cause e := by
  cases result with
  | ok =>
    rw [combine] at h
    exact .sink (hc e h)
  | error f =>
    cases f with
    | outOfRoom =>
      cases h
      exact .producerLost (hr _ rfl)
    | reported own =>
      cases consumed with
      | ok =>
        cases h
        exact .producer (hr _ rfl)
      | error e' =>
        cases h
        exact .sink (hc _ rfl)

theorem step_preserves_accountable (h : p.Accountable sink cause)
    (hc : p.canStep input produced = true)
    (hr : ∀ f, produced = some (.error f) → cause f) :
    (p.step produced input).1.Accountable sink cause := by
  obtain ⟨hsink, hf⟩ := h
  have hm := step_moved hc
  generalize p.step produced input = after at hm ⊢
  obtain ⟨q, out⟩ := after
  dsimp only at hm ⊢
  cases hm with
  | received | receivedEnd | cutOff => exact ⟨hsink, trivial⟩
  | @put bar =>
    obtain ⟨-, -, hput, hphase⟩ := p.put_writes bar
    refine ⟨hput.trans hsink, ?_⟩
    rw [hphase, hsink]
    cases he : sink.writeFault p.writes.length with
    | none => trivial
    | some e =>
      rintro _ ⟨⟩
      exact .inl ⟨_, he⟩
  | finished =>
    obtain ⟨-, -, hfinish, hphase⟩ := p.finish_spec
    refine ⟨hfinish.trans hsink, ?_⟩
    rw [hphase, hsink]
    cases he : sink.finishFault with
    | none => exact nofun
    | some e =>
      rintro _ ⟨⟩
      exact .inr he
  | hungUp hp =>
    rw [hp] at hf
    exact ⟨hsink, hf⟩
  | @joined consumed result hp hproduced =>
    rw [hp] at hf
    refine ⟨hsink, ?_⟩
    intro e he
    refine fails_of_combine hf (fun f hfail => ?_) he
    exact hr f (by rw [hproduced, hfail])

theorem Accountable.fails (h : p.Accountable sink cause) {e : Error}
    (hr : p.result? = some (.error e)) : Fails sink cause e := by
  have hf := h.failed
  rw [result?] at hr
  split at hr
  · rename_i hp
    cases hr
    rw [hp] at hf
    exact hf e rfl
  · cases hr

end Playback

namespace Session

variable {sheets : List Sheet} {params : Audio.Params} {s start : Session}

/-! ### The threads of a session -/

inductive Producer.Fails (sheets : List Sheet) (params : Audio.Params) : Failure → Prop where
  | lone {sheet : Sheet} {f : Failure} : sheet ∈ sheets → sheet.Fails params f →
      Producer.Fails sheets params f
  | relay {f : Failure} : Relay.Fails sheets params f → Producer.Fails sheets params f

def Producer.Accountable (sheets : List Sheet) (params : Audio.Params) : Producer → Prop
  | .lone s => ∃ sheet ∈ sheets, s.Accountable sheet params
  | .relay r => r.Accountable sheets params

def Consumer.sink? : Consumer → Option Sink
  | .listener _ => none
  | .playback p => some p.sink

def Consumer.Accountable (sink? : Option Sink) (cause : Failure → Prop) : Consumer → Prop
  | .listener _ => True
  | .playback p => ∃ sink ∈ sink?, p.Accountable sink cause

structure Accountable (sheets : List Sheet) (params : Audio.Params) (sink? : Option Sink)
    (s : Session) : Prop where
  producer : s.producer.Accountable sheets params
  consumer : s.consumer.Accountable sink? (Producer.Fails sheets params)

theorem failed_of_result {ρ : Type} {result? : Option (Except Failure ρ)} {f : Failure}
    (h : (result?.map fun r => r.map fun _ => ()) = some (.error f)) :
    result? = some (.error f) := by
  obtain ⟨result, hr, he⟩ := Option.map_eq_some_iff.mp h
  cases result with
  | ok => cases he
  | error f =>
    cases he
    exact hr

theorem Producer.Accountable.fails {p : Producer} (h : p.Accountable sheets params) {f : Failure}
    (hr : p.result? = some (.error f)) : Producer.Fails sheets params f := by
  cases p with
  | lone synth =>
    obtain ⟨sheet, hs, ha⟩ := h
    exact .lone hs (ha.fails (failed_of_result hr))
  | relay r => exact .relay (Relay.Accountable.fails h (failed_of_result hr))

theorem Consumer.step_accountable {sink? : Option Sink} {cause : Failure → Prop} {c : Consumer}
    {input : Handoff} {produced : Option Playback.Result} (h : c.Accountable sink? cause)
    (hc : c.canStep input produced = true) (hr : ∀ f, produced = some (.error f) → cause f) :
    (c.step input produced).1.Accountable sink? cause := by
  cases c with
  | listener l => trivial
  | playback p =>
    obtain ⟨sink, hs, ha⟩ := h
    exact ⟨sink, hs, Playback.step_preserves_accountable ha hc hr⟩

theorem step_preserves_accountable {sink? : Option Sink} (h : s.Accountable sheets params sink?)
    (hi : s.Invariant) {e : Event} (he : Enabled s e) :
    (next s e).Accountable sheets params sink? := by
  obtain ⟨hp, hc⟩ := h
  cases e with
  | consume => exact ⟨hp, Consumer.step_accountable hc he fun f hr => hp.fails hr⟩
  | produce =>
    refine ⟨?_, hc⟩
    have hl := hi.linked
    have hstep : s.producer.canStep s.output = true := he
    cases hproducer : s.producer with
    | lone synth =>
      rw [hproducer] at hp hl hstep
      obtain ⟨sheet, hs, ha⟩ := hp
      simp only [next, hproducer, Producer.step]
      exact ⟨sheet, hs, ha.step hl.valid hstep s.interrupted⟩
    | relay r =>
      rw [hproducer] at hp hl hstep
      simp only [next, hproducer, Producer.step]
      exact Relay.step_preserves_accountable hp hl.invariant hstep s.interrupted
  | produceChild i =>
    obtain ⟨r, c, hproducer, hchild, hstep, hnext⟩ := next_produceChild he
    have hl := hi.relay hproducer
    rw [hproducer] at hp
    rw [hnext]
    exact ⟨Relay.stepChild_preserves_accountable hp hl.invariant hchild hstep s.interrupted, hc⟩
  | interrupt => exact ⟨hp, hc⟩

theorem execution_preserves_accountable {sink? : Option Sink} {t : Session} {es : List Event}
    (he : Execution s es t) (h : s.Accountable sheets params sink?) (hi : s.Invariant) :
    t.Accountable sheets params sink? :=
  execution_preserves (fun h hi he => step_preserves_accountable h hi he) he h hi

/-! ### Sessions before their first event -/

inductive Consumer.Fresh : Consumer → Prop where
  | listener (limit : Option Nat) : Fresh (.listener (.new limit))
  | playback (params : Audio.Params) (sink : Sink) : Fresh (.playback (.new params sink))

inductive Begins (params : Audio.Params) : List Sheet → Session → Prop where
  | lone {sheet : Sheet} {consumer : Consumer} {start : Session} : consumer.Fresh →
      ofSheet sheet params consumer = .ok start → Begins params [sheet] start
  | relay {consumer : Consumer} (sheets : List Sheet) (spawnFault : Nat → Option FileFault) :
      consumer.Fresh → Begins params sheets (ofSheets sheets params consumer spawnFault)
  | score {score : Score} {sink : Sink} {spawnFault : Nat → Option FileFault} {start : Session} :
      ofScore score params sink spawnFault = .ok start → Begins params score.sheets start

theorem Consumer.Fresh.listens {c : Consumer} (h : c.Fresh) :
    c.listens = true ∧ c.isOver = false := by
  cases h <;> exact ⟨rfl, rfl⟩

theorem Consumer.Fresh.accountable {c : Consumer} (h : c.Fresh) (cause : Failure → Prop) :
    c.Accountable c.sink? cause := by
  cases h with
  | listener => trivial
  | playback params sink => exact ⟨sink, rfl, rfl, trivial⟩

theorem ofSheet_accountable {sheet : Sheet} {consumer : Consumer} (hc : consumer.Fresh)
    (h : ofSheet sheet params consumer = .ok start) :
    start.Invariant ∧ start.Accountable [sheet] params start.consumer.sink? := by
  obtain ⟨hl, ho⟩ := hc.listens
  refine ⟨ofSheet_invariant h hl ho, ?_⟩
  obtain ⟨synth, hn, rfl⟩ := ofSheet_lone h
  exact ⟨⟨sheet, List.mem_singleton_self sheet, Synth.new_accountable hn⟩, hc.accountable _⟩

theorem ofSheets_accountable {consumer : Consumer} (hc : consumer.Fresh) (sheets : List Sheet)
    (spawnFault : Nat → Option FileFault) :
    (ofSheets sheets params consumer spawnFault).Invariant ∧
      (ofSheets sheets params consumer spawnFault).Accountable sheets params consumer.sink? := by
  obtain ⟨hl, ho⟩ := hc.listens
  exact ⟨ofSheets_invariant sheets params consumer spawnFault hl ho,
    Relay.new_accountable sheets params spawnFault, hc.accountable _⟩

/-- The consumer is fresh, and its producer is a synthesizer of the one sheet or a relay. -/
theorem Begins.shape (h : Begins params sheets start) : start.consumer.Fresh ∧
    ((∃ sheet, sheets = [sheet] ∧ ofSheet sheet params start.consumer = .ok start) ∨
      ∃ spawnFault, start = ofSheets sheets params start.consumer spawnFault) := by
  cases h with
  | lone hc hstart =>
    obtain ⟨synth, -, rfl⟩ := ofSheet_lone hstart
    exact ⟨hc, .inl ⟨_, rfl, hstart⟩⟩
  | relay sheets spawnFault hc => exact ⟨hc, .inr ⟨spawnFault, rfl⟩⟩
  | @score score sink spawnFault start hstart =>
    cases score with
    | single sheet =>
      obtain ⟨synth, -, rfl⟩ := ofSheet_lone hstart
      exact ⟨.playback params sink, .inl ⟨sheet, rfl, hstart⟩⟩
    | medley sheets =>
      cases hstart
      exact ⟨.playback params sink, .inr ⟨spawnFault, rfl⟩⟩

theorem Begins.accountable (h : Begins params sheets start) :
    start.Invariant ∧ start.Accountable sheets params start.consumer.sink? := by
  obtain ⟨hc, ⟨sheet, rfl, hstart⟩ | ⟨spawnFault, hstart⟩⟩ := h.shape
  · exact ofSheet_accountable hc hstart
  · rw [hstart]
    exact ofSheets_accountable hc sheets spawnFault

/-! ### Results -/

def Synthesizes (s : Session) (synth : Synth) : Prop :=
  match s.producer with
  | .lone own => synth = own
  | .relay r => ∃ i c, r.child? i = some c ∧ synth = c.synth

inductive Reports (s : Session) : Error → Prop where
  | synth {synth : Synth} {e : Error} : s.Synthesizes synth →
      synth.result? = some (.error (.reported e)) → s.Reports e
  | producer {e : Error} : s.producer.result? = some (.error (.reported e)) → s.Reports e
  | playback {p : Playback} {e : Error} : s.consumer = .playback p →
      p.result? = some (.error e) → s.Reports e

/-- The synthesizers of a session work in order, and what they fail with is allowed by their
sheets. -/
theorem Accountable.synthesizes {sink? : Option Sink} (h : s.Accountable sheets params sink?)
    (hi : s.Invariant) {synth : Synth} (hs : s.Synthesizes synth) :
    synth.Valid ∧ ∃ sheet ∈ sheets, synth.Accountable sheet params := by
  have hp := h.producer
  have hl := hi.linked
  rw [Synthesizes] at hs
  cases hproducer : s.producer with
  | lone own =>
    rw [hproducer] at hs hp hl
    subst hs
    exact ⟨hl.valid, hp⟩
  | relay r =>
    rw [hproducer] at hs hp hl
    obtain ⟨i, c, hchild, rfl⟩ := hs
    obtain ⟨sheet, hsheet, ha⟩ := hp.children i c hchild
    exact ⟨(hl.invariant.children i c hchild).1.linked.valid, sheet,
      List.mem_of_getElem? hsheet, ha⟩

end Session

/-- The error can only arise where notes are taken and bars are mixed. -/
def Error.ArisesInRun : Error → Prop
  | .malformedNote _ | .buffer _ => True
  | _ => False

theorem Relay.Fails.of_run {sheets : List Sheet} {params : Audio.Params} {e : Error}
    (h : Relay.Fails sheets params (.reported e)) (he : e.ArisesInRun) :
    ∃ sheet ∈ sheets, sheet.Fails params (.reported e) := by
  generalize hf : Failure.reported e = f at h
  cases h with
  | lost hs hn =>
    rw [Synth.new_eq] at hn
    split at hn
    · cases hn
      cases hf
    · cases hn
  | notSpawned | interrupted | unheard =>
    cases hf
    exact he.elim
  | @child i sheet f hs hfail =>
    cases hf
    cases f with
    | reported e => exact ⟨sheet, List.mem_of_getElem? hs, hfail⟩
    | outOfRoom => exact he.elim

namespace Session

variable {sheets : List Sheet} {params : Audio.Params} {s start : Session}

theorem Producer.Fails.of_run {e : Error} (h : Producer.Fails sheets params (.reported e))
    (he : e.ArisesInRun) : ∃ sheet ∈ sheets, sheet.Fails params (.reported e) := by
  cases h with
  | lone hs hf => exact ⟨_, hs, hf⟩
  | relay hf => exact hf.of_run he

/-- Such an error is handed on, from the run of a sheet to whoever reports it, unless a sink
raises it. -/
theorem Accountable.of_run {sink? : Option Sink} (h : s.Accountable sheets params sink?)
    (hi : s.Invariant) {e : Error} (hr : s.Reports e) (he : e.ArisesInRun) :
    (∃ sheet ∈ sheets, sheet.Fails params (.reported e)) ∨ ∃ sink ∈ sink?, sink.Raises e := by
  cases hr with
  | synth hs hresult =>
    obtain ⟨-, sheet, hmem, ha⟩ := h.synthesizes hi hs
    exact .inl ⟨sheet, hmem, ha.fails hresult⟩
  | producer hresult => exact .inl ((h.producer.fails hresult).of_run he)
  | playback hp hresult =>
    have hc := h.consumer
    rw [hp] at hc
    obtain ⟨sink, hsink, ha⟩ := hc
    cases ha.fails hresult with
    | sink hraised => exact .inr ⟨sink, hsink, hraised⟩
    | producer hf => exact .inl (hf.of_run he)
    | producerLost => exact he.elim

structure FailsFromOutside (sheets : List Sheet) (start s : Session) : Prop where
  appends : ∀ synth, s.Synthesizes synth → ∀ track, synth.phase = .polling track →
    track < synth.mixer.lanes.length ∧ synth.mixer.isTrackFull track = false
  flushes : ∀ synth, s.Synthesizes synth → ∀ bar, synth.phase = .serving bar false →
    Synth.Flushed bar synth.mixer
  no_misuse : ∀ misuse, s.Reports (.buffer misuse) →
    ∃ sink ∈ start.consumer.sink?, sink.Raises (.buffer misuse)
  no_malformed : (∀ sheet ∈ sheets, sheet.Accepted) → ∀ text, s.Reports (.malformedNote text) →
    ∃ sink ∈ start.consumer.sink?, sink.Raises (.malformedNote text)
  results : (∀ sheet ∈ sheets, sheet.Accepted) → ∀ synth, s.Synthesizes synth →
    ∀ f, synth.result? = some (.error f) →
      f = .reported .interrupted ∨ f = .reported (.closed .synthesizerOutput) ∨ f = .outOfRoom

/-- Sheets of any kind, alone or in a row, with any consumer. In whatever order the threads move,
whenever the run is interrupted and whatever is refused: the bar buffer is never misused, and
with accepted sheets no note fails to evaluate. -/
theorem session_fails_from_outside (hb : Begins params sheets start) {es : List Event}
    (he : Execution start es s) : FailsFromOutside sheets start s := by
  obtain ⟨hi, ha⟩ := hb.accountable
  have hs := execution_preserves_invariant he hi
  have h := execution_preserves_accountable he ha hi
  constructor
  · intro synth hsynth track hp
    obtain ⟨hv, -⟩ := h.synthesizes hs hsynth
    rw [Synth.Valid, hp] at hv
    obtain ⟨hsound, ht, hw, -⟩ := hv
    rw [Synth.wants, Bool.and_eq_true, Bool.not_eq_true', Bool.not_eq_true'] at hw
    exact ⟨hsound.lanes_length ▸ ht, hw.2⟩
  · intro synth hsynth bar hp
    obtain ⟨-, sheet, -, hsheet⟩ := h.synthesizes hs hsynth
    rw [Synth.Accountable, hp] at hsheet
    exact hsheet.2
  · intro misuse hr
    refine (h.of_run hs hr trivial).resolve_left ?_
    rintro ⟨sheet, -, hf⟩
    exact hf.not_buffer
  · intro haccepted text hr
    refine (h.of_run hs hr trivial).resolve_left ?_
    rintro ⟨sheet, hmem, hf⟩
    exact (haccepted sheet hmem).not_malformed hf
  · intro haccepted synth hsynth f hr
    obtain ⟨-, sheet, hmem, hsheet⟩ := h.synthesizes hs hsynth
    cases hsheet.fails hr with
    | interrupted => exact .inl rfl
    | unheard => exact .inr (.inl rfl)
    | malformed => exact absurd (hsheet.fails hr) (haccepted sheet hmem).not_malformed
    | outOfRoom => exact .inr (.inr rfl)

/-- Two sheets for a playback; the first has more notes than fit into its bars. -/
def cutShort : List Sheet :=
  [⟨1323000, ⟨1, 4⟩, [⟨["C4-", "A4-"]⟩, ⟨["G3--"]⟩]⟩, ⟨1323000, ⟨1, 4⟩, [⟨["G3"]⟩]⟩]

/-- The run is interrupted when the first bar is on its way, and goes on to its end. -/
def cuttingShort : List Event :=
  [.produce, .produceChild 0, .produceChild 0, .produceChild 0, .produceChild 0, .produce, .produce,
    .produce, .interrupt, .consume, .consume, .produceChild 0, .produce, .produce, .produce,
    .consume, .consume, .consume, .produce, .produceChild 0, .produceChild 0, .produce,
    .produceChild 0, .produceChild 0, .produce, .produce, .produce, .consume]

theorem interrupted_playback_fails_from_outside :
    (∀ sheet ∈ cutShort, sheet.Accepted) ∧ ∃ start s,
      ofScore (.medley cutShort) {} .memory = .ok start ∧ Execution start cuttingShort s ∧
      FailsFromOutside cutShort start s ∧
      s.producer.result? = some (.error (.reported .interrupted)) ∧
      (∀ text, ¬ s.Reports (.malformedNote text)) ∧
      ∀ synth, s.Synthesizes synth → ∀ f, synth.result? = some (.error f) →
        f = .reported .interrupted ∨ f = .reported (.closed .synthesizerOutput) ∨
          f = .outOfRoom := by
  have ha : ∀ sheet ∈ cutShort, sheet.Accepted := by decide +kernel
  have he : Execution (ofSheets cutShort {} (.playback (.new {} .memory))) cuttingShort _ :=
    Admits.execution (by decide +kernel)
  have h := session_fails_from_outside (.relay cutShort _ (.playback {} .memory)) he
  refine ⟨ha, _, _, rfl, he, h, by decide +kernel, ?_, h.results ha⟩
  intro text hr
  obtain ⟨sink, hsink, hraised⟩ := h.no_malformed ha text hr
  cases hsink
  rcases hraised with ⟨number, hwrite⟩ | hfinish
  · cases hwrite
  · cases hfinish

end Session

end PlainScore
