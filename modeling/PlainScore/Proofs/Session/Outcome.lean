import PlainScore.Proofs.Session.Alone
import PlainScore.Proofs.Session.Streams

/-! What a playback comes to.
The bars of the producer, its result and the faults of the sink settle what the sink sees and what
is returned; the order in which the threads move does not. A sink that refuses a bar lets the
producer end with an error of its own, which nobody is told. -/
namespace PlainScore

structure Outcome where
  writes : List (List Sample)
  finishes : Nat
  result : Except Error Unit

namespace Sink

def refusal? (sink : Sink) (count : Nat) : Option (Nat × Error) :=
  (List.range count).findSome? fun k => (sink.writeFault k).map (k, ·)

/-- A refused write is the last call. Otherwise the sink takes all bars and is finished. -/
def outcome (sink : Sink) (bars : List (List Sample)) (own : Except Error Unit) : Outcome :=
  match sink.refusal? bars.length with
  | some (k, e) => ⟨bars.take (k + 1), 0, .error e⟩
  | none =>
    match sink.finishFault with
    | some e => ⟨bars, 1, .error e⟩
    | none => ⟨bars, 1, own⟩

def Takes (sink : Sink) (count : Nat) : Prop := ∀ k < count, sink.writeFault k = none

variable {sink : Sink} {count : Nat} {bars : List (List Sample)} {own : Except Error Unit}

theorem refusal_of_takes (h : sink.Takes count) : sink.refusal? count = none := by
  rw [refusal?, List.findSome?_eq_none_iff]
  intro k hk
  rw [h k (List.mem_range.mp hk)]
  rfl

theorem refusal_of_fault {k : Nat} {e : Error} (h : sink.Takes k) (hk : k < count)
    (he : sink.writeFault k = some e) : sink.refusal? count = some (k, e) := by
  have happ := List.range'_append_1 (s := 0) (m := k) (n := count - k)
  have hrest : count - k = count - (k + 1) + 1 := by omega
  have hcount : k + (count - k) = count := by omega
  rw [hcount, Nat.zero_add, hrest, List.range'_succ] at happ
  rw [refusal?, List.range_eq_range', ← happ, List.findSome?_eq_some_iff]
  refine ⟨_, k, _, rfl, by rw [he]; rfl, ?_⟩
  intro j hj
  rw [List.mem_range'_1] at hj
  rw [h j (by omega)]
  rfl

theorem Takes.succ (h : sink.Takes count) (hn : sink.writeFault count = none) :
    sink.Takes (count + 1) := by
  intro k hk
  rcases Nat.lt_or_eq_of_le (Nat.le_of_lt_succ hk) with hlt | rfl
  · exact h k hlt
  · exact hn

/-- The calls of a playback that goes on are the first calls of the outcome. -/
theorem Takes.writes_begin {ws : List (List Sample)} (h : sink.Takes ws.length)
    (hw : ws <+: bars) : ws <+: (sink.outcome bars own).writes := by
  rw [outcome]
  cases hr : sink.refusal? bars.length with
  | none =>
    dsimp only
    split <;> exact hw
  | some refusal =>
    obtain ⟨k, e⟩ := refusal
    obtain ⟨k', hk', he⟩ := List.exists_of_findSome?_eq_some hr
    obtain ⟨e', he', hpair⟩ := Option.map_eq_some_iff.mp he
    cases hpair
    have hle : ws.length ≤ k := by
      by_contra hlt
      rw [h k (Nat.not_le.mp hlt)] at he'
      cases he'
    exact List.prefix_take_iff.mpr ⟨hw, Nat.le_succ_of_le hle⟩

end Sink

namespace Playback

variable {p : Playback} {bar : List Sample}

theorem put_writes (p : Playback) (bar : List Sample) : (p.put bar).writes = p.writes ++ [bar] ∧
    (p.put bar).finishes = p.finishes ∧ (p.put bar).sink = p.sink ∧
    (p.put bar).phase = match p.sink.writeFault p.writes.length with
      | none => .receiving
      | some e => .hangingUp (.error e) := by
  unfold put
  dsimp only
  split <;> split <;> simp_all [goTo, write]

theorem finish_spec (p : Playback) : p.finish.writes = p.writes ∧
    p.finish.finishes = p.finishes + 1 ∧ p.finish.sink = p.sink ∧
    p.finish.phase = match p.sink.finishFault with
      | none => .hangingUp (.ok ())
      | some e => .hangingUp (.error e) := by
  unfold finish
  dsimp only
  split <;> simp_all [goTo]

end Playback

namespace Session

variable {sink : Sink} {bars : List (List Sample)} {own : Except Error Unit} {s : Session}
  {p : Playback}

/-- From what the sink has come to, what is returned is settled: its error, or the result of a
producer that has nothing more to send. -/
inductive Settled (own : Except Error Unit) (s : Session) :
    Except Error Unit → Except Error Unit → Prop where
  | refused {e : Error} {rest : List Chunk} {result : Playback.Result} :
      s.producer.Performs rest result → result ≠ .error .outOfRoom →
      Settled own s (.error e) (.error e)
  | taken : s.output.slot = none → s.producer.Performs [] (own.mapError .reported) →
      Settled own s (.ok ()) own

def Progress (sink : Sink) (bars : List (List Sample)) (own : Except Error Unit) (s : Session)
    (p : Playback) : Prop :=
  match p.phase with
  | .receiving => sink.Takes p.writes.length ∧ p.finishes = 0 ∧
      s.Streams (p.writes.map .samples) (bars.map .samples ++ [.endOfStream])
        (own.mapError .reported)
  | .writing bar => sink.Takes p.writes.length ∧ p.finishes = 0 ∧
      s.Streams ((p.writes ++ [bar]).map .samples) (bars.map .samples ++ [.endOfStream])
        (own.mapError .reported)
  | .finishing => sink.Takes bars.length ∧ p.writes = bars ∧ p.finishes = 0 ∧
      s.output.slot = none ∧ s.producer.Performs [] (own.mapError .reported)
  | .hangingUp consumed | .joining consumed => ∃ verdict,
      sink.outcome bars own = ⟨p.writes, p.finishes, verdict⟩ ∧ Settled own s consumed verdict
  | .done result => sink.outcome bars own = ⟨p.writes, p.finishes, result⟩

structure Plays (sink : Sink) (bars : List (List Sample)) (own : Except Error Unit) (s : Session)
    (p : Playback) : Prop where
  consumer : s.consumer = .playback p
  sink_eq : p.sink = sink
  progress : Progress sink bars own s p

/-! ### Steps of the producer -/

theorem produce_after_end {result : Playback.Result} (h : s.producer.Performs [] result)
    (hslot : s.output.slot = none) (hi : s.Invariant) (he : Enabled s .produce)
    (hflag : s.interrupted = false) :
    (next s .produce).output.slot = none ∧ (next s .produce).producer.Performs [] result := by
  obtain ⟨rest, result', hp, ha⟩ := h.advanced hi.linked he
  obtain ⟨rfl, heq⟩ := ha.kept (.inr rfl)
  rw [hslot, Option.toList_none, List.append_nil] at heq
  obtain ⟨hout, rfl⟩ := List.append_eq_nil_iff.mp heq.symm
  simp only [next, hflag]
  exact ⟨Option.toList_eq_nil_iff.mp hout, hp⟩

theorem Settled.produce {consumed verdict : Except Error Unit}
    (h : Settled own s consumed verdict) (hi : s.Invariant) (he : Enabled s .produce)
    (hflag : s.interrupted = false) : Settled own (next s .produce) consumed verdict := by
  cases h with
  | refused hp hn =>
    obtain ⟨rest, result', hp', ha⟩ := hp.advanced hi.linked he
    rw [← hflag] at hp'
    refine .refused hp' ?_
    rcases ha.reported with rfl | ⟨e, rfl⟩
    · exact hn
    · simp
  | taken hslot hp =>
    obtain ⟨hslot', hp'⟩ := produce_after_end hp hslot hi he hflag
    exact .taken hslot' hp'

theorem Settled.produceChild {consumed verdict : Except Error Unit} {i : Nat}
    (h : Settled own s consumed verdict) (hi : s.Invariant) (he : Enabled s (.produceChild i))
    (hflag : s.interrupted = false) :
    Settled own (next s (.produceChild i)) consumed verdict := by
  cases h with
  | refused hp hn => exact .refused (hp.produceChild hi he hflag) hn
  | taken hslot hp =>
    refine .taken ?_ (hp.produceChild hi he hflag)
    obtain ⟨r, c, -, -, -, hnext⟩ := next_produceChild he
    rw [hnext]
    exact hslot

theorem produce_preserves_progress (h : Progress sink bars own s p) (hi : s.Invariant)
    (hcons : s.consumer = .playback p) (he : Enabled s .produce) (hflag : s.interrupted = false) :
    Progress sink bars own (next s .produce) p := by
  have hreceiver := hi.receiver
  rw [hcons, Consumer.listens] at hreceiver
  rw [Progress] at h ⊢
  cases hp : p.phase with
  | receiving | writing =>
    rw [hp] at h hreceiver
    obtain ⟨ht, hf, hs⟩ := h
    exact ⟨ht, hf, hs.produce hi hreceiver he hflag⟩
  | finishing =>
    rw [hp] at h
    obtain ⟨ht, hw, hf, hslot, hprod⟩ := h
    exact ⟨ht, hw, hf, produce_after_end hprod hslot hi he hflag⟩
  | hangingUp | joining =>
    rw [hp] at h
    obtain ⟨verdict, ho, hs⟩ := h
    exact ⟨verdict, ho, hs.produce hi he hflag⟩
  | done =>
    rw [hp] at h
    exact h

theorem produceChild_preserves_progress {i : Nat} (h : Progress sink bars own s p)
    (hi : s.Invariant) (he : Enabled s (.produceChild i)) (hflag : s.interrupted = false) :
    Progress sink bars own (next s (.produceChild i)) p := by
  rw [Progress] at h ⊢
  cases hp : p.phase with
  | receiving | writing =>
    rw [hp] at h
    obtain ⟨ht, hf, hs⟩ := h
    exact ⟨ht, hf, hs.produceChild hi he hflag⟩
  | finishing =>
    rw [hp] at h
    obtain ⟨ht, hw, hf, hslot, hprod⟩ := h
    have hprod' := hprod.produceChild hi he hflag
    obtain ⟨r, c, -, -, -, hnext⟩ := next_produceChild he
    rw [hnext] at hprod' ⊢
    exact ⟨ht, hw, hf, hslot, hprod'⟩
  | hangingUp | joining =>
    rw [hp] at h
    obtain ⟨verdict, ho, hs⟩ := h
    exact ⟨verdict, ho, hs.produceChild hi he hflag⟩
  | done =>
    rw [hp] at h
    exact h

/-! ### Steps of the consumer -/

theorem combine_of_reported {e : Error} {result : Playback.Result}
    (h : result ≠ .error .outOfRoom) : Playback.combine (.error e) result = .error e := by
  cases result with
  | ok => rfl
  | error f =>
    cases f with
    | reported => rfl
    | outOfRoom => exact absurd rfl h

theorem combine_of_taken (own : Except Error Unit) :
    Playback.combine (.ok ()) (own.mapError .reported) = own := by
  cases own <;> rfl

theorem Settled.combine {consumed verdict : Except Error Unit} {result : Playback.Result}
    (h : Settled own s consumed verdict) (hr : s.producer.result? = some result) :
    Playback.combine consumed result = verdict := by
  cases h with
  | refused hp hn =>
    obtain ⟨-, rfl⟩ := hp.of_result hr
    exact combine_of_reported hn
  | taken _ hp =>
    obtain ⟨-, rfl⟩ := hp.of_result hr
    exact combine_of_taken own

theorem outcome_of_refused {k : Nat} {e : Error} {ws : List (List Sample)}
    (ht : sink.Takes k) (he : sink.writeFault k = some e) (hw : ws <+: bars)
    (hk : ws.length = k + 1) : sink.outcome bars own = ⟨ws, 0, .error e⟩ := by
  have hlt : k < bars.length := Nat.lt_of_lt_of_le (by omega) hw.length_le
  rw [Sink.outcome, Sink.refusal_of_fault ht hlt he]
  dsimp only
  rw [← hk, ← List.prefix_iff_eq_take.mp hw]

theorem put_progress {bar : List Sample} (hsink : p.sink = sink)
    (ht : sink.Takes p.writes.length) (hf : p.finishes = 0)
    (hs : s.Streams ((p.writes ++ [bar]).map .samples) (bars.map .samples ++ [.endOfStream])
      (own.mapError .reported)) : Progress sink bars own s (p.put bar) := by
  obtain ⟨hwrites, hfinishes, -, hphase⟩ := p.put_writes bar
  rw [hsink] at hphase
  rw [Progress, hphase, hwrites, hfinishes]
  cases he : sink.writeFault p.writes.length with
  | none =>
    refine ⟨?_, hf, hs⟩
    rw [List.length_append, List.length_singleton]
    exact ht.succ he
  | some e =>
    -- The producer may yet fail because nobody listens; its error is not the one returned.
    obtain ⟨rest, hp, heq⟩ := hs
    rw [List.append_assoc] at heq
    refine ⟨.error e, ?_, .refused hp (by cases own <;> simp [Except.mapError])⟩
    rw [hf]
    exact outcome_of_refused ht he (prefix_of_sent heq) (by simp)

theorem finish_progress (hsink : p.sink = sink) (ht : sink.Takes bars.length)
    (hw : p.writes = bars) (hf : p.finishes = 0) (hslot : s.output.slot = none)
    (hprod : s.producer.Performs [] (own.mapError .reported)) :
    Progress sink bars own s p.finish := by
  obtain ⟨hwrites, hfinishes, -, hphase⟩ := p.finish_spec
  rw [hsink] at hphase
  rw [Progress, hphase, hwrites, hfinishes, hw, hf, Sink.outcome, Sink.refusal_of_takes ht]
  cases he : sink.finishFault with
  | none => exact ⟨own, rfl, .taken hslot hprod⟩
  | some e =>
    exact ⟨.error e, rfl, .refused hprod (by cases own <;> simp [Except.mapError])⟩

theorem consume_preserves_plays (h : Plays sink bars own s p) (hi : s.Invariant)
    (he : Enabled s .consume) : ∃ p, Plays sink bars own (next s .consume) p := by
  obtain ⟨hcons, hsink, hprog⟩ := h
  have hc : p.canStep s.output s.producer.result? = true := by
    simpa only [Enabled, hcons, Consumer.canStep] using he
  have hm := Playback.step_moved hc
  have hnext : next s .consume = { s with
      consumer := .playback (p.step s.producer.result? s.output).1
      output := (p.step s.producer.result? s.output).2
      interrupted := s.interrupted || p.interruptsNext } := by
    simp only [next, hcons, Consumer.step, Consumer.interruptsNext]
  rw [hnext]
  generalize p.step s.producer.result? s.output = after at hm ⊢
  obtain ⟨p', out⟩ := after
  dsimp only at hm ⊢
  rw [Progress] at hprog
  suffices key : p'.sink = sink ∧ Progress sink bars own { s with
      consumer := .playback p'
      output := out
      interrupted := s.interrupted || p.interruptsNext } p' from ⟨p', rfl, key.1, key.2⟩
  cases hm with
  | @received bar l hp hslot =>
    rw [hp] at hprog
    obtain ⟨ht, hf, rest, hprod, heq⟩ := hprog
    rw [hslot, Option.toList_some, List.append_assoc] at heq
    have hmap : (p.writes ++ [bar]).map .samples ++ [] ++ rest =
        bars.map .samples ++ [.endOfStream] := by
      rw [List.append_nil, List.map_append, List.append_assoc]
      exact heq
    exact ⟨hsink, ht, hf, rest, hprod, hmap⟩
  | receivedEnd hp hslot =>
    rw [hp] at hprog
    obtain ⟨ht, hf, rest, hprod, heq⟩ := hprog
    rw [hslot, Option.toList_some, List.append_assoc] at heq
    obtain ⟨hw, rfl⟩ := marker_last heq
    exact ⟨hsink, hw ▸ ht, hw, hf, rfl, hprod⟩
  | cutOff hp hslot hd =>
    rw [hp] at hprog
    obtain ⟨-, -, hs⟩ := hprog
    -- An output is closed only behind its end marker, and the marker was not received yet.
    have hover : s.producer.result?.isSome = true := by
      rw [← Option.not_isNone, ← hi.linked.sender, hd]
      rfl
    have hall := (hs.all_taken hslot hover).1
    have hm : Chunk.endOfStream ∈ p.writes.map .samples := by rw [hall]; simp
    obtain ⟨_, -, hx⟩ := List.mem_map.mp hm
    cases hx
  | put hp =>
    rw [hp] at hprog
    obtain ⟨ht, hf, hs⟩ := hprog
    exact ⟨(p.put_writes _).2.2.1.trans hsink, put_progress hsink ht hf hs⟩
  | finished hp =>
    rw [hp] at hprog
    obtain ⟨ht, hw, hf, hslot, hprod⟩ := hprog
    exact ⟨p.finish_spec.2.2.1.trans hsink, finish_progress hsink ht hw hf hslot hprod⟩
  | hungUp hp =>
    rw [hp] at hprog
    obtain ⟨verdict, ho, hs⟩ := hprog
    refine ⟨hsink, verdict, ho, ?_⟩
    cases hs with
    | refused hprod hn => exact .refused hprod hn
    | taken _ hprod => exact .taken rfl hprod
  | joined hp hres =>
    rw [hp] at hprog
    obtain ⟨verdict, ho, hs⟩ := hprog
    refine ⟨hsink, ?_⟩
    rw [hs.combine hres]
    exact ho

/-! ### Playbacks -/

theorem step_preserves_plays (h : Plays sink bars own s p) (hi : s.Invariant) {e : Event}
    (he : Enabled s e) (hflag : (next s e).interrupted = false) :
    ∃ p, Plays sink bars own (next s e) p := by
  have hbefore := uninterrupted_before hflag
  cases e with
  | consume => exact consume_preserves_plays h hi he
  | produce =>
    exact ⟨p, h.consumer, h.sink_eq,
      produce_preserves_progress h.progress hi h.consumer he hbefore⟩
  | produceChild i =>
    refine ⟨p, ?_, h.sink_eq, produceChild_preserves_progress h.progress hi he hbefore⟩
    obtain ⟨r, c, -, -, -, hnext⟩ := next_produceChild he
    rw [hnext]
    exact h.consumer
  | interrupt => cases hflag

theorem execution_preserves_plays {t : Session} {es : List Event} (he : Execution s es t)
    (h : Plays sink bars own s p) (hi : s.Invariant) (hflag : t.interrupted = false) :
    ∃ p, Plays sink bars own t p := by
  refine uninterrupted_preserves (P := fun s => ∃ p, Plays sink bars own s p) ?_ he ⟨p, h⟩ hi
    hflag
  rintro s e ⟨p, h⟩ hi he hafter
  exact step_preserves_plays h hi he hafter

structure PlaysOut (sink : Sink) (bars : List (List Sample)) (own : Except Error Unit)
    (s : Session) (p : Playback) : Prop where
  consumer : s.consumer = .playback p
  writes : p.writes <+: (sink.outcome bars own).writes
  finishes : p.finishes ≤ (sink.outcome bars own).finishes
  finished : 0 < p.finishes → p.writes = bars
  returned : ∀ result, p.result? = some result →
    ⟨p.writes, p.finishes, result⟩ = sink.outcome bars own
  returns : s.Quiet → p.result?.isSome = true

theorem writes_of_finished {ws : List (List Sample)} {n : Nat} {verdict : Except Error Unit}
    (h : sink.outcome bars own = ⟨ws, n, verdict⟩) (hn : 0 < n) : ws = bars := by
  rw [Sink.outcome] at h
  split at h
  · cases h
    cases hn
  · split at h <;> cases h <;> rfl

theorem Plays.returns (h : Plays sink bars own s p) (hi : s.Invariant) (hq : s.Quiet) :
    p.result?.isSome = true := by
  have hover := (hq.ended hi).2
  rwa [h.consumer] at hover

/-- Until the end marker the sink has taken everything that it was given. -/
theorem Plays.underway (h : Plays sink bars own s p) (hi : s.Invariant) (hw : p.writes <+: bars)
    (ht : sink.Takes p.writes.length) (hf : p.finishes = 0) (hnone : p.result? = none) :
    PlaysOut sink bars own s p := by
  constructor
  · exact h.consumer
  · exact ht.writes_begin hw
  · rw [hf]
    exact Nat.zero_le _
  · intro hpos
    rw [hf] at hpos
    cases hpos
  · intro result hr
    cases hnone.symm.trans hr
  · exact h.returns hi

theorem Plays.decided {verdict : Except Error Unit} (h : Plays sink bars own s p)
    (hi : s.Invariant) (ho : sink.outcome bars own = ⟨p.writes, p.finishes, verdict⟩)
    (hresult : ∀ result, p.result? = some result → result = verdict) :
    PlaysOut sink bars own s p := by
  constructor
  · exact h.consumer
  · have hw : p.writes = (sink.outcome bars own).writes := by rw [ho]
    exact hw ▸ List.prefix_rfl
  · rw [ho]
  · exact writes_of_finished ho
  · intro result hr
    rw [ho, hresult result hr]
  · exact h.returns hi

theorem Plays.playsOut (h : Plays sink bars own s p) (hi : s.Invariant) :
    PlaysOut sink bars own s p := by
  have hprog := h.progress
  rw [Progress] at hprog
  cases hp : p.phase with
  | receiving =>
    rw [hp] at hprog
    obtain ⟨ht, hf, rest, -, heq⟩ := hprog
    rw [List.append_assoc] at heq
    exact h.underway hi (prefix_of_sent heq) ht hf (by rw [Playback.result?, hp])
  | writing bar =>
    rw [hp] at hprog
    obtain ⟨ht, hf, rest, -, heq⟩ := hprog
    rw [List.append_assoc] at heq
    have hw := (List.prefix_append p.writes [bar]).trans (prefix_of_sent heq)
    exact h.underway hi hw ht hf (by rw [Playback.result?, hp])
  | finishing =>
    rw [hp] at hprog
    obtain ⟨ht, hw, hf, -⟩ := hprog
    exact h.underway hi (hw ▸ List.prefix_rfl) (hw ▸ ht) hf (by rw [Playback.result?, hp])
  | hangingUp | joining =>
    rw [hp] at hprog
    obtain ⟨verdict, ho, -⟩ := hprog
    refine h.decided hi ho ?_
    intro result hr
    rw [Playback.result?, hp] at hr
    cases hr
  | done verdict =>
    rw [hp] at hprog
    refine h.decided hi hprog ?_
    intro result hr
    rw [Playback.result?, hp] at hr
    cases hr
    rfl

/-! ### Whole playbacks -/

/-- What the producer of a score performs is settled by the score. -/
theorem score_performs (score : Score) (params : Audio.Params)
    (spawnFault : Nat → Option FileFault) :
    ∃ chunks result,
      (result = .error .outOfRoom ∨
        ∃ bars : List (List Sample), chunks = bars.map .samples ++ [.endOfStream]) ∧
      ∀ sink start, ofScore score params sink spawnFault = .ok start → ∃ producer,
        start = ⟨false, {}, producer, .playback (.new params sink)⟩ ∧
          producer.Performs chunks result := by
  cases score with
  | single sheet =>
    cases hn : Synth.new sheet params with
    | error f =>
      refine ⟨[], .error .outOfRoom, .inl rfl, ?_⟩
      intro sink start h
      obtain ⟨synth, hn', -⟩ := ofSheet_lone h
      cases hn.symm.trans hn'
    | ok synth =>
      obtain ⟨own, synth', hn', hp⟩ := Sheet.performs_exists hn
      cases hn.symm.trans hn'
      refine ⟨own.chunks, own.result.map fun _ => (), .inr ⟨own.bars, rfl⟩, ?_⟩
      intro sink start h
      obtain ⟨synth', hn', rfl⟩ := ofSheet_lone h
      cases hn.symm.trans hn'
      exact ⟨.lone synth, rfl, own.result, hp, rfl⟩
  | medley sheets =>
    obtain ⟨chunks, own, hm⟩ : ∃ chunks own,
        Relay.Medley sheets params spawnFault (.before 0 []) chunks own :=
      Relay.medley_exists 0 []
    refine ⟨chunks, own.map fun _ => (), ?_, ?_⟩
    · refine hm.shape.imp_left ?_
      rintro rfl
      rfl
    · intro sink start h
      cases h
      exact ⟨.relay (.new sheets params spawnFault), rfl, own, Relay.new_performs hm, rfl⟩

def withListener (s : Session) : Session := { s with consumer := .listener (.new none) }

theorem withListener_invariant (h : s.Invariant) (hr : s.output.receiver = true) :
    s.withListener.Invariant := by
  refine ⟨hr, h.linked, ?_⟩
  intro p hp _
  cases hp

/-- What the threads of a score come to, in whatever order they move: a listener who takes
everything hears these chunks and finds this result, and unless the producer loses its thread,
any sink sees of its bars and any playback returns what is the outcome of these alone. -/
def Settles (score : Score) (params : Audio.Params) (spawnFault : Nat → Option FileFault)
    (chunks : List Chunk) (result : Playback.Result) : Prop :=
  ∀ sink start, ofScore score params sink spawnFault = .ok start →
    (∀ es s, Execution start.withListener es s → .interrupt ∉ es →
      threadSteps es ≤ start.withListener.weight ∧ s.HearsAll chunks result) ∧
    ∀ own : Except Error Unit, result = own.mapError .reported →
      ∃ bars, chunks = bars.map .samples ++ [.endOfStream] ∧
        ∀ es s, Execution start es s → s.interrupted = false →
          threadSteps es ≤ start.weight ∧ ∃ p, PlaysOut sink bars own s p

/-- The outcome of a playback is independent of the schedule, for every score and for every sink
with its faults. -/
theorem playback_outcome_ignores_schedule (score : Score) (params : Audio.Params)
    (spawnFault : Nat → Option FileFault) :
    ∃ chunks result, Settles score params spawnFault chunks result := by
  obtain ⟨chunks, result, hshape, hstarts⟩ := score_performs score params spawnFault
  refine ⟨chunks, result, ?_⟩
  intro sink start h
  obtain ⟨hi, -⟩ := ofScore_invariant h
  obtain ⟨producer, rfl, hp⟩ := hstarts sink start h
  have hstream : Streams ⟨false, {}, producer, .playback (.new params sink)⟩ [] chunks result :=
    ⟨chunks, hp, rfl⟩
  constructor
  · intro es s he hu
    have hi' := withListener_invariant hi rfl
    have hw := execution_lowers_weight he hi'
    have hflag := uninterrupted_of_listener he ⟨_, rfl⟩ hu
    have hstart : Listens chunks result
        (withListener ⟨false, {}, producer, .playback (.new params sink)⟩) (.new none) :=
      ⟨rfl, rfl, hstream, fun hg => by cases hg⟩
    obtain ⟨l, hl⟩ := execution_preserves_listens he hstart hi' hflag
    exact ⟨by omega, hl.hearsAll (execution_preserves_invariant he hi')⟩
  · rintro own rfl
    obtain ⟨bars, rfl⟩ := hshape.resolve_left (by cases own <;> simp [Except.mapError])
    refine ⟨bars, rfl, ?_⟩
    intro es s he hflag
    have hw := execution_lowers_weight he hi
    have hstart : Plays sink bars own
        ⟨false, {}, producer, .playback (.new params sink)⟩ (.new params sink) :=
      ⟨rfl, rfl, fun k hk => absurd hk (Nat.not_lt_zero k), rfl, hstream⟩
    obtain ⟨p, hplays⟩ := execution_preserves_plays he hstart hi hflag
    exact ⟨by omega, p, hplays.playsOut (execution_preserves_invariant he hi)⟩

theorem ofScore_of_performs {sheet : Sheet} {params : Audio.Params} {performance : Performance}
    (hp : sheet.Performs params performance) (sink : Sink)
    (spawnFault : Nat → Option FileFault) :
    ∃ start, ofScore (.single sheet) params sink spawnFault = .ok start ∧
      ofSheet sheet params (.listener (.new none)) = .ok start.withListener := by
  obtain ⟨synth, hs, -⟩ := hp
  refine ⟨⟨false, {}, .lone synth, .playback (.new params sink)⟩, ?_, ?_⟩
  · rw [ofScore, ofSheet, hs]
    rfl
  · rw [ofSheet, hs]
    rfl

theorem Settles.result_of_performs {sheet : Sheet} {params : Audio.Params}
    {performance : Performance} {chunks : List Chunk} {result : Playback.Result}
    {spawnFault : Nat → Option FileFault}
    (h : Settles (.single sheet) params spawnFault chunks result)
    (hp : sheet.Performs params performance) :
    result = performance.result.map fun _ => () := by
  obtain ⟨start, hs, hl⟩ := ofScore_of_performs hp .memory spawnFault
  obtain ⟨start', hl', hd⟩ := listener_hears_performance hp
  cases hl.symm.trans hl'
  obtain ⟨es, s, he, hn, hq⟩ := exists_quiet (ofSheet_invariant hl rfl rfl)
  obtain ⟨-, l, synth, -, hprod, -, hall⟩ := hd es s he hn
  obtain ⟨-, _, -, -, hquiet⟩ := (h .memory start hs).1 es s he hn
  have hres := (hquiet hq).2
  rw [hprod, Producer.result?, (hall hq).2] at hres
  exact (Option.some.inj hres).symm

/-- A half note over a quarter note, in common time, at a sink that refuses its first write: the
producer would end well, and the playback comes to the outcome of that. -/
theorem refused_notes_settle :
    ∃ bars start, ofScore (.single ⟨120, ⟨4, 4⟩, [⟨["C4-"]⟩, ⟨["G3"]⟩]⟩) {}
        { Sink.memory with writeFault := fun k => if k = 0 then some .interrupted else none } =
          .ok start ∧
      ∀ es s, Execution start es s → s.interrupted = false →
        threadSteps es ≤ start.weight ∧ ∃ p, PlaysOut
          { Sink.memory with writeFault := fun k => if k = 0 then some .interrupted else none }
          bars (.ok ()) s p := by
  have hplay : ∀ t ∈ [⟨["C4-"]⟩, (⟨["G3"]⟩ : Track)], ∀ token ∈ t.tokens,
      Sheet.Playable ⟨120, ⟨4, 4⟩, [⟨["C4-"]⟩, ⟨["G3"]⟩]⟩ {} token := by
    simp only [List.mem_cons, List.not_mem_nil, or_false, forall_eq_or_imp, forall_eq]
    exact ⟨⟨⟨.tone "C4" 60, 0.5⟩, by decide +kernel, by decide +kernel⟩,
      ⟨⟨.tone "G3" 55, 0.25⟩, by decide +kernel, by decide +kernel⟩⟩
  have hroom : Sheet.capacity ⟨120, ⟨4, 4⟩, [⟨["C4-"]⟩, ⟨["G3"]⟩]⟩ {} ≤ sampleLimit := by
    decide +kernel
  obtain ⟨report, hp⟩ := Sheet.performs_overlay hroom (by simp) hplay
  obtain ⟨chunks, result, h⟩ := playback_outcome_ignores_schedule
    (.single ⟨120, ⟨4, 4⟩, [⟨["C4-"]⟩, ⟨["G3"]⟩]⟩) {} fun _ => none
  obtain ⟨start, hs, -⟩ := ofScore_of_performs hp
    { Sink.memory with writeFault := fun k => if k = 0 then some .interrupted else none }
    fun _ => none
  obtain ⟨bars, -, hplays⟩ := (h _ start hs).2 (.ok ()) (h.result_of_performs hp)
  exact ⟨bars, start, hs, hplays⟩

end Session

end PlainScore
