import PlainScore.Proofs.Session.Failures

/-! How a stream ends for a listener who stays.
The end marker comes once and after all bars. A synthesizer sends it however its run ends, and so
does a relay that fails with an error; a relay that loses its own thread, while it makes the
synthesizer of a sheet, leaves without it. -/
namespace PlainScore

def BarsOnly (chunks : List Chunk) : Prop := ∃ bars : List (List Sample), chunks = bars.map .samples

def Ended (chunks : List Chunk) : Prop :=
  ∃ bars : List (List Sample), chunks = bars.map .samples ++ [.endOfStream]

theorem barsOnly_nil : BarsOnly [] := ⟨[], rfl⟩

theorem BarsOnly.bar {chunks : List Chunk} (h : BarsOnly chunks) (bar : List Sample) :
    BarsOnly (chunks ++ [.samples bar]) := by
  obtain ⟨bars, rfl⟩ := h
  exact ⟨bars ++ [bar], by simp⟩

theorem BarsOnly.ended {chunks : List Chunk} (h : BarsOnly chunks) :
    Ended (chunks ++ [.endOfStream]) := by
  obtain ⟨bars, rfl⟩ := h
  exact ⟨bars, rfl⟩

/-! ### Synthesizers -/

namespace Synth

variable {s : Synth} {stream : List Chunk} {output : Handoff}

/-- The end marker is the last chunk, and it was sent if the run says so. -/
def Tells (s : Synth) (stream : List Chunk) : Prop :=
  if s.hasEnded then Ended stream else BarsOnly stream

theorem Tells.step (h : s.Tells stream) (hr : output.receiver = true)
    (hc : s.canStep output = true) (interrupted : Bool) :
    ∃ new, (s.step interrupted output).2.slot.toList = output.slot.toList ++ new ∧
      (s.step interrupted output).1.Tells (stream ++ new) := by
  rw [Tells] at h
  have hm := step_moved hc interrupted
  generalize s.step interrupted output = after at hm ⊢
  obtain ⟨t, out⟩ := after
  dsimp only at hm ⊢
  have hquiet : ∀ {t : Synth}, t.hasEnded = s.hasEnded → t.Tells (stream ++ []) := by
    intro t ht
    rw [Tells, ht, List.append_nil]
    exact h
  cases hm with
  | worked hn hg => exact ⟨[], (List.append_nil _).symm, hquiet (hg.not_ended.trans hn.symm)⟩
  | stopped hp =>
    refine ⟨[], (List.append_nil _).symm, hquiet ?_⟩
    rw [hasEnded, hasEnded, hp]
    rfl
  | @served bar _ _ hp _ hslot hg =>
    rw [hasEnded, hp] at h
    refine ⟨[.samples bar], by rw [hslot]; rfl, ?_⟩
    rw [Tells, hg.not_ended]
    exact BarsOnly.bar h bar
  | refused _ hgone => cases hr.symm.trans hgone
  | ended hp _ hslot =>
    rw [hasEnded, hp] at h
    exact ⟨[.endOfStream], by rw [hslot]; rfl, BarsOnly.ended h⟩
  | unheard _ hgone => cases hr.symm.trans hgone
  | marked hp | left hp =>
    refine ⟨[], (List.append_nil _).symm, hquiet ?_⟩
    rw [hasEnded, hasEnded, hp]

end Synth

/-! ### Relays -/

namespace Relay

variable {r : Relay} {stream : List Chunk} {output : Handoff}

/-- The end marker is the last chunk. It is sent before the children that are left are emptied, and
never by a relay that has lost its thread. -/
def Tells (r : Relay) (stream : List Chunk) : Prop :=
  match r.phase with
  | .starting _ | .receiving _ | .checking _ _ | .sending _ _ | .joining _ => BarsOnly stream
  | .ending result => BarsOnly stream ∧ result ≠ .error .outOfRoom
  | .draining result _ | .discarding result _ | .reaping result _ =>
    Ended stream ∧ result ≠ .error .outOfRoom
  | .leaving result | .done result =>
    Ended stream ∧ result ≠ .error .outOfRoom ∨ BarsOnly stream ∧ result = .error .outOfRoom

theorem Tells.step (h : r.Tells stream) (hr : output.receiver = true)
    (hc : r.canStep output = true) (interrupted : Bool) :
    ∃ new, (r.step interrupted output).2.slot.toList = output.slot.toList ++ new ∧
      (r.step interrupted output).1.Tells (stream ++ new) := by
  rw [Tells] at h
  have hm := step_moved hc interrupted
  generalize r.step interrupted output = after at hm ⊢
  obtain ⟨t, out⟩ := after
  dsimp only at hm ⊢
  cases hm with
  | allPlayed hp | notSpawned hp | stopped hp | cutOff hp | failed hp =>
    rw [hp] at h
    exact ⟨[], (List.append_nil _).symm, by rwa [List.append_nil], nofun⟩
  | lost hp _ hn =>
    rw [hp] at h
    rw [Synth.new_eq] at hn
    split at hn
    · cases hn
      exact ⟨[], (List.append_nil _).symm, .inr ⟨by rwa [List.append_nil], rfl⟩⟩
    · cases hn
  | started hp | received hp | receivedEnd hp | passed hp | joined hp =>
    rw [hp] at h
    exact ⟨[], (List.append_nil _).symm, by rw [List.append_nil]; exact h⟩
  | @sent _ bar hp _ hslot =>
    rw [hp] at h
    exact ⟨[.samples bar], by rw [hslot]; rfl, BarsOnly.bar h bar⟩
  | refused _ hgone | unheard _ hgone => cases hr.symm.trans hgone
  | ended hp _ hslot =>
    rw [hp] at h
    exact ⟨[.endOfStream], by rw [hslot]; rfl, h.1.ended, h.2⟩
  | drained hp =>
    rw [hp] at h
    exact ⟨[], (List.append_nil _).symm, .inl (by rwa [List.append_nil])⟩
  | foundPending hp | foundJoined hp | foundFinished hp | discardedEnd hp | discardedAll hp
  | reaped hp =>
    rw [hp] at h
    exact ⟨[], (List.append_nil _).symm, by rw [List.append_nil]; exact h⟩
  | discarded hp =>
    refine ⟨[], (List.append_nil _).symm, ?_⟩
    rw [hp] at h
    rw [Tells, setChild_phase, hp, List.append_nil]
    exact h
  | left hp =>
    rw [hp] at h
    exact ⟨[], (List.append_nil _).symm, by rw [List.append_nil]; exact h⟩

end Relay

namespace Session

variable {sheets : List Sheet} {params : Audio.Params} {s start : Session} {l : Listener}

/-! ### A listener who stays -/

structure Stays (s : Session) (l : Listener) : Prop where
  consumer : s.consumer = .listener l
  unlimited : l.limit = none
  ended : l.gone = true → s.output.slot = none ∧ s.producer.result?.isSome = true

/-- What was sent so far: the listener has heard it, or it is in the output. -/
def stream (s : Session) (l : Listener) : List Chunk := l.heard ++ s.output.slot.toList

theorem Stays.listening (h : s.Stays l) (hi : s.Invariant)
    (hc : s.producer.canStep s.output = true) : l.gone = false ∧ s.output.receiver = true := by
  have hgone : l.gone = false := by
    rw [← Bool.not_eq_true]
    intro hg
    rw [Producer.cannotStep_of_result (h.ended hg).2] at hc
    cases hc
  refine ⟨hgone, ?_⟩
  rw [hi.receiver, h.consumer, Consumer.listens, hgone]
  rfl

theorem Stays.step (h : s.Stays l) (hi : s.Invariant) {e : Event} (he : Enabled s e) :
    ∃ k, (next s e).Stays k ∧
      (e = .produce ∧ k = l ∨ e ≠ .produce ∧ (next s e).stream k = s.stream l) := by
  cases e with
  | consume =>
    have hc := canStep_of_enabled h.consumer he
    have hstream := Listener.step_stream h.unlimited hc
    have hm := Listener.step_moved hc
    rw [next_consume h.consumer]
    refine ⟨(l.step s.output).1, ?_, .inr ⟨by simp, hstream⟩⟩
    generalize l.step s.output = after at hm ⊢
    obtain ⟨k, out⟩ := after
    dsimp only at hm ⊢
    cases hm with
    | left _ hs => simp [Listener.satisfied, h.unlimited] at hs
    | heard hg =>
      exact ⟨rfl, h.unlimited, fun hgone => absurd (hg.symm.trans hgone) Bool.false_ne_true⟩
    | ended _ _ hslot hd =>
      refine ⟨rfl, h.unlimited, fun _ => ⟨rfl, ?_⟩⟩
      rw [← Option.not_isNone, ← hi.linked.sender, hd]
      rfl
  | produce =>
    obtain ⟨hgone, -⟩ := h.listening hi he
    exact ⟨l, ⟨h.consumer, h.unlimited, fun hg => absurd (hgone.symm.trans hg) Bool.false_ne_true⟩,
      .inl ⟨rfl, rfl⟩⟩
  | produceChild i =>
    obtain ⟨r, c, hp, -, -, hnext⟩ := next_produceChild he
    rw [hnext]
    refine ⟨l, ⟨h.consumer, h.unlimited, ?_⟩, .inr ⟨by simp, rfl⟩⟩
    intro hg
    obtain ⟨hslot, hover⟩ := h.ended hg
    refine ⟨hslot, ?_⟩
    rw [hp] at hover
    simpa only [Producer.result?, stepChild_preserves_result] using hover
  | interrupt => exact ⟨l, ⟨h.consumer, h.unlimited, h.ended⟩, .inr ⟨by simp, rfl⟩⟩

/-! ### The end of the stream -/

def Producer.Tells (stream : List Chunk) : Producer → Prop
  | .lone s => s.Tells stream
  | .relay r => r.Tells stream

theorem Producer.Tells.produce {p : Producer} {stream : List Chunk} {output : Handoff}
    (h : p.Tells stream) (hr : output.receiver = true) (hc : p.canStep output = true)
    (interrupted : Bool) :
    ∃ new, (p.step interrupted output).2.slot.toList = output.slot.toList ++ new ∧
      (p.step interrupted output).1.Tells (stream ++ new) := by
  cases p with
  | lone s => exact Synth.Tells.step h hr hc interrupted
  | relay r => exact Relay.Tells.step h hr hc interrupted

theorem step_preserves_tells (h : s.Stays l) (hi : s.Invariant)
    (ht : s.producer.Tells (s.stream l)) {e : Event} (he : Enabled s e) :
    ∃ k, (next s e).Stays k ∧ (next s e).producer.Tells ((next s e).stream k) := by
  obtain ⟨k, hk, ⟨rfl, rfl⟩ | ⟨hne, hstream⟩⟩ := h.step hi he
  · obtain ⟨-, hr⟩ := h.listening hi he
    obtain ⟨new, hslot, hnew⟩ := ht.produce hr he s.interrupted
    refine ⟨k, hk, ?_⟩
    rw [stream, List.append_assoc, ← hslot] at hnew
    exact hnew
  · refine ⟨k, hk, ?_⟩
    rw [hstream]
    cases e with
    | produce => exact absurd rfl hne
    | produceChild i =>
      obtain ⟨r, c, hp, hchild, -, hnext⟩ := next_produceChild he
      rw [hp] at ht
      rw [hnext, Relay.stepChild_of_child hchild]
      exact ht
    | _ => exact ht

theorem execution_preserves_tells {t : Session} {es : List Event} (he : Execution s es t)
    (h : s.Stays l) (hi : s.Invariant) (ht : s.producer.Tells (s.stream l)) :
    ∃ k, t.Stays k ∧ t.producer.Tells (t.stream k) := by
  refine execution_preserves (P := fun s => ∃ l, s.Stays l ∧ s.producer.Tells (s.stream l)) ?_ he
    ⟨l, h, ht⟩ hi
  rintro s e ⟨l, h, ht⟩ hi he
  exact step_preserves_tells h hi ht he

def Producer.IsLost : Producer → Prop
  | .lone _ => False
  | .relay r => r.result? = some (.error .outOfRoom)

theorem Producer.Tells.over {p : Producer} {stream : List Chunk} (h : p.Tells stream)
    (hover : p.result?.isSome = true) : Ended stream ∧ ¬ p.IsLost ∨ BarsOnly stream ∧ p.IsLost := by
  cases p with
  | lone synth =>
    rw [Producer.result?, Option.isSome_map] at hover
    rw [Producer.Tells, Synth.Tells,
      Synth.hasEnded_of_marked (Synth.marked_of_result hover)] at h
    exact .inl ⟨h, not_false⟩
  | relay r =>
    rw [Producer.result?, Option.isSome_map] at hover
    obtain ⟨result, hr⟩ := Option.isSome_iff_exists.mp hover
    rw [Producer.Tells, Relay.Tells, Relay.phase_of_result hr] at h
    rw [Producer.IsLost, hr, Option.some_inj]
    exact h

theorem Producer.Accountable.oversized {p : Producer} (h : p.Accountable sheets params)
    (hl : p.IsLost) : ∃ sheet ∈ sheets, sampleLimit < sheet.capacity params := by
  cases p with
  | lone s => exact hl.elim
  | relay r =>
    have hf := Relay.Accountable.fails h hl
    generalize he : Failure.outOfRoom = f at hf
    cases hf with
    | lost hs hn =>
      rw [Synth.new_eq] at hn
      split at hn
      · rename_i hlong
        exact ⟨_, hs, hlong.2⟩
      · cases hn
    | _ => cases he

theorem Stays.heard_all (h : s.Stays l) (hi : s.Invariant)
    (ht : s.producer.Tells (s.stream l)) (hq : s.Quiet) :
    l.gone = true ∧
      (Ended l.heard ∧ ¬ s.producer.IsLost ∨ BarsOnly l.heard ∧ s.producer.IsLost) := by
  have hgone := (hq.ended hi).2
  rw [h.consumer] at hgone
  obtain ⟨hslot, hover⟩ := h.ended hgone
  rw [stream, hslot, Option.toList_none, List.append_nil] at ht
  exact ⟨hgone, ht.over hover⟩

structure EndsItsStream (sheets : List Sheet) (params : Audio.Params) (s : Session) (l : Listener) :
    Prop where
  consumer : s.consumer = .listener l
  left : s.Quiet → l.gone = true
  marked : s.Quiet → ¬ s.producer.IsLost → Ended l.heard
  unmarked : s.Quiet → s.producer.IsLost → BarsOnly l.heard
  lost : s.producer.IsLost → ∃ sheet ∈ sheets, sampleLimit < sheet.capacity params

theorem Begins.tells (hb : Begins params sheets start)
    (hl : start.consumer = .listener (.new none)) :
    start.Stays (.new none) ∧ start.producer.Tells (start.stream (.new none)) := by
  have hgone : ¬ (Listener.new none).gone = true := Bool.false_ne_true
  obtain ⟨-, ⟨sheet, -, hstart⟩ | ⟨spawnFault, hstart⟩⟩ := hb.shape
  · obtain ⟨synth, hn, hlone⟩ := ofSheet_lone hstart
    obtain ⟨rfl, -⟩ := Synth.new_sound hn
    rw [hlone]
    exact ⟨⟨hl, rfl, fun hg => absurd hg hgone⟩, barsOnly_nil⟩
  · rw [hstart]
    exact ⟨⟨hl, rfl, fun hg => absurd hg hgone⟩, barsOnly_nil⟩

/-- One sheet or several in a row, and a listener who stays. However the threads move, whenever the
run is interrupted and whichever notes or threads fail, the stream ends within so many steps: with
the end marker, unless a relay panics over a bar that no vector can hold. -/
theorem stream_ends_unless_lost (hb : Begins params sheets start)
    (hl : start.consumer = .listener (.new none)) {es : List Event} (he : Execution start es s) :
    threadSteps es ≤ start.weight ∧ ∃ l, EndsItsStream sheets params s l := by
  obtain ⟨hi, ha⟩ := hb.accountable
  have hw := execution_lowers_weight he hi
  have hs := execution_preserves_invariant he hi
  obtain ⟨hstart, htells⟩ := hb.tells hl
  obtain ⟨l, hstays, htells⟩ := execution_preserves_tells he hstart hi htells
  have hquiet := hstays.heard_all hs htells
  refine ⟨by omega, l, hstays.consumer, fun hq => (hquiet hq).1, ?_, ?_, ?_⟩
  · intro hq hn
    obtain ⟨-, hend | hend⟩ := hquiet hq
    · exact hend.1
    · exact absurd hend.2 hn
  · intro hq hlost
    obtain ⟨-, hend | hend⟩ := hquiet hq
    · exact absurd hlost hend.2
    · exact hend.1
  · exact (execution_preserves_accountable he ha hi).producer.oversized

/-- A quarter note, and a sheet without notes whose bar no vector can hold. -/
def slowing : List Sheet := [⟨120, ⟨4, 4⟩, [⟨["C4"]⟩]⟩, ⟨1e-12, ⟨4, 4⟩, [⟨[]⟩]⟩]

theorem slowing_sheets_end : ∃ es s,
    Execution (ofSheets slowing {} (.listener (.new none))) es s ∧ s.Quiet ∧
      threadSteps es ≤ (ofSheets slowing {} (.listener (.new none))).weight ∧
      ∃ l, EndsItsStream slowing {} s l := by
  have hi : (ofSheets slowing {} (.listener (.new none))).Invariant :=
    ofSheets_invariant slowing {} _ _ rfl rfl
  obtain ⟨es, s, he, -, hq⟩ := exists_quiet hi
  exact ⟨es, s, he, hq, stream_ends_unless_lost (.relay slowing _ (.listener none)) rfl he⟩

/-- The bars of a sheet are heard before one for which no synthesizer can be made, and nothing
behind them. -/
theorem heard_before_lost {sheet lost : Sheet} {bars : List (List Sample)} {report : Report}
    (hfirst : sheet.Performs params ⟨bars, .ok report⟩)
    (hlost : Synth.new lost params = .error .outOfRoom) :
    ∃ es s l, Execution (ofSheets [sheet, lost] params (.listener (.new none))) es s ∧ s.Quiet ∧
      s.consumer = .listener l ∧ l.heard = bars.map .samples := by
  have hmedley : Relay.Medley [sheet, lost] params (fun _ => none) (.before 0 [])
      (bars.map .samples ++ []) (.error .outOfRoom) :=
    .played rfl hfirst rfl (.reported (.lost rfl hlost))
  have hi : (ofSheets [sheet, lost] params (.listener (.new none))).Invariant :=
    ofSheets_invariant _ params _ _ rfl rfl
  obtain ⟨es, s, he, hu, hq⟩ := exists_quiet hi
  have hflag := uninterrupted_of_listener he ⟨_, rfl⟩ hu
  have hstart : Listens (bars.map .samples ++ []) _
      (ofSheets [sheet, lost] params (.listener (.new none))) (.new none) :=
    ⟨rfl, rfl, ⟨_, ⟨_, Relay.new_performs hmedley, rfl⟩, rfl⟩,
      fun hg => absurd hg Bool.false_ne_true⟩
  obtain ⟨l, h⟩ := execution_preserves_listens he hstart hi hflag
  obtain ⟨k, hconsumer, -, hall⟩ := h.hearsAll (execution_preserves_invariant he hi)
  obtain ⟨hheard, -⟩ := hall hq
  rw [List.append_nil] at hheard
  exact ⟨es, s, k, he, hq, hconsumer, hheard⟩

theorem slowing_sheets_end_without_marker :
    (∀ sheet ∈ slowing, sheet.Accepted) ∧
    ∃ es s l, Execution (ofSheets slowing {} (.listener (.new none))) es s ∧ s.Quiet ∧
      s.consumer = .listener l ∧ .endOfStream ∉ l.heard ∧
      l.heard = (Sheet.bars ⟨120, ⟨4, 4⟩, [⟨["C4"]⟩]⟩ {}).map .samples := by
  have hplay : Sheet.Playable ⟨120, ⟨4, 4⟩, [⟨["C4"]⟩]⟩ {} "C4" :=
    ⟨⟨.tone "C4" 60, 0.25⟩, by decide +kernel, by decide +kernel⟩
  obtain ⟨report, hfirst⟩ : ∃ report, Sheet.Performs ⟨120, ⟨4, 4⟩, [⟨["C4"]⟩]⟩ {}
      ⟨Sheet.bars ⟨120, ⟨4, 4⟩, [⟨["C4"]⟩]⟩ {}, .ok report⟩ :=
    Sheet.performs_overlay (by decide +kernel) (by simp) (by simpa using hplay)
  have hlost : Synth.new ⟨1e-12, ⟨4, 4⟩, [⟨[]⟩]⟩ {} = .error .outOfRoom := by
    rw [Synth.new_eq]
    exact if_pos (by decide +kernel)
  obtain ⟨es, s, l, he, hq, hconsumer, hheard⟩ := heard_before_lost hfirst hlost
  have hunmarked : .endOfStream ∉ l.heard := by
    rw [hheard, List.mem_map]
    rintro ⟨bar, -, hbar⟩
    cases hbar
  exact ⟨by decide +kernel, es, s, l, he, hq, hconsumer, hunmarked, hheard⟩

end Session

end PlainScore
