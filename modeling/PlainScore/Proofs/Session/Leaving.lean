import PlainScore.Proofs.Session.Alone

/-! A synthesizer and a listener who leaves early.
The output holds one chunk, so that a synthesizer is at most one chunk ahead of the listener.
It learns that the listener is gone from the next bar that it sends, and not from the end marker:
a run that has sent all its bars by then ends as if everything had been heard. -/
namespace PlainScore

namespace Synth

variable {own : Performance} {s : Synth} {sent : Nat} {chunks : List Chunk} {result : Result}

def forsaken : Result := .error (.reported (.closed .synthesizerOutput))

/-- A step of a run that nobody listens to: a bar is refused, and the end marker is lost. -/
inductive StepsUnheard (chunks : List Chunk) (result : Result) (t : Synth) : Prop where
  | kept : t.Performs chunks result → StepsUnheard chunks result t
  | lost : chunks = [.endOfStream] → t.Performs [] result → StepsUnheard chunks result t
  | refused {bar : List Sample} {rest : List Chunk} : chunks = .samples bar :: rest →
      t.Performs [.endOfStream] forsaken → StepsUnheard chunks result t

theorem Performs.steps_unheard {output : Handoff} (h : s.Performs chunks result)
    (hr : output.receiver = false) (hc : s.canStep output = true) :
    StepsUnheard chunks result (s.step false output).1 ∧
      (s.step false output).2.slot = output.slot := by
  have hm := step_moved hc false
  generalize (s.step false output).1 = t at hm ⊢
  generalize (s.step false output).2 = out at hm ⊢
  cases hm with
  | worked hn _ ht =>
    obtain ⟨rest, rfl, hs⟩ := h.next (canStep_of_not_ended hn) ht
    exact ⟨.kept hs, rfl⟩
  | stopped _ hi => cases hi
  | served _ hr' => cases hr.symm.trans hr'
  | refused hp =>
    obtain ⟨rest, rfl, -⟩ := h.next (by rw [canStep, hp]; rfl) (step_serving hp rfl false)
    exact ⟨.refused rfl (performs_finish s _), rfl⟩
  | ended _ hr' => cases hr.symm.trans hr'
  | unheard hp =>
    obtain ⟨rest, rfl, hs⟩ := h.next (by rw [canStep, hp]; rfl) (step_ending hp rfl false)
    obtain ⟨rfl, rfl⟩ := hs.unique (performs_of_marking rfl)
    exact ⟨.lost rfl (performs_of_marking rfl), rfl⟩
  | marked hp =>
    obtain ⟨rest, rfl, hs⟩ := h.next (by rw [canStep, hp]) (by rw [Synth.step, hp])
    exact ⟨.kept hs, rfl⟩
  | left hp =>
    obtain ⟨rest, rfl, hs⟩ := h.next (by rw [canStep, hp]) (by rw [Synth.step, hp])
    exact ⟨.kept hs, rfl⟩

/-- A run whose listener left when so many chunks were sent. Unless a bar is still due it ends as
it would have. -/
inductive Forsaken (own : Performance) (sent : Nat) (s : Synth) : Prop where
  | due : s.Performs (own.chunks.drop sent) own.result → Forsaken own sent s
  | finished : own.bars.length ≤ sent → s.Performs [] own.result → Forsaken own sent s
  | refused {rest : List Chunk} : sent < own.bars.length → s.Performs rest forsaken →
      Forsaken own sent s

theorem bars_left_of_drop {bar : List Sample} {rest : List Chunk}
    (h : own.chunks.drop sent = .samples bar :: rest) : sent < own.bars.length := by
  by_contra hn
  have hlen : (own.bars.map Chunk.samples).length ≤ sent := by
    rw [List.length_map]
    exact Nat.not_lt.mp hn
  have hm : Chunk.samples bar ∈ [Chunk.endOfStream].drop (sent - own.bars.length) := by
    rw [Performance.chunks, List.drop_append, List.drop_of_length_le hlen, List.nil_append,
      List.length_map] at h
    rw [h]
    exact List.mem_cons_self
  simpa using List.mem_of_mem_drop hm

theorem bars_sent_of_drop (h : own.chunks.drop sent = [.endOfStream]) :
    own.bars.length ≤ sent := by
  have hlen := congrArg List.length h
  rw [List.length_drop, own.length_chunks, List.length_singleton] at hlen
  omega

/-- The step lemma: nothing but a bar tells the run that nobody listens. -/
theorem Forsaken.step {output : Handoff} (h : s.Forsaken own sent)
    (hr : output.receiver = false) (hc : s.canStep output = true) :
    (s.step false output).1.Forsaken own sent ∧ (s.step false output).2.slot = output.slot := by
  cases h with
  | due hs =>
    obtain ⟨hstep, hslot⟩ := hs.steps_unheard hr hc
    refine ⟨?_, hslot⟩
    cases hstep with
    | kept hs => exact .due hs
    | lost he hs => exact .finished (bars_sent_of_drop he) hs
    | refused he hs => exact .refused (bars_left_of_drop he) hs
  | finished hle hs =>
    obtain ⟨hstep, hslot⟩ := hs.steps_unheard hr hc
    refine ⟨?_, hslot⟩
    cases hstep with
    | kept hs => exact .finished hle hs
    | lost he => cases he
    | refused he => cases he
  | refused hlt hs =>
    obtain ⟨hstep, hslot⟩ := hs.steps_unheard hr hc
    refine ⟨?_, hslot⟩
    cases hstep with
    | kept hs => exact .refused hlt hs
    | lost _ hs => exact .refused hlt hs
    | refused _ hs => exact .refused hlt hs

/-- A run ends with the error of a refused bar exactly when a bar was due. -/
theorem Forsaken.result_eq (h : s.Forsaken own sent) (hr : s.result? = some result) :
    result = if sent < own.bars.length then forsaken else own.result := by
  have hp := phase_of_result hr
  cases h with
  | due hs =>
    have hnil := hs.silent_of_ended (by rw [hasEnded, hp])
    have hlen := congrArg List.length hnil
    rw [List.length_drop, own.length_chunks, List.length_nil] at hlen
    rw [if_neg (by omega)]
    exact (hs.result_of_done hp).symm
  | finished hle hs =>
    rw [if_neg (Nat.not_lt.mpr hle)]
    exact (hs.result_of_done hp).symm
  | refused hlt hs =>
    rw [if_pos hlt]
    exact (hs.result_of_done hp).symm

end Synth

namespace Session

variable {own : Performance} {limit : Nat} {s : Session} {l : Listener} {synth : Synth}

structure Leaves (own : Performance) (limit : Nat) (s : Session) (l : Listener)
    (synth : Synth) : Prop where
  consumer : s.consumer = .listener l
  producer : s.producer = .lone synth
  limited : l.limit = some limit
  within : l.heard.length ≤ limit
  listening : l.gone = false → ∃ rest, synth.Performs rest own.result ∧
    l.heard ++ s.output.slot.toList ++ rest = own.chunks
  left : l.gone = true → l.heard = own.chunks.take limit ∧
    ∃ sent, min limit (own.bars.length + 1) ≤ sent ∧ sent ≤ limit + 1 ∧
      synth.Forsaken own sent

theorem Leaves.receiver (h : Leaves own limit s l synth) (hi : s.Invariant) :
    s.output.receiver = !l.gone := by
  rw [hi.receiver, h.consumer, Consumer.listens]

theorem consume_preserves_leaves (h : Leaves own limit s l synth) (hi : s.Invariant)
    (hc : l.canStep s.output = true) :
    Leaves own limit (next s .consume) (l.step s.output).1 synth := by
  have hm := Listener.step_moved hc
  have hlinked := hi.lone h.producer
  have hlimited := h.limited
  have hwithin := h.within
  rw [next_consume h.consumer]
  generalize l.step s.output = after at hm ⊢
  obtain ⟨k, out⟩ := after
  dsimp only at hm ⊢
  cases hm with
  | left hg hs =>
    obtain ⟨rest, hp, he⟩ := h.listening hg
    have hfull : l.heard.length = limit := by
      rw [Listener.satisfied, hlimited, Option.any_some, decide_eq_true_eq] at hs
      omega
    have hslot : s.output.slot.toList.length ≤ 1 := Option.length_toList_le
    refine ⟨rfl, h.producer, hlimited, hwithin, (fun hn => by cases hn), fun _ => ⟨?_, ?_⟩⟩
    · rw [← he, List.append_assoc, ← hfull, List.take_left]
    · refine ⟨limit + s.output.slot.toList.length, by omega, by omega, .due ?_⟩
      rw [← he, ← hfull, ← List.length_append, List.drop_left]
      exact hp
  | @heard c hg hs hslot =>
    obtain ⟨rest, hp, he⟩ := h.listening hg
    have hlt : l.heard.length < limit := by
      rw [Listener.satisfied, hlimited, Option.any_some, decide_eq_false_iff_not] at hs
      omega
    refine ⟨rfl, h.producer, hlimited, ?_, fun _ => ⟨rest, hp, ?_⟩, fun hgone => ?_⟩
    · rw [List.length_append, List.length_singleton]
      exact hlt
    · rw [← he, hslot]
      simp
    · cases hg.symm.trans hgone
  | ended hg hs hslot hd =>
    obtain ⟨rest, hp, he⟩ := h.listening hg
    have hover : synth.result?.isSome = true := by
      rw [← Option.not_isNone, ← hlinked.sender, hd]
      rfl
    obtain rfl := hp.silent_of_ended (Synth.hasEnded_of_marked (Synth.marked_of_result hover))
    have hall : l.heard = own.chunks := by
      rw [← he, hslot]
      simp
    have hlen := congrArg List.length hall
    rw [own.length_chunks] at hlen
    refine ⟨rfl, h.producer, hlimited, hwithin, (fun hn => by cases hn), fun _ => ⟨?_, ?_⟩⟩
    · rw [List.take_of_length_le (by rw [own.length_chunks]; omega)]
      exact hall
    · exact ⟨own.bars.length + 1, by omega, by omega, .finished (by omega) hp⟩

theorem produce_preserves_leaves (h : Leaves own limit s l synth) (hi : s.Invariant)
    (hc : synth.canStep s.output = true) (hflag : s.interrupted = false) :
    Leaves own limit (next s .produce) l (synth.step s.interrupted s.output).1 := by
  have hreceiver := h.receiver hi
  rw [next_produce h.producer, hflag]
  cases hg : l.gone with
  | false =>
    obtain ⟨rest, hp, he⟩ := h.listening hg
    obtain ⟨rest', result', hp', ha⟩ := hp.advanced hc
    obtain ⟨rfl, heq⟩ := ha.kept (.inl (by rw [hreceiver, hg]; rfl))
    refine ⟨h.consumer, rfl, h.limited, h.within, fun _ => ⟨rest', hp', ?_⟩, fun hgone => ?_⟩
    · rw [← he, List.append_assoc, List.append_assoc, heq]
    · cases hg.symm.trans hgone
  | true =>
    obtain ⟨hheard, sent, hmin, hmax, hf⟩ := h.left hg
    obtain ⟨hf', -⟩ := hf.step (by rw [hreceiver, hg]; rfl) hc
    exact ⟨h.consumer, rfl, h.limited, h.within, fun hn => absurd (hg.symm.trans hn) (by decide),
      fun _ => ⟨hheard, sent, hmin, hmax, hf'⟩⟩

theorem step_preserves_leaves (h : Leaves own limit s l synth) (hi : s.Invariant) {e : Event}
    (he : Enabled s e) (hflag : (next s e).interrupted = false) :
    ∃ l synth, Leaves own limit (next s e) l synth := by
  cases e with
  | consume => exact ⟨_, _, consume_preserves_leaves h hi (canStep_of_enabled h.consumer he)⟩
  | produce =>
    have hc : synth.canStep s.output = true := by
      simpa only [Enabled, h.producer, Producer.canStep] using he
    exact ⟨_, _, produce_preserves_leaves h hi hc (uninterrupted_before hflag)⟩
  | produceChild i => simp [Enabled, h.producer] at he
  | interrupt => cases hflag

theorem execution_preserves_leaves {t : Session} {es : List Event} (he : Execution s es t)
    (h : Leaves own limit s l synth) (hi : s.Invariant) (hflag : t.interrupted = false) :
    ∃ l synth, Leaves own limit t l synth := by
  refine uninterrupted_preserves (P := fun s => ∃ l synth, Leaves own limit s l synth) ?_ he
    ⟨l, synth, h⟩ hi hflag
  rintro s e ⟨l, synth, h⟩ hi he hafter
  exact step_preserves_leaves h hi he hafter

structure EndsEarly (own : Performance) (limit : Nat) (s : Session) (l : Listener)
    (synth : Synth) : Prop where
  consumer : s.consumer = .listener l
  producer : s.producer = .lone synth
  heard : l.heard <+: own.chunks
  left : l.gone = true → l.heard = own.chunks.take limit
  refused : limit + 2 ≤ own.bars.length → ∀ result, synth.result? = some result →
    result = .error (.reported (.closed .synthesizerOutput))
  unaffected : own.bars.length ≤ limit → ∀ result, synth.result? = some result →
    result = own.result
  /-- With one more bar it depends on the schedule whether the bar is sent or refused. -/
  between : own.bars.length = limit + 1 → ∀ result, synth.result? = some result →
    result = own.result ∨ result = .error (.reported (.closed .synthesizerOutput))
  terminated : s.Quiet →
    l.gone = true ∧ synth.result?.isSome = true ∧ synth.status.finished = true

/-- The result is settled by how many chunks were sent when the listener left, or at the end. -/
theorem Leaves.result_eq (h : Leaves own limit s l synth) {result : Synth.Result}
    (hr : synth.result? = some result) :
    ∃ sent, min limit (own.bars.length + 1) ≤ sent ∧ sent ≤ limit + 1 ∧
      result = if sent < own.bars.length then Synth.forsaken else own.result := by
  cases hg : l.gone with
  | false =>
    obtain ⟨rest, hp, he⟩ := h.listening hg
    have hphase := Synth.phase_of_result hr
    obtain rfl := hp.silent_of_ended (by rw [Synth.hasEnded, hphase])
    have hlen := congrArg List.length he
    have hslot : s.output.slot.toList.length ≤ 1 := Option.length_toList_le
    have hwithin := h.within
    rw [List.append_nil, List.length_append, own.length_chunks] at hlen
    refine ⟨own.bars.length + 1, by omega, by omega, ?_⟩
    rw [if_neg (by omega), hp.result_of_done hphase]
  | true =>
    obtain ⟨-, sent, hmin, hmax, hf⟩ := h.left hg
    exact ⟨sent, hmin, hmax, hf.result_eq hr⟩

theorem Leaves.endsEarly (h : Leaves own limit s l synth) (hi : s.Invariant) :
    EndsEarly own limit s l synth := by
  constructor
  · exact h.consumer
  · exact h.producer
  · cases hg : l.gone with
    | false =>
      obtain ⟨rest, -, he⟩ := h.listening hg
      rw [← he, List.append_assoc]
      exact List.prefix_append _ _
    | true => exact (h.left hg).1 ▸ List.take_prefix _ _
  · exact fun hg => (h.left hg).1
  · intro hlong result hr
    obtain ⟨sent, -, hmax, rfl⟩ := h.result_eq hr
    exact if_pos (by omega)
  · intro hshort result hr
    obtain ⟨sent, hmin, -, rfl⟩ := h.result_eq hr
    exact if_neg (by omega)
  · intro _ result hr
    obtain ⟨sent, -, -, rfl⟩ := h.result_eq hr
    split
    · exact .inr rfl
    · exact .inl rfl
  · intro hq
    obtain ⟨hover, hgone⟩ := hq.ended hi
    rw [h.producer, Producer.result?, Option.isSome_map] at hover
    rw [h.consumer] at hgone
    refine ⟨hgone, hover, ?_⟩
    rw [(hi.lone h.producer).finished, Synth.marked_of_result hover]

/-- A sheet whose bars have room, without an interrupt. A listener who leaves behind so many
chunks has heard these of the performance, and the run ends within so many steps, in whatever
order the threads move: with an error if two more bars were to come, and with its own result if
none was. -/
theorem listener_leaves_early {sheet : Sheet} {params : Audio.Params}
    (hroom : sheet.tracks = [] ∨ sheet.capacity params ≤ sampleLimit) :
    ∃ own, sheet.Performs params own ∧ ∀ limit, ∃ start,
      ofSheet sheet params (.listener (.new (some limit))) = .ok start ∧
      ∀ es s, Execution start es s → .interrupt ∉ es →
        threadSteps es ≤ start.weight ∧ ∃ l synth, EndsEarly own limit s l synth := by
  obtain ⟨own, synth, hs, hp⟩ := Sheet.performs_exists (Synth.new_of_room hroom)
  refine ⟨own, ⟨synth, hs, hp⟩, ?_⟩
  intro limit
  have hstart : ofSheet sheet params (.listener (.new (some limit))) =
      .ok ⟨false, {}, .lone synth, .listener (.new (some limit))⟩ := by
    rw [ofSheet, hs]
    rfl
  refine ⟨_, hstart, ?_⟩
  intro es s he hu
  have hi := ofSheet_invariant hstart rfl rfl
  have hw := execution_lowers_weight he hi
  have hflag := uninterrupted_of_listener he ⟨_, rfl⟩ hu
  have hleaves : Leaves own limit ⟨false, {}, .lone synth, .listener (.new (some limit))⟩
      (.new (some limit)) synth :=
    ⟨rfl, rfl, rfl, Nat.zero_le _, fun _ => ⟨_, hp, rfl⟩, fun hg => by cases hg⟩
  obtain ⟨l, synth', h⟩ := execution_preserves_leaves he hleaves hi hflag
  exact ⟨by omega, l, synth', h.endsEarly (execution_preserves_invariant he hi)⟩

/-- Three whole notes and a short one on one track, over a track that ends before it. -/
theorem three_bars_are_left_early :
    ∃ own,
      Sheet.Performs ⟨120, ⟨4, 4⟩, [⟨["C4---", "D4---", "E4---", "F4"]⟩, ⟨["G3---"]⟩]⟩ {} own ∧
      ∀ limit, ∃ start,
        ofSheet ⟨120, ⟨4, 4⟩, [⟨["C4---", "D4---", "E4---", "F4"]⟩, ⟨["G3---"]⟩]⟩ {}
          (.listener (.new (some limit))) = .ok start ∧
        ∀ es s, Execution start es s → .interrupt ∉ es →
          threadSteps es ≤ start.weight ∧ ∃ l synth, EndsEarly own limit s l synth :=
  listener_leaves_early (.inr (by decide +kernel))

end Session

end PlainScore
