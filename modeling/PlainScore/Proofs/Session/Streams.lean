import PlainScore.Proofs.Relay.Performance
import PlainScore.Proofs.Session.Progress

/-! What a producer sends by itself, whichever producer it is.
The performance of a producer is settled before the first step. A consumer that takes everything
takes its chunks in their order, and then finds its result. -/
namespace PlainScore

theorem Advanced.map {α β : Type} {before after : Handoff} {chunks chunks' : List Chunk}
    {result result' : Except Failure α} (f : α → β)
    (h : Advanced before after chunks chunks' result result') :
    Advanced before after chunks chunks' (result.map f) (result'.map f) := by
  constructor
  · intro hk
    obtain ⟨rfl, he⟩ := h.kept hk
    exact ⟨rfl, he⟩
  · rcases h.reported with rfl | ⟨e, rfl⟩
    · exact .inl rfl
    · exact .inr ⟨e, rfl⟩

namespace Session

def Producer.Performs (chunks : List Chunk) (result : Playback.Result) : Producer → Prop
  | .lone s => ∃ own, s.Performs chunks own ∧ result = own.map fun _ => ()
  | .relay r => ∃ own, r.Performs chunks own ∧ result = own.map fun _ => ()

variable {p : Producer} {output : Handoff} {chunks taken : List Chunk} {result : Playback.Result}
  {s : Session}

theorem Producer.Performs.advanced (h : p.Performs chunks result) (hl : p.Linked output)
    (hc : p.canStep output = true) : ∃ chunks' result',
      (p.step false output).1.Performs chunks' result' ∧
      Advanced output (p.step false output).2 chunks chunks' result result' := by
  cases p with
  | lone s =>
    obtain ⟨own, hs, rfl⟩ := h
    obtain ⟨chunks', own', hs', ha⟩ := hs.advanced hc
    exact ⟨chunks', _, ⟨own', hs', rfl⟩, ha.map _⟩
  | relay r =>
    obtain ⟨own, hr, rfl⟩ := h
    obtain ⟨chunks', own', hr', ha⟩ := hr.advanced (Relay.Linked.invariant hl) hc
    exact ⟨chunks', _, ⟨own', hr', rfl⟩, ha.map _⟩

theorem Producer.Performs.of_result {own : Playback.Result} (h : p.Performs chunks result)
    (hr : p.result? = some own) : chunks = [] ∧ own = result := by
  cases p with
  | lone s =>
    obtain ⟨r, hs, rfl⟩ := h
    obtain ⟨r', hr', rfl⟩ := Option.map_eq_some_iff.mp hr
    obtain ⟨rfl, rfl⟩ := hs.unique (.done (Synth.phase_of_result hr'))
    exact ⟨rfl, rfl⟩
  | relay r =>
    obtain ⟨r, hs, rfl⟩ := h
    obtain ⟨r', hr', rfl⟩ := Option.map_eq_some_iff.mp hr
    obtain ⟨rfl, rfl⟩ := hs.of_result hr'
    exact ⟨rfl, rfl⟩

theorem next_produceChild {i : Nat} (he : Enabled s (.produceChild i)) :
    ∃ r c, s.producer = .relay r ∧ r.child? i = some c ∧ c.canStep = true ∧
      next s (.produceChild i) =
        { s with producer := .relay (r.stepChild s.interrupted i) } := by
  cases hp : s.producer with
  | lone synth => simp [Enabled, hp] at he
  | relay r =>
    simp only [Enabled, hp] at he
    obtain ⟨c, hchild, hc⟩ := (Option.any_eq_true _ _).mp he
    exact ⟨r, c, rfl, hchild, hc, by simp only [next, hp]⟩

theorem Producer.Performs.produceChild (h : s.producer.Performs chunks result)
    (hi : s.Invariant) {i : Nat} (he : Enabled s (.produceChild i))
    (hflag : s.interrupted = false) :
    (next s (.produceChild i)).producer.Performs chunks result := by
  obtain ⟨r, c, hp, hchild, hc, hnext⟩ := next_produceChild he
  rw [hp] at h
  obtain ⟨own, hr, rfl⟩ := h
  rw [hnext, hflag]
  exact ⟨own, hr.stepChild (hi.relay hp).invariant hchild hc, rfl⟩

/-- What was taken from the output, what it holds and what the producer has still to send. -/
def Streams (s : Session) (taken chunks : List Chunk) (result : Playback.Result) : Prop :=
  ∃ rest, s.producer.Performs rest result ∧ taken ++ s.output.slot.toList ++ rest = chunks

theorem Streams.produce (h : s.Streams taken chunks result) (hi : s.Invariant)
    (hr : s.output.receiver = true) (he : Enabled s .produce) (hflag : s.interrupted = false) :
    (next s .produce).Streams taken chunks result := by
  obtain ⟨rest, hp, rfl⟩ := h
  obtain ⟨rest', result', hp', ha⟩ := hp.advanced hi.linked he
  obtain ⟨rfl, heq⟩ := ha.kept (.inl hr)
  simp only [next, hflag]
  refine ⟨rest', hp', ?_⟩
  rw [List.append_assoc, List.append_assoc, heq]

theorem Streams.produceChild (h : s.Streams taken chunks result) (hi : s.Invariant) {i : Nat}
    (he : Enabled s (.produceChild i)) (hflag : s.interrupted = false) :
    (next s (.produceChild i)).Streams taken chunks result := by
  obtain ⟨rest, hp, heq⟩ := h
  have hp' := hp.produceChild hi he hflag
  obtain ⟨r, c, -, -, -, hnext⟩ := next_produceChild he
  rw [hnext] at hp' ⊢
  exact ⟨rest, hp', heq⟩

theorem Streams.taken_begins (h : s.Streams taken chunks result) : taken <+: chunks := by
  obtain ⟨rest, -, rfl⟩ := h
  rw [List.append_assoc]
  exact List.prefix_append _ _

theorem Streams.all_taken (h : s.Streams taken chunks result) (hslot : s.output.slot = none)
    (hover : s.producer.result?.isSome = true) :
    taken = chunks ∧ s.producer.result? = some result := by
  obtain ⟨rest, hp, rfl⟩ := h
  obtain ⟨own, ho⟩ := Option.isSome_iff_exists.mp hover
  obtain ⟨rfl, rfl⟩ := hp.of_result ho
  rw [hslot]
  exact ⟨by simp, ho⟩

/-! ### A listener who takes everything -/

structure Listens (chunks : List Chunk) (result : Playback.Result) (s : Session)
    (l : Listener) : Prop where
  consumer : s.consumer = .listener l
  unlimited : l.limit = none
  streams : s.Streams l.heard chunks result
  ended : l.gone = true → s.output.slot = none ∧ s.producer.result?.isSome = true

variable {l : Listener}

theorem consume_preserves_listens (h : Listens chunks result s l) (hi : s.Invariant)
    (hc : l.canStep s.output = true) :
    Listens chunks result (next s .consume) (l.step s.output).1 := by
  obtain ⟨rest, hp, he⟩ := h.streams
  have hstream := Listener.step_stream h.unlimited hc
  rw [← hstream] at he
  have hm := Listener.step_moved hc
  rw [next_consume h.consumer]
  generalize l.step s.output = after at hm he ⊢
  obtain ⟨k, out⟩ := after
  dsimp only at hm he ⊢
  cases hm with
  | left _ hs => simp [Listener.satisfied, h.unlimited] at hs
  | heard hg =>
    exact ⟨rfl, h.unlimited, ⟨rest, hp, he⟩,
      fun hgone => absurd (hg.symm.trans hgone) Bool.false_ne_true⟩
  | ended _ _ hslot hd =>
    refine ⟨rfl, h.unlimited, ⟨rest, hp, he⟩, fun _ => ⟨rfl, ?_⟩⟩
    rw [← Option.not_isNone, ← hi.linked.sender, hd]
    rfl

theorem step_preserves_listens (h : Listens chunks result s l) (hi : s.Invariant) {e : Event}
    (he : Enabled s e) (hflag : (next s e).interrupted = false) :
    ∃ l, Listens chunks result (next s e) l := by
  have hbefore := uninterrupted_before hflag
  cases e with
  | consume => exact ⟨_, consume_preserves_listens h hi (canStep_of_enabled h.consumer he)⟩
  | produce =>
    have hgone : l.gone = false := by
      rw [← Bool.not_eq_true]
      intro hg
      have hover := Producer.cannotStep_of_result (h.ended hg).2 s.output
      cases hover.symm.trans he
    have hr : s.output.receiver = true := by
      rw [hi.receiver, h.consumer, Consumer.listens, hgone]
      rfl
    exact ⟨l, h.consumer, h.unlimited, h.streams.produce hi hr he hbefore,
      fun hg => absurd (hgone.symm.trans hg) Bool.false_ne_true⟩
  | produceChild i =>
    have hstreams := h.streams.produceChild hi he hbefore
    obtain ⟨r, c, hp, -, -, hnext⟩ := next_produceChild he
    rw [hnext] at hstreams ⊢
    refine ⟨l, h.consumer, h.unlimited, hstreams, ?_⟩
    intro hg
    obtain ⟨hslot, hover⟩ := h.ended hg
    refine ⟨hslot, ?_⟩
    rw [hp] at hover
    simpa only [Producer.result?, stepChild_preserves_result] using hover
  | interrupt => cases hflag

theorem execution_preserves_listens {t : Session} {es : List Event} (he : Execution s es t)
    (h : Listens chunks result s l) (hi : s.Invariant) (hflag : t.interrupted = false) :
    ∃ l, Listens chunks result t l := by
  refine uninterrupted_preserves (P := fun s => ∃ l, Listens chunks result s l) ?_ he ⟨l, h⟩ hi
    hflag
  rintro s e ⟨l, h⟩ hi he hafter
  exact step_preserves_listens h hi he hafter

/-- A listener who takes everything has heard these chunks in their order and, when no thread can
move any more, all of them; the producer has ended with this result. -/
def HearsAll (chunks : List Chunk) (result : Playback.Result) (s : Session) : Prop :=
  ∃ l, s.consumer = .listener l ∧ l.heard <+: chunks ∧
    (s.Quiet → l.heard = chunks ∧ s.producer.result? = some result)

theorem Listens.hearsAll (h : Listens chunks result s l) (hi : s.Invariant) :
    s.HearsAll chunks result := by
  refine ⟨l, h.consumer, h.streams.taken_begins, ?_⟩
  intro hq
  have hgone : l.gone = true := by
    have := (hq.ended hi).2
    rwa [h.consumer] at this
  obtain ⟨hslot, hover⟩ := h.ended hgone
  exact h.streams.all_taken hslot hover

end Session

end PlainScore
