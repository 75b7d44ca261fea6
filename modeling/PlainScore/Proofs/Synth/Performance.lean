import PlainScore.Proofs.Synth.Rank

/-! What a synthesizer performs by itself, and what is left of it among other threads.
By itself a run is neither interrupted nor kept waiting: every valid state has exactly one
performance. A run at a real output follows the performance chunk by chunk, until an interrupt
cuts it short. -/
namespace PlainScore

structure Performance where
  bars : List (List Sample)
  result : Synth.Result

def Performance.chunks (p : Performance) : List Chunk := p.bars.map .samples ++ [.endOfStream]

@[simp] theorem Performance.length_chunks (p : Performance) :
    p.chunks.length = p.bars.length + 1 := by
  rw [chunks, List.length_append, List.length_map, List.length_singleton]

theorem prefix_of_sent {xs zs : List (List Sample)} {ys : List Chunk}
    (h : xs.map .samples ++ ys = zs.map .samples ++ [.endOfStream]) : xs <+: zs := by
  induction xs generalizing zs with
  | nil => exact List.nil_prefix
  | cons x xs ih =>
    cases zs with
    | nil => simp at h
    | cons z zs =>
      simp only [List.map_cons, List.cons_append, List.cons.injEq, Chunk.samples.injEq] at h
      obtain ⟨rfl, h⟩ := h
      exact (List.cons_prefix_cons).mpr ⟨rfl, ih h⟩

theorem marker_last {xs zs : List (List Sample)} {ys : List Chunk}
    (h : xs.map .samples ++ .endOfStream :: ys = zs.map .samples ++ [.endOfStream]) :
    xs = zs ∧ ys = [] := by
  induction xs generalizing zs with
  | nil =>
    cases zs with
    | nil => simpa using h
    | cons z zs => simp at h
  | cons x xs ih =>
    cases zs with
    | nil => simp at h
    | cons z zs =>
      simp only [List.map_cons, List.cons_append, List.cons.injEq, Chunk.samples.injEq] at h
      obtain ⟨rfl, h⟩ := h
      obtain ⟨rfl, rfl⟩ := ih h
      exact ⟨rfl, rfl⟩

namespace Synth

variable {s : Synth}

/-- What is sent from a state on, when nobody interrupts and everything is taken at once. -/
inductive Performs : Synth → List Chunk → Result → Prop where
  | done {s : Synth} {result : Result} : s.phase = .done result → Performs s [] result
  | step {s t : Synth} {output : Handoff} {chunks : List Chunk} {result : Result} :
      s.canStep {} = true → s.step false {} = (t, output) → Performs t chunks result →
      Performs s (output.slot.toList ++ chunks) result

theorem canStep_of_not_ended (h : s.hasEnded = false) : s.canStep {} = true := by
  rw [hasEnded] at h
  rw [canStep]
  split
  · rfl
  · rfl
  · rename_i hp
    rw [hp] at h
    cases h
  · rfl

theorem performs_exists (h : s.Valid) : ∃ chunks result, s.Performs chunks result := by
  induction hr : s.rank using Nat.strongRecOn generalizing s with
  | ind n ih =>
    subst hr
    cases hc : s.canStep {} with
    | false =>
      obtain ⟨result, hp⟩ := done_of_cannotStep hc
      exact ⟨[], result, .done hp⟩
    | true =>
      obtain ⟨hv, hlt⟩ := step_valid h hc false
      obtain ⟨chunks, result, hs⟩ := ih _ hlt hv rfl
      exact ⟨_, result, .step hc rfl hs⟩

theorem Performs.next {t : Synth} {output : Handoff} {chunks : List Chunk} {result : Result}
    (h : s.Performs chunks result) (hc : s.canStep {} = true) (ht : s.step false {} = (t, output)) :
    ∃ rest, chunks = output.slot.toList ++ rest ∧ t.Performs rest result := by
  cases h with
  | done hp =>
    rw [cannotStep_of_done hp] at hc
    cases hc
  | step _ hs hrest =>
    cases ht.symm.trans hs
    exact ⟨_, rfl, hrest⟩

theorem Performs.unique {chunks chunks' : List Chunk} {result result' : Result}
    (h : s.Performs chunks result) (h' : s.Performs chunks' result') :
    chunks = chunks' ∧ result = result' := by
  induction h generalizing chunks' with
  | done hp =>
    cases h' with
    | done hp' =>
      cases hp.symm.trans hp'
      exact ⟨rfl, rfl⟩
    | step hc =>
      rw [cannotStep_of_done hp] at hc
      cases hc
  | step hc hs _ ih =>
    obtain ⟨rest, rfl, hrest⟩ := h'.next hc hs
    obtain ⟨rfl, rfl⟩ := ih hrest
    exact ⟨rfl, rfl⟩

theorem Performs.result_of_done {chunks : List Chunk} {result result' : Result}
    (h : s.Performs chunks result) (hp : s.phase = .done result') : result = result' :=
  (h.unique (.done hp)).2

/-- The end marker is sent once and after all bars, whatever the result. -/
theorem Performs.shape {chunks : List Chunk} {result : Result} (h : s.Performs chunks result) :
    if s.hasEnded then chunks = []
    else ∃ bars : List (List Sample), chunks = bars.map .samples ++ [.endOfStream] := by
  induction h with
  | done hp => simp [hasEnded, hp]
  | @step s t output chunks result hc hs _ ih =>
    have hm := step_moved hc false
    rw [hs] at hm
    dsimp only at hm
    cases hm with
    | worked hn hg =>
      rw [hg.not_ended] at ih
      rw [hn]
      exact ih
    | stopped _ hi => cases hi
    | served hp _ _ hg =>
      rw [hg.not_ended] at ih
      obtain ⟨bars, rfl⟩ := ih
      rw [hasEnded, hp]
      exact ⟨_ :: bars, rfl⟩
    | refused _ hr => cases hr
    | ended hp =>
      obtain rfl : chunks = [] := ih
      rw [hasEnded, hp]
      exact ⟨[], rfl⟩
    | unheard _ hr => cases hr
    | marked hp =>
      obtain rfl : chunks = [] := ih
      rw [hasEnded, hp]
      rfl
    | left hp =>
      obtain rfl : chunks = [] := ih
      rw [hasEnded, hp]
      rfl

theorem performs_of_marking {result : Result} (h : s.phase = .marking result) :
    s.Performs [] result := by
  have hm : s.step false {} = ({ s with
      status := { s.status with finished := true }
      phase := .leaving result }, {}) := by
    rw [step, h]
  exact .step (by rw [canStep, h]) hm (.step rfl rfl (.done rfl))

theorem performs_finish (s : Synth) (result : Result) :
    (s.finish result).Performs [.endOfStream] result := by
  refine .step rfl rfl ?_
  exact performs_of_marking rfl

end Synth

def Sheet.Performs (sheet : Sheet) (params : Audio.Params) (p : Performance) : Prop :=
  ∃ s, Synth.new sheet params = .ok s ∧ s.Performs p.chunks p.result

theorem Performance.chunks_injective {p q : Performance} (h : p.chunks = q.chunks) :
    p.bars = q.bars := by
  have hm := List.append_cancel_right h
  exact List.map_injective_iff.mpr (fun _ _ => Chunk.samples.inj) hm

theorem Sheet.Performs.unique {sheet : Sheet} {params : Audio.Params} {p q : Performance}
    (hp : sheet.Performs params p) (hq : sheet.Performs params q) : p = q := by
  obtain ⟨s, hs, hps⟩ := hp
  obtain ⟨t, ht, hqt⟩ := hq
  cases hs.symm.trans ht
  obtain ⟨hc, hr⟩ := hps.unique hqt
  have hb := Performance.chunks_injective hc
  cases p
  cases q
  cases hb
  cases hr
  rfl

theorem Sheet.performs_exists {sheet : Sheet} {params : Audio.Params} {s : Synth}
    (h : Synth.new sheet params = .ok s) : ∃ p, sheet.Performs params p := by
  obtain ⟨chunks, result, hs⟩ := Synth.performs_exists (Synth.new_valid h)
  have hshape := hs.shape
  obtain ⟨rfl, -⟩ := Synth.new_sound h
  obtain ⟨bars, rfl⟩ := hshape
  exact ⟨⟨bars, result⟩, _, h, hs⟩

/-! ### Runs at an output that others read from -/

/-- A step of a thread with so much left to send. While somebody listens, or when nothing is left,
chunks only move to the output and the result stays; otherwise the thread may end with an error
that it reports. -/
structure Advanced {α : Type} (before after : Handoff) (chunks chunks' : List Chunk)
    (result result' : Except Failure α) : Prop where
  kept : before.receiver = true ∨ chunks = [] →
    result' = result ∧ before.slot.toList ++ chunks = after.slot.toList ++ chunks'
  reported : result' = result ∨ ∃ e, result' = .error (.reported e)

namespace Synth

variable {s : Synth} {chunks : List Chunk} {result : Result}

theorem Performs.silent_of_ended (h : s.Performs chunks result) (he : s.hasEnded = true) :
    chunks = [] := by
  have hshape := h.shape
  rw [he] at hshape
  exact hshape

theorem Performs.not_silent (h : s.Performs chunks result) (he : s.hasEnded = false) :
    chunks ≠ [] := by
  have hshape := h.shape
  rw [he] at hshape
  obtain ⟨bars, rfl⟩ := hshape
  simp

/-- The step lemma for an uninterrupted run, whether or not somebody listens. -/
theorem Performs.advanced {output : Handoff} (h : s.Performs chunks result)
    (hc : s.canStep output = true) :
    ∃ chunks' result', (s.step false output).1.Performs chunks' result' ∧
      Advanced output (s.step false output).2 chunks chunks' result result' := by
  have hm := step_moved hc false
  generalize (s.step false output).1 = t at hm ⊢
  generalize (s.step false output).2 = out at hm ⊢
  cases hm with
  | worked hn hg ht =>
    obtain ⟨rest, rfl, hs⟩ := h.next (canStep_of_not_ended hn) ht
    exact ⟨_, result, hs, fun _ => ⟨rfl, rfl⟩, .inl rfl⟩
  | stopped _ hi => cases hi
  | served hp hr hslot hg ht =>
    obtain ⟨rest, rfl, hs⟩ := h.next (by rw [canStep, hp]; rfl) ht
    refine ⟨rest, result, hs, fun _ => ⟨rfl, ?_⟩, .inl rfl⟩
    rw [hslot]
    rfl
  | refused hp hr =>
    refine ⟨_, _, performs_finish _ _, ?_, .inr ⟨_, rfl⟩⟩
    rintro (hr' | rfl)
    · cases hr.symm.trans hr'
    · exact absurd rfl (h.not_silent (by rw [hasEnded, hp]))
  | ended hp hr hslot =>
    obtain ⟨rest, rfl, hs⟩ := h.next (by rw [canStep, hp]; rfl) (step_ending hp rfl false)
    refine ⟨rest, result, hs, fun _ => ⟨rfl, ?_⟩, .inl rfl⟩
    rw [hslot]
    rfl
  | @unheard r hp hr =>
    obtain ⟨rest, rfl, hs⟩ := h.next (by rw [canStep, hp]; rfl) (step_ending hp rfl false)
    have hd : Synth.Performs { s.write (.debug "End of stream not delivered, receiver is gone") with
        phase := .marking r } [] r := performs_of_marking rfl
    have heq := (hs.unique (performs_of_marking (s := { s with phase := .marking r }) rfl)).2
    refine ⟨[], r, hd, ?_, .inl heq.symm⟩
    rintro (hr' | hnil)
    · cases hr.symm.trans hr'
    · cases hnil
  | marked hp =>
    obtain ⟨rest, rfl, hs⟩ := h.next (by rw [canStep, hp]) (by rw [Synth.step, hp])
    exact ⟨_, result, hs, fun _ => ⟨rfl, rfl⟩, .inl rfl⟩
  | left hp =>
    obtain ⟨rest, rfl, hs⟩ := h.next (by rw [canStep, hp]) (by rw [Synth.step, hp])
    exact ⟨_, result, hs, fun _ => ⟨rfl, rfl⟩, .inl rfl⟩

end Synth

/-! ### Runs among other threads -/

/-- What a run comes to under the interrupt flag: the performance itself, or bars from its
beginning and the error of an interrupt. -/
structure Performance.Allows (own : Performance) (interrupted : Bool) (p : Performance) :
    Prop where
  bars : p.bars <+: own.bars
  whole_or_cut : p = own ∨ interrupted = true ∧ p.result = .error (.reported .interrupted)

theorem Performance.allows_self (own : Performance) (interrupted : Bool) :
    own.Allows interrupted own :=
  ⟨List.prefix_rfl, .inl rfl⟩

theorem Performance.Allows.eq_of_uninterrupted {own p : Performance}
    (h : own.Allows false p) : p = own :=
  h.whole_or_cut.resolve_right fun hi => absurd hi.1 Bool.false_ne_true

namespace Synth

/-- Chunks taken from the output, what it holds and what is still to come make up a performance
that the own one allows. -/
def Follows (own : Performance) (interrupted : Bool) (taken : List Chunk) (s : Synth)
    (output : Handoff) : Prop :=
  ∃ p : Performance, own.Allows interrupted p ∧ ∃ rest, s.Performs rest p.result ∧
    taken ++ output.slot.toList ++ rest = p.chunks

variable {own : Performance} {interrupted : Bool} {taken : List Chunk} {output : Handoff}

theorem follows_new {sheet : Sheet} {params : Audio.Params} (h : sheet.Performs params own)
    (hs : new sheet params = .ok s) : Follows own interrupted [] s {} := by
  obtain ⟨t, ht, hp⟩ := h
  cases hs.symm.trans ht
  exact ⟨own, own.allows_self interrupted, _, hp, rfl⟩

theorem Follows.interrupt (h : Follows own interrupted taken s output) :
    Follows own true taken s output := by
  obtain ⟨p, ha, hrest⟩ := h
  exact ⟨p, ⟨ha.bars, ha.whole_or_cut.imp_right fun hi => ⟨rfl, hi.2⟩⟩, hrest⟩

theorem Follows.of_slot {output' : Handoff} (h : Follows own interrupted taken s output)
    (hs : output'.slot = output.slot) : Follows own interrupted taken s output' := by
  obtain ⟨p, ha, rest, hr, he⟩ := h
  exact ⟨p, ha, rest, hr, by rw [hs]; exact he⟩

theorem Follows.take (h : Follows own interrupted taken s output) {c : Chunk}
    (hc : output.slot = some c) :
    Follows own interrupted (taken ++ [c]) s { output with slot := none } := by
  obtain ⟨p, ha, rest, hs, he⟩ := h
  rw [hc] at he
  exact ⟨p, ha, rest, hs, by simpa using he⟩

theorem Follows.bars_sent (h : Follows own interrupted taken s output)
    (hn : s.hasEnded = false) :
    ∃ bars, bars <+: own.bars ∧ taken ++ output.slot.toList = bars.map .samples := by
  obtain ⟨p, ha, rest, hs, he⟩ := h
  have hshape := hs.shape
  rw [hn] at hshape
  obtain ⟨bars, rfl⟩ := hshape
  rw [← List.append_assoc] at he
  have hm := List.append_cancel_right he
  obtain ⟨before, after, hb, hbefore, -⟩ := List.map_eq_append_iff.mp hm.symm
  exact ⟨before, (List.prefix_append before after).trans (hb ▸ ha.bars), hbefore.symm⟩

/-- The step lemma: while the output has a receiver, every step follows the performance, and an
interrupt only makes it shorter. -/
theorem Follows.step (h : Follows own interrupted taken s output) (hr : output.receiver = true)
    (hc : s.canStep output = true) :
    Follows own interrupted taken (s.step interrupted output).1 (s.step interrupted output).2 := by
  have hm := step_moved hc interrupted
  generalize (s.step interrupted output).1 = t at hm ⊢
  generalize (s.step interrupted output).2 = out at hm ⊢
  cases hm with
  | worked hn hg ht =>
    obtain ⟨p, ha, rest, hs, he⟩ := h
    obtain ⟨_, rfl, hs'⟩ := hs.next (canStep_of_not_ended hn) ht
    exact ⟨p, ha, _, hs', he⟩
  | stopped hp hi =>
    obtain ⟨bars, hb, he⟩ := h.bars_sent (by rw [hasEnded, hp])
    refine ⟨⟨bars, .error (.reported .interrupted)⟩, ⟨hb, .inr ⟨hi, rfl⟩⟩, _,
      performs_finish _ _, ?_⟩
    rw [he]
    rfl
  | served hp _ hslot hg ht =>
    obtain ⟨p, ha, rest, hs, he⟩ := h
    obtain ⟨rest', rfl, hs'⟩ := hs.next (by rw [canStep, hp]; rfl) ht
    rw [hslot] at he
    exact ⟨p, ha, rest', hs', by simpa using he⟩
  | refused _ hr' => exact absurd (hr.symm.trans hr') (by decide)
  | ended hp _ hslot =>
    obtain ⟨p, ha, rest, hs, he⟩ := h
    obtain ⟨rest', rfl, hs'⟩ := hs.next (by rw [canStep, hp]; rfl) (step_ending hp rfl false)
    rw [hslot] at he
    exact ⟨p, ha, rest', hs', by simpa using he⟩
  | unheard _ hr' => exact absurd (hr.symm.trans hr') (by decide)
  | marked hp =>
    obtain ⟨p, ha, rest, hs, he⟩ := h
    obtain ⟨_, rfl, hs'⟩ := hs.next (by rw [canStep, hp]) (by rw [Synth.step, hp])
    exact ⟨p, ha, _, hs', he⟩
  | left hp =>
    obtain ⟨p, ha, rest, hs, he⟩ := h
    obtain ⟨_, rfl, hs'⟩ := hs.next (by rw [canStep, hp]) (by rw [Synth.step, hp])
    exact ⟨p, ha, _, hs', he⟩

theorem Follows.all_sent (h : Follows own interrupted taken s output) (he : s.hasEnded = true) :
    ∃ p : Performance, own.Allows interrupted p ∧ s.Performs [] p.result ∧
      taken ++ output.slot.toList = p.chunks := by
  obtain ⟨p, ha, rest, hs, hrest⟩ := h
  have hshape := hs.shape
  rw [he] at hshape
  obtain rfl : rest = [] := hshape
  exact ⟨p, ha, hs, by simpa using hrest⟩

end Synth

end PlainScore
