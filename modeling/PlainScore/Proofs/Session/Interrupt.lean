import PlainScore.Proofs.Session.Alone
import PlainScore.Proofs.Synth.Whole

/-! Interrupts come at any moment.
The flag is looked at before every note and nowhere else, so that an interrupt leaves the listener
a clean beginning of the performance: whole bars, the end marker and a closed output. -/
namespace PlainScore

namespace Session

variable {own : Performance} {count : Nat} {s : Session} {l : Listener} {synth : Synth}

/-! ### Interrupts during the run -/

structure HearsTidily (own : Performance) (count : Nat) (s : Session) (l : Listener)
    (synth : Synth) : Prop extends Hears own s l synth where
  tidy : synth.Tidy count (l.heard ++ s.output.slot.toList)

theorem step_preserves_tidiness (h : HearsTidily own count s l synth) (hi : s.Invariant)
    {e : Event} (he : Enabled s e) : ∃ l synth, HearsTidily own count (next s e) l synth := by
  have hears := h.toHears
  cases e with
  | consume =>
    have hc := canStep_of_enabled h.consumer he
    refine ⟨_, _, consume_preserves_hears hears hi hc, ?_⟩
    rw [next_consume h.consumer, Listener.step_stream h.unlimited hc]
    exact h.tidy
  | produce =>
    have hc : synth.canStep s.output = true := by
      simpa only [Enabled, h.producer, Producer.canStep] using he
    refine ⟨_, _, produce_preserves_hears hears hi hc, ?_⟩
    rw [next_produce h.producer]
    exact h.tidy.step (hi.lone h.producer).valid (hears.listening hi hc).2 hc _
  | produceChild i => simp [Enabled, h.producer] at he
  | interrupt =>
    exact ⟨_, _, ⟨h.consumer, h.producer, h.unlimited, h.follows.interrupt, h.ended⟩, h.tidy⟩

theorem execution_preserves_tidiness {t : Session} {es : List Event} (he : Execution s es t)
    (h : HearsTidily own count s l synth) (hi : s.Invariant) :
    ∃ l synth, HearsTidily own count t l synth := by
  refine execution_preserves (P := fun s => ∃ l synth, HearsTidily own count s l synth) ?_ he
    ⟨l, synth, h⟩ hi
  rintro s e ⟨l, synth, h⟩ hi he
  exact step_preserves_tidiness h hi he

structure HearsCleanly (own : Performance) (count : Nat) (s : Session) (l : Listener)
    (synth : Synth) : Prop where
  consumer : s.consumer = .listener l
  producer : s.producer = .lone synth
  heard : ∃ bars, bars <+: own.bars ∧
    (l.heard = bars.map .samples ∨ l.heard = bars.map .samples ++ [.endOfStream])
  closed : l.gone = true →
    s.output.slot = none ∧ s.output.sender = false ∧ synth.result?.isSome = true
  /-- By the end of the run the end marker was sent. The run was interrupted or ended as it does
  by itself. -/
  ended : ∀ result, synth.result? = some result → ∃ bars, bars <+: own.bars ∧
    l.heard ++ s.output.slot.toList = bars.map .samples ++ [.endOfStream] ∧
    (result = own.result ∨ s.interrupted = true ∧ result = .error (.reported .interrupted)) ∧
    (result ≠ .error (.reported .interrupted) → bars = own.bars) ∧
    (result = .error (.reported .interrupted) → ∀ bar ∈ bars, bar.length = count)
  finished : synth.status.finished = true →
    synth.status.started = true ∧ .endOfStream ∈ l.heard ++ s.output.slot.toList
  quiet : s.Quiet → l.gone = true

theorem Hears.heard_shape (h : Hears own s l synth) : ∃ bars, bars <+: own.bars ∧
    (l.heard = bars.map .samples ∨ l.heard = bars.map .samples ++ [.endOfStream]) := by
  obtain ⟨p, ha, hp⟩ := h.heard_begins
  rw [Performance.chunks, List.prefix_concat_iff] at hp
  rcases hp with hall | hpart
  · exact ⟨p.bars, ha.bars, .inr hall⟩
  · rw [List.prefix_iff_eq_take, ← List.map_take] at hpart
    exact ⟨_, (List.take_prefix _ _).trans ha.bars, .inl hpart⟩

theorem HearsTidily.cleanly (h : HearsTidily own count s l synth) (hi : s.Invariant) :
    HearsCleanly own count s l synth := by
  have hlinked := hi.lone h.producer
  constructor
  · exact h.consumer
  · exact h.producer
  · exact h.heard_shape
  · intro hg
    obtain ⟨hslot, hover⟩ := h.ended hg
    refine ⟨hslot, ?_, hover⟩
    rw [hlinked.sender, ← Option.not_isSome, hover]
    rfl
  · intro result hr
    have hended := Synth.hasEnded_of_marked (Synth.marked_of_result (by rw [hr]; rfl))
    obtain ⟨p, ha, hs, he⟩ := h.follows.all_sent hended
    obtain rfl := hs.result_of_done (Synth.phase_of_result hr)
    refine ⟨p.bars, ha.bars, he, ?_, ?_, ?_⟩
    · exact ha.whole_or_cut.imp_left fun hown => by rw [hown]
    · intro hne
      rw [ha.whole_or_cut.resolve_right fun hcut => hne hcut.2]
    · intro hcut bar hm
      refine h.tidy.whole_of_error (hr.trans (congrArg some hcut)) bar ?_
      rw [he]
      exact List.mem_append_left _ (List.mem_map_of_mem hm)
  · intro hf
    rw [hlinked.finished] at hf
    have hended := Synth.hasEnded_of_marked hf
    constructor
    · refine h.tidy.announced.resolve_left ?_
      intro hp
      rw [Synth.hasEnded, hp] at hended
      cases hended
    · obtain ⟨p, -, -, he⟩ := h.follows.all_sent hended
      rw [he]
      exact List.mem_append_right _ (List.mem_singleton.mpr rfl)
  · intro hq
    obtain ⟨_, _, _, hgone, _⟩ := h.heard_all hi hq
    exact hgone

/-! ### Interrupts before the run -/

/-- Nothing was heard of the run, and nothing will be if it is interrupted by now. -/
structure Unheard (own : Performance) (s : Session) (l : Listener) (synth : Synth) : Prop extends
    Hears own s l synth where
  mute : synth.Mute
  silent : ∀ bar, .samples bar ∉ l.heard ++ s.output.slot.toList

theorem step_preserves_silence (h : Unheard own s l synth) (hi : s.Invariant) {e : Event}
    (he : Enabled s e) (hflag : e = .produce → s.interrupted = true) :
    ∃ l synth, Unheard own (next s e) l synth := by
  have hears := h.toHears
  cases e with
  | consume =>
    have hc := canStep_of_enabled h.consumer he
    refine ⟨_, _, consume_preserves_hears hears hi hc, h.mute, ?_⟩
    rw [next_consume h.consumer, Listener.step_stream h.unlimited hc]
    exact h.silent
  | produce =>
    have hc : synth.canStep s.output = true := by
      simpa only [Enabled, h.producer, Producer.canStep] using he
    obtain ⟨hmute, hslot⟩ := h.mute.step (hears.listening hi hc).2 hc
    have hears' := produce_preserves_hears hears hi hc
    rw [next_produce h.producer] at hears' ⊢
    rw [hflag rfl] at hears' ⊢
    refine ⟨_, _, hears', hmute, ?_⟩
    intro bar hm
    refine h.silent bar ?_
    rw [List.mem_append, Option.mem_toList] at hm ⊢
    exact hm.imp_right (hslot bar)
  | produceChild i => simp [Enabled, h.producer] at he
  | interrupt =>
    exact ⟨_, _, ⟨h.consumer, h.producer, h.unlimited, h.follows.interrupt, h.ended⟩, h.mute,
      h.silent⟩

theorem execution_preserves_silence {t : Session} {es : List Event} (he : Execution s es t)
    (h : Unheard own s l synth) (hi : s.Invariant)
    (hflag : .produce ∈ es → s.interrupted = true) : ∃ l synth, Unheard own t l synth := by
  induction he generalizing l synth with
  | nil => exact ⟨l, synth, h⟩
  | @cons s t u e es hstep _ ih =>
    obtain ⟨he, rfl⟩ := hstep
    obtain ⟨_, _, h'⟩ := step_preserves_silence h hi he fun hp => hflag (by simp [hp])
    refine ih h' (step_preserves_invariant hi he) fun hp => ?_
    exact next_keeps_interrupt (hflag (List.mem_cons_of_mem e hp)) e

/-- The flag is set before the first step of the synthesizer. -/
def InterruptedFirst (es : List Event) : Prop :=
  ∃ before after, es = before ++ .interrupt :: after ∧ .produce ∉ before

theorem execution_interrupted_first {t : Session} {es : List Event} (he : Execution s es t)
    (h : Unheard own s l synth) (hi : s.Invariant) (hf : InterruptedFirst es) :
    ∃ l synth, Unheard own t l synth := by
  obtain ⟨before, after, rfl, hn⟩ := hf
  -- Until the flag is set the synthesizer does not move; from then on it finds the flag set.
  obtain ⟨u, hu, ht⟩ := execution_append he
  obtain ⟨_, _, h'⟩ := execution_preserves_silence hu h hi fun hp => absurd hp hn
  have hi' := execution_preserves_invariant hu hi
  cases ht with
  | cons hstep ht =>
    obtain ⟨he, rfl⟩ := hstep
    obtain ⟨_, _, h''⟩ := step_preserves_silence h' hi' he nofun
    exact execution_preserves_silence ht h'' (step_preserves_invariant hi' he) fun _ => rfl

/-! ### Interrupts at any moment -/

/-- A sheet whose bars have room. In whatever order the threads move and whenever the interrupt
flag is set, within so many steps the listener hears the performance of the sheet or a clean
beginning of it, and nothing but the end marker if the flag was set before the run. -/
theorem interrupt_leaves_clean_beginning {sheet : Sheet} {params : Audio.Params}
    (hroom : sheet.tracks = [] ∨ sheet.capacity params ≤ sampleLimit) :
    ∃ start own, ofSheet sheet params (.listener (.new none)) = .ok start ∧
      sheet.Performs params own ∧
      ∀ es s, Execution start es s → threadSteps es ≤ start.weight ∧
        ∃ l synth, HearsCleanly own (sheet.capacity params) s l synth ∧
          (sheet.tracks ≠ [] → InterruptedFirst es →
            (∀ bar, .samples bar ∉ l.heard) ∧
            ∀ result, synth.result? = some result →
              result = .error (.reported .interrupted)) := by
  have hnew : Synth.new sheet params = .ok (Synth.fresh sheet params) := by
    rw [Synth.new_eq, if_neg]
    rintro ⟨hn, hlong⟩
    rcases hroom with hr | hr
    · rw [hr] at hn
      cases hn
    · exact absurd hlong (Nat.not_lt.mpr hr)
  obtain ⟨own, hp⟩ := Sheet.performs_exists hnew
  obtain ⟨start, hstart, -⟩ := listener_hears_performance hp
  refine ⟨start, own, hstart, hp, ?_⟩
  intro es s he
  have hi := ofSheet_invariant hstart rfl rfl
  have hw := execution_lowers_weight he hi
  refine ⟨by omega, ?_⟩
  obtain ⟨synth, hs, rfl⟩ := ofSheet_lone hstart
  have hears : Hears own ⟨false, {}, .lone synth, .listener (.new none)⟩ (.new none) synth :=
    ⟨rfl, rfl, rfl, Synth.follows_new hp hs, fun hg => by cases hg⟩
  obtain ⟨l, synth', h⟩ := execution_preserves_tidiness he ⟨hears, Synth.new_tidy hs⟩ hi
  refine ⟨l, synth', h.cleanly (execution_preserves_invariant he hi), ?_⟩
  intro hn hf
  obtain ⟨l', synth'', hu⟩ := execution_interrupted_first he
    ⟨hears, Synth.new_mute hs hn, fun bar hm => by cases hm⟩ hi hf
  cases h.consumer.symm.trans hu.consumer
  cases h.producer.symm.trans hu.producer
  refine ⟨fun bar hm => hu.silent bar (List.mem_append_left _ hm), ?_⟩
  intro result hr
  exact hu.mute.result hr

/-- Three whole notes and a short one on one track, over a track that ends before it. -/
theorem interrupted_notes_leave_clean_beginning :
    ∃ start own, ofSheet ⟨120, ⟨4, 4⟩, [⟨["C4---", "D4---", "E4---", "F4"]⟩, ⟨["G3---"]⟩]⟩ {}
        (.listener (.new none)) = .ok start ∧
      Sheet.Performs ⟨120, ⟨4, 4⟩, [⟨["C4---", "D4---", "E4---", "F4"]⟩, ⟨["G3---"]⟩]⟩ {} own ∧
      ∀ es s, Execution start es s → threadSteps es ≤ start.weight ∧
        ∃ l synth, HearsCleanly own
            (Sheet.capacity ⟨120, ⟨4, 4⟩,
              [⟨["C4---", "D4---", "E4---", "F4"]⟩, ⟨["G3---"]⟩]⟩ {}) s l synth ∧
          ([⟨["C4---", "D4---", "E4---", "F4"]⟩, (⟨["G3---"]⟩ : Track)] ≠ [] →
            InterruptedFirst es → (∀ bar, .samples bar ∉ l.heard) ∧
            ∀ result, synth.result? = some result →
              result = .error (.reported .interrupted)) :=
  interrupt_leaves_clean_beginning (.inr (by decide +kernel))

end Session

end PlainScore
