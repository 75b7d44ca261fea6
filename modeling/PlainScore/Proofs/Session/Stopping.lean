import PlainScore.Proofs.Relay.Prompt
import PlainScore.Proofs.Session.Prompt
import PlainScore.Proofs.Session.Sequence

/-! How soon a medley stops when it is interrupted.
The relay and its children look at the flag independently of each other, so that either may be
the first to stop, between two sheets or in the middle of one. What follows the interrupt is the
same in every order: the bar that the relay was sending, if there was one, and the end marker. -/
namespace PlainScore

namespace Session

open Relay

variable {own : List Performance} {trace : List Chunk} {s t : Session} {l : Listener} {r : Relay}

/-! ### Relays while somebody listens -/

/-- A property of the flag, of what was sent so far and of the relay, that no thread breaks while
the relay has a listener. -/
structure Kept (own : List Performance) (P : Bool → List Chunk → Relay → Prop) : Prop where
  flag : ∀ {b trace r}, P b trace r → P true trace r
  relay : ∀ {b trace r} {output : Handoff}, P b trace r → r.Invariant → Setting own r →
    r.Accounts own b false trace → output.receiver = true → r.canStep output = true →
    P b (trace ++ output.put (r.step b output).2) (r.step b output).1
  child : ∀ {b trace r i} {c : Child}, P b trace r → r.Invariant → r.child? i = some c →
    c.canStep = true → P b trace (r.stepChild b i)

variable {P : Bool → List Chunk → Relay → Prop}

theorem Kept.step (hk : Kept own P) (h : Relays own none trace s l r) (hi : s.Invariant)
    (hp : P s.interrupted trace r) {e : Event} (he : Enabled s e) :
    ∃ l' r', Relays own none (trace ++ s.output.put (next s e).output) (next s e) l' r' ∧
      P (next s e).interrupted (trace ++ s.output.put (next s e).output) r' := by
  have hinv := (hi.relay h.producer).invariant
  cases e with
  | consume =>
    have hput : s.output.put (next s .consume).output = [] := by rw [next, Consumer.step_put he]
    have hflag : (next s .consume).interrupted = s.interrupted := by rw [next_consume h.consumer]
    refine ⟨_, r, consume_preserves_relays h hi (canStep_of_enabled h.consumer he), ?_⟩
    rw [hput, hflag, List.append_nil]
    exact hp
  | produce =>
    have hc : r.canStep s.output = true := by
      simpa only [Enabled, h.producer, Producer.canStep] using he
    have hreceiver : s.output.receiver = true := by
      by_contra hn
      cases h.limited_of_closed hi hc (Bool.eq_false_iff.mpr hn)
    refine ⟨l, _, produce_preserves_relays h hi hc, ?_⟩
    rw [next, h.producer]
    exact hk.relay hp hinv h.setting h.accounts hreceiver hc
  | produceChild i =>
    obtain ⟨r', c, hproducer, hchild, hc, hnext⟩ := next_produceChild he
    cases h.producer.symm.trans hproducer
    refine ⟨l, _, produceChild_preserves_relays h hi hchild hc, ?_⟩
    rw [hnext, Handoff.put_self, List.append_nil]
    exact hk.child hp hinv hchild hc
  | interrupt =>
    obtain ⟨l', r', hrelays⟩ := step_preserves_relays h hi he
    cases h.producer.symm.trans hrelays.producer
    refine ⟨l', r, hrelays, ?_⟩
    have hput : s.output.put (next s .interrupt).output = [] := Handoff.put_self _
    rw [hput, List.append_nil]
    exact hk.flag hp

theorem Kept.execution (hk : Kept own P) {es : List Event} (he : Execution s es t)
    (h : Relays own none trace s l r) (hi : s.Invariant) (hp : P s.interrupted trace r) :
    ∃ l' r', Relays own none (trace ++ sent s es) t l' r' ∧
      P t.interrupted (trace ++ sent s es) r' := by
  induction he generalizing trace l r with
  | nil => exact ⟨l, r, by rwa [sent, List.append_nil], by rwa [sent, List.append_nil]⟩
  | cons hstep _ ih =>
    obtain ⟨he, rfl⟩ := hstep
    obtain ⟨_, _, h', hp'⟩ := hk.step h hi hp he
    rw [sent, ← List.append_assoc]
    exact ih h' (step_preserves_invariant hi he) hp'

theorem willing_kept (hgood : ∀ p ∈ own, ∃ report, p.result = .ok report) :
    Kept own fun _ _ r => r.Willing := by
  constructor
  · exact fun h => h
  · intro b trace r output h hi hset ha hr hc
    exact h.step hi hset ha hgood hr hc
  · intro b trace r i c h _ hchild _
    exact h.stepChild hchild b

/-- From the interrupt on: all that is sent in the end is known, and from child `n` on nobody has
anything to send. -/
structure Stopping (n : Nat) (whole : List Chunk) (interrupted : Bool) (trace : List Chunk)
    (r : Relay) : Prop where
  flag : interrupted = true
  willing : r.Willing
  silent : r.SilentFrom n
  known : trace ++ r.phase.lastChunks = whole

theorem stopping_kept (hgood : ∀ p ∈ own, ∃ report, p.result = .ok report) (n : Nat)
    (whole : List Chunk) : Kept own (Stopping n whole) := by
  constructor
  · rintro b trace r ⟨rfl, hw, hs, hk⟩
    exact ⟨rfl, hw, hs, hk⟩
  · rintro b trace r output ⟨rfl, hw, hs, hk⟩ hi hset ha hr hc
    refine ⟨rfl, hw.step hi hset ha hgood hr hc, hs.step hw hc true, ?_⟩
    rw [List.append_assoc, step_lastChunks hset hr hc, hk]
  · rintro b trace r i c ⟨rfl, hw, hs, hk⟩ hi hchild hc
    refine ⟨rfl, hw.stepChild hchild true, hs.stepChild hi hchild hc, ?_⟩
    rw [stepChild_of_child hchild, setChild_phase, hk]

/-! ### What follows an interrupt -/

/-- What an interrupt finds in a session `t` of a medley, and what follows it: `held` is the relay
at that moment and `late` are the events from then on. `own` are the performances of the sheets
by themselves. -/
structure StopsPromptly (own : List Performance) (start : Session) (early : List Event)
    (t : Session) (held : Relay) (late : List Event) (s : Session) (l : Listener) (r : Relay) :
    Prop where
  producer : t.producer = .relay held
  relay : s.producer = .relay r
  listener : s.consumer = .listener l
  prompt : barCount (sent t late) ≤ 1
  ending : sent t late <+: held.phase.lastChunks
  /-- A bar that follows was taken before the interrupt, from a child that ran by then. -/
  origin : ∀ bar, .samples bar ∈ sent t late →
    ∃ i, held.phase = .sending i bar ∧ i < held.children.length
  silent : ∀ i c, held.children.length ≤ i → r.child? i = some c →
    (∀ bar, c.output.slot ≠ some (.samples bar)) ∧
      ∀ result, c.synth.result? = some result → result = .error (.reported .interrupted)
  result : ∀ result, r.result? = some result → result = .error (.reported .interrupted) ∨
    (∃ reports, result = .ok reports) ∧
      sent start early ++ sent t late = (barsOf own).map .samples ++ [.endOfStream]
  steps : threadSteps late ≤ t.weight
  heard : s.Quiet → r.result?.isSome = true ∧ l.heard = sent start early ++ sent t late ∧
    Ended l.heard

theorem Relays.heard_all (h : Relays own none trace s l r) (hi : s.Invariant) (hq : s.Quiet) :
    r.result?.isSome = true ∧ l.heard = trace ∧ Ended l.heard := by
  obtain ⟨-, hgone⟩ := hq.ended hi
  rw [h.consumer] at hgone
  obtain hlimit | ⟨hheard, hover⟩ := h.gone hgone
  · cases hlimit
  · obtain ⟨result, hr⟩ := Option.isSome_iff_exists.mp hover
    obtain ⟨bars, hclosed, -⟩ := h.outcome hr
    exact ⟨hover, hheard, bars, hheard.trans (closed_of_unlimited hclosed rfl)⟩

/-- A willing relay with a listener has a good result, if it has one, only when it has sent all. -/
theorem Relays.interrupted_or_whole (h : Relays own none trace s l r) (hw : r.Willing)
    {result : Relay.Result} (hr : r.result? = some result) :
    result = .error (.reported .interrupted) ∨ (∃ reports, result = .ok reports) ∧
      trace = (barsOf own).map .samples ++ [.endOfStream] := by
  cases result with
  | error f =>
    left
    rw [hw.failed f (by rw [phase_of_result hr, Phase.verdict?])]
  | ok reports =>
    right
    obtain ⟨bars, hclosed, ho⟩ := h.outcome hr
    obtain ⟨-, rfl⟩ := ho.whole
    exact ⟨⟨reports, rfl⟩, closed_of_unlimited hclosed rfl⟩

theorem reports_of_performances {sheets : List Sheet} {params : Audio.Params}
    (h : List.Forall₂ (Sheet.PerformsWell · params ·) sheets own) :
    ∀ p ∈ own, ∃ report, p.result = .ok report := by
  intro p hp
  obtain ⟨i, hi, rfl⟩ := List.getElem_of_mem hp
  exact (h.get (h.length_eq ▸ hi) hi).2

/-- Accepted sheets on which no thread is lost, in whatever order the threads move and whenever the
flag is set. -/
theorem interrupted_medley_stops_promptly {sheets : List Sheet} {params : Audio.Params}
    (ha : ∀ sheet ∈ sheets, sheet.Accepted) (hk : ∀ sheet ∈ sheets, sheet.KeepsThread params)
    {early late : List Event}
    (hearly : Execution (ofSheets sheets params (.listener (.new none))) early t)
    (hflag : t.interrupted = true) (hlate : Execution t late s) :
    ∃ own held l r, List.Forall₂ (Sheet.PerformsWell · params ·) sheets own ∧
      StopsPromptly own (ofSheets sheets params (.listener (.new none))) early t held late s l
        r := by
  obtain ⟨own, hown⟩ := performances_of_accepted ha hk
  have hgood := reports_of_performances hown
  have hinv := ofSheets_invariant sheets params (.listener (.new none)) (fun _ => none) rfl rfl
  have ht := execution_preserves_invariant hearly hinv
  have hs := execution_preserves_invariant hlate ht
  have hw := execution_lowers_weight hlate ht
  obtain ⟨k, held, hheld, hwilling⟩ := (willing_kept hgood).execution hearly
    (ofSheets_relays (hown.imp fun _ _ hp => hp.1) none) hinv
    (new_willing fun sheet hs => (ha sheet hs).tracks_ne_nil)
  rw [List.nil_append] at hheld
  obtain ⟨l, r, hrelays, hstop⟩ := (stopping_kept hgood held.children.length
    (sent _ early ++ held.phase.lastChunks)).execution hlate hheld ht
    ⟨hflag, hwilling, silentFrom_length held, rfl⟩
  have hrest : sent t late ++ r.phase.lastChunks = held.phase.lastChunks := by
    have hknown := hstop.known
    rwa [List.append_assoc, List.append_cancel_left_eq] at hknown
  have hbegins : sent t late <+: held.phase.lastChunks := ⟨_, hrest⟩
  refine ⟨own, held, l, r, hown, hheld.producer, hrelays.producer, hrelays.consumer, ?_, hbegins,
    ?_, ?_, fun _ => hrelays.interrupted_or_whole hstop.willing, by omega,
    hrelays.heard_all hs⟩
  · exact hbegins.sublist.countP_le.trans held.phase.barCount_lastChunks
  · intro bar hbar
    obtain ⟨i, hp⟩ := Phase.sending_of_mem_lastChunks (hbegins.subset hbar)
    have hcount := (ht.relay hheld.producer).invariant.count
    rw [hp] at hcount
    exact ⟨i, hp, Nat.lt_of_lt_of_eq (Nat.lt_succ_self i) hcount.symm⟩
  · intro i c hn hchild
    have hsilent := hstop.silent i c hn hchild
    exact ⟨hsilent.empty, fun _ => hsilent.mute.result⟩

/-- Until the relay of two drones is sending the first bar of the first. -/
def droneBegun : List Event :=
  [.produce, .produceChild 0, .produceChild 0, .produceChild 0, .produce, .produce, .interrupt]

/-- The bar that it is sending follows, and no other. -/
theorem two_drones_stop_promptly : ∃ t s,
    Execution (ofSheets [drone, drone] {} (.listener (.new none))) droneBegun t ∧
      t.interrupted = true ∧ Execution t [.produce, .consume, .produceChild 0] s ∧
      barCount (sent t [.produce, .consume, .produceChild 0]) = 1 ∧
      ∃ own held l r, List.Forall₂ (Sheet.PerformsWell · {} ·) [drone, drone] own ∧
        StopsPromptly own (ofSheets [drone, drone] {} (.listener (.new none))) droneBegun t held
          [.produce, .consume, .produceChild 0] s l r := by
  have haccepted : ∀ sheet ∈ [drone, drone], sheet.Accepted := by decide +kernel
  have hkeeps : drone.KeepsThread {} := by
    refine Sheet.keepsThread_of_playable (by decide +kernel) (List.cons_ne_nil _ _) ?_
    simp only [drone, List.mem_cons, List.not_mem_nil, or_false, forall_eq]
    exact ⟨⟨.tone "C4" 60, 2⟩, by decide +kernel, by decide +kernel⟩
  have hearly : Execution (ofSheets [drone, drone] {} (.listener (.new none))) droneBegun _ :=
    Admits.execution (by decide +kernel)
  have hlate : Execution
      (droneBegun.foldl next (ofSheets [drone, drone] {} (.listener (.new none))))
      [.produce, .consume, .produceChild 0] _ := Admits.execution (by decide +kernel)
  exact ⟨_, _, hearly, rfl, hlate, by decide +kernel,
    interrupted_medley_stops_promptly haccepted (by simpa using hkeeps) hearly rfl hlate⟩

end Session

end PlainScore
