import PlainScore.Proofs.Relay.Succession
import PlainScore.Proofs.Session.Progress

/-! A relay and a listener, who may leave at any moment.
The trace of a run is what the relay puts into its output. The relay accounts for it, and the
listener hears it from the beginning. -/
namespace PlainScore

theorem Relay.step_slot {r : Relay} {output : Handoff} (hc : r.canStep output = true)
    (interrupted : Bool) : (r.step interrupted output).2.slot.toList =
      output.slot.toList ++ output.put (r.step interrupted output).2 := by
  have hm := step_moved hc interrupted
  generalize r.step interrupted output = next at hm ⊢
  obtain ⟨t, out⟩ := next
  dsimp only at hm ⊢
  cases hm with
  | sent _ _ hslot | ended _ _ hslot =>
    rw [Handoff.put_some _ hslot, hslot]
    rfl
  | left => rw [Handoff.put_dropSender, List.append_nil]; rfl
  | _ => rw [Handoff.put_self, List.append_nil]

namespace Session

open Relay

def sent : Session → List Event → List Chunk
  | _, [] => []
  | s, e :: es => s.output.put (next s e).output ++ sent (next s e) es

structure Relays (own : List Performance) (limit : Option Nat) (trace : List Chunk)
    (s : Session) (l : Listener) (r : Relay) : Prop where
  consumer : s.consumer = .listener l
  producer : s.producer = .relay r
  limited : l.limit = limit
  setting : r.Setting own
  accounts : r.Accounts own s.interrupted limit.isSome trace
  succession : r.Succession
  listening : l.gone = false → l.heard ++ s.output.slot.toList = trace
  heard : l.heard <+: trace
  gone : l.gone = true → limit.isSome = true ∨ l.heard = trace ∧ r.result?.isSome = true

variable {own : List Performance} {limit : Option Nat} {trace : List Chunk} {s : Session}
  {l : Listener} {r : Relay}

theorem consume_preserves_relays (h : Relays own limit trace s l r) (hi : s.Invariant)
    (hc : l.canStep s.output = true) :
    Relays own limit (trace ++ s.output.put (next s .consume).output) (next s .consume)
      (l.step s.output).1 r := by
  have hm := Listener.step_moved hc
  have hlinked := hi.relay h.producer
  rw [next_consume h.consumer]
  generalize l.step s.output = after at hm ⊢
  obtain ⟨k, out⟩ := after
  dsimp only at hm ⊢
  have hput : s.output.put out = [] := Handoff.put_of_empty (by cases hm <;> rfl)
  rw [hput, List.append_nil]
  cases hm with
  | left _ hs =>
    have hlimit : limit.isSome = true := by
      rw [Listener.satisfied, h.limited] at hs
      obtain ⟨n, hn, -⟩ := (Option.any_eq_true _ _).mp hs
      rw [hn]
      rfl
    exact ⟨rfl, h.producer, h.limited, h.setting, h.accounts, h.succession,
      fun hg => Bool.noConfusion hg, h.heard, fun _ => .inl hlimit⟩
  | @heard c hg _ hslot =>
    have htrace : l.heard ++ [c] = trace := by
      have := h.listening hg
      rwa [hslot] at this
    exact ⟨rfl, h.producer, h.limited, h.setting, h.accounts, h.succession,
      fun _ => (List.append_nil _).trans htrace, htrace ▸ List.prefix_rfl,
      fun hgone => absurd (hg.symm.trans hgone) Bool.false_ne_true⟩
  | ended hg _ hslot hd =>
    have htrace : l.heard = trace := by
      have := h.listening hg
      rwa [hslot, Option.toList_none, List.append_nil] at this
    refine ⟨rfl, h.producer, h.limited, h.setting, h.accounts, h.succession,
      fun hg => Bool.noConfusion hg, h.heard, fun _ => .inr ⟨htrace, ?_⟩⟩
    rw [← Option.not_isNone, ← hlinked.sender, hd]
    rfl

theorem Relays.limited_of_gone (h : Relays own limit trace s l r) {output : Handoff}
    (hc : r.canStep output = true) (hg : l.gone = true) : limit.isSome = true := by
  refine (h.gone hg).resolve_right ?_
  rintro ⟨-, hr⟩
  rw [Relay.cannotStep_of_result hr] at hc
  cases hc

theorem Relays.limited_of_closed (h : Relays own limit trace s l r) (hi : s.Invariant)
    (hc : r.canStep s.output = true) (hr : s.output.receiver = false) : limit.isSome = true := by
  apply h.limited_of_gone hc
  rwa [hi.receiver, h.consumer, Consumer.listens, Bool.not_eq_false'] at hr

theorem produce_preserves_relays (h : Relays own limit trace s l r) (hi : s.Invariant)
    (hc : r.canStep s.output = true) :
    Relays own limit (trace ++ s.output.put (next s .produce).output) (next s .produce) l
      (r.step s.interrupted s.output).1 := by
  have hlinked := hi.relay h.producer
  have hnext : next s .produce = { s with
      producer := .relay (r.step s.interrupted s.output).1
      output := (r.step s.interrupted s.output).2 } := by
    simp only [next, h.producer, Producer.step]
  have haccounts := Relay.step_preserves_accounts h.accounts hlinked.invariant h.setting
    (h.limited_of_closed hi hc) hc
  rw [hnext]
  refine ⟨h.consumer, rfl, h.limited, Relay.step_setting h.setting hc, haccounts,
    Relay.step_preserves_succession h.succession h.accounts hlinked.invariant hc, ?_,
    h.heard.trans (List.prefix_append _ _), fun hg => .inl (h.limited_of_gone hc hg)⟩
  intro hg
  rw [Relay.step_slot hc, ← List.append_assoc, h.listening hg]

theorem produceChild_preserves_relays (h : Relays own limit trace s l r) (hi : s.Invariant)
    {i : Nat} {c : Relay.Child} (hchild : r.child? i = some c) (hc : c.canStep = true) :
    Relays own limit (trace ++ s.output.put (next s (.produceChild i)).output)
      (next s (.produceChild i)) l (r.stepChild s.interrupted i) := by
  have hlinked := hi.relay h.producer
  have hs := (hlinked.invariant.children i c hchild).1
  have hnext : next s (.produceChild i) =
      { s with producer := .relay (r.stepChild s.interrupted i) } := by
    simp only [next, h.producer]
  rw [hnext, Handoff.put_self, List.append_nil]
  refine ⟨h.consumer, rfl, h.limited, Relay.stepChild_setting h.setting i,
    Relay.stepChild_preserves_accounts h.accounts hchild hs hc,
    Relay.stepChild_preserves_succession h.succession hlinked.invariant hchild hc _,
    h.listening, h.heard, ?_⟩
  intro hg
  rw [stepChild_preserves_result]
  exact h.gone hg

theorem step_preserves_relays (h : Relays own limit trace s l r) (hi : s.Invariant) {e : Event}
    (he : Enabled s e) :
    ∃ l r, Relays own limit (trace ++ s.output.put (next s e).output) (next s e) l r := by
  cases e with
  | consume =>
    have hc := canStep_of_enabled h.consumer he
    exact ⟨_, _, consume_preserves_relays h hi hc⟩
  | produce =>
    have hc : r.canStep s.output = true := by
      simpa only [Enabled, h.producer, Producer.canStep] using he
    exact ⟨_, _, produce_preserves_relays h hi hc⟩
  | produceChild i =>
    have hany : (r.child? i).any (·.canStep) = true := by
      simpa only [Enabled, h.producer] using he
    obtain ⟨c, hchild, hc⟩ := (Option.any_eq_true _ _).mp hany
    exact ⟨_, _, produceChild_preserves_relays h hi hchild hc⟩
  | interrupt =>
    have hput : s.output.put (next s .interrupt).output = [] := Handoff.put_self _
    rw [hput, List.append_nil]
    exact ⟨_, _, h.consumer, h.producer, h.limited, h.setting, h.accounts.interrupt, h.succession,
      h.listening, h.heard, h.gone⟩

/-- What can be relied on in a run from `start` by a listener who leaves after so many chunks,
or listens to the end if there is no limit. `own` are the performances of the sheets by
themselves. -/
structure RelaysInOrder (own : List Performance) (limit : Option Nat) (start : Session)
    (es : List Event) (s : Session) (l : Listener) (r : Relay) : Prop where
  consumer : s.consumer = .listener l
  producer : s.producer = .relay r
  heard : ∃ bars, bars <+: barsOf own ∧
    (l.heard = bars.map .samples ∨ l.heard = bars.map .samples ++ [.endOfStream])
  closed : limit = none → l.gone = true → s.output.sender = false ∧ l.heard = sent start es ∧
    ∃ bars : List (List Sample), l.heard = bars.map .samples ++ [.endOfStream]
  ended : s.Quiet → l.gone = true ∧ r.result?.isSome = true
  succession : r.Succession
  whole : ∀ reports, r.result? = some (.ok reports) →
    own.map (·.result) = reports.map .ok ∧ Closed limit.isSome (barsOf own) (sent start es)
  /-- Without an interrupt and a limit, the first sheet that fails by itself makes the result.
  All that it served was sent, and no other sheet was begun. -/
  first_failure : .interrupt ∉ es → limit = none → ∀ i p f, own[i]? = some p →
    p.result = .error f →
    (∀ j q, j < i → own[j]? = some q → ∃ report, q.result = .ok report) →
    ∀ result, r.result? = some result → result = .error (.reported (childError i f)) ∧
      sent start es = (barsOf (own.take (i + 1))).map .samples ++ [.endOfStream] ∧
      r.children.length = i + 1
  all_succeed : .interrupt ∉ es → limit = none → (∀ p ∈ own, ∃ report, p.result = .ok report) →
    ∀ result, r.result? = some result → ∃ reports, result = .ok reports

theorem Relays.outcome (h : Relays own limit trace s l r) {result : Relay.Result}
    (hr : r.result? = some result) : ∃ bars, Closed limit.isSome bars trace ∧
      Outcome own s.interrupted limit.isSome r.children.length bars result := by
  have ha := h.accounts
  rw [result?] at hr
  split at hr
  · rename_i hp
    cases hr
    simpa only [Accounts, hp] using ha
  · cases hr

theorem Relays.heard_shape (h : Relays own limit trace s l r) : ∃ bars, bars <+: barsOf own ∧
    (l.heard = bars.map .samples ∨ l.heard = bars.map .samples ++ [.endOfStream]) := by
  obtain ⟨bars, hb, ht⟩ := h.accounts.shape
  have within : ∀ {xs : List Chunk}, xs <+: bars.map .samples →
      ∃ bars, bars <+: barsOf own ∧ xs = bars.map .samples := by
    intro xs hx
    obtain ⟨before, hbefore, hx⟩ := List.prefix_map_iff.mp hx
    exact ⟨before, hbefore.trans hb, hx⟩
  have hpre := h.heard
  rcases ht with rfl | rfl
  · obtain ⟨before, hbefore, hx⟩ := within hpre
    exact ⟨before, hbefore, .inl hx⟩
  · rcases List.prefix_concat_iff.mp hpre with hall | hpre
    · exact ⟨bars, hb, .inr hall⟩
    · obtain ⟨before, hbefore, hx⟩ := within hpre
      exact ⟨before, hbefore, .inl hx⟩

theorem closed_of_unlimited {bars : List (List Sample)} (h : Closed limit.isSome bars trace)
    (hlimit : limit = none) : trace = bars.map .samples ++ [.endOfStream] := by
  subst hlimit
  exact h.resolve_right fun hl => Bool.false_ne_true hl.1

theorem ofSheets_relays {sheets : List Sheet} {params : Audio.Params}
    (h : List.Forall₂ (fun sheet p => sheet.Performs params p) sheets own) (limit : Option Nat) :
    Relays own limit [] (ofSheets sheets params (.listener (.new limit))) (.new limit)
      (.new sheets params) :=
  ⟨rfl, rfl, rfl, ⟨h, fun _ => rfl⟩, ⟨Nat.zero_le _, rfl, rfl⟩, new_succession sheets params _,
    fun _ => rfl, List.prefix_rfl, fun hg => Bool.noConfusion hg⟩

/-- However the threads come to move, whenever the run is interrupted and after however many
chunks the listener leaves: everything comes to an end, and the performances are passed on in
order. -/
def PassesOn (sheets : List Sheet) (params : Audio.Params) (own : List Performance) : Prop :=
  ∀ limit es s, Execution (ofSheets sheets params (.listener (.new limit))) es s →
    threadSteps es ≤ (ofSheets sheets params (.listener (.new limit))).weight ∧
    ∃ l r, RelaysInOrder own limit (ofSheets sheets params (.listener (.new limit))) es s l r

end Session

end PlainScore
