import Mathlib.Algebra.Ring.Nat
import PlainScore.Proofs.Session.Invariant

/-! No session goes on for ever.
`weight` counts what the threads still have to do: ranks of synthesizers, chunks on their way,
sheets that are not begun and children that are not waited for. Every step of a thread lowers
it, in whatever order the threads come to move. -/
namespace PlainScore

namespace Handoff

def weight (chunk : Nat) (h : Handoff) : Nat := if h.slot.isSome then chunk else 0

theorem weight_le (chunk : Nat) (h : Handoff) : h.weight chunk ≤ chunk := by
  unfold weight
  split <;> omega

@[simp] theorem weight_none (chunk : Nat) (h : Handoff) :
    weight chunk { h with slot := none } = 0 := rfl

theorem weight_of_some {h : Handoff} {c : Chunk} (chunk : Nat) (hs : h.slot = some c) :
    h.weight chunk = chunk := by
  rw [weight, hs]
  rfl

theorem weight_of_none {h : Handoff} (chunk : Nat) (hs : h.slot = none) : h.weight chunk = 0 := by
  rw [weight, hs]
  rfl

@[simp] theorem weight_new (chunk : Nat) : weight chunk {} = 0 := rfl

@[simp] theorem weight_some (chunk : Nat) (h : Handoff) (c : Chunk) :
    weight chunk { h with slot := some c } = chunk := rfl

@[simp] theorem weight_dropReceiver (chunk : Nat) (h : Handoff) :
    h.dropReceiver.weight chunk = 0 := rfl

@[simp] theorem weight_dropSender (chunk : Nat) (h : Handoff) :
    h.dropSender.weight chunk = h.weight chunk := rfl

end Handoff

namespace Relay

def Child.weight (c : Child) : Nat := 6 * c.synth.rank + c.output.weight 5

/-- What it takes to play a sheet, and to wait for its child. -/
def sheetWeight (params : Audio.Params) (sheet : Sheet) : Nat :=
  match Synth.new sheet params with
  | .ok s => 6 * s.rank + 3
  | .error _ => 0

def Phase.weight (children : Nat) : Phase → Nat
  | .starting _ => 3 * children + 8
  | .receiving _ => 3 * children + 7
  | .checking _ _ => 3 * children + 11
  | .sending _ _ => 3 * children + 10
  | .joining _ => 3 * children + 9
  | .ending _ => 3 * children + 5
  | .draining _ i => 3 * (children - i) + 2
  | .discarding _ i => 3 * (children - i) + 1
  | .reaping _ i => 3 * (children - i)
  | .leaving _ => 1
  | .done _ => 0

def weight (r : Relay) : Nat :=
  (r.children.map Child.weight).sum +
    ((r.sheets.drop r.children.length).map (sheetWeight r.params)).sum +
    r.phase.weight r.children.length

private theorem sum_map_set {α : Type} {xs : List α} {i : Nat} {x : α} (h : xs[i]? = some x)
    (f : α → Nat) (y : α) : ((xs.set i y).map f).sum + f x = (xs.map f).sum + f y := by
  induction xs generalizing i with
  | nil => simp at h
  | cons z zs ih =>
    cases i with
    | zero =>
      obtain rfl : z = x := by simpa using h
      simp only [List.set_cons_zero, List.map_cons, List.sum_cons]
      omega
    | succ i =>
      have := ih (i := i) (by simpa using h)
      simp only [List.set_cons_succ, List.map_cons, List.sum_cons]
      omega

variable {r : Relay} {i : Nat} {c : Child}

theorem weight_setChild (h : r.child? i = some c) (c' : Child) :
    (r.setChild i c').weight + c.weight = r.weight + c'.weight := by
  have hs := sum_map_set h Child.weight c'
  simp only [weight, setChild, List.length_set]
  omega

theorem weight_goTo (r : Relay) (p : Phase) :
    (r.goTo p).weight + r.phase.weight r.children.length =
      r.weight + p.weight r.children.length := by
  simp only [weight, goTo]
  omega

theorem weight_write (r : Relay) (l : Line) : (r.write l).weight = r.weight := rfl

theorem emptied_weight {chunk : Chunk} (h : c.output.slot = some chunk) :
    c.emptied.weight + 5 = c.weight := by
  simp only [Child.weight, Child.emptied, Handoff.weight_none, Handoff.weight_of_some 5 h]

theorem waitedFor_weight (c : Child) : c.waitedFor.weight = c.weight := rfl

theorem started_weight {sheet : Sheet} {synth : Synth} {l : Line} (hp : r.phase = .starting i)
    (hn : r.children.length = i) (hs : r.sheets[i]? = some sheet)
    (hsynth : Synth.new sheet r.params = .ok synth) :
    weight { r.write l with
      children := r.children ++ [⟨synth, {}, false⟩], phase := .receiving i } < r.weight := by
  obtain ⟨hlt, hget⟩ := List.getElem?_eq_some_iff.mp hs
  have hdrop := List.drop_eq_getElem_cons hlt
  rw [hget] at hdrop
  have hsheet : sheetWeight r.params sheet = 6 * synth.rank + 3 := by rw [sheetWeight, hsynth]
  simp only [weight, write, hp, Phase.weight, List.length_append, List.length_singleton, hn,
    hdrop, List.map_append, List.sum_append, List.map_cons, List.map_nil, List.sum_cons,
    List.sum_nil, hsheet, Child.weight, Handoff.weight_new]
  omega

theorem finish_weight (result : Result)
    (hp : 3 * r.children.length + 5 < r.phase.weight r.children.length) :
    (r.finish result).weight < r.weight := by
  have hw := weight_goTo (r.write (.debug "Serving end of stream")) (.ending result)
  rw [weight_write] at hw
  change (r.finish result).weight + r.phase.weight r.children.length =
    r.weight + (3 * r.children.length + 5) at hw
  omega

theorem fail_weight (e : Error)
    (hp : 3 * r.children.length + 5 < r.phase.weight r.children.length) :
    (r.fail e).weight < r.weight :=
  finish_weight (r := r.write _) _ hp

theorem weight_setChild_goTo (h : r.child? i = some c) (c' : Child) (p : Phase) :
    ((r.setChild i c').goTo p).weight + c.weight + r.phase.weight r.children.length =
      r.weight + c'.weight + p.weight r.children.length := by
  have hs := weight_setChild h c'
  have hg := weight_goTo (r.setChild i c') p
  rw [setChild_phase, setChild_length] at hg
  omega

theorem stepChild_weight (h : r.Invariant) (hchild : r.child? i = some c)
    (hc : c.canStep = true) (interrupted : Bool) :
    (r.stepChild interrupted i).weight < r.weight := by
  have hv := (Synth.step_valid (h.children i c hchild).1.linked.valid hc interrupted).2
  have hs := weight_setChild hchild (c.step interrupted)
  have hslot := Handoff.weight_le 5 (c.step interrupted).output
  have he : r.stepChild interrupted i = r.setChild i (c.step interrupted) := by
    rw [stepChild, hchild]
  rw [he]
  change (c.step interrupted).synth.rank < c.synth.rank at hv
  simp only [Child.weight] at hs
  omega

theorem step_weight {output : Handoff} (h : r.Invariant) (hc : r.canStep output = true)
    (interrupted : Bool) :
    (r.step interrupted output).1.weight + (r.step interrupted output).2.weight 2 <
      r.weight + output.weight 2 := by
  have hcount := h.count
  have hm := step_moved hc interrupted
  generalize r.step interrupted output = next at hm ⊢
  obtain ⟨t, out⟩ := next
  dsimp only at hm ⊢
  cases hm with
  | allPlayed hp =>
    exact Nat.add_lt_add_right (finish_weight _ (by rw [hp, Phase.weight]; omega)) _
  | @lost _ _ f hp =>
    have hw := weight_goTo r (.leaving (.error f))
    simp only [hp, Phase.weight] at hw
    omega
  | @notSpawned _ l fault _ _ hp =>
    refine Nat.add_lt_add_right (fail_weight (r := r.write l) _ ?_) _
    change 3 * r.children.length + 5 < r.phase.weight r.children.length
    rw [hp, Phase.weight]
    omega
  | started hp hs hn =>
    rw [hp] at hcount
    exact Nat.add_lt_add_right (started_weight hp hcount hs hn) _
  | @received i c bar hp hchild hslot =>
    have hw := weight_setChild_goTo hchild c.emptied (.checking i bar)
    have he := emptied_weight hslot
    simp only [hp, Phase.weight] at hw
    omega
  | @receivedEnd i c hp hchild hslot =>
    have hw := weight_setChild_goTo hchild c.emptied (.joining i)
    have he := emptied_weight hslot
    simp only [hp, Phase.weight] at hw
    omega
  | @cutOff i c hp hchild =>
    have hs := weight_setChild hchild c
    have hf := fail_weight (r := r.setChild i c) (.closed (.endMarker (.child i)))
      (by rw [setChild_phase, setChild_length, hp, Phase.weight]; omega)
    omega
  | @passed i bar hp =>
    have hw := weight_goTo r (.sending i bar)
    simp only [hp, Phase.weight] at hw
    omega
  | stopped hp =>
    exact Nat.add_lt_add_right (fail_weight _ (by rw [hp, Phase.weight]; omega)) _
  | @sent i bar hp _ hslot =>
    have hw := weight_goTo r (.receiving i)
    simp only [hp, Phase.weight] at hw
    simp only [Handoff.weight_some, Handoff.weight_of_none 2 hslot]
    omega
  | refused hp =>
    exact Nat.add_lt_add_right (fail_weight _ (by rw [hp, Phase.weight]; omega)) _
  | @joined i c report hp hchild =>
    have hw := weight_setChild_goTo hchild c.waitedFor (.starting (i + 1))
    simp only [hp, Phase.weight, waitedFor_weight] at hw
    change ((r.setChild i c.waitedFor).goTo (.starting (i + 1))).weight + _ < _
    omega
  | @failed i c f hp hchild =>
    have hs := weight_setChild hchild c.waitedFor
    have hf := fail_weight (r := r.setChild i c.waitedFor) (childError i f)
      (by rw [setChild_phase, setChild_length, hp, Phase.weight]; omega)
    rw [waitedFor_weight] at hs
    omega
  | @ended result hp _ hslot =>
    have hw := weight_goTo r (.draining result 0)
    simp only [hp, Phase.weight] at hw
    simp only [Handoff.weight_some, Handoff.weight_of_none 2 hslot]
    omega
  | @unheard result l hp =>
    have hw := weight_goTo (r.write l) (.draining result 0)
    rw [weight_write] at hw
    change _ + r.phase.weight r.children.length =
      r.weight + (3 * (r.children.length - 0) + 2) at hw
    simp only [hp, Phase.weight] at hw
    omega
  | @drained result i hp =>
    have hw := weight_goTo r (.leaving result)
    simp only [hp, Phase.weight] at hw
    omega
  | @foundPending result i c l hp hchild =>
    have hw := weight_goTo (r.write l) (.discarding result i)
    rw [weight_write] at hw
    change _ + r.phase.weight r.children.length =
      r.weight + (3 * (r.children.length - i) + 1) at hw
    simp only [hp, Phase.weight] at hw
    omega
  | @foundJoined result i c hp hchild =>
    have hlt := lt_of_child hchild
    have hw := weight_goTo r (.draining result (i + 1))
    simp only [hp, Phase.weight] at hw
    omega
  | @foundFinished result i c hp hchild =>
    have hw := weight_goTo r (.reaping result i)
    simp only [hp, Phase.weight] at hw
    omega
  | @discarded result i c bar hp hchild hslot =>
    have hs := weight_setChild hchild c.emptied
    have he := emptied_weight hslot
    omega
  | @discardedEnd result i c hp hchild hslot =>
    have hw := weight_setChild_goTo hchild c.emptied (.reaping result i)
    have he := emptied_weight hslot
    simp only [hp, Phase.weight] at hw
    omega
  | @discardedAll result i c hp hchild =>
    have hw := weight_setChild_goTo hchild c (.reaping result i)
    simp only [hp, Phase.weight] at hw
    omega
  | @reaped result i c _ hp hchild =>
    have hlt := lt_of_child hchild
    have hw := weight_setChild_goTo hchild c.waitedFor (.draining result (i + 1))
    simp only [hp, Phase.weight, waitedFor_weight] at hw
    change ((r.setChild i c.waitedFor).goTo (.draining result (i + 1))).weight + _ < _
    omega
  | @left result hp =>
    have hw := weight_goTo r (.done result)
    simp only [hp, Phase.weight] at hw
    rw [Handoff.weight_dropSender]
    omega

end Relay

namespace Session

def Producer.weight : Producer → Nat
  | .lone s => 6 * s.rank
  | .relay r => r.weight

def Consumer.weight : Consumer → Nat
  | .listener l => if l.gone then 0 else 1
  | .playback p =>
    match p.phase with
    | .receiving => 4
    | .writing _ => 5
    | .finishing => 3
    | .hangingUp _ => 2
    | .joining _ => 1
    | .done _ => 0

def weight (s : Session) : Nat := s.consumer.weight + s.output.weight 2 + s.producer.weight

theorem Consumer.step_weight {c : Consumer} {input : Handoff}
    {produced : Option Playback.Result} (hc : c.canStep input produced = true) :
    (c.step input produced).1.weight + (c.step input produced).2.weight 2 <
      c.weight + input.weight 2 := by
  cases c with
  | listener l =>
    have hm := Listener.step_moved (show l.canStep input = true from hc)
    simp only [Consumer.step]
    generalize l.step input = after at hm ⊢
    obtain ⟨k, out⟩ := after
    dsimp only at hm ⊢
    cases hm with
    | left hg | ended hg =>
      simp only [Consumer.weight, hg, Handoff.weight_dropReceiver, if_true, Bool.false_eq_true,
        if_false]
      omega
    | heard hg _ hslot =>
      simp only [Consumer.weight, hg, Handoff.weight_none, Handoff.weight_of_some 2 hslot]
      omega
  | playback p =>
    have hm := Playback.step_moved (show p.canStep input produced = true from hc)
    simp only [Consumer.step]
    generalize p.step produced input = after at hm ⊢
    obtain ⟨q, out⟩ := after
    dsimp only at hm ⊢
    cases hm with
    | received hp hslot | receivedEnd hp hslot =>
      simp [Consumer.weight, hp, Playback.goTo, Handoff.weight_of_some 2 hslot]
    | cutOff hp => simp [Consumer.weight, hp, Playback.goTo]
    | @put bar hp =>
      rcases p.put_phase bar with hq | ⟨consumed, hq⟩
      · simp [Consumer.weight, hp, hq]
      · simp [Consumer.weight, hp, hq]
    | finished hp =>
      obtain ⟨consumed, hq⟩ := p.finish_phase
      simp [Consumer.weight, hp, hq]
    | hungUp hp =>
      simp only [Consumer.weight, hp, Playback.goTo, Handoff.weight_dropReceiver]
      omega
    | joined hp => simp [Consumer.weight, hp, Playback.goTo]

theorem Producer.step_weight {p : Producer} {output : Handoff} (h : p.Linked output)
    (hc : p.canStep output = true) (interrupted : Bool) :
    (p.step interrupted output).1.weight + (p.step interrupted output).2.weight 2 <
      p.weight + output.weight 2 := by
  cases p with
  | lone s =>
    have hlt := (Synth.step_valid (Synth.Linked.valid h) hc interrupted).2
    have hslot := Handoff.weight_le 2 (s.step interrupted output).2
    simp only [Producer.step, Producer.weight]
    omega
  | relay r => exact Relay.step_weight (Relay.Linked.invariant h) hc interrupted

variable {s : Session}

/-- The step lemma: whichever thread moves, less is left to do. -/
theorem step_lowers_weight (h : s.Invariant) {e : Event} (he : Enabled s e)
    (hn : e ≠ .interrupt) : (next s e).weight < s.weight := by
  cases e with
  | consume =>
    have hc : s.consumer.canStep s.output s.producer.result? = true := he
    have hlt := Consumer.step_weight hc
    simp only [weight, next]
    omega
  | produce =>
    have hlt := Producer.step_weight h.linked he s.interrupted
    simp only [weight, next]
    omega
  | produceChild i =>
    obtain ⟨flag, output, producer, consumer⟩ := s
    cases producer with
    | lone synth => exact he.elim
    | relay r =>
      obtain ⟨c, hchild, hc⟩ := (Option.any_eq_true _ _).mp he
      have hlt := Relay.stepChild_weight (Relay.Linked.invariant h.linked) hchild hc flag
      simp only [weight, next, Producer.weight]
      omega
  | interrupt => exact absurd rfl hn

/-- How many steps the threads make; interrupts from outside are not among them. -/
def threadSteps (es : List Event) : Nat := es.countP (· ≠ .interrupt)

theorem execution_lowers_weight {t : Session} {es : List Event} (h : Execution s es t)
    (hs : s.Invariant) : threadSteps es + t.weight ≤ s.weight := by
  induction h with
  | nil => exact Nat.le_of_eq (Nat.zero_add _)
  | @cons s t u e es hstep _ ih =>
    obtain ⟨he, rfl⟩ := hstep
    have hi := ih (step_preserves_invariant hs he)
    rw [threadSteps] at hi ⊢
    by_cases hn : e = .interrupt
    · subst hn
      rw [List.countP_cons_of_neg (by simp)]
      exact hi
    · have hlt := step_lowers_weight hs he hn
      rw [List.countP_cons_of_pos (by simpa using hn)]
      omega

end Session

end PlainScore
