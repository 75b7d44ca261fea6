import Mathlib.Data.List.Forall2
import PlainScore.Proofs.Relay.Invariant
import PlainScore.Proofs.Synth.Performance

/-! What a relay has passed on.
In every phase the chunks that went into the output are accounted for by the performances of
the sheets: those of the sheets before the one at hand, and of that one what was taken from its
child. The account is closed with a result, and the end marker follows. -/
namespace PlainScore

namespace Relay

def barsOf (ps : List Performance) : List (List Sample) := ps.flatMap (·.bars)

theorem barsOf_take_succ {ps : List Performance} {i : Nat} {p : Performance} (h : ps[i]? = some p) :
    barsOf (ps.take (i + 1)) = barsOf (ps.take i) ++ p.bars := by
  obtain ⟨hi, rfl⟩ := List.getElem?_eq_some_iff.mp h
  rw [barsOf, List.take_add_one, List.flatMap_append, List.getElem?_eq_getElem hi]
  simp [barsOf]

theorem barsOf_take_begins (ps : List Performance) (i : Nat) :
    barsOf (ps.take i) <+: barsOf ps := by
  conv_rhs => rw [← List.take_append_drop i ps, barsOf, List.flatMap_append]
  exact List.prefix_append _ _

/-- The chunks of the sheets before `i` and of some bars of sheet `i`. -/
def upTo (own : List Performance) (i : Nat) (here : List (List Sample)) : List Chunk :=
  (barsOf (own.take i) ++ here).map .samples

def Reported (own : List Performance) (i : Nat) (reports : List Report) : Prop :=
  (own.take i).map (·.result) = reports.map .ok

/-- The relay is about to pass on a chunk of sheet `i`, or to look for one. -/
def Playing (own : List Performance) (interrupted : Bool) (trace : List Chunk) (i : Nat)
    (held : List Chunk) (r : Relay) : Prop :=
  Reported own i r.reports ∧ ∃ p c here, own[i]? = some p ∧ r.child? i = some c ∧
    trace = upTo own i here ∧
    c.synth.Follows p interrupted (here.map .samples ++ held) c.output

inductive Outcome (own : List Performance) (interrupted limited : Bool) (children : Nat) :
    List (List Sample) → Result → Prop where
  | all {reports : List Report} : own.map (·.result) = reports.map .ok →
      Outcome own interrupted limited children (barsOf own) (.ok reports)
  | failed {i : Nat} {p : Performance} {f : Failure} {reports : List Report} :
      own[i]? = some p → Reported own i reports → p.result = .error f → children = i + 1 →
      Outcome own interrupted limited children (barsOf (own.take (i + 1)))
        (.error (.reported (childError i f)))
  | cut {bars : List (List Sample)} {f : Failure} : interrupted = true ∨ limited = true →
      bars <+: barsOf own → Outcome own interrupted limited children bars (.error f)

/-- The end marker was sent behind the bars, unless the listener had left. -/
def Closed (limited : Bool) (bars : List (List Sample)) (trace : List Chunk) : Prop :=
  trace = bars.map .samples ++ [.endOfStream] ∨ limited = true ∧ trace = bars.map .samples

def Accounts (own : List Performance) (interrupted limited : Bool) (trace : List Chunk)
    (r : Relay) : Prop :=
  match r.phase with
  | .starting i => i ≤ own.length ∧ Reported own i r.reports ∧ trace = upTo own i []
  | .receiving i => Playing own interrupted trace i [] r
  | .checking i bar | .sending i bar => Playing own interrupted trace i [.samples bar] r
  | .joining i => Playing own interrupted trace i [.endOfStream] r
  | .ending result => ∃ bars, trace = bars.map .samples ∧
      Outcome own interrupted limited r.children.length bars result
  | .draining result _ | .discarding result _ | .reaping result _ | .leaving result
  | .done result => ∃ bars, Closed limited bars trace ∧
      Outcome own interrupted limited r.children.length bars result

variable {own : List Performance} {interrupted limited : Bool} {trace : List Chunk} {r : Relay}
  {i : Nat} {c : Child}

theorem prefix_upTo {p : Performance} {here : List (List Sample)} (hp : own[i]? = some p)
    (hb : here <+: p.bars) : barsOf (own.take i) ++ here <+: barsOf own := by
  have hs := barsOf_take_begins own (i + 1)
  rw [barsOf_take_succ hp] at hs
  exact ((List.prefix_append_right_inj _).mpr hb).trans hs

theorem Playing.here_begins {held : List Chunk} (h : Playing own interrupted trace i held r) :
    ∃ bars, trace = bars.map .samples ∧ bars <+: barsOf own := by
  obtain ⟨-, p, c, here, hp, -, rfl, hf⟩ := h
  obtain ⟨q, ha, rest, -, he⟩ := hf
  rw [List.append_assoc, List.append_assoc] at he
  exact ⟨_, rfl, prefix_upTo hp ((prefix_of_sent he).trans ha.bars)⟩

theorem Outcome.bars_begin {n : Nat} {bars : List (List Sample)} {result : Result}
    (h : Outcome own interrupted limited n bars result) : bars <+: barsOf own := by
  cases h with
  | all => exact List.prefix_rfl
  | failed => exact barsOf_take_begins own _
  | cut _ hb => exact hb

/-- In every phase the trace is bars from the beginning, and then at most an end marker. -/
theorem Accounts.shape (h : r.Accounts own interrupted limited trace) :
    ∃ bars, bars <+: barsOf own ∧
      (trace = bars.map .samples ∨ trace = bars.map .samples ++ [.endOfStream]) := by
  have playing : ∀ {i held}, Playing own interrupted trace i held r → ∃ bars, bars <+: barsOf own ∧
      (trace = bars.map .samples ∨ trace = bars.map .samples ++ [.endOfStream]) := fun hp =>
    have ⟨bars, ht, hb⟩ := hp.here_begins
    ⟨bars, hb, .inl ht⟩
  unfold Accounts at h
  split at h
  · exact ⟨_, (List.append_nil _).symm ▸ barsOf_take_begins own _, .inl h.2.2⟩
  · exact playing h
  · exact playing h
  · exact playing h
  · exact playing h
  · obtain ⟨bars, ht, ho⟩ := h
    exact ⟨bars, ho.bars_begin, .inl ht⟩
  all_goals
    obtain ⟨bars, ht, ho⟩ := h
    exact ⟨bars, ho.bars_begin, ht.symm.imp_left And.right⟩

theorem Reported.ended_well {reports : List Report} (h : Reported own i reports) {j : Nat}
    {p : Performance} (hj : j < i) (hp : own[j]? = some p) : ∃ report, p.result = .ok report := by
  have hmem : p ∈ own.take i := List.mem_of_getElem? ((List.getElem?_take_of_lt hj).trans hp)
  have hres : p.result ∈ reports.map .ok := h ▸ List.mem_map_of_mem hmem
  obtain ⟨report, -, hr⟩ := List.mem_map.mp hres
  exact ⟨report, hr.symm⟩

theorem Outcome.whole {n : Nat} {bars : List (List Sample)} {reports : List Report}
    (h : Outcome own interrupted limited n bars (.ok reports)) :
    own.map (·.result) = reports.map .ok ∧ bars = barsOf own := by
  cases h with
  | all hr => exact ⟨hr, rfl⟩

/-- Without an interrupt and with a listener, the first sheet that fails makes the result. -/
theorem Outcome.first_failure {n : Nat} {bars : List (List Sample)} {result : Result}
    (h : Outcome own false false n bars result) {p : Performance} {f : Failure}
    (hp : own[i]? = some p) (hf : p.result = .error f)
    (hbefore : ∀ j q, j < i → own[j]? = some q → ∃ report, q.result = .ok report) :
    result = .error (.reported (childError i f)) ∧ bars = barsOf (own.take (i + 1)) ∧
      n = i + 1 := by
  cases h with
  | @all reports hr =>
    have hres : p.result ∈ reports.map .ok := hr ▸ List.mem_map_of_mem (List.mem_of_getElem? hp)
    obtain ⟨report, -, hok⟩ := List.mem_map.mp hres
    cases hok.trans hf
  | @failed j q g reports hq hr hg hn =>
    rcases Nat.lt_trichotomy i j with hlt | rfl | hgt
    · obtain ⟨report, hok⟩ := hr.ended_well hlt hp
      cases hok.symm.trans hf
    · cases hp.symm.trans hq
      cases hf.symm.trans hg
      exact ⟨rfl, rfl, hn⟩
    · obtain ⟨report, hok⟩ := hbefore j q hgt hq
      cases hok.symm.trans hg
  | cut hcut => rcases hcut with hcut | hcut <;> cases hcut

theorem Outcome.all_succeed {n : Nat} {bars : List (List Sample)} {result : Result}
    (h : Outcome own false false n bars result)
    (hok : ∀ p ∈ own, ∃ report, p.result = .ok report) : ∃ reports, result = .ok reports := by
  cases h with
  | all => exact ⟨_, rfl⟩
  | failed hp _ hf =>
    obtain ⟨report, hr⟩ := hok _ (List.mem_of_getElem? hp)
    cases hr.symm.trans hf
  | cut hcut => rcases hcut with hcut | hcut <;> cases hcut

/-! ### Interrupts and steps of children -/

theorem Playing.interrupt {held : List Chunk} (h : Playing own interrupted trace i held r) :
    Playing own true trace i held r := by
  obtain ⟨hr, p, c, here, hp, hc, ht, hf⟩ := h
  exact ⟨hr, p, c, here, hp, hc, ht, hf.interrupt⟩

theorem Outcome.interrupt {n : Nat} {bars : List (List Sample)} {result : Result}
    (h : Outcome own interrupted limited n bars result) :
    Outcome own true limited n bars result := by
  cases h with
  | all hr => exact .all hr
  | failed hp hr hf hn => exact .failed hp hr hf hn
  | cut _ hb => exact .cut (.inl rfl) hb

theorem Accounts.interrupt (h : r.Accounts own interrupted limited trace) :
    r.Accounts own true limited trace := by
  unfold Accounts at h ⊢
  split at h
  · exact h
  · exact h.interrupt
  · exact h.interrupt
  · exact h.interrupt
  · exact h.interrupt
  all_goals
    obtain ⟨bars, ht, ho⟩ := h
    exact ⟨bars, ht, ho.interrupt⟩

theorem Playing.stepChild {held : List Chunk} (h : Playing own interrupted trace i held r)
    {j : Nat} (hchild : r.child? j = some c) (hs : c.Sound) (hc : c.canStep = true) :
    Playing own interrupted trace i held (r.setChild j (c.step interrupted)) := by
  obtain ⟨hr, p, d, here, hp, hd, ht, hf⟩ := h
  refine ⟨hr, p, ?_⟩
  by_cases hij : i = j
  · subst hij
    cases hchild.symm.trans hd
    refine ⟨c.step interrupted, here, hp, ?_, ht, hf.step hs.receiver hc⟩
    rw [child_setChild hchild, if_pos rfl]
  · refine ⟨d, here, hp, ?_, ht, hf⟩
    rw [child_setChild hchild, if_neg hij]
    exact hd

theorem stepChild_preserves_accounts (h : r.Accounts own interrupted limited trace) {j : Nat}
    (hchild : r.child? j = some c) (hs : c.Sound) (hc : c.canStep = true) :
    (r.stepChild interrupted j).Accounts own interrupted limited trace := by
  rw [stepChild, hchild]
  dsimp only
  unfold Accounts at h ⊢
  rw [setChild_phase, setChild_length]
  split at h
  · exact h
  · exact h.stepChild hchild hs hc
  · exact h.stepChild hchild hs hc
  · exact h.stepChild hchild hs hc
  · exact h.stepChild hchild hs hc
  all_goals exact h

/-! ### Steps of the relay -/

structure Setting (own : List Performance) (r : Relay) : Prop where
  performs : List.Forall₂ (fun sheet p => sheet.Performs r.params p) r.sheets own
  spawns : ∀ i, r.spawnFault i = none

theorem Setting.length (h : Setting own r) : r.sheets.length = own.length :=
  h.performs.length_eq

theorem Setting.at (h : Setting own r) {sheet : Sheet} (hs : r.sheets[i]? = some sheet) :
    ∃ p, own[i]? = some p ∧ sheet.Performs r.params p := by
  obtain ⟨hi, rfl⟩ := List.getElem?_eq_some_iff.mp hs
  have hi' : i < own.length := h.length ▸ hi
  exact ⟨own[i], List.getElem?_eq_getElem hi', h.performs.get hi hi'⟩

variable {output : Handoff}

theorem step_setting (h : Setting own r) (hc : r.canStep output = true) :
    Setting own (r.step interrupted output).1 := by
  have hm := step_moved hc interrupted
  generalize r.step interrupted output = next at hm ⊢
  obtain ⟨t, out⟩ := next
  dsimp only at hm ⊢
  cases hm <;> exact ⟨h.performs, h.spawns⟩

theorem stepChild_setting (h : Setting own r) (j : Nat) :
    Setting own (r.stepChild interrupted j) := by
  unfold stepChild
  split <;> exact ⟨h.performs, h.spawns⟩

/-- When the sheet at hand is over and its child has nothing more to send, all its bars were
passed on, and only an interrupt can have made them fewer. -/
theorem Playing.ended (h : Playing own interrupted trace i [.endOfStream] r)
    (hchild : r.child? i = some c) (he : c.synth.hasEnded = true) :
    c.output.slot = none ∧ ∃ p q, own[i]? = some p ∧ p.Allows interrupted q ∧
      c.synth.Performs [] q.result ∧ trace = upTo own i q.bars := by
  obtain ⟨-, p, d, here, hp, hd, rfl, hf⟩ := h
  cases hchild.symm.trans hd
  obtain ⟨q, ha, hs, hq⟩ := hf.all_sent he
  rw [List.append_assoc, List.singleton_append] at hq
  obtain ⟨rfl, hslot⟩ := marker_last hq
  exact ⟨by simpa using hslot, p, q, hp, ha, hs, rfl⟩

theorem Playing.cut {held : List Chunk} {f : Failure}
    (h : Playing own interrupted trace i held r) (hcut : interrupted = true ∨ limited = true)
    (n : Nat) : ∃ bars, trace = bars.map .samples ∧
      Outcome own interrupted limited n bars (.error f) :=
  have ⟨bars, ht, hb⟩ := h.here_begins
  ⟨bars, ht, .cut hcut hb⟩

theorem reported_succ {p : Performance} {reports : List Report} {report : Report}
    (h : Reported own i reports) (hp : own[i]? = some p) (hr : p.result = .ok report) :
    Reported own (i + 1) (reports ++ [report]) := by
  obtain ⟨hi, rfl⟩ := List.getElem?_eq_some_iff.mp hp
  rw [Reported, List.take_add_one, List.map_append, h, List.getElem?_eq_getElem hi]
  simp [hr]

theorem own_of_ok {p q : Performance} {report : Report} (h : p.Allows interrupted q)
    (hr : q.result = .ok report) : q = p := by
  refine h.whole_or_cut.resolve_right ?_
  rintro ⟨-, he⟩
  cases hr.symm.trans he

theorem Playing.take (h : Playing own interrupted trace i [] r) (hchild : r.child? i = some c)
    {chunk : Chunk} (hs : c.output.slot = some chunk) :
    Playing own interrupted trace i [chunk] (r.setChild i c.emptied) := by
  obtain ⟨hr, p, d, here, hp, hd, ht, hf⟩ := h
  cases hchild.symm.trans hd
  rw [List.append_nil] at hf
  refine ⟨hr, p, c.emptied, here, hp, ?_, ht, hf.take hs⟩
  rw [child_setChild hchild, if_pos rfl]

theorem Playing.pass {bar : List Sample} (h : Playing own interrupted trace i [.samples bar] r) :
    Playing own interrupted (trace ++ [.samples bar]) i [] r := by
  obtain ⟨hr, p, d, here, hp, hd, rfl, hf⟩ := h
  refine ⟨hr, p, d, here ++ [bar], hp, hd, ?_, ?_⟩
  · simp [upTo]
  · rw [List.append_nil, List.map_append]
    exact hf

theorem upTo_succ {p : Performance} (hp : own[i]? = some p) :
    upTo own i p.bars = upTo own (i + 1) [] := by
  rw [upTo, upTo, barsOf_take_succ hp, List.append_nil]

theorem Playing.joined (h : Playing own interrupted trace i [.endOfStream] r)
    (hchild : r.child? i = some c) {report : Report} (hd : c.synth.phase = .done (.ok report)) :
    i + 1 ≤ own.length ∧ Reported own (i + 1) (r.reports ++ [report]) ∧
      trace = upTo own (i + 1) [] := by
  obtain ⟨-, p, q, hp, ha, hs, ht⟩ := h.ended hchild (by rw [Synth.hasEnded, hd])
  have hq := hs.result_of_done hd
  obtain rfl := own_of_ok ha hq
  exact ⟨(List.getElem?_eq_some_iff.mp hp).1, reported_succ h.1 hp hq, ht.trans (upTo_succ hp)⟩

theorem Playing.failed (h : Playing own interrupted trace i [.endOfStream] r)
    (hchild : r.child? i = some c) {f : Failure} (hd : c.synth.phase = .done (.error f)) :
    ∃ bars, trace = bars.map .samples ∧
      Outcome own interrupted limited (i + 1) bars (.error (.reported (childError i f))) := by
  obtain ⟨-, p, q, hp, ha, hs, ht⟩ := h.ended hchild (by rw [Synth.hasEnded, hd])
  have hq := hs.result_of_done hd
  rcases ha.whole_or_cut with rfl | ⟨hcut, -⟩
  · rw [upTo_succ hp, upTo, List.append_nil] at ht
    exact ⟨_, ht, .failed hp h.1 hq rfl⟩
  · exact ⟨_, ht, .cut (.inl hcut) (prefix_upTo hp ha.bars)⟩

/-- The step lemma: what a step puts into the output is what the account grows by. -/
theorem step_preserves_accounts (h : r.Accounts own interrupted limited trace) (hi : r.Invariant)
    (hset : Setting own r) (hl : output.receiver = false → limited = true)
    (hc : r.canStep output = true) :
    (r.step interrupted output).1.Accounts own interrupted limited
      (trace ++ output.put (r.step interrupted output).2) := by
  have hm := step_moved hc interrupted
  generalize r.step interrupted output = next at hm ⊢
  obtain ⟨t, out⟩ := next
  have hcount := hi.count
  dsimp only at hm ⊢
  cases hm with
  | @allPlayed i hp hs =>
    simp only [Accounts, hp] at h
    obtain ⟨hle, hr, rfl⟩ := h
    obtain rfl : i = own.length := by
      have := List.getElem?_eq_none_iff.mp hs
      rw [hset.length] at this
      omega
    rw [Reported, List.take_length] at hr
    rw [Handoff.put_self, List.append_nil, upTo, List.append_nil, List.take_length]
    exact ⟨_, rfl, .all hr⟩
  | lost _ hs hn =>
    obtain ⟨p, -, synth, hnew, -⟩ := hset.at hs
    cases hnew.symm.trans hn
  | notSpawned _ hs => cases (hset.spawns _).symm.trans hs
  | @started i sheet synth _ hp hs hn =>
    rw [hp] at hcount
    obtain rfl : r.children.length = i := hcount
    simp only [Accounts, hp] at h
    obtain ⟨-, hr, rfl⟩ := h
    obtain ⟨p, hown, hperf⟩ := hset.at hs
    rw [Handoff.put_self, List.append_nil]
    refine ⟨hr, p, ⟨synth, {}, false⟩, [], hown, ?_, rfl, Synth.follows_new hperf hn⟩
    exact List.getElem?_concat_length
  | received hp hchild hslot =>
    simp only [Accounts, hp] at h
    rw [Handoff.put_self, List.append_nil]
    exact h.take hchild hslot
  | receivedEnd hp hchild hslot =>
    simp only [Accounts, hp] at h
    rw [Handoff.put_self, List.append_nil]
    exact h.take hchild hslot
  | cutOff hp hchild hslot hd =>
    obtain ⟨hs, ho⟩ := hi.owing (by simp [hp]) hchild
    exact (ho.not_disconnected hs hslot hd).elim
  | passed hp =>
    simp only [Accounts, hp] at h
    rw [Handoff.put_self, List.append_nil]
    exact h
  | stopped hp hcut =>
    simp only [Accounts, hp] at h
    rw [Handoff.put_self, List.append_nil]
    exact h.cut (.inl hcut) _
  | sent hp _ hslot =>
    simp only [Accounts, hp] at h
    rw [Handoff.put_some _ hslot]
    exact h.pass
  | refused hp hgone =>
    simp only [Accounts, hp] at h
    rw [Handoff.put_self, List.append_nil]
    exact h.cut (.inr (hl hgone)) _
  | joined hp hchild hd =>
    simp only [Accounts, hp] at h
    rw [Handoff.put_self, List.append_nil]
    exact h.joined hchild hd
  | @failed i c f hp hchild hd =>
    simp only [Accounts, hp] at h
    rw [hp] at hcount
    have hn : (r.setChild i c.waitedFor).children.length = i + 1 :=
      (setChild_length r i _).trans hcount
    have ⟨bars, ht, ho⟩ : ∃ bars, trace = bars.map .samples ∧ Outcome own interrupted limited
        (i + 1) bars (.error (.reported (childError i f))) := h.failed hchild hd
    rw [Handoff.put_self, List.append_nil]
    exact ⟨bars, ht, hn ▸ ho⟩
  | ended hp _ hslot =>
    simp only [Accounts, hp] at h
    obtain ⟨bars, rfl, ho⟩ := h
    rw [Handoff.put_some _ hslot]
    exact ⟨bars, .inl rfl, ho⟩
  | unheard hp hgone =>
    simp only [Accounts, hp] at h
    obtain ⟨bars, rfl, ho⟩ := h
    rw [Handoff.put_self, List.append_nil]
    exact ⟨bars, .inr ⟨hl hgone, rfl⟩, ho⟩
  | drained hp | foundPending hp | foundJoined hp | foundFinished hp =>
    simp only [Accounts, hp] at h
    rw [Handoff.put_self, List.append_nil]
    exact h
  | discarded hp =>
    simp only [Accounts, hp] at h
    rw [Handoff.put_self, List.append_nil, Accounts, setChild_phase, hp, setChild_length]
    exact h
  | discardedEnd hp | discardedAll hp | reaped hp =>
    simp only [Accounts, hp] at h
    rw [Handoff.put_self, List.append_nil]
    rw [← setChild_length] at h
    exact h
  | left hp =>
    simp only [Accounts, hp] at h
    rw [Handoff.put_dropSender, List.append_nil]
    exact h

end Relay

end PlainScore
