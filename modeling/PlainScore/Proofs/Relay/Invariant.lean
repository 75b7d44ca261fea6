import PlainScore.Proofs.Relay.Children

/-! What holds in every phase of a relay.
The relay waits for one child at a time. Children before the one at hand are settled, and a
child that was not waited for is never one whose end marker is lost. -/
namespace PlainScore

namespace Relay

inductive Stance where
  | settled
  | owing
  | closing
  | either

@[simp] def Stance.Holds : Stance → Child → Prop
  | .settled, c => c.Settled
  | .owing, c => c.Open
  | .closing, c => c.Closing
  | .either, c => c.Settled ∨ c.Open

@[simp] def Phase.stance : Phase → Nat → Stance
  | .starting _, _ | .leaving _, _ | .done _, _ => .settled
  | .receiving i, j | .checking i _, j | .sending i _, j => if j = i then .owing else .settled
  | .joining i, j => if j = i then .closing else .settled
  | .ending _, _ => .either
  | .draining _ i, j => if j < i then .settled else .either
  | .discarding _ i, j => if j < i then .settled else if j = i then .owing else .either
  | .reaping _ i, j => if j < i then .settled else if j = i then .closing else .either

def Phase.counts : Phase → Nat → Prop
  | .starting i, n => n = i
  | .receiving i, n | .checking i _, n | .sending i _, n | .joining i, n => n = i + 1
  | .discarding _ i, n | .reaping _ i, n => i < n
  | .ending _, _ | .draining _ _, _ | .leaving _, _ | .done _, _ => True

structure Invariant (r : Relay) : Prop where
  count : r.phase.counts r.children.length
  children : ∀ i c, r.child? i = some c → c.Sound ∧ (r.phase.stance i).Holds c

variable {r : Relay} {i : Nat} {c : Child}

@[simp] theorem goTo_phase (r : Relay) (p : Phase) : (r.goTo p).phase = p := rfl

@[simp] theorem setChild_phase (r : Relay) (i : Nat) (c : Child) :
    (r.setChild i c).phase = r.phase := rfl

@[simp] theorem setChild_length (r : Relay) (i : Nat) (c : Child) :
    (r.setChild i c).children.length = r.children.length := List.length_set ..

theorem new_invariant (sheets : List Sheet) (params : Audio.Params)
    (spawnFault : Nat → Option FileFault) : (new sheets params spawnFault).Invariant :=
  ⟨rfl, fun i c h => by simp [child?, new] at h⟩

theorem lt_of_child (h : r.child? i = some c) : i < r.children.length :=
  (List.getElem?_eq_some_iff.mp h).1

theorem child_setChild (h : r.child? i = some c) (c' : Child) (j : Nat) :
    (r.setChild i c').child? j = if j = i then some c' else r.child? j := by
  rw [child?, setChild, child?, List.getElem?_set]
  by_cases hj : j = i
  · rw [if_pos hj.symm, if_pos hj, if_pos (lt_of_child h)]
  · rw [if_neg (Ne.symm hj), if_neg hj]

theorem child_of_set {t : Relay} {c' d : Child} {j : Nat} (hchild : r.child? i = some c)
    (ht : t.children = r.children.set i c') (hd : t.child? j = some d) :
    j = i ∧ d = c' ∨ j ≠ i ∧ r.child? j = some d := by
  have hset : (r.setChild i c').child? j = some d := by
    rw [← hd, child?, child?, ht]
    rfl
  rw [child_setChild hchild] at hset
  by_cases hj : j = i
  · rw [if_pos hj] at hset
    cases hset
    exact .inl ⟨hj, rfl⟩
  · rw [if_neg hj] at hset
    exact .inr ⟨hj, hset⟩

theorem child_of_concat {t : Relay} {d : Child} {j : Nat} (ht : t.children = r.children ++ [c])
    (hd : t.child? j = some d) : r.child? j = some d ∨ j = r.children.length ∧ d = c := by
  rw [child?, ht, List.getElem?_append] at hd
  split at hd
  · exact .inl hd
  · obtain ⟨hlt, rfl⟩ := List.getElem?_eq_some_iff.mp hd
    rw [List.length_singleton] at hlt
    exact .inr ⟨by omega, List.getElem_singleton _⟩

theorem stepChild_of_child (h : r.child? i = some c) (interrupted : Bool) :
    r.stepChild interrupted i = r.setChild i (c.step interrupted) := by
  rw [stepChild, h]

theorem Invariant.owing (h : r.Invariant) (hst : r.phase.stance i = .owing)
    (hchild : r.child? i = some c) : c.Sound ∧ c.Open := by
  obtain ⟨hs, hx⟩ := h.children i c hchild
  rw [hst] at hx
  exact ⟨hs, hx⟩

theorem Invariant.closing (h : r.Invariant) (hst : r.phase.stance i = .closing)
    (hchild : r.child? i = some c) : c.Closing := by
  have hx := (h.children i c hchild).2
  rw [hst] at hx
  exact hx

theorem Invariant.of_children {t : Relay} (h : r.Invariant) (ht : t.children = r.children)
    (hcount : t.phase.counts r.children.length)
    (hst : ∀ j d, r.child? j = some d → (r.phase.stance j).Holds d →
      (t.phase.stance j).Holds d) : t.Invariant := by
  constructor
  · rw [ht]
    exact hcount
  · intro j d hd
    rw [child?, ht] at hd
    obtain ⟨hs, hx⟩ := h.children j d hd
    exact ⟨hs, hst j d hd hx⟩

theorem Invariant.of_setChild {t : Relay} {c' : Child} (h : r.Invariant)
    (hchild : r.child? i = some c) (ht : t.children = r.children.set i c')
    (hcount : t.phase.counts r.children.length) (hs : c'.Sound)
    (hi : (t.phase.stance i).Holds c')
    (hst : ∀ j d, j ≠ i → (r.phase.stance j).Holds d → (t.phase.stance j).Holds d) :
    t.Invariant := by
  constructor
  · rw [ht, List.length_set]
    exact hcount
  · intro j d hd
    rcases child_of_set hchild ht hd with ⟨rfl, rfl⟩ | ⟨hj, hd⟩
    · exact ⟨hs, hi⟩
    · obtain ⟨hs', hx⟩ := h.children j d hd
      exact ⟨hs', hst j d hj hx⟩

theorem Stance.Holds.step {st : Stance} (h : st.Holds c) (hs : c.Sound) (hc : c.canStep = true)
    (interrupted : Bool) : st.Holds (c.step interrupted) := by
  have settled : c.Settled → (c.step interrupted).Settled := by
    intro hx
    rw [hx.cannotStep] at hc
    cases hc
  cases st with
  | settled => exact settled h
  | owing => exact Child.Open.step h hs hc interrupted
  | closing => exact Child.Closing.step h hc interrupted
  | either => exact h.imp settled fun hx => hx.step hs hc interrupted

theorem stepChild_preserves_invariant (h : r.Invariant) (hchild : r.child? i = some c)
    (hc : c.canStep = true) (interrupted : Bool) : (r.stepChild interrupted i).Invariant := by
  obtain ⟨hs, hx⟩ := h.children i c hchild
  rw [stepChild_of_child hchild]
  exact h.of_setChild hchild rfl h.count (Child.step_sound hs hc interrupted)
    (hx.step hs hc interrupted) fun j d _ hx => hx

theorem Stance.Holds.either {st : Stance} (h : st.Holds c) (hst : st ≠ .closing) :
    Stance.either.Holds c := by
  cases st with
  | settled => exact .inl h
  | owing => exact .inr h
  | closing => exact absurd rfl hst
  | either => exact h

theorem settled_of_joined (h : c.Settled ∨ c.Open) (hj : c.joined = true) : c.Settled := by
  rcases h with h | h
  · exact h
  · cases hj.symm.trans h.1

theorem open_of_not_joined (h : c.Settled ∨ c.Open) (hj : c.joined = false) : c.Open := by
  rcases h with h | h
  · cases hj.symm.trans h.1
  · exact h

theorem step_preserves_invariant {output : Handoff} (h : r.Invariant)
    (hc : r.canStep output = true) (interrupted : Bool) :
    (r.step interrupted output).1.Invariant := by
  have hm := step_moved hc interrupted
  generalize (r.step interrupted output).1 = t at hm ⊢
  generalize (r.step interrupted output).2 = out at hm ⊢
  have hcount := h.count
  cases hm with
  | allPlayed hp | notSpawned hp =>
    refine h.of_children rfl trivial ?_
    intro j d _ hx
    rw [hp] at hx
    exact .inl hx
  | lost hp | left hp =>
    refine h.of_children rfl trivial ?_
    intro j d _ hx
    rw [hp] at hx
    exact hx
  | @started i _ _ _ hp _ hn =>
    rw [hp] at hcount
    obtain rfl : r.children.length = i := hcount
    constructor
    · simp [Phase.counts]
    · intro j d hd
      rcases child_of_concat rfl hd with hd | ⟨rfl, rfl⟩
      · obtain ⟨hs, hx⟩ := h.children j d hd
        rw [hp] at hx
        refine ⟨hs, ?_⟩
        rw [Phase.stance, if_neg (Nat.ne_of_lt (lt_of_child hd))]
        exact hx
      · rw [Phase.stance, if_pos rfl]
        exact ⟨Child.new_sound hn, Child.new_open hn⟩
  | received hp hchild hslot =>
    obtain ⟨hs, ho⟩ := h.owing (by simp [hp]) hchild
    rw [hp] at hcount
    refine h.of_setChild hchild rfl hcount hs.emptied (by simpa using ho.emptied hslot) ?_
    intro j d _ hx
    rw [hp] at hx
    exact hx
  | receivedEnd hp hchild hslot =>
    obtain ⟨hs, ho⟩ := h.owing (by simp [hp]) hchild
    rw [hp] at hcount
    refine h.of_setChild hchild rfl hcount hs.emptied (by simpa using ho.closing hs hslot) ?_
    intro j d hj hx
    simpa [hp, hj] using hx
  | cutOff hp hchild hslot hd | discardedAll hp hchild hslot hd =>
    obtain ⟨hs, ho⟩ := h.owing (by simp [hp]) hchild
    exact (ho.not_disconnected hs hslot hd).elim
  | passed hp | sent hp =>
    rw [hp] at hcount
    refine h.of_children rfl hcount ?_
    intro j d _ hx
    rw [hp] at hx
    exact hx
  | stopped hp | refused hp =>
    refine h.of_children rfl trivial ?_
    intro j d _ hx
    refine hx.either ?_
    rw [hp, Phase.stance]
    split <;> simp
  | @joined i c _ hp hchild hdone =>
    have hr : c.synth.result?.isSome = true := by rw [Synth.result?, hdone]; rfl
    rw [hp] at hcount
    refine h.of_setChild hchild rfl hcount (h.children i c hchild).1.waitedFor
      (Child.waitedFor_settled hr) ?_
    intro j d hj hx
    simpa [hp, hj] using hx
  | @failed i c _ hp hchild hdone =>
    have hr : c.synth.result?.isSome = true := by rw [Synth.result?, hdone]; rfl
    refine h.of_setChild hchild rfl trivial (h.children i c hchild).1.waitedFor
      (.inl (Child.waitedFor_settled hr)) ?_
    intro j d hj hx
    exact .inl (by simpa [hp, hj] using hx)
  | ended hp | unheard hp =>
    refine h.of_children rfl trivial ?_
    intro j d _ hx
    rw [hp] at hx
    exact hx
  | @drained _ i hp hnone =>
    refine h.of_children rfl trivial ?_
    intro j d hd hx
    have hlt : j < r.children.length := lt_of_child hd
    have hle : r.children.length ≤ i := List.getElem?_eq_none_iff.mp hnone
    simpa [hp, show j < i by omega] using hx
  | @foundPending _ i c _ hp hchild hpending =>
    refine h.of_children rfl (lt_of_child hchild) ?_
    intro j d hd hx
    by_cases hlt : j < i
    · simpa [hp, hlt] using hx
    · by_cases hj : j = i
      · subst hj
        cases hchild.symm.trans hd
        have hn : c.joined = false := by simpa using (Bool.and_eq_true_iff.mp hpending).1
        simpa using open_of_not_joined (by simpa [hp] using hx) hn
      · simpa [hp, hlt, hj] using hx
  | @foundJoined _ i c hp hchild hjoined =>
    refine h.of_children rfl trivial ?_
    intro j d hd hx
    by_cases hlt : j < i
    · simpa [hp, hlt, Nat.lt_succ_of_lt hlt] using hx
    · by_cases hj : j = i
      · subst hj
        cases hchild.symm.trans hd
        simpa using settled_of_joined (by simpa [hp] using hx) hjoined
      · simpa [hp, hlt, show ¬ j < i + 1 by omega] using hx
  | @foundFinished _ i c hp hchild hjoined hf =>
    refine h.of_children rfl (lt_of_child hchild) ?_
    intro j d hd hx
    by_cases hlt : j < i
    · simpa [hp, hlt] using hx
    · by_cases hj : j = i
      · subst hj
        cases hchild.symm.trans hd
        have ho := open_of_not_joined (by simpa [hp] using hx) hjoined
        have hs := (h.children j c hchild).1
        have hclosing : c.Closing := ⟨hjoined, (ho.marker_of_finished hs hf).2⟩
        simpa using hclosing
      · simpa [hp, hlt, hj] using hx
  | discarded hp hchild hslot =>
    obtain ⟨hs, ho⟩ := h.owing (by simp [hp]) hchild
    refine h.of_setChild hchild rfl hcount hs.emptied ?_ fun j d _ hx => hx
    simpa [hp] using ho.emptied hslot
  | discardedEnd hp hchild hslot =>
    obtain ⟨hs, ho⟩ := h.owing (by simp [hp]) hchild
    rw [hp] at hcount
    refine h.of_setChild hchild rfl hcount hs.emptied (by simpa using ho.closing hs hslot) ?_
    intro j d hj hx
    simpa [hp, hj] using hx
  | @reaped _ i c _ hp hchild hr =>
    refine h.of_setChild hchild rfl trivial (h.children i c hchild).1.waitedFor
      (by simpa using Child.waitedFor_settled hr) ?_
    intro j d hj hx
    by_cases hlt : j < i
    · simpa [hp, hlt, Nat.lt_succ_of_lt hlt] using hx
    · simpa [hp, hlt, hj, show ¬ j < i + 1 by omega] using hx

end Relay

end PlainScore
