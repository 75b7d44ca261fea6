import PlainScore.Proofs.Relay.Accounts

/-! One sheet after the other.
A sheet is begun when the child of the sheet before has sent its end marker, the relay has
received it and has waited for the child, and the child has ended well. -/
namespace PlainScore

namespace Relay

structure Child.Succeeded (c : Child) : Prop where
  joined : c.joined = true
  received : c.output.slot = none
  ended : ∃ report, c.synth.phase = .done (.ok report)

def Phase.isStarting : Phase → Bool
  | .starting _ => true
  | _ => false

/-- Every child but the last has succeeded, and the last one too when the next is due. -/
def Succession (r : Relay) : Prop :=
  ∀ i c, r.child? i = some c → (i + 1 < r.children.length ∨ r.phase.isStarting = true) →
    c.Succeeded

variable {r : Relay} {i : Nat} {c : Child}

theorem new_succession (sheets : List Sheet) (params : Audio.Params)
    (spawnFault : Nat → Option FileFault) : (new sheets params spawnFault).Succession :=
  fun i c h => by simp [child?, new] at h

theorem Succession.of_children {t : Relay} (h : r.Succession) (hc : t.children = r.children)
    (hp : t.phase.isStarting = false) : t.Succession := by
  intro i c hchild hlast
  rw [child?, hc] at hchild
  rw [hc, hp] at hlast
  exact h i c hchild (.inl (hlast.resolve_right Bool.false_ne_true))

theorem Succession.setChild (h : r.Succession) (hchild : r.child? i = some c)
    (hj : c.joined = false) (c' : Child) : (r.setChild i c').Succession := by
  intro j d hd hlast
  rw [child_setChild hchild] at hd
  rw [setChild_length, setChild_phase] at hlast
  by_cases hij : j = i
  · subst hij
    have hs := h j c hchild hlast
    cases hj.symm.trans hs.joined
  · rw [if_neg hij] at hd
    exact h j d hd hlast

theorem Stance.Holds.not_joined {st : Stance} (h : st.Holds c) (hc : c.canStep = true) :
    c.joined = false := by
  have settled : c.Settled → c.joined = false := by
    intro hx
    rw [hx.cannotStep] at hc
    cases hc
  cases st with
  | settled => exact settled h
  | owing | closing => exact h.1
  | either => exact h.elim settled And.left

theorem stepChild_preserves_succession (h : r.Succession) (hi : r.Invariant)
    (hchild : r.child? i = some c) (hc : c.canStep = true) (interrupted : Bool) :
    (r.stepChild interrupted i).Succession := by
  rw [stepChild, hchild]
  exact h.setChild hchild ((hi.children i c hchild).2.not_joined hc) _

/-- The child that is waited for was the only one that had not succeeded. -/
theorem Succession.joined (h : r.Succession) (hcount : r.children.length = i + 1)
    (hchild : r.child? i = some c) (hc : c.waitedFor.Succeeded) {t : Relay}
    (ht : t.children = r.children.set i c.waitedFor) : t.Succession := by
  intro j d hd _
  rcases child_of_set hchild ht hd with ⟨-, rfl⟩ | ⟨hij, hd⟩
  · exact hc
  · have hlt := lt_of_child hd
    exact h j d hd (.inl (by omega))

theorem Succession.started (h : r.Succession) (hp : r.phase = .starting i) {t : Relay}
    (ht : t.children = r.children ++ [c]) (hn : t.phase.isStarting = false) :
    t.Succession := by
  intro j d hd hlast
  rw [ht, hn, List.length_append, List.length_singleton] at hlast
  have hlt := hlast.resolve_right Bool.false_ne_true
  rw [child?, ht, List.getElem?_append_left (by omega)] at hd
  exact h j d hd (.inr (by rw [hp]; rfl))

variable {own : List Performance} {interrupted limited : Bool} {trace : List Chunk}
  {output : Handoff}

theorem step_preserves_succession (h : r.Succession) (ha : r.Accounts own interrupted limited trace)
    (hi : r.Invariant) (hc : r.canStep output = true) :
    (r.step interrupted output).1.Succession := by
  have hm := step_moved hc interrupted
  generalize r.step interrupted output = next at hm ⊢
  obtain ⟨t, out⟩ := next
  dsimp only at hm ⊢
  cases hm with
  | started hp => exact h.started hp rfl rfl
  | received hp hchild | receivedEnd hp hchild | cutOff hp hchild | discardedEnd hp hchild
  | discardedAll hp hchild =>
    obtain ⟨-, ho⟩ := hi.owing (by simp [hp]) hchild
    exact (h.setChild hchild ho.1 _).of_children rfl rfl
  | discarded hp hchild =>
    obtain ⟨-, ho⟩ := hi.owing (by simp [hp]) hchild
    exact h.setChild hchild ho.1 _
  | joined hp hchild hd =>
    have hcount := hi.count
    rw [hp] at hcount
    simp only [Accounts, hp] at ha
    obtain ⟨hslot, -⟩ := ha.ended hchild (by rw [Synth.hasEnded, hd])
    exact h.joined hcount hchild ⟨rfl, hslot, _, hd⟩ rfl
  | failed hp hchild | reaped hp hchild =>
    have hc := hi.closing (by simp [hp]) hchild
    exact (h.setChild hchild hc.1 _).of_children rfl rfl
  | _ => exact h.of_children rfl rfl

end Relay

end PlainScore
