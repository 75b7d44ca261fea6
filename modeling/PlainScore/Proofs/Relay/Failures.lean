import PlainScore.Proofs.Relay.Invariant
import PlainScore.Proofs.Synth.Failures

/-! What a relay can fail with.
It fails for a cause of its own, or hands on what one of its children failed with; that a child is
lost is itself an error. The streams of children always end with their markers, so that none is
found cut off. -/
namespace PlainScore

namespace Relay

inductive Fails (sheets : List Sheet) (params : Audio.Params) : Failure → Prop where
  | lost {sheet : Sheet} {f : Failure} : sheet ∈ sheets → Synth.new sheet params = .error f →
      Fails sheets params f
  | notSpawned (fault : FileFault) : Fails sheets params (.reported (.file fault))
  | interrupted : Fails sheets params (.reported .interrupted)
  | unheard : Fails sheets params (.reported (.closed .relayOutput))
  | child {i : Nat} {sheet : Sheet} {f : Failure} : sheets[i]? = some sheet →
      sheet.Fails params f → Fails sheets params (.reported (childError i f))

def Phase.verdict? : Phase → Option Result
  | .ending result | .draining result _ | .discarding result _ | .reaping result _
  | .leaving result | .done result => some result
  | _ => none

structure Accountable (sheets : List Sheet) (params : Audio.Params) (r : Relay) : Prop where
  sheets_eq : r.sheets = sheets
  params_eq : r.params = params
  children : ∀ i c, r.child? i = some c →
    ∃ sheet, sheets[i]? = some sheet ∧ c.synth.Accountable sheet params
  failed : ∀ f, r.phase.verdict? = some (.error f) → Fails sheets params f

variable {sheets : List Sheet} {params : Audio.Params} {r t : Relay} {i : Nat} {c : Child}

theorem Accountable.of_children (h : r.Accountable sheets params) (hs : t.sheets = r.sheets)
    (hp : t.params = r.params) (hc : t.children = r.children)
    (hf : ∀ f, t.phase.verdict? = some (.error f) → Fails sheets params f) :
    t.Accountable sheets params := by
  refine ⟨hs.trans h.sheets_eq, hp.trans h.params_eq, ?_, hf⟩
  intro j d hd
  rw [child?, hc] at hd
  exact h.children j d hd

theorem Accountable.of_setChild {c' : Child} (h : r.Accountable sheets params)
    (hchild : r.child? i = some c) (hs : t.sheets = r.sheets) (hp : t.params = r.params)
    (ht : t.children = r.children.set i c')
    (hc : ∀ sheet, c.synth.Accountable sheet params → c'.synth.Accountable sheet params)
    (hf : ∀ f, t.phase.verdict? = some (.error f) → Fails sheets params f) :
    t.Accountable sheets params := by
  refine ⟨hs.trans h.sheets_eq, hp.trans h.params_eq, ?_, hf⟩
  intro j d hd
  rcases child_of_set hchild ht hd with ⟨rfl, rfl⟩ | ⟨-, hd⟩
  · obtain ⟨sheet, hs, ha⟩ := h.children j c hchild
    exact ⟨sheet, hs, hc sheet ha⟩
  · exact h.children j d hd

theorem stepChild_preserves_accountable (h : r.Accountable sheets params) (hi : r.Invariant)
    (hchild : r.child? i = some c) (hc : c.canStep = true) (interrupted : Bool) :
    (r.stepChild interrupted i).Accountable sheets params := by
  have hv := (hi.children i c hchild).1.linked.valid
  rw [stepChild_of_child hchild]
  exact h.of_setChild hchild rfl rfl rfl (fun _ ha => ha.step hv hc interrupted) h.failed

theorem Accountable.started (h : r.Accountable sheets params) (hi : r.Invariant)
    (hp : r.phase = .starting i) {sheet : Sheet} {synth : Synth} {l : Line}
    (hs : r.sheets[i]? = some sheet) (hn : Synth.new sheet r.params = .ok synth) :
    Accountable sheets params { r.write l with
      children := r.children ++ [⟨synth, {}, false⟩], phase := .receiving i } := by
  have hcount := hi.count
  rw [hp] at hcount
  obtain rfl : r.children.length = i := hcount
  refine ⟨h.sheets_eq, h.params_eq, ?_, nofun⟩
  intro j d hd
  rcases child_of_concat rfl hd with hd | ⟨rfl, rfl⟩
  · exact h.children j d hd
  · rw [h.sheets_eq] at hs
    rw [h.params_eq] at hn
    exact ⟨sheet, hs, Synth.new_accountable hn⟩

theorem step_preserves_accountable {output : Handoff} (h : r.Accountable sheets params)
    (hi : r.Invariant) (hc : r.canStep output = true) (interrupted : Bool) :
    (r.step interrupted output).1.Accountable sheets params := by
  have hfailed := h.failed
  have hm := step_moved hc interrupted
  generalize (r.step interrupted output).1 = t at hm ⊢
  generalize (r.step interrupted output).2 = out at hm ⊢
  cases hm with
  | allPlayed | passed | sent => exact h.of_children rfl rfl rfl nofun
  | lost _ hs hn =>
    refine h.of_children rfl rfl rfl ?_
    rintro _ ⟨⟩
    rw [h.sheets_eq] at hs
    rw [h.params_eq] at hn
    exact .lost (List.mem_of_getElem? hs) hn
  | notSpawned =>
    refine h.of_children rfl rfl rfl ?_
    rintro _ ⟨⟩
    exact .notSpawned _
  | started hp hs hn => exact h.started hi hp hs hn
  | received _ hchild | receivedEnd _ hchild | joined _ hchild =>
    exact h.of_setChild hchild rfl rfl rfl (fun _ ha => ha) nofun
  | cutOff hp hchild hslot hd =>
    obtain ⟨hs, ho⟩ := hi.owing (by simp [hp]) hchild
    exact (ho.not_disconnected hs hslot hd).elim
  | stopped =>
    refine h.of_children rfl rfl rfl ?_
    rintro _ ⟨⟩
    exact .interrupted
  | refused =>
    refine h.of_children rfl rfl rfl ?_
    rintro _ ⟨⟩
    exact .unheard
  | failed _ hchild hdone =>
    obtain ⟨sheet, hs, ha⟩ := h.children _ _ hchild
    refine h.of_setChild hchild rfl rfl rfl (fun _ ha => ha) ?_
    rintro _ ⟨⟩
    exact .child hs (ha.fails (by rw [Synth.result?, hdone]))
  | ended hp | unheard hp | drained hp | foundPending hp | foundJoined hp | foundFinished hp
  | left hp =>
    rw [hp] at hfailed
    exact h.of_children rfl rfl rfl hfailed
  | discarded _ hchild => exact h.of_setChild hchild rfl rfl rfl (fun _ ha => ha) hfailed
  | discardedEnd hp hchild | discardedAll hp hchild | reaped hp hchild =>
    rw [hp] at hfailed
    exact h.of_setChild hchild rfl rfl rfl (fun _ ha => ha) hfailed

theorem new_accountable (sheets : List Sheet) (params : Audio.Params)
    (spawnFault : Nat → Option FileFault) :
    (new sheets params spawnFault).Accountable sheets params :=
  ⟨rfl, rfl, fun i c hc => by simp [child?, new] at hc, nofun⟩

theorem phase_of_result {result : Result} (h : r.result? = some result) :
    r.phase = .done result := by
  rw [result?] at h
  split at h
  · rename_i hp
    cases h
    exact hp
  · cases h

theorem Accountable.fails (h : r.Accountable sheets params) {f : Failure}
    (hr : r.result? = some (.error f)) : Fails sheets params f := by
  apply h.failed
  rw [phase_of_result hr, Phase.verdict?]

end Relay

end PlainScore
