import PlainScore.Proofs.Relay.Accounts
import PlainScore.Proofs.Relay.Failures
import PlainScore.Proofs.Synth.Prompt
import PlainScore.Proofs.Synth.Whole

/-! How a relay stops when it is interrupted.
It looks at the flag between taking a bar from a child and sending it, so that one bar at most
follows. Children that it starts after that find the flag set before their first note, and all
that can go wrong with sheets that are played well is the interrupt. -/
namespace PlainScore

namespace Relay

variable {own : List Performance} {r t : Relay} {output : Handoff} {i n : Nat} {c : Child}

/-! ### What is still sent -/

/-- What a relay still sends once it is interrupted: the bar that it is sending, if there is one,
and the end marker. -/
def Phase.lastChunks : Phase → List Chunk
  | .sending _ bar => [.samples bar, .endOfStream]
  | .starting _ | .receiving _ | .checking _ _ | .joining _ | .ending _ => [.endOfStream]
  | .draining _ _ | .discarding _ _ | .reaping _ _ | .leaving _ | .done _ => []

theorem Phase.barCount_lastChunks (p : Phase) : barCount p.lastChunks ≤ 1 := by
  cases p with
  | sending => exact le_rfl
  | _ => exact Nat.zero_le 1

theorem Phase.sending_of_mem_lastChunks {p : Phase} {bar : List Sample}
    (h : .samples bar ∈ p.lastChunks) : ∃ i, p = .sending i bar := by
  cases p with
  | sending i held =>
    simp only [lastChunks, List.mem_cons, Chunk.samples.injEq, reduceCtorEq, List.not_mem_nil,
      or_false] at h
    exact ⟨i, by rw [h]⟩
  | _ => simp [lastChunks] at h

/-- Every step under the flag sends the first of what is left to send, or nothing. -/
theorem step_lastChunks (hset : Setting own r) (hr : output.receiver = true)
    (hc : r.canStep output = true) :
    output.put (r.step true output).2 ++ (r.step true output).1.phase.lastChunks =
      r.phase.lastChunks := by
  have hm := step_moved hc true
  generalize r.step true output = after at hm ⊢
  obtain ⟨t, out⟩ := after
  dsimp only at hm ⊢
  cases hm with
  | lost _ hs hn =>
    obtain ⟨p, -, synth, hnew, -⟩ := hset.at hs
    cases hnew.symm.trans hn
  | passed _ hflag => cases hflag
  | refused _ hgone | unheard _ hgone => cases hr.symm.trans hgone
  | sent hp _ hslot | ended hp _ hslot =>
    rw [Handoff.put_some _ hslot, hp]
    rfl
  | left hp =>
    rw [Handoff.put_dropSender, hp]
    rfl
  | discarded hp => rw [Handoff.put_self, List.nil_append, setChild_phase]
  | allPlayed hp | notSpawned hp | started hp | received hp | receivedEnd hp | cutOff hp
  | stopped hp | joined hp | failed hp | drained hp | foundPending hp | foundJoined hp
  | foundFinished hp | discardedEnd hp | discardedAll hp | reaped hp =>
    rw [Handoff.put_self, hp]
    rfl

/-! ### What the result can be -/

structure Willing (r : Relay) : Prop where
  tracks : ∀ sheet ∈ r.sheets, sheet.tracks ≠ []
  failed : ∀ f, r.phase.verdict? = some (.error f) → f = .reported .interrupted

theorem new_willing {sheets : List Sheet} {params : Audio.Params}
    {spawnFault : Nat → Option FileFault} (h : ∀ sheet ∈ sheets, sheet.tracks ≠ []) :
    (new sheets params spawnFault).Willing :=
  ⟨h, nofun⟩

theorem Willing.stepChild (h : r.Willing) (hchild : r.child? i = some c) (interrupted : Bool) :
    (r.stepChild interrupted i).Willing := by
  rw [stepChild_of_child hchild]
  exact ⟨h.tracks, h.failed⟩

/-- A child whose sheet ends well by itself can only have been interrupted. -/
theorem Playing.failure {interrupted : Bool} {trace : List Chunk} {f : Failure}
    (h : Playing own interrupted trace i [.endOfStream] r) (hchild : r.child? i = some c)
    (hgood : ∀ p ∈ own, ∃ report, p.result = .ok report)
    (hd : c.synth.phase = .done (.error f)) : f = .reported .interrupted := by
  obtain ⟨-, p, q, hp, ha, hs, -⟩ := h.ended hchild (by rw [Synth.hasEnded, hd])
  have hq := hs.result_of_done hd
  rcases ha.whole_or_cut with rfl | ⟨-, hcut⟩
  · obtain ⟨report, hok⟩ := hgood q (List.mem_of_getElem? hp)
    cases hq.symm.trans hok
  · cases hq.symm.trans hcut
    rfl

theorem Willing.step {interrupted : Bool} {trace : List Chunk} (h : r.Willing)
    (hi : r.Invariant) (hset : Setting own r) (ha : r.Accounts own interrupted false trace)
    (hgood : ∀ p ∈ own, ∃ report, p.result = .ok report) (hr : output.receiver = true)
    (hc : r.canStep output = true) : (r.step interrupted output).1.Willing := by
  have hfailed := h.failed
  have hm := step_moved hc interrupted
  generalize (r.step interrupted output).1 = t at hm ⊢
  generalize (r.step interrupted output).2 = out at hm ⊢
  cases hm with
  | lost _ hs hn =>
    obtain ⟨p, -, synth, hnew, -⟩ := hset.at hs
    cases hnew.symm.trans hn
  | notSpawned _ hf => cases (hset.spawns _).symm.trans hf
  | allPlayed | started | received | receivedEnd | passed | sent | joined =>
    exact ⟨h.tracks, nofun⟩
  | cutOff hp hchild hslot hd =>
    obtain ⟨hs, ho⟩ := hi.owing (by simp [hp]) hchild
    exact (ho.not_disconnected hs hslot hd).elim
  | stopped =>
    refine ⟨h.tracks, ?_⟩
    rintro _ ⟨⟩
    rfl
  | refused _ hgone => cases hr.symm.trans hgone
  | failed hp hchild hd =>
    simp only [Accounts, hp] at ha
    obtain rfl := ha.failure hchild hgood hd
    refine ⟨h.tracks, ?_⟩
    rintro _ ⟨⟩
    rfl
  | discarded => exact ⟨h.tracks, hfailed⟩
  | ended hp | unheard hp | drained hp | foundPending hp | foundJoined hp | foundFinished hp
  | discardedEnd hp | discardedAll hp | reaped hp | left hp =>
    rw [hp] at hfailed
    exact ⟨h.tracks, hfailed⟩

/-! ### Children that are started too late -/

/-- The child has taken no note, and no bar is waiting in its output. -/
structure Child.Silent (c : Child) : Prop where
  mute : c.synth.Mute
  empty : ∀ bar, c.output.slot ≠ some (.samples bar)

def SilentFrom (n : Nat) (r : Relay) : Prop := ∀ i c, n ≤ i → r.child? i = some c → c.Silent

theorem Child.Silent.emptied (h : c.Silent) : c.emptied.Silent := ⟨h.mute, nofun⟩

theorem Child.Silent.step (h : c.Silent) (hs : c.Sound) (hc : c.canStep = true) :
    (c.step true).Silent := by
  obtain ⟨hmute, hslot⟩ := h.mute.step hs.receiver hc
  refine ⟨hmute, ?_⟩
  intro bar hbar
  exact h.empty bar (hslot bar hbar)

theorem SilentFrom.of_children (h : r.SilentFrom n) (ht : t.children = r.children) :
    t.SilentFrom n := by
  intro j d hn hd
  rw [child?, ht] at hd
  exact h j d hn hd

theorem SilentFrom.of_setChild {c' : Child} (h : r.SilentFrom n) (hchild : r.child? i = some c)
    (ht : t.children = r.children.set i c') (hc : c.Silent → c'.Silent) : t.SilentFrom n := by
  intro j d hn hd
  rcases child_of_set hchild ht hd with ⟨rfl, rfl⟩ | ⟨-, hd⟩
  · exact hc (h j c hn hchild)
  · exact h j d hn hd

theorem SilentFrom.started {c : Child} (h : r.SilentFrom n)
    (ht : t.children = r.children ++ [c]) (hc : c.Silent) : t.SilentFrom n := by
  intro j d hn hd
  rcases child_of_concat ht hd with hd | ⟨-, rfl⟩
  · exact h j d hn hd
  · exact hc

theorem silentFrom_length (r : Relay) : r.SilentFrom r.children.length := by
  intro i c hn hc
  exact absurd (lt_of_child hc) (Nat.not_lt.mpr hn)

theorem SilentFrom.stepChild (h : r.SilentFrom n) (hi : r.Invariant)
    (hchild : r.child? i = some c) (hc : c.canStep = true) :
    (r.stepChild true i).SilentFrom n := by
  rw [stepChild_of_child hchild]
  have hs := (hi.children i c hchild).1
  exact h.of_setChild hchild rfl fun hsilent => hsilent.step hs hc

/-- A child that is started now is silent, whether or not the relay has seen the flag itself. -/
theorem SilentFrom.step (h : r.SilentFrom n) (hw : r.Willing) (hc : r.canStep output = true)
    (interrupted : Bool) : (r.step interrupted output).1.SilentFrom n := by
  have hm := step_moved hc interrupted
  generalize (r.step interrupted output).1 = t at hm ⊢
  generalize (r.step interrupted output).2 = out at hm ⊢
  cases hm with
  | started _ hs hn =>
    have hmute := Synth.new_mute hn (hw.tracks _ (List.mem_of_getElem? hs))
    exact h.started rfl ⟨hmute, nofun⟩
  | received _ hchild | receivedEnd _ hchild | discarded _ hchild | discardedEnd _ hchild =>
    exact h.of_setChild hchild rfl fun hsilent => hsilent.emptied
  | cutOff _ hchild | discardedAll _ hchild => exact h.of_setChild hchild rfl id
  | joined _ hchild | failed _ hchild | reaped _ hchild =>
    exact h.of_setChild hchild rfl fun hsilent => ⟨hsilent.mute, hsilent.empty⟩
  | _ => exact h.of_children rfl

end Relay

end PlainScore
