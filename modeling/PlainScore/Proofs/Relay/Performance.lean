import PlainScore.Proofs.Relay.Invariant
import PlainScore.Proofs.Synth.Performance

/-! What a relay performs by itself.
It plays one sheet after the other, whole, until one of them fails or cannot be begun. Whoever
listens, and whenever the children move, a relay that nobody interrupts goes on with this
performance; a listener that leaves can only make it end with an error of its own. -/
namespace PlainScore

namespace Relay

inductive Stage where
  | before (index : Nat) (reports : List Report)
  | behind (index : Nat) (reports : List Report) (result : Synth.Result)

inductive Medley (sheets : List Sheet) (params : Audio.Params)
    (spawnFault : Nat → Option FileFault) : Stage → List Chunk → Result → Prop where
  | allPlayed {i : Nat} {reports : List Report} : sheets[i]? = none →
      Medley sheets params spawnFault (.before i reports) [.endOfStream] (.ok reports)
  | lost {i : Nat} {reports : List Report} {sheet : Sheet} {f : Failure} :
      sheets[i]? = some sheet → Synth.new sheet params = .error f →
      Medley sheets params spawnFault (.before i reports) [] (.error f)
  | notSpawned {i : Nat} {reports : List Report} {sheet : Sheet} {synth : Synth}
      {fault : FileFault} : sheets[i]? = some sheet → Synth.new sheet params = .ok synth →
      spawnFault i = some fault →
      Medley sheets params spawnFault (.before i reports) [.endOfStream]
        (.error (.reported (.file fault)))
  | played {i : Nat} {reports : List Report} {sheet : Sheet} {own : Performance}
      {chunks : List Chunk} {result : Result} : sheets[i]? = some sheet →
      sheet.Performs params own → spawnFault i = none →
      Medley sheets params spawnFault (.behind i reports own.result) chunks result →
      Medley sheets params spawnFault (.before i reports) (own.bars.map .samples ++ chunks) result
  | failed {i : Nat} {reports : List Report} {f : Failure} :
      Medley sheets params spawnFault (.behind i reports (.error f)) [.endOfStream]
        (.error (.reported (childError i f)))
  | reported {i : Nat} {reports : List Report} {report : Report} {chunks : List Chunk}
      {result : Result} :
      Medley sheets params spawnFault (.before (i + 1) (reports ++ [report])) chunks result →
      Medley sheets params spawnFault (.behind i reports (.ok report)) chunks result

section Medley

variable {sheets : List Sheet} {params : Audio.Params} {spawnFault : Nat → Option FileFault}

theorem medley_exists (i : Nat) (reports : List Report) : ∃ chunks result,
    Medley sheets params spawnFault (.before i reports) chunks result := by
  induction hn : sheets.length - i generalizing i reports with
  | zero =>
    have hs : sheets[i]? = none := List.getElem?_eq_none (by omega)
    exact ⟨_, _, .allPlayed hs⟩
  | succ n ih =>
    have hs : sheets[i]? = some sheets[i] := List.getElem?_eq_getElem (by omega)
    cases hnew : Synth.new sheets[i] params with
    | error f => exact ⟨_, _, .lost hs hnew⟩
    | ok synth =>
      cases hf : spawnFault i with
      | some fault => exact ⟨_, _, .notSpawned hs hnew hf⟩
      | none =>
        obtain ⟨⟨bars, result⟩, hp⟩ := Sheet.performs_exists hnew
        cases result with
        | error f => exact ⟨_, _, .played hs hp hf .failed⟩
        | ok report =>
          obtain ⟨chunks, result, h⟩ := ih (i + 1) (reports ++ [report]) (by omega)
          exact ⟨_, _, .played hs hp hf (.reported h)⟩

/-- The end marker is sent once and after all bars, unless the relay loses its thread. -/
theorem Medley.shape {stage : Stage} {chunks : List Chunk} {result : Result}
    (h : Medley sheets params spawnFault stage chunks result) :
    result = .error .outOfRoom ∨
      ∃ bars : List (List Sample), chunks = bars.map .samples ++ [.endOfStream] := by
  induction h with
  | allPlayed _ | notSpawned _ _ _ | failed => exact .inr ⟨[], rfl⟩
  | lost hs hn =>
    rw [Synth.new_eq] at hn
    split at hn
    · cases hn
      exact .inl rfl
    · cases hn
  | @played _ _ _ own _ _ _ _ _ _ ih =>
    rcases ih with hlost | ⟨bars, rfl⟩
    · exact .inl hlost
    · exact .inr ⟨own.bars ++ bars, by simp⟩
  | reported _ ih => exact ih

end Medley

/-- The bars that are still to come from a child, sent or not, and what it will end with. -/
def Child.Performs (c : Child) (bars : List (List Sample)) (own : Synth.Result) : Prop :=
  ∃ rest, c.synth.Performs rest own ∧
    c.output.slot.toList ++ rest = bars.map .samples ++ [.endOfStream]

def GoesOn (r : Relay) (stage : Stage) (chunks : List Chunk) (result : Result) : Prop :=
  Medley r.sheets r.params r.spawnFault stage chunks result

def PassesOn (r : Relay) (i : Nat) (chunks : List Chunk) (result : Result) : Prop :=
  ∃ c bars own rest, r.child? i = some c ∧ c.Performs bars own ∧
    r.GoesOn (.behind i r.reports own) rest result ∧ chunks = bars.map .samples ++ rest

/-- What a relay will send from a state on, and what it will end with. -/
def Performs (r : Relay) (chunks : List Chunk) (result : Result) : Prop :=
  match r.phase with
  | .starting i => r.GoesOn (.before i r.reports) chunks result
  | .receiving i => r.PassesOn i chunks result
  | .checking i bar | .sending i bar =>
    ∃ rest, chunks = .samples bar :: rest ∧ r.PassesOn i rest result
  | .joining i => ∃ c own, r.child? i = some c ∧ c.synth.Performs [] own ∧
      r.GoesOn (.behind i r.reports own) chunks result
  | .ending own => chunks = [.endOfStream] ∧ own = result
  | .draining own _ | .discarding own _ | .reaping own _ | .leaving own | .done own =>
    chunks = [] ∧ own = result

variable {r : Relay} {i : Nat} {c : Child} {chunks : List Chunk} {result : Result}
  {bars : List (List Sample)} {own : Synth.Result}

theorem new_performs {sheets : List Sheet} {params : Audio.Params}
    {spawnFault : Nat → Option FileFault}
    (h : Medley sheets params spawnFault (.before 0 []) chunks result) :
    (new sheets params spawnFault).Performs chunks result :=
  h

theorem Performs.of_result {own : Result} (h : r.Performs chunks result)
    (hr : r.result? = some own) : chunks = [] ∧ own = result := by
  rw [result?] at hr
  split at hr
  · rename_i hp
    rw [Performs, hp] at h
    cases hr
    exact h
  · cases hr

/-! ### Steps of a child -/

theorem Child.Performs.step (h : c.Performs bars own) (hr : c.output.receiver = true)
    (hc : c.canStep = true) : (c.step false).Performs bars own := by
  obtain ⟨rest, hs, he⟩ := h
  obtain ⟨rest', own', hs', ha⟩ := hs.advanced hc
  obtain ⟨rfl, heq⟩ := ha.kept (.inl hr)
  exact ⟨rest', hs', heq ▸ he⟩

theorem Child.step_ends (h : c.synth.Performs [] own) (he : c.synth.hasEnded = true)
    (hc : c.canStep = true) : (c.step false).synth.Performs [] own := by
  obtain ⟨rest, own', hs, ha⟩ := h.advanced hc
  obtain ⟨rfl, -⟩ := ha.kept (.inr rfl)
  have hnil : rest = [] := hs.silent_of_ended (Child.step_ended he hc false)
  exact hnil ▸ hs

/-- The relay goes on as before when the child at hand does. -/
theorem PassesOn.setChild {j : Nat} {c' : Child} (h : r.PassesOn j chunks result)
    (hchild : r.child? i = some c)
    (hc : j = i → ∀ bars own, c.Performs bars own → c'.Performs bars own) :
    (r.setChild i c').PassesOn j chunks result := by
  obtain ⟨d, bars, own, rest, hd, hp, hg, he⟩ := h
  by_cases hj : j = i
  · subst hj
    cases hchild.symm.trans hd
    refine ⟨c', bars, own, rest, ?_, hc rfl bars own hp, hg, he⟩
    rw [child_setChild hchild, if_pos rfl]
  · refine ⟨d, bars, own, rest, ?_, hp, hg, he⟩
    rw [child_setChild hchild, if_neg hj, hd]

/-- Whichever child moves, the performance of the relay stays the same. -/
theorem Performs.stepChild (h : r.Performs chunks result) (hi : r.Invariant)
    (hchild : r.child? i = some c) (hc : c.canStep = true) :
    (r.stepChild false i).Performs chunks result := by
  have hstep : ∀ bars own, c.Performs bars own → (c.step false).Performs bars own :=
    fun bars own hp => hp.step (hi.children i c hchild).1.receiver hc
  have passes : ∀ {j chunks}, r.PassesOn j chunks result →
      (r.setChild i (c.step false)).PassesOn j chunks result :=
    fun hp => hp.setChild hchild fun _ => hstep
  rw [stepChild_of_child hchild]
  rw [Performs] at h
  rw [Performs, setChild_phase]
  cases hp : r.phase with
  | starting j =>
    rw [hp] at h
    exact h
  | receiving j =>
    rw [hp] at h
    exact passes h
  | checking j bar | sending j bar =>
    rw [hp] at h
    obtain ⟨rest, he, h⟩ := h
    exact ⟨rest, he, passes h⟩
  | joining j =>
    rw [hp] at h
    obtain ⟨d, own, hd, hs, hg⟩ := h
    by_cases hj : j = i
    · subst hj
      cases hchild.symm.trans hd
      refine ⟨c.step false, own, ?_, ?_, hg⟩
      · rw [child_setChild hchild, if_pos rfl]
      · exact Child.step_ends hs (hi.closing (by simp [hp]) hchild).2 hc
    · refine ⟨d, own, ?_, hs, hg⟩
      rw [child_setChild hchild, if_neg hj, hd]
  | _ =>
    rw [hp] at h
    exact h

/-! ### Steps of the relay -/

theorem PassesOn.received {bar : List Sample} (h : r.PassesOn i chunks result)
    (hchild : r.child? i = some c) (hslot : c.output.slot = some (.samples bar)) :
    ∃ rest, chunks = .samples bar :: rest ∧ (r.setChild i c.emptied).PassesOn i rest result := by
  obtain ⟨d, bars, own, rest, hd, ⟨left, hs, he⟩, hg, rfl⟩ := h
  cases hchild.symm.trans hd
  rw [hslot] at he
  cases bars with
  | nil => simp at he
  | cons first bars =>
    simp only [Option.toList_some, List.map_cons, List.cons_append, List.nil_append,
      List.cons.injEq, Chunk.samples.injEq] at he
    obtain ⟨rfl, he⟩ := he
    refine ⟨bars.map .samples ++ rest, rfl, c.emptied, bars, own, rest, ?_, ⟨left, hs, he⟩, hg,
      rfl⟩
    rw [child_setChild hchild, if_pos rfl]

theorem PassesOn.receivedEnd (h : r.PassesOn i chunks result) (hchild : r.child? i = some c)
    (hslot : c.output.slot = some .endOfStream) :
    ∃ d own, (r.setChild i c.emptied).child? i = some d ∧ d.synth.Performs [] own ∧
      r.GoesOn (.behind i r.reports own) chunks result := by
  obtain ⟨d, bars, own, rest, hd, ⟨left, hs, he⟩, hg, rfl⟩ := h
  cases hchild.symm.trans hd
  have hm : ([] : List (List Sample)).map .samples ++ Chunk.endOfStream :: left =
      bars.map .samples ++ [.endOfStream] := by
    rw [← he, hslot]
    rfl
  obtain ⟨rfl, rfl⟩ := marker_last hm
  refine ⟨c.emptied, own, ?_, hs, hg⟩
  rw [child_setChild hchild, if_pos rfl]

theorem GoesOn.started {sheet : Sheet} {synth : Synth} {l : Line} (hi : r.Invariant)
    (hp : r.phase = .starting i) (h : r.GoesOn (.before i r.reports) chunks result)
    (hs : r.sheets[i]? = some sheet) (hn : Synth.new sheet r.params = .ok synth)
    (hf : r.spawnFault i = none) :
    Relay.PassesOn { r.write l with
      children := r.children ++ [⟨synth, {}, false⟩]
      phase := .receiving i } i chunks result := by
  have hcount := hi.count
  rw [hp] at hcount
  obtain rfl : r.children.length = i := hcount
  cases h with
  | allPlayed hs' => cases hs.symm.trans hs'
  | lost hs' hn' =>
    cases hs.symm.trans hs'
    cases hn.symm.trans hn'
  | notSpawned _ _ hf' => cases hf.symm.trans hf'
  | @played _ _ _ own rest _ hs' hown _ hg =>
    cases hs.symm.trans hs'
    obtain ⟨s, hs, hperf⟩ := hown
    cases hn.symm.trans hs
    exact ⟨⟨synth, {}, false⟩, own.bars, own.result, rest, by simp [child?],
      ⟨own.chunks, hperf, rfl⟩, hg, rfl⟩

/-- The step lemma for an uninterrupted relay, whether or not somebody listens. -/
theorem Performs.advanced {output : Handoff} (h : r.Performs chunks result) (hi : r.Invariant)
    (hc : r.canStep output = true) :
    ∃ chunks' result', (r.step false output).1.Performs chunks' result' ∧
      Advanced output (r.step false output).2 chunks chunks' result result' := by
  have hm := step_moved hc false
  generalize (r.step false output).1 = t at hm ⊢
  generalize (r.step false output).2 = out at hm ⊢
  have still : Advanced output output chunks chunks result result :=
    ⟨fun _ => ⟨rfl, rfl⟩, .inl rfl⟩
  rw [Performs] at h
  cases hm with
  | allPlayed hp hs =>
    rw [hp] at h
    cases h with
    | allPlayed _ => exact ⟨_, _, ⟨rfl, rfl⟩, still⟩
    | lost hs' | notSpawned hs' | played hs' => cases hs.symm.trans hs'
  | lost hp hs hn =>
    rw [hp] at h
    cases h with
    | allPlayed hs' => cases hs.symm.trans hs'
    | lost hs' hn' =>
      cases hs.symm.trans hs'
      cases hn.symm.trans hn'
      exact ⟨_, _, ⟨rfl, rfl⟩, still⟩
    | notSpawned hs' hn' =>
      cases hs.symm.trans hs'
      cases hn.symm.trans hn'
    | played hs' hown =>
      cases hs.symm.trans hs'
      obtain ⟨s, hs, -⟩ := hown
      cases hn.symm.trans hs
  | notSpawned hp hf hs hn =>
    rw [hp] at h
    cases h with
    | allPlayed hs' => cases hs.symm.trans hs'
    | lost hs' hn' =>
      cases hs.symm.trans hs'
      cases hn.symm.trans hn'
    | notSpawned _ _ hf' =>
      cases hf.symm.trans hf'
      exact ⟨_, _, ⟨rfl, rfl⟩, still⟩
    | played _ _ hf' => cases hf.symm.trans hf'
  | started hp hs hn hf =>
    rw [hp] at h
    exact ⟨chunks, result, GoesOn.started hi hp h hs hn hf, still⟩
  | received hp hchild hslot =>
    rw [hp] at h
    exact ⟨chunks, result, h.received hchild hslot, still⟩
  | receivedEnd hp hchild hslot =>
    rw [hp] at h
    exact ⟨chunks, result, h.receivedEnd hchild hslot, still⟩
  | cutOff hp hchild hslot hd =>
    obtain ⟨hs, ho⟩ := hi.owing (by simp [hp]) hchild
    exact (ho.not_disconnected hs hslot hd).elim
  | passed hp _ =>
    rw [hp] at h
    exact ⟨chunks, result, h, still⟩
  | stopped _ hf => cases hf
  | sent hp hr hslot =>
    rw [hp] at h
    obtain ⟨rest, rfl, h⟩ := h
    refine ⟨rest, result, h, fun _ => ⟨rfl, ?_⟩, .inl rfl⟩
    rw [hslot]
    rfl
  | refused hp hr =>
    rw [hp] at h
    obtain ⟨rest, rfl, h⟩ := h
    refine ⟨[.endOfStream], _, ⟨rfl, rfl⟩, ?_, .inr ⟨_, rfl⟩⟩
    rintro (hr' | hnil)
    · cases hr.symm.trans hr'
    · cases hnil
  | joined hp hchild hdone =>
    rw [hp] at h
    obtain ⟨d, own, hd, hs, hg⟩ := h
    cases hchild.symm.trans hd
    obtain rfl := hs.result_of_done hdone
    cases hg with
    | reported hg => exact ⟨chunks, result, hg, still⟩
  | failed hp hchild hdone =>
    rw [hp] at h
    obtain ⟨d, own, hd, hs, hg⟩ := h
    cases hchild.symm.trans hd
    obtain rfl := hs.result_of_done hdone
    cases hg with
    | failed => exact ⟨_, _, ⟨rfl, rfl⟩, still⟩
  | ended hp hr hslot =>
    rw [hp] at h
    obtain ⟨rfl, rfl⟩ := h
    refine ⟨[], _, ⟨rfl, rfl⟩, fun _ => ⟨rfl, ?_⟩, .inl rfl⟩
    rw [hslot]
    rfl
  | unheard hp hr =>
    rw [hp] at h
    obtain ⟨rfl, rfl⟩ := h
    refine ⟨[], _, ⟨rfl, rfl⟩, ?_, .inl rfl⟩
    rintro (hr' | hnil)
    · cases hr.symm.trans hr'
    · cases hnil
  | discarded hp =>
    rw [hp] at h
    refine ⟨chunks, result, ?_, still⟩
    rw [Performs, setChild_phase, hp]
    exact h
  | drained hp | foundPending hp | foundJoined hp | foundFinished hp | discardedEnd hp
  | discardedAll hp | reaped hp | left hp =>
    rw [hp] at h
    exact ⟨chunks, result, h, ⟨fun _ => ⟨rfl, rfl⟩, .inl rfl⟩⟩

end Relay

end PlainScore
