import PlainScore.Proofs.Session.Prompt
import PlainScore.Proofs.Synth.Rounds

/-! How long one sheet is mixed.
Whatever its numbers, its notes and its tokens are: the run ends, in no more rounds than there are
whole bars in what was taken of the last track, and one; and no note is taken twice. -/
namespace PlainScore

namespace Session

variable {sheet : Sheet} {params : Audio.Params} {s t start : Session} {synth : Synth}
  {before : Nat} {taken : List (Nat × String)}

def beginsRound (s : Session) : Event → Bool
  | .produce =>
    match s.producer with
    | .lone synth => synth.beginsRound s.output
    | .relay _ => false
  | _ => false

def takes (s : Session) : Event → List (Nat × String)
  | .produce =>
    match s.producer with
    | .lone synth => synth.takes s.interrupted
    | .relay _ => []
  | _ => []

/-- The rounds that begin in a run of one sheet. -/
def rounds : Session → List Event → Nat
  | _, [] => 0
  | s, e :: es => (s.beginsRound e).toNat + rounds (next s e) es

def notesTaken : Session → List Event → List (Nat × String)
  | _, [] => []
  | s, e :: es => s.takes e ++ notesTaken (next s e) es

theorem step_preserves_traced (hi : s.Invariant) (hp : s.producer = .lone synth)
    (h : synth.Traced sheet params before taken) {e : Event} (he : Enabled s e) :
    ∃ synth', (next s e).producer = .lone synth' ∧
      synth'.Traced sheet params (before + (s.beginsRound e).toNat) (taken ++ s.takes e) := by
  cases e with
  | consume => exact ⟨synth, hp, by simpa [takes, beginsRound] using h⟩
  | produce =>
    have hc : synth.canStep s.output = true := by
      simpa only [Enabled, hp, Producer.canStep] using he
    rw [next_produce hp]
    refine ⟨_, rfl, ?_⟩
    simp only [beginsRound, takes, hp]
    exact h.step (hi.lone hp).valid hc _
  | produceChild i => simp [Enabled, hp] at he
  | interrupt => exact ⟨synth, hp, by simpa [takes, beginsRound] using h⟩

theorem execution_traced {es : List Event} (he : Execution s es t) (hi : s.Invariant)
    (hp : s.producer = .lone synth) (h : synth.Traced sheet params before taken) :
    ∃ synth', t.producer = .lone synth' ∧
      synth'.Traced sheet params (before + rounds s es) (taken ++ notesTaken s es) := by
  induction he generalizing synth before taken with
  | nil => exact ⟨synth, hp, by rwa [notesTaken, List.append_nil]⟩
  | cons hstep _ ih =>
    obtain ⟨he, rfl⟩ := hstep
    obtain ⟨synth', hp', h'⟩ := step_preserves_traced hi hp h he
    obtain ⟨synth'', hlone, htraced⟩ := ih (step_preserves_invariant hi he) hp' h'
    refine ⟨synth'', hlone, ?_⟩
    rwa [rounds, notesTaken, ← Nat.add_assoc, ← List.append_assoc]

theorem ofSheet_traced {consumer : Consumer} (hstart : ofSheet sheet params consumer = .ok start)
    (hi : start.Invariant) {es : List Event} (he : Execution start es s) :
    ∃ synth, s.producer = .lone synth ∧
      synth.Traced sheet params (rounds start es) (notesTaken start es) := by
  obtain ⟨synth, hnew, rfl⟩ := ofSheet_lone hstart
  have htraced := execution_traced he hi rfl (Synth.new_traced hnew)
  rwa [Nat.zero_add, List.nil_append] at htraced

structure MixesInTime (sheet : Sheet) (params : Audio.Params) (start : Session)
    (es : List Event) (s : Session) : Prop where
  steps : threadSteps es ≤ start.weight
  rounds_le : rounds start es ≤
    sheet.count params (Synth.notesOf (sheet.tracks.length - 1) (notesTaken start es)) /
      sheet.capacity params + 1
  rounds_le_bars : rounds start es ≤
    sheet.count params (sheet.tokensOf (sheet.tracks.length - 1)) / sheet.capacity params + 1
  notes : ∀ i, Synth.notesOf i (notesTaken start es) <+: sheet.tokensOf i
  /-- When no thread can move any more, the synthesizer has ended. Only for want of room for one of
  the notes that it has taken can it have lost its thread. -/
  ended : s.Quiet → ∃ synth result, s.producer = .lone synth ∧ synth.result? = some result ∧
    (result = .error .outOfRoom →
      ∃ note ∈ notesTaken start es, sampleLimit < sheet.noteCount params note.2)

/-- Every sheet for which the bars can be set aside, with any consumer, and in every order in which
the threads move. -/
theorem sheets_are_mixed_in_time {consumer : Consumer} (hc : consumer.Fresh)
    (hroom : sheet.tracks = [] ∨ sheet.capacity params ≤ sampleLimit) :
    0 < sheet.capacity params ∧ ∃ start, ofSheet sheet params consumer = .ok start ∧
      ∀ es s, Execution start es s → MixesInTime sheet params start es s := by
  have hstart := ofSheet_of_new (Synth.new_of_room hroom) consumer
  refine ⟨sheet.capacity_pos params, _, hstart, ?_⟩
  intro es s he
  obtain ⟨hi, -⟩ := (Begins.lone hc hstart).accountable
  obtain ⟨synth, hp, htraced⟩ := ofSheet_traced hstart hi he
  have hnotes : ∀ i, Synth.notesOf i (notesTaken _ es) <+: sheet.tokensOf i := fun i =>
    ⟨_, (htraced.tokens i).symm⟩
  have hw := execution_lowers_weight he hi
  refine ⟨by omega, htraced.rounds_le, ?_, hnotes, ?_⟩
  · refine htraced.rounds_le.trans (Nat.succ_le_succ (Nat.div_le_div_right ?_))
    rw [htraced.tokens, Sheet.count_append]
    exact Nat.le_add_right _ _
  · intro hq
    obtain ⟨hover, -⟩ := hq.ended (execution_preserves_invariant he hi)
    rw [hp, Producer.result?, Option.isSome_map, Option.isSome_iff_exists] at hover
    obtain ⟨result, hr⟩ := hover
    refine ⟨synth, result, hp, hr, ?_⟩
    rintro rfl
    refine htraced.lost ?_
    rw [Synth.IsLost, Synth.phase_of_result hr]
    rfl

/-- A whole run of `drone`: each of its bars is sent and heard before the next is mixed. -/
def droneEvents : List Event :=
  [.produce, .produce] ++ (List.replicate 8 [.produce, .consume]).flatten ++
    [.produce, .produce, .consume, .produce, .produce, .consume]

/-- One note, eight bars, and as many rounds as there may be. -/
theorem drone_takes_nine_rounds : ∃ start s,
    ofSheet drone {} (.listener (.new none)) = .ok start ∧ Execution start droneEvents s ∧
      s.producer.result?.isSome = true ∧ rounds start droneEvents = 9 ∧
      notesTaken start droneEvents = [(0, "C4-------")] ∧
      MixesInTime drone {} start droneEvents s := by
  have hroom : drone.tracks = [] ∨ drone.capacity {} ≤ sampleLimit := .inr (by decide +kernel)
  obtain ⟨-, start, hstart, hmixes⟩ := sheets_are_mixed_in_time (.listener none) hroom
  cases drone_begins.symm.trans hstart
  have he : Execution ⟨false, {}, .lone (.fresh drone {}), .listener (.new none)⟩ droneEvents _ :=
    Admits.execution (by decide +kernel)
  exact ⟨_, _, hstart, he, by decide +kernel, by decide +kernel, by decide +kernel, hmixes _ _ he⟩

end Session

end PlainScore
