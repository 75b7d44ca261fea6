import PlainScore.Proofs.Session.Endings
import PlainScore.Proofs.Session.Medley
import PlainScore.Proofs.Synth.Prompt

/-! How soon a sheet stops when it is interrupted.
No bar follows for which a note has to be taken. How many can be complete without one depends on the
longest note of the tracks that are not silent: where it fits into a bar, at most one bar follows,
and each further bar that it covers may follow too. -/
namespace PlainScore

namespace Session

variable {sheet : Sheet} {params : Audio.Params} {s t start : Session} {synth : Synth}
  {i n : Nat}

/-! ### Until the interrupt -/

theorem step_preserves_carries (h : ∃ synth, s.producer = .lone synth ∧
      synth.Carries sheet params i n) (hi : s.Invariant) {e : Event} (he : Enabled s e) :
    ∃ synth, (next s e).producer = .lone synth ∧ synth.Carries sheet params i n := by
  obtain ⟨synth, hp, h⟩ := h
  cases e with
  | consume => exact ⟨synth, hp, h⟩
  | produce =>
    have hc : synth.canStep s.output = true := by
      simpa only [Enabled, hp, Producer.canStep] using he
    rw [next_produce hp]
    exact ⟨_, rfl, h.step (hi.lone hp).valid hc _⟩
  | produceChild j => simp [Enabled, hp] at he
  | interrupt => exact ⟨synth, hp, h⟩

theorem execution_carries {consumer : Consumer} (hstart : ofSheet sheet params consumer = .ok start)
    (hi : start.Invariant) {es : List Event} (he : Execution start es t)
    (hn : ∀ token ∈ sheet.tokensOf i, sheet.noteCount params token ≤ n) :
    ∃ synth, t.producer = .lone synth ∧ synth.Carries sheet params i n := by
  refine execution_preserves (P := fun s => ∃ synth, s.producer = .lone synth ∧
    synth.Carries sheet params i n) (fun h hi he => step_preserves_carries h hi he) he ?_ hi
  obtain ⟨synth, hnew, rfl⟩ := ofSheet_lone hstart
  exact ⟨synth, rfl, Synth.new_carries hnew hn⟩

/-! ### From the interrupt on -/

theorem step_due (hi : s.Invariant) (hflag : s.interrupted = true) (hp : s.producer = .lone synth)
    (hk : synth.KeepsTime i) {e : Event} (he : Enabled s e) :
    ∃ synth', (next s e).producer = .lone synth' ∧ synth'.KeepsTime i ∧
      barCount (s.output.put (next s e).output) + synth'.due i ≤ synth.due i := by
  cases e with
  | consume =>
    refine ⟨synth, hp, hk, ?_⟩
    rw [next, Consumer.step_put he, barCount_nil, Nat.zero_add]
  | produce =>
    have hc : synth.canStep s.output = true := by
      simpa only [Enabled, hp, Producer.canStep] using he
    rw [next_produce hp, hflag]
    exact ⟨_, rfl, Synth.step_due (hi.lone hp).valid hk hc⟩
  | produceChild j => simp [Enabled, hp] at he
  | interrupt =>
    refine ⟨synth, hp, hk, ?_⟩
    rw [next, Handoff.put_self, barCount_nil, Nat.zero_add]

/-- Every bar that is sent was due. -/
theorem execution_due {es : List Event} (he : Execution t es s) (hi : t.Invariant)
    (hflag : t.interrupted = true) (hp : t.producer = .lone synth) (hk : synth.KeepsTime i) :
    ∃ synth', s.producer = .lone synth' ∧ barCount (sent t es) + synth'.due i ≤ synth.due i := by
  induction he generalizing synth with
  | nil => exact ⟨synth, hp, Nat.le_of_eq (Nat.zero_add _)⟩
  | @cons t u s e es hstep _ ih =>
    obtain ⟨he, rfl⟩ := hstep
    obtain ⟨next', hp', hk', hdue⟩ := step_due hi hflag hp hk he
    obtain ⟨synth', hlone, hrest⟩ :=
      ih (step_preserves_invariant hi he) (next_keeps_interrupt hflag e) hp' hk'
    refine ⟨synth', hlone, ?_⟩
    rw [sent, barCount_append]
    omega

/-- What an interrupt finds in a session `t` of one sheet, and what follows it: `synth` is the
synthesizer at that moment, and `late` are the events from then on. -/
structure StopsSoon (sheet : Sheet) (params : Audio.Params) (start t : Session) (synth : Synth)
    (late : List Event) (s : Session) : Prop where
  producer : t.producer = .lone synth
  last_keepsTime : synth.KeepsTime (sheet.tracks.length - 1)
  prompt : ∀ i, synth.KeepsTime i →
    (∀ token ∈ sheet.tokensOf i, sheet.noteCount params token ≤ sheet.capacity params) →
    barCount (sent t late) ≤ 1
  bounded : ∀ i n, synth.KeepsTime i →
    (∀ token ∈ sheet.tokensOf i, sheet.noteCount params token ≤ n) →
    barCount (sent t late) ≤ 1 + (n - 1) / sheet.capacity params
  steps : threadSteps late ≤ t.weight
  ended : start.consumer = .listener (.new none) → s.Quiet →
    ∃ l, s.consumer = .listener l ∧ Ended l.heard

theorem exists_bound (sheet : Sheet) (params : Audio.Params) (i : Nat) :
    ∃ n, ∀ token ∈ sheet.tokensOf i, sheet.noteCount params token ≤ n :=
  ⟨_, fun _ htoken => List.le_sum_of_mem (List.mem_map_of_mem htoken)⟩

/-- Every sheet, every consumer and every order in which the threads move: once the flag is set so
many bars are sent and no more, and the run ends. -/
theorem interrupted_sheet_stops_soon {consumer : Consumer} (hc : consumer.Fresh)
    (hstart : ofSheet sheet params consumer = .ok start) {early late : List Event}
    (hearly : Execution start early t) (hflag : t.interrupted = true)
    (hlate : Execution t late s) :
    ∃ synth, StopsSoon sheet params start t synth late s := by
  have hbegins := Begins.lone hc hstart
  obtain ⟨hi, -⟩ := hbegins.accountable
  have ht := execution_preserves_invariant hearly hi
  obtain ⟨m, hm⟩ := exists_bound sheet params (sheet.tracks.length - 1)
  obtain ⟨synth, hp, hlast⟩ := execution_carries hstart hi hearly hm
  have hbounded : ∀ i n, synth.KeepsTime i →
      (∀ token ∈ sheet.tokensOf i, sheet.noteCount params token ≤ n) →
      barCount (sent t late) ≤ 1 + (n - 1) / sheet.capacity params := by
    intro i n hk hn
    obtain ⟨synth', hp', hcarries⟩ := execution_carries hstart hi hearly hn
    cases hp.symm.trans hp'
    obtain ⟨_, -, hdue⟩ := execution_due hlate ht hflag hp hk
    exact (Nat.le_of_add_right_le hdue).trans hcarries.due_le
  have hkeeps := hlast.last_keepsTime (ht.lone hp).valid
  have hw := execution_lowers_weight hlate ht
  refine ⟨synth, hp, hkeeps, ?_, hbounded, by omega, ?_⟩
  · intro i hk hfits
    have hone := hbounded i _ hk hfits
    rwa [Nat.div_eq_of_lt (Nat.sub_one_lt_of_lt (sheet.capacity_pos params))] at hone
  · intro hl hq
    obtain ⟨hstays, htells⟩ := hbegins.tells hl
    obtain ⟨k, hstays, htells⟩ := execution_preserves_tells hearly hstays hi htells
    obtain ⟨l, hstays, htells⟩ := execution_preserves_tells hlate hstays ht htells
    obtain ⟨-, hend | ⟨-, hlost⟩⟩ :=
      hstays.heard_all (execution_preserves_invariant hlate ht) htells hq
    · exact ⟨l, hstays.consumer, hend.1⟩
    · obtain ⟨_, hlone, -⟩ := execution_due hlate ht hflag hp hkeeps
      rw [hlone] at hlost
      exact hlost.elim

/-- One note of eight bars, with two samples to a bar. -/
def drone : Sheet := ⟨1323000, ⟨1, 4⟩, [⟨["C4-------"]⟩]⟩

theorem drone_begins : ofSheet drone {} (.listener (.new none)) =
    .ok ⟨false, {}, .lone (.fresh drone {}), .listener (.new none)⟩ :=
  ofSheet_of_new (Synth.new_of_room (.inr (by decide +kernel))) _

theorem drone_stops_soon : ∃ start t s,
    ofSheet drone {} (.listener (.new none)) = .ok start ∧
      Execution start [.produce, .produce, .interrupt] t ∧ t.interrupted = true ∧
      Execution t [.produce, .consume] s ∧
      ∃ synth, StopsSoon drone {} start t synth [.produce, .consume] s := by
  have hearly : Execution ⟨false, {}, .lone (.fresh drone {}), .listener (.new none)⟩
      [.produce, .produce, .interrupt] _ := Admits.execution (by decide +kernel)
  have hlate : Execution (List.foldl next
      ⟨false, {}, .lone (.fresh drone {}), .listener (.new none)⟩
      [.produce, .produce, .interrupt]) [.produce, .consume] _ :=
    Admits.execution (by decide +kernel)
  exact ⟨_, _, _, drone_begins, hearly, rfl, hlate,
    interrupted_sheet_stops_soon (.listener none) drone_begins hearly rfl hlate⟩

/-- An interrupt right after the note was taken: all of it is still sent. -/
theorem drone_sounds_to_its_end : drone.Accepted ∧ ∃ start t s,
    ofSheet drone {} (.listener (.new none)) = .ok start ∧
      Execution start [.produce, .produce, .interrupt] t ∧ t.interrupted = true ∧
      Execution t (List.replicate 8 [.produce, .consume]).flatten s ∧
      barCount (sent t (List.replicate 8 [.produce, .consume]).flatten) = 8 :=
  ⟨by decide +kernel, _, _, _, drone_begins, Admits.execution (by decide +kernel), rfl,
    Admits.execution (by decide +kernel), by decide +kernel⟩

end Session

end PlainScore
