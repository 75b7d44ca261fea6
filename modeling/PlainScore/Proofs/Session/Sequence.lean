import PlainScore.Proofs.Relay.Accounts
import PlainScore.Proofs.Session.Outcome
import PlainScore.Proofs.Sheet

/-! A medley is played as its sheets are, one after the other.
What a relay makes of accepted sheets is one performance after the other, without a seam: at a sink
that takes everything, the write calls of a range of sheets are those of its sheets in turn. -/
namespace PlainScore

namespace Sheet

variable {sheet : Sheet} {params : Audio.Params}

def KeepsThread (sheet : Sheet) (params : Audio.Params) : Prop :=
  ∃ own, sheet.Performs params own ∧ own.result ≠ .error .outOfRoom

def PerformsWell (sheet : Sheet) (params : Audio.Params) (own : Performance) : Prop :=
  sheet.Performs params own ∧ ∃ report, own.result = .ok report

/-- Once a sheet is accepted there is nothing but room that its run can fail for. -/
theorem Accepted.performs_well (h : sheet.Accepted) (hk : sheet.KeepsThread params) :
    ∃ own, sheet.PerformsWell params own := by
  obtain ⟨own, hp, hkept⟩ := hk
  have hn := h.tracks_ne_nil
  have hroom : sheet.capacity params ≤ sampleLimit := by
    obtain ⟨s, hs, -⟩ := hp
    exact Synth.room_of_new hs hn
  obtain ⟨own', hp', hends⟩ := performs_to_first_stop hroom hn
  obtain rfl := hp.unique hp'
  cases hends with
  | @failed track token rest _ _ hsplit he =>
    have hm : token ∈ sheet.tokensOf track := by rw [hsplit]; simp
    obtain ⟨t, ht, hmem⟩ := tokensOf_mem hm
    obtain ⟨note, hnote⟩ := h.evaluates ht token hmem
    cases he.symm.trans hnote
  | played => exact ⟨_, hp, _, rfl⟩
  | lost => exact absurd rfl hkept

theorem keepsThread_of_playable (hroom : sheet.capacity params ≤ sampleLimit)
    (hn : sheet.tracks ≠ [])
    (hplay : ∀ t ∈ sheet.tracks, ∀ token ∈ t.tokens, sheet.Playable params token) :
    sheet.KeepsThread params := by
  obtain ⟨report, hp⟩ := performs_overlay hroom hn hplay
  exact ⟨_, hp, nofun⟩

end Sheet

namespace Relay

variable {params : Audio.Params} {spawnFault : Nat → Option FileFault}

/-- Sheets that all end well are played to the end, one after the other. -/
theorem medley_played (hspawn : ∀ i, spawnFault i = none) {sheets : List Sheet}
    {own : List Performance} {i : Nat}
    (h : List.Forall₂ (Sheet.PerformsWell · params ·) (sheets.drop i) own) (reports : List Report) :
    ∃ reports', Medley sheets params spawnFault (.before i reports)
      ((barsOf own).map .samples ++ [.endOfStream]) (.ok reports') := by
  induction own generalizing i reports with
  | nil =>
    have hnil := List.forall₂_nil_right_iff.mp h
    exact ⟨reports, .allPlayed (List.getElem?_eq_none (List.drop_eq_nil_iff.mp hnil))⟩
  | cons p own ih =>
    obtain ⟨sheet, rest, ⟨hp, report, hr⟩, hrest, hsplit⟩ := List.forall₂_cons_right_iff.mp h
    have hsheet : sheets[i]? = some sheet := by
      rw [← List.head?_drop, hsplit]
      rfl
    have htail : rest = sheets.drop (i + 1) := by
      rw [← List.tail_drop, hsplit]
      rfl
    obtain ⟨reports', hm⟩ := ih (htail ▸ hrest) (reports ++ [report])
    have hbehind := Medley.reported hm
    rw [← hr] at hbehind
    have hplayed := Medley.played hsheet hp (hspawn i) hbehind
    refine ⟨reports', ?_⟩
    rw [barsOf, List.flatMap_cons, List.map_append, List.append_assoc]
    exact hplayed

end Relay

namespace Session

open Relay

variable {params : Audio.Params} {sink : Sink} {bars : List (List Sample)}

/-- The write calls of a playback are these, in this order; it finishes the sink once and behind
them, and ends well. -/
structure WritesThrough (bars : List (List Sample)) (s : Session) (p : Playback) : Prop where
  consumer : s.consumer = .playback p
  writes : p.writes <+: bars
  finishes : p.finishes ≤ 1
  finished : 0 < p.finishes → p.writes = bars
  returned : ∀ result, p.result? = some result →
    p.writes = bars ∧ p.finishes = 1 ∧ result = .ok ()
  returns : s.Quiet → p.result?.isSome = true

/-- In whatever order the threads move, as long as nobody interrupts them, a playback of the
score makes these write calls and comes to an end. -/
def PlaysThrough (score : Score) (params : Audio.Params) (sink : Sink)
    (bars : List (List Sample)) : Prop :=
  ∃ start, ofScore score params sink = .ok start ∧
    ∀ es s, Execution start es s → s.interrupted = false →
      threadSteps es ≤ start.weight ∧ ∃ p, WritesThrough bars s p

def Faultless (sink : Sink) : Prop := (∀ k, sink.writeFault k = none) ∧ sink.finishFault = none

theorem Faultless.outcome (h : Faultless sink) (bars : List (List Sample))
    (own : Except Error Unit) : sink.outcome bars own = ⟨bars, 1, own⟩ := by
  have ht : sink.Takes bars.length := fun k _ => h.1 k
  rw [Sink.outcome, Sink.refusal_of_takes ht, h.2]

theorem playsThrough_of_performs {score : Score} (producer : Producer) (hsink : Faultless sink)
    (hstart : ofScore score params sink =
      .ok ⟨false, {}, producer, .playback (.new params sink)⟩)
    (hp : producer.Performs (bars.map .samples ++ [.endOfStream]) (.ok ())) :
    PlaysThrough score params sink bars := by
  refine ⟨_, hstart, ?_⟩
  intro es s he hflag
  obtain ⟨hi, -⟩ := ofScore_invariant hstart
  have hw := execution_lowers_weight he hi
  have hplays : Plays sink bars (.ok ())
      ⟨false, {}, producer, .playback (.new params sink)⟩ (.new params sink) :=
    ⟨rfl, rfl, fun k _ => hsink.1 k, rfl, _, hp, rfl⟩
  obtain ⟨p, hplays⟩ := execution_preserves_plays he hplays hi hflag
  have hout := hplays.playsOut (execution_preserves_invariant he hi)
  have houtcome := hsink.outcome bars (.ok ())
  refine ⟨by omega, p, hout.consumer, ?_, ?_, hout.finished, ?_, hout.returns⟩
  · have hwrites := hout.writes
    rwa [houtcome] at hwrites
  · have hfinishes := hout.finishes
    rwa [houtcome] at hfinishes
  · intro result hr
    have hreturned := hout.returned result hr
    rw [houtcome, Outcome.mk.injEq] at hreturned
    exact hreturned

theorem single_plays_through {sheet : Sheet} {own : Performance} (hsink : Faultless sink)
    (h : sheet.PerformsWell params own) : PlaysThrough (.single sheet) params sink own.bars := by
  obtain ⟨⟨synth, hs, hperforms⟩, report, hr⟩ := h
  refine playsThrough_of_performs (.lone synth) hsink ?_ ⟨_, hperforms, ?_⟩
  · rw [ofScore, ofSheet, hs]
    rfl
  · rw [hr]
    rfl

theorem medley_plays_through {sheets : List Sheet} {own : List Performance}
    (hsink : Faultless sink)
    (h : List.Forall₂ (Sheet.PerformsWell · params ·) sheets own) :
    PlaysThrough (.medley sheets) params sink (barsOf own) := by
  obtain ⟨reports, hm⟩ := medley_played (fun _ => rfl) (i := 0) h []
  exact playsThrough_of_performs (.relay (.new sheets params)) hsink rfl
    ⟨_, Relay.new_performs hm, rfl⟩

theorem performances_of_accepted {sheets : List Sheet} (ha : ∀ s ∈ sheets, s.Accepted)
    (hk : ∀ s ∈ sheets, s.KeepsThread params) :
    ∃ own, List.Forall₂ (Sheet.PerformsWell · params ·) sheets own := by
  induction sheets with
  | nil => exact ⟨[], .nil⟩
  | cons s sheets ih =>
    rw [List.forall_mem_cons] at ha hk
    obtain ⟨p, hp⟩ := ha.1.performs_well hk.1
    obtain ⟨own, hown⟩ := ih ha.2 hk.2
    exact ⟨p :: own, .cons hp hown⟩

/-! ### Ranges of a medley -/

theorem select_range {sheets : List Sheet} {first last : Nat} (hfirst : first < last)
    (hlast : last ≤ sheets.length) : Score.select first last (.medley sheets) =
      .ok (.medley ((sheets.take last).drop first)) := by
  rw [Score.select, if_neg (by omega)]

/-- Playing a range of a medley that was loaded, at a sink that never fails, in whatever order the
threads move: the write calls are those of the sheets of the range, each played as a sheet of its
own, one after the other. A range that is cut in two makes the write calls of its parts. -/
theorem range_plays_sheets_in_turn {file : Option String} {bytes : List UInt8}
    {sheets : List Sheet} (hload : Score.load file bytes = .ok (.medley sheets))
    {first last : Nat} (hfirst : first < last) (hlast : last ≤ sheets.length)
    (hroom : ∀ sheet ∈ (sheets.take last).drop first, sheet.KeepsThread params)
    (hsink : Faultless sink) :
    ∃ own part, Score.select first last (.medley sheets) = .ok part ∧
      List.Forall₂ (fun sheet p => sheet.Performs params p ∧
        PlaysThrough (.single sheet) params sink p.bars) ((sheets.take last).drop first) own ∧
      PlaysThrough part params sink (barsOf own) ∧
      ∀ mid, first < mid → mid < last → ∃ front back,
        Score.select first mid (.medley sheets) = .ok front ∧
        Score.select mid last (.medley sheets) = .ok back ∧
        PlaysThrough front params sink (barsOf (own.take (mid - first))) ∧
        PlaysThrough back params sink (barsOf (own.drop (mid - first))) ∧
        barsOf own = barsOf (own.take (mid - first)) ++ barsOf (own.drop (mid - first)) := by
  have haccepted : ∀ s ∈ (sheets.take last).drop first, s.Accepted := fun s hs =>
    Score.load_accepted hload s (List.mem_of_mem_take (List.mem_of_mem_drop hs))
  obtain ⟨own, hown⟩ := performances_of_accepted haccepted hroom
  refine ⟨own, _, select_range hfirst hlast, ?_, medley_plays_through hsink hown, ?_⟩
  · refine hown.imp ?_
    intro sheet p hp
    exact ⟨hp.1, single_plays_through hsink hp⟩
  · intro mid hmid hmid'
    refine ⟨_, _, select_range hmid (by omega), select_range hmid' hlast, ?_, ?_, ?_⟩
    · have hfront : (sheets.take mid).drop first =
          ((sheets.take last).drop first).take (mid - first) := by
        rw [List.take_drop, List.take_take]
        congr 2
        omega
      rw [hfront]
      exact medley_plays_through hsink (List.forall₂_take _ hown)
    · have hback : (sheets.take last).drop mid =
          ((sheets.take last).drop first).drop (mid - first) := by
        rw [List.drop_drop]
        congr 1
        omega
      rw [hback]
      exact medley_plays_through hsink (List.forall₂_drop _ hown)
    · rw [barsOf, barsOf, barsOf, ← List.flatMap_append, List.take_append_drop]

/-- Three sheets, one of them with two tracks and one in another meter; the first is left out. -/
theorem two_of_three_sheets_are_played_in_turn :
    ∃ own part, Score.select 1 3 (.medley [⟨120, ⟨4, 4⟩, [⟨["C4---"]⟩]⟩,
        ⟨120, ⟨4, 4⟩, [⟨["C4-", "A4"]⟩, ⟨["G3"]⟩]⟩, ⟨90, ⟨3, 4⟩, [⟨["C4", "E4--"]⟩]⟩]) = .ok part ∧
      List.Forall₂ (fun (sheet : Sheet) p => sheet.Performs {} p ∧
          PlaysThrough (.single sheet) {} .memory p.bars)
        [⟨120, ⟨4, 4⟩, [⟨["C4-", "A4"]⟩, ⟨["G3"]⟩]⟩, ⟨90, ⟨3, 4⟩, [⟨["C4", "E4--"]⟩]⟩] own ∧
      PlaysThrough part {} .memory (barsOf own) := by
  have hload : Score.load none ("\x7b\"subsheets\":[[120,\"4/4\",[\"C4---\"]]," ++
      "[120,\"4/4\",[\"C4- A4\",\"G3\"]],[90,\"3/4\",[\"C4 E4--\"]]]\x7d").toUTF8.toList =
      .ok (.medley [⟨120, ⟨4, 4⟩, [⟨["C4---"]⟩]⟩, ⟨120, ⟨4, 4⟩, [⟨["C4-", "A4"]⟩, ⟨["G3"]⟩]⟩,
        ⟨90, ⟨3, 4⟩, [⟨["C4", "E4--"]⟩]⟩]) :=
    ok_of_toOption (by decide +kernel)
  have hroom : ∀ sheet ∈ [(⟨120, ⟨4, 4⟩, [⟨["C4-", "A4"]⟩, ⟨["G3"]⟩]⟩ : Sheet),
      ⟨90, ⟨3, 4⟩, [⟨["C4", "E4--"]⟩]⟩], sheet.KeepsThread {} := by
    simp only [List.mem_cons, List.not_mem_nil, or_false, forall_eq_or_imp, forall_eq]
    refine ⟨Sheet.keepsThread_of_playable (by decide +kernel) (by simp) ?_,
      Sheet.keepsThread_of_playable (by decide +kernel) (by simp) ?_⟩
    · simp only [List.mem_cons, List.not_mem_nil, or_false, forall_eq_or_imp, forall_eq]
      exact ⟨⟨⟨⟨.tone "C4" 60, 0.5⟩, by decide +kernel, by decide +kernel⟩,
        ⟨⟨.tone "A4" 69, 0.25⟩, by decide +kernel, by decide +kernel⟩⟩,
        ⟨⟨.tone "G3" 55, 0.25⟩, by decide +kernel, by decide +kernel⟩⟩
    · simp only [List.mem_cons, List.not_mem_nil, or_false, forall_eq_or_imp, forall_eq]
      exact ⟨⟨⟨.tone "C4" 60, 0.25⟩, by decide +kernel, by decide +kernel⟩,
        ⟨⟨.tone "E4" 64, 0.75⟩, by decide +kernel, by decide +kernel⟩⟩
  obtain ⟨own, part, hpart, hown, hplays, -⟩ := range_plays_sheets_in_turn hload
    (by decide : 1 < 3) (by decide) hroom (⟨fun _ => rfl, rfl⟩ : Faultless .memory)
  exact ⟨own, part, hpart, hown, hplays⟩

end Session

end PlainScore
