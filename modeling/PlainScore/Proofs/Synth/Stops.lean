import PlainScore.Proofs.Synth.Voices

/-! Where the run of a sheet ends.
A track with a token that cannot be evaluated ends the run in the bar for which the token is
needed, and the last track ends it in the bar for which it has no more notes. Of these the
earliest bar comes first, and in one bar the first track. `Underway` is the simulation: a track
at which the run may end has only notes behind it and no silence. -/
namespace PlainScore

def Note.evaluates (token : String) : Bool := (Note.ofToken token).toBool

namespace Sheet

variable (sheet : Sheet) (params : Audio.Params)

def tokensOf (track : Nat) : List String := (sheet.tracks[track]?.map (·.tokens)).getD []

def evaluable (track : Nat) : List String := (sheet.tokensOf track).takeWhile Note.evaluates

def cut : Sheet :=
  { sheet with tracks := sheet.tracks.map fun t => ⟨t.tokens.takeWhile Note.evaluates⟩ }

/-- The bar for which a track needs more than the notes that can be evaluated. -/
def stopBar (track : Nat) : Nat :=
  (sheet.voice params (sheet.evaluable track)).length / sheet.capacity params

def Stops (track : Nat) : Prop :=
  track < sheet.tracks.length ∧
    (track + 1 = sheet.tracks.length ∨
      ∃ token ∈ sheet.tokensOf track, Note.evaluates token = false)

def StopsFirst (track : Nat) : Prop :=
  sheet.Stops track ∧ ∀ other, sheet.Stops other →
    sheet.stopBar params track < sheet.stopBar params other ∨
      sheet.stopBar params track = sheet.stopBar params other ∧ track ≤ other

/-- How a run can end by itself. What is heard of it is what is heard of the sheet without
failures. -/
inductive Ends : Performance → Prop where
  | failed {track : Nat} {token : String} {rest : List String} {e : Error} :
      sheet.StopsFirst params track →
      sheet.tokensOf track = sheet.evaluable track ++ token :: rest →
      Note.ofToken token = .error e →
      Ends ⟨(List.range (sheet.stopBar params track)).map (sheet.cut.bar params),
        .error (.reported e)⟩
  | played {track : Nat} {report : Report} :
      sheet.StopsFirst params track → track + 1 = sheet.tracks.length →
      (∀ token ∈ sheet.tokensOf track, Note.evaluates token = true) →
      Ends ⟨sheet.cut.bars params, .ok report⟩
  | lost {track bars : Nat} {token : String} {note : Note} :
      token ∈ sheet.tokensOf track → Note.ofToken token = .ok note →
      sampleLimit < params.sampleCount
        (note.value * Float.ofNat sheet.meter.denominator * sheet.beatDuration) →
      Ends ⟨(List.range bars).map (sheet.cut.bar params), .error .outOfRoom⟩

variable {sheet params} {k : Nat}

theorem voice_append (xs ys : List String) :
    sheet.voice params (xs ++ ys) = sheet.voice params xs ++ sheet.voice params ys :=
  List.flatMap_append

/-! ### The sheet without failures -/

theorem tokensOf_cut (i : Nat) : sheet.cut.tokensOf i = sheet.evaluable i := by
  rw [evaluable, tokensOf, tokensOf, cut, List.getElem?_map]
  cases sheet.tracks[i]? <;> rfl

theorem getD_voices (sheet : Sheet) (params : Audio.Params) (i : Nat) :
    (sheet.voices params).getD i [] = sheet.voice params (sheet.tokensOf i) := by
  rw [voices, tokensOf, List.getD_eq_getElem?_getD, List.getElem?_map]
  cases sheet.tracks[i]? <;> rfl

theorem voices_cut (sheet : Sheet) (params : Audio.Params) :
    sheet.cut.voices params =
      (List.range sheet.tracks.length).map fun i => sheet.voice params (sheet.evaluable i) := by
  rw [voices_eq_map, cut, List.length_map, ← cut]
  apply List.map_congr_left
  intro i _
  rw [getD_voices, tokensOf_cut]
  rfl

theorem voices_eq_map_tokensOf (sheet : Sheet) (params : Audio.Params) :
    sheet.voices params =
      (List.range sheet.tracks.length).map fun i => sheet.voice params (sheet.tokensOf i) := by
  rw [voices_eq_map]
  exact List.map_congr_left fun i _ => getD_voices sheet params i

def Intact (sheet : Sheet) (params : Audio.Params) (k i : Nat) : Prop :=
  (sheet.voice params (sheet.evaluable i)).take ((k + 1) * sheet.capacity params) =
    (sheet.voice params (sheet.tokensOf i)).take ((k + 1) * sheet.capacity params)

theorem evaluable_of_all {i : Nat}
    (h : ∀ token ∈ sheet.tokensOf i, Note.evaluates token = true) :
    sheet.evaluable i = sheet.tokensOf i := by
  rw [evaluable, ← List.append_nil (sheet.tokensOf i), List.takeWhile_append_of_pos h,
    List.takeWhile_nil]

theorem intact_of_lt_stopBar {i : Nat} (h : k < sheet.stopBar params i) :
    sheet.Intact params k i := by
  have hlong : (k + 1) * sheet.capacity params ≤
      (sheet.voice params (sheet.evaluable i)).length :=
    (Nat.le_div_iff_mul_le (sheet.capacity_pos params)).mp h
  have hsplit : sheet.tokensOf i =
      sheet.evaluable i ++ (sheet.tokensOf i).dropWhile Note.evaluates :=
    List.takeWhile_append_dropWhile.symm
  rw [Intact]
  conv_rhs => rw [hsplit]
  rw [voice_append, List.take_append_of_le_length hlong]

/-- Only a track that stops has failures. -/
theorem intact_of_stops {i : Nat} (hi : i < sheet.tracks.length)
    (h : sheet.Stops i → k < sheet.stopBar params i) : sheet.Intact params k i := by
  by_cases hall : ∀ token ∈ sheet.tokensOf i, Note.evaluates token = true
  · rw [Intact, evaluable_of_all hall]
  · push Not at hall
    obtain ⟨token, hm, hbad⟩ := hall
    exact intact_of_lt_stopBar (h ⟨hi, .inr ⟨token, hm, Bool.not_eq_true _ ▸ hbad⟩⟩)

theorem Intact.getD {i j : Nat} (h : sheet.Intact params k i) (hj : j < sheet.capacity params) :
    (sheet.voice params (sheet.evaluable i)).getD (k * sheet.capacity params + j) 0 =
      (sheet.voice params (sheet.tokensOf i)).getD (k * sheet.capacity params + j) 0 := by
  have hlt : k * sheet.capacity params + j < (k + 1) * sheet.capacity params := by
    rw [Nat.add_one_mul]
    omega
  have hg := congrArg (·[k * sheet.capacity params + j]?) h
  simp only [List.getElem?_take_of_lt hlt] at hg
  rw [List.getD_eq_getElem?_getD, List.getD_eq_getElem?_getD, hg]

theorem Intact.longer {i : Nat} (h : sheet.Intact params k i) :
    k * sheet.capacity params < (sheet.voice params (sheet.evaluable i)).length ↔
      k * sheet.capacity params < (sheet.voice params (sheet.tokensOf i)).length := by
  have hl := congrArg List.length h
  have := sheet.capacity_pos params
  rw [List.length_take, List.length_take, Nat.add_one_mul] at hl
  omega

theorem bar_cut (h : ∀ i < sheet.tracks.length, sheet.Intact params k i) :
    sheet.cut.bar params k = sheet.bar params k := by
  rw [bar, bar, voices_cut, voices_eq_map_tokensOf]
  apply overlay_congr
  intro i hi j hj
  exact (h i (List.mem_range.mp hi)).getD hj

theorem hasRemainder_cut (hw : sheet.cut.wholeBars params = sheet.wholeBars params)
    (h : ∀ i < sheet.tracks.length, sheet.Intact params (sheet.wholeBars params) i) :
    sheet.cut.hasRemainder params = sheet.hasRemainder params := by
  rw [hasRemainder, hasRemainder, hw, voices_cut, voices_eq_map_tokensOf, Bool.eq_iff_iff]
  simp only [List.any_map, List.any_eq_true, List.mem_range, Function.comp_apply,
    decide_eq_true_eq]
  exact exists_congr fun i => and_congr_right fun hi => (h i hi).longer

/-- A run that ends with the last track meets no failure. -/
theorem bars_cut {last : Nat} (hfirst : sheet.StopsFirst params last)
    (hlast : last + 1 = sheet.tracks.length)
    (hall : ∀ token ∈ sheet.tokensOf last, Note.evaluates token = true) :
    sheet.cut.bars params = sheet.bars params := by
  have hq : last = sheet.tracks.length - 1 := by omega
  have hvoice : sheet.lastVoice params = sheet.voice params (sheet.evaluable last) := by
    rw [lastVoice, getD_voices, ← hq, evaluable_of_all hall]
  have hw : sheet.cut.wholeBars params = sheet.wholeBars params := by
    have hc : sheet.cut.lastVoice params = sheet.lastVoice params := by
      rw [hvoice, lastVoice, getD_voices, tokensOf_cut, cut, List.length_map, ← hq]
      rfl
    rw [wholeBars, hc]
    rfl
  have hstop : sheet.stopBar params last = sheet.wholeBars params := by
    rw [stopBar, wholeBars, hvoice]
  have intact : ∀ k ≤ sheet.wholeBars params, ∀ i < sheet.tracks.length,
      sheet.Intact params k i := by
    intro k hk i hi
    by_cases hil : i = last
    · rw [Intact, hil, evaluable_of_all hall]
    · refine intact_of_stops hi fun hs => ?_
      have := hfirst.2 i hs
      omega
  have hbar : ∀ k ≤ sheet.wholeBars params, sheet.cut.bar params k = sheet.bar params k :=
    fun k hk => bar_cut (intact k hk)
  rw [bars, bars, remainder, remainder, hw, hbar _ (Nat.le_refl _),
    hasRemainder_cut hw (intact _ (Nat.le_refl _))]
  congr 1
  apply List.map_congr_left
  intro k hk
  exact hbar k (Nat.le_of_lt (List.mem_range.mp hk))

/-! ### Endings, bar by bar -/

private theorem drop_map_range_append {α : Type} {f : Nat → α} {n : Nat} (h : k < n)
    (rest : List α) : ((List.range n).map f ++ rest).drop k =
      f k :: ((List.range n).map f ++ rest).drop (k + 1) := by
  have hk : k < ((List.range n).map f ++ rest).length := by
    rw [List.length_append, List.length_map, List.length_range]
    omega
  rw [List.drop_eq_getElem_cons hk]
  congr 1
  rw [List.getElem_append_left (by simpa using h)]
  simp

theorem Ends.drop_bars {own : Performance} (h : sheet.Ends params own)
    (hk : k < own.bars.length) (hw : k < sheet.wholeBars params)
    (hi : ∀ i < sheet.tracks.length, sheet.Intact params k i) :
    own.bars.drop k = sheet.bar params k :: own.bars.drop (k + 1) := by
  rw [← bar_cut hi]
  cases h with
  | played hfirst hlast hall =>
    rw [bars_cut hfirst hlast hall, bar_cut hi]
    exact drop_map_range_append hw _
  | _ =>
    have h := drop_map_range_append (f := sheet.cut.bar params) (by simpa using hk) []
    simpa only [List.append_nil] using h

end Sheet

namespace Synth

variable {sheet : Sheet} {params : Audio.Params} {k : Nat} {s u : Synth}

structure Behind (sheet : Sheet) (params : Audio.Params) (k : Nat) (s : Synth) (i : Nat)
    (taken : List String) : Prop where
  tokens : sheet.tokensOf i = taken ++ s.left.getD i []
  evaluated : ∀ token ∈ taken, Note.evaluates token = true
  heard : sheet.Stops i → (sheet.voice params taken).length =
    k * sheet.capacity params + (s.mixer.pending i).length

structure Underway (sheet : Sheet) (params : Audio.Params) (k : Nat) (s : Synth) : Prop extends
    Aligned sheet params k s where
  behind : ∀ i, ∃ taken, Behind sheet params k s i taken

/-- What is behind the tracks is read off their tokens and the mixer alone. -/
theorem Underway.of_aligned (h : Underway sheet params k s) (ha : Aligned sheet params k u)
    (hl : u.left = s.left) (hm : u.mixer = s.mixer) : Underway sheet params k u := by
  refine ⟨ha, ?_⟩
  intro i
  obtain ⟨taken, hb⟩ := h.behind i
  exact ⟨taken, hl ▸ hb.tokens, hb.evaluated, hm ▸ hb.heard⟩

theorem Underway.with_phase (h : Underway sheet params k s) (p : Phase) :
    Underway sheet params k { s with phase := p } :=
  h.of_aligned (h.toAligned.with_phase p) rfl rfl

theorem Underway.write (h : Underway sheet params k s) (l : Line) :
    Underway sheet params k (s.write l) :=
  h.of_aligned (h.toAligned.write l) rfl rfl

theorem Underway.exhaust (h : Underway sheet params k s) {track : Nat}
    (hl : s.left.getD track [] = []) (ht : track ≠ s.lastTrack) :
    Underway sheet params k (s.exhaust track) :=
  h.of_aligned (h.toAligned.exhaust hl ht) rfl rfl

theorem NoteTaken.evaluates {track : Nat} {token : String} {rest : List String}
    (h : NoteTaken s track token rest u) : Note.evaluates token = true := by
  obtain ⟨note, hn, -⟩ := h.totals
  rw [Note.evaluates, hn]
  rfl

theorem Underway.noteTaken (h : Underway sheet params k s) {track : Nat} {token : String}
    {rest : List String} (hu : NoteTaken s track token rest u)
    (hl : s.left.getD track [] = token :: rest) : Underway sheet params k u := by
  refine ⟨h.toAligned.noteTaken hu hl, ?_⟩
  intro i
  obtain ⟨taken, hb⟩ := h.behind i
  by_cases hi : i = track
  · subst hi
    refine ⟨taken ++ [token], ?_, ?_, ?_⟩
    · rw [hb.tokens, hl, hu.left_self hl, List.append_assoc]
      rfl
    · intro t ht
      rcases List.mem_append.mp ht with ht | ht
      · exact hb.evaluated t ht
      · rw [List.mem_singleton.mp ht]
        exact hu.evaluates
    · intro hs
      rw [hu.pending, if_pos rfl, Sheet.voice_append, Sheet.voice_cons, Sheet.voice_nil,
        List.append_nil, List.length_append, List.length_append, hb.heard hs, h.sheet_eq,
        h.params_eq, Nat.add_assoc]
  · refine ⟨taken, ?_, hb.evaluated, ?_⟩
    · rw [hb.tokens, hu.left_of_ne hi]
    · intro hs
      rw [hb.heard hs, hu.pending, if_neg hi]

/-! ### Where the run has not ended yet -/

/-- A track at which the run may end is never out of notes and silent. -/
theorem Underway.full (h : Underway sheet params k s) {i : Nat} (hs : sheet.Stops i)
    (hw : s.wants i = false) : sheet.capacity params ≤ (s.mixer.pending i).length := by
  have hi : i < s.left.length := by rw [h.left_length]; exact hs.1
  rcases h.sound.not_wants hi hw with he | hf
  · -- Out of notes it would be neither the last nor have a failure ahead.
    exfalso
    obtain ⟨hl, hne⟩ := h.sound.exhausted_left i he
    rcases hs.2 with hlast | ⟨token, hm, hbad⟩
    · rw [lastTrack, h.left_length, ← hlast] at hne
      exact hne rfl
    · obtain ⟨taken, hb⟩ := h.behind i
      rw [hb.tokens, hl, List.append_nil] at hm
      rw [hb.evaluated token hm] at hbad
      cases hbad
  · rw [← h.capacity]
    exact hf

theorem Underway.barTaken (h : Underway sheet params k s) (hu : BarTaken s u)
    (hall : ∀ i < s.left.length, s.wants i = false)
    (hlast : (k + 1) * sheet.capacity params ≤ (sheet.lastVoice params).length) :
    Underway sheet params (k + 1) u := by
  refine ⟨h.toAligned.barTaken hu (fun i hi => h.sound.covers hi (hall i hi)) hlast, ?_⟩
  intro i
  obtain ⟨taken, hb⟩ := h.behind i
  refine ⟨taken, hu.left ▸ hb.tokens, hb.evaluated, ?_⟩
  intro hs
  have hf := h.full hs (hall i (by rw [h.left_length]; exact hs.1))
  rw [hb.heard hs, hu.pending, List.length_drop, h.capacity, Nat.add_one_mul]
  omega

theorem Underway.reaches (h : Underway sheet params k s) {i : Nat} (hs : sheet.Stops i) :
    k * sheet.capacity params + (s.mixer.pending i).length ≤
      (sheet.voice params (sheet.evaluable i)).length := by
  obtain ⟨taken, hb⟩ := h.behind i
  rw [Sheet.evaluable, hb.tokens, List.takeWhile_append_of_pos hb.evaluated, Sheet.voice_append,
    List.length_append, hb.heard hs]
  exact Nat.le_add_right _ _

theorem Underway.le_stopBar (h : Underway sheet params k s) {i : Nat} (hs : sheet.Stops i) :
    k ≤ sheet.stopBar params i := by
  rw [Sheet.stopBar, Nat.le_div_iff_mul_le (sheet.capacity_pos params)]
  exact Nat.le_trans (Nat.le_add_right _ _) (h.reaches hs)

theorem Underway.lt_stopBar (h : Underway sheet params k s) {i : Nat} (hs : sheet.Stops i)
    (hw : s.wants i = false) : k < sheet.stopBar params i := by
  have hf := h.full hs hw
  have hr := h.reaches hs
  rw [Sheet.stopBar, Nat.lt_iff_add_one_le, Nat.le_div_iff_mul_le (sheet.capacity_pos params),
    Nat.add_one_mul]
  omega

/-- A track that wants a note and has none that can be evaluated stops in this bar. -/
theorem Underway.stopBar_here (h : Underway sheet params k s) {i : Nat} (hs : sheet.Stops i)
    (hl : (s.left.getD i []).takeWhile Note.evaluates = [])
    (hopen : (s.mixer.pending i).length < s.mixer.capacity) : sheet.stopBar params i = k := by
  obtain ⟨taken, hb⟩ := h.behind i
  rw [Sheet.stopBar, Sheet.evaluable, hb.tokens, List.takeWhile_append_of_pos hb.evaluated, hl,
    List.append_nil, hb.heard hs]
  rw [h.capacity] at hopen
  refine Nat.div_eq_of_lt_le (Nat.le_add_right _ _) ?_
  rw [Nat.add_one_mul]
  omega

theorem Underway.stopsFirst (h : Underway sheet params k s) {i : Nat} (hs : sheet.Stops i)
    (hk : sheet.stopBar params i = k) (hbefore : ∀ j < i, s.wants j = false) :
    sheet.StopsFirst params i := by
  refine ⟨hs, ?_⟩
  intro j hj
  rw [hk]
  by_cases hji : j < i
  · exact .inl (h.lt_stopBar hj (hbefore j hji))
  · rcases Nat.lt_or_eq_of_le (h.le_stopBar hj) with hlt | heq
    · exact .inl hlt
    · exact .inr ⟨heq, Nat.not_lt.mp hji⟩

/-! ### The simulation -/

def Completes (sheet : Sheet) (params : Audio.Params) (k : Nat) (s : Synth) : Prop :=
  ∃ own, sheet.Ends params own ∧ k ≤ own.bars.length ∧
    s.Performs ((own.bars.drop k).map .samples ++ [.endOfStream]) own.result

theorem completes_finish {own : Performance} (h : sheet.Ends params own)
    (hk : own.bars.length = k) (s : Synth) : Completes sheet params k (s.finish own.result) := by
  refine ⟨own, h, Nat.le_of_eq hk.symm, ?_⟩
  rw [List.drop_of_length_le (Nat.le_of_eq hk)]
  exact performs_finish s own.result

theorem completes_of_polling {track : Nat} (hp : s.phase = .polling track)
    (h : Completes sheet params k (s.pull track)) : Completes sheet params k s := by
  obtain ⟨own, ho, hk, hs⟩ := h
  exact ⟨own, ho, hk, performs_of_polling hp hs⟩

theorem Underway.ended (h : Underway sheet params k s) (hn : sheet.tracks ≠ [])
    (hl : s.left.getD s.lastTrack [] = []) (hw : s.wants s.lastTrack = true)
    (hbefore : ∀ i < s.lastTrack, s.wants i = false) (l : Line) :
    Completes sheet params k (s.write l).serveRemainder := by
  have hlt := lastTrack_lt (h.left_ne_nil hn)
  have hopen := ((h.sound.wants_iff hlt).mp hw).2
  have hsucc : s.lastTrack + 1 = sheet.tracks.length := by
    rw [← h.left_length, lastTrack]
    exact Nat.sub_add_cancel (Nat.lt_of_le_of_lt (Nat.zero_le _) hlt)
  have hs : sheet.Stops s.lastTrack := ⟨by omega, .inl hsucc⟩
  have hk := h.stopBar_here hs (by rw [hl]; rfl) hopen
  obtain ⟨report, hr⟩ := (h.toAligned.write l).serveRemainder hn hl hopen fun i hi =>
    h.sound.covers (Nat.lt_trans hi hlt) (hbefore i hi)
  have hwhole : k ≤ (sheet.bars params).length := by
    rw [h.at_end hl hopen, Sheet.bars, List.length_append, List.length_map, List.length_range]
    exact Nat.le_add_right _ _
  have hfirst := h.stopsFirst hs hk hbefore
  have hall : ∀ token ∈ sheet.tokensOf s.lastTrack, Note.evaluates token = true := by
    obtain ⟨taken, hb⟩ := h.behind s.lastTrack
    rw [hb.tokens, hl, List.append_nil]
    exact hb.evaluated
  rw [← Sheet.bars_cut hfirst hsucc hall] at hr hwhole
  exact ⟨_, .played hfirst hsucc hall, hwhole, hr⟩

theorem Underway.refused (h : Underway sheet params k s) {track : Nat} {token : String}
    {rest : List String} {e : Error} (ht : track < s.left.length)
    (hl : s.left.getD track [] = token :: rest) (he : Note.ofToken token = .error e)
    (hw : s.wants track = true) (hbefore : ∀ i < track, s.wants i = false) (u : Synth) :
    Completes sheet params k (u.fail e) := by
  have hbad : Note.evaluates token = false := by rw [Note.evaluates, he]; rfl
  have hnone : (s.left.getD track []).takeWhile Note.evaluates = [] := by
    rw [hl, List.takeWhile_cons_of_neg (by rw [hbad]; exact Bool.false_ne_true)]
  obtain ⟨taken, hb⟩ := h.behind track
  have hm : token ∈ sheet.tokensOf track := by rw [hb.tokens, hl]; simp
  have hs : sheet.Stops track := ⟨by rw [← h.left_length]; exact ht, .inr ⟨token, hm, hbad⟩⟩
  have hk := h.stopBar_here hs hnone ((h.sound.wants_iff ht).mp hw).2
  have hsplit : sheet.tokensOf track = sheet.evaluable track ++ token :: rest := by
    rw [Sheet.evaluable, hb.tokens, List.takeWhile_append_of_pos hb.evaluated, hnone,
      List.append_nil, hl]
  exact completes_finish (.failed (h.stopsFirst hs hk hbefore) hsplit he) (by simp [hk]) u

theorem Underway.lost (h : Underway sheet params k s) {track : Nat} {token : String}
    {rest : List String} {note : Note} (hl : s.left.getD track [] = token :: rest)
    (hn : Note.ofToken token = .ok note)
    (hlong : sampleLimit < s.params.sampleCount (s.noteDuration note)) (u : Synth) :
    Completes sheet params k (u.finish (.error .outOfRoom)) := by
  obtain ⟨taken, hb⟩ := h.behind track
  have hm : token ∈ sheet.tokensOf track := by rw [hb.tokens, hl]; simp
  rw [noteDuration, h.sheet_eq, h.params_eq] at hlong
  have hends : sheet.Ends params
      ⟨(List.range k).map (sheet.cut.bar params), .error .outOfRoom⟩ := .lost hm hn hlong
  exact completes_finish hends (by simp) u

/-- Wherever the synthesizer is in a bar, it goes on to end as runs of the sheet do. -/
theorem Underway.advance (h : Underway sheet params k s) (hn : sheet.tracks ≠ []) {start : Nat}
    (hw : ∀ i < start, s.wants i = false) : Completes sheet params k (s.advance start) := by
  -- Every note that is taken and every bar that is closed lowers the workload.
  induction hm : s.workload using Nat.strongRecOn generalizing s k start with
  | ind n ih =>
    subst hm
    have hne := h.left_ne_nil hn
    rcases advance_spec hw with ⟨track, ht, hwt, hbefore, ha⟩ | ⟨hall, ha⟩
    · have h' := h.with_phase (.polling track)
      have hp := pull_spec h'.sound ht hwt
      rw [ha]
      refine completes_of_polling (Eq.refl (Phase.polling track)) ?_
      generalize Synth.pull _ track = v at hp ⊢
      cases hp with
      | ended hl hlast =>
        obtain rfl : track = s.lastTrack := hlast
        exact h'.ended hn hl hwt hbefore _
      | exhausted hl hlast =>
        have hlt := exhaust_workload ((h'.sound.wants_iff ht).mp hwt).1
        exact ih _ hlt (h'.exhaust hl hlast) (before_exhausted hbefore) rfl
      | refused hl he => exact h'.refused ht hl he hwt hbefore _
      | lost hl hnote hlong => exact h'.lost hl hnote hlong _
      | full hl hu hf =>
        exact ih _ (hu.workload hl) (h'.noteTaken hu hl)
          (hu.before_full h'.sound hl hbefore hwt hf) rfl
      | @wanting token rest u hl hu hf =>
        have hwants : u.wants track = true := (hu.wants_self hwt).trans (by rw [hf]; rfl)
        have hlt : track < u.left.length := hu.left_length ▸ ht
        rw [← advance_of_wants hlt hwants]
        exact ih _ (hu.workload hl) (h'.noteTaken hu hl) (hu.before h'.sound hl hbefore) rfl
    · have hc : ∀ i < s.left.length, s.Covers i := fun i hi => h.sound.covers hi (hall i hi)
      have hfull := h.sound.last_full hne (hall _ (lastTrack_lt hne))
      have hlong : (k + 1) * sheet.capacity params ≤ (sheet.lastVoice params).length := by
        have hr := congrArg List.length h.lastVoice
        rw [List.length_append, List.length_drop] at hr
        have := sheet.capacity_pos params
        rw [h.capacity] at hfull
        rw [Nat.add_one_mul]
        omega
      have hk : k < sheet.wholeBars params := by
        rw [Sheet.wholeBars]
        exact (Nat.le_div_iff_mul_le (sheet.capacity_pos params)).mpr hlong
      have hintact : ∀ i < sheet.tracks.length, sheet.Intact params k i := by
        intro i hi
        exact Sheet.intact_of_stops hi fun hs =>
          h.lt_stopBar hs (hall i (by rw [h.left_length]; exact hi))
      obtain ⟨v, hv, hclose⟩ := closeBar_spec h.sound hne hall
      obtain ⟨own, ho, hlen, hr⟩ := ih _ (hv.workload h.sound hfull)
        ((h.barTaken hv hall hlong).with_phase (.serving (sheet.bar params k) false))
        (fun i hi => absurd hi (Nat.not_lt_zero i)) rfl
      refine ⟨own, ho, Nat.le_of_succ_le hlen, ?_⟩
      rw [ha, hclose, h.overlay_rows hc, ho.drop_bars hlen hk hintact]
      exact performs_of_serving rfl hr

theorem fresh_left (sheet : Sheet) (params : Audio.Params) (i : Nat) :
    (fresh sheet params).left.getD i [] = sheet.tokensOf i := by
  rw [fresh, List.getD_eq_getElem?_getD, List.getElem?_map]
  rfl

theorem fresh_underway (hroom : sheet.capacity params ≤ sampleLimit) :
    Underway sheet params 0 (fresh sheet params) := by
  have h := fresh_aligned hroom
  refine ⟨h, ?_⟩
  intro i
  refine ⟨[], ?_, by simp, ?_⟩
  · rw [fresh_left, List.nil_append]
  · intro _
    rw [fresh_pending, Nat.zero_mul]
    rfl

theorem fresh_completes (hroom : sheet.capacity params ≤ sampleLimit) (hn : sheet.tracks ≠ []) :
    Completes sheet params 0 (fresh sheet params) := by
  have h := fresh_underway hroom
  have hne : (fresh sheet params).left ≠ [] := h.left_ne_nil hn
  have hstart : (fresh sheet params).start = Synth.advance
      (write { fresh sheet params with status := { started := true } } (startRemark sheet)) 0 := by
    rw [start]
    dsimp only
    rw [if_neg (by exact hne)]
    rfl
  have h' := h.of_aligned h.toAligned.started rfl rfl
  obtain ⟨own, ho, hk, hr⟩ := (h'.write (startRemark sheet)).advance hn
    fun i hi => absurd hi (Nat.not_lt_zero i)
  have hs : (fresh sheet params).step false {} = ((fresh sheet params).start, {}) := rfl
  rw [hstart] at hs
  have hstep := Performs.step rfl hs hr
  exact ⟨own, ho, hk, hstep⟩

end Synth

/-- Every sheet with tracks has one of the endings: it performs the overlay of its voices up to
the bar in which the first of its tracks stops. -/
theorem Sheet.performs_to_first_stop {sheet : Sheet} {params : Audio.Params}
    (hroom : sheet.capacity params ≤ sampleLimit) (hn : sheet.tracks ≠ []) :
    ∃ own, sheet.Performs params own ∧ sheet.Ends params own := by
  obtain ⟨own, ho, -, hr⟩ := Synth.fresh_completes hroom hn
  refine ⟨own, ⟨_, ?_, hr⟩, ho⟩
  rw [Synth.new_eq, if_neg fun h => absurd h.2 (Nat.not_lt.mpr hroom)]

theorem Sheet.tokensOf_mem {sheet : Sheet} {track : Nat} {token : String}
    (h : token ∈ sheet.tokensOf track) : ∃ t ∈ sheet.tracks, token ∈ t.tokens := by
  rw [Sheet.tokensOf] at h
  cases ht : sheet.tracks[track]? with
  | none => simp [ht] at h
  | some t =>
    rw [ht] at h
    exact ⟨t, List.mem_of_getElem? ht, h⟩

/-- A sheet that can be played performs the overlay of its voices: whole bars as long as the
last track covers them, and then what the tracks still hold. -/
theorem Sheet.performs_overlay {sheet : Sheet} {params : Audio.Params}
    (hroom : sheet.capacity params ≤ sampleLimit) (hn : sheet.tracks ≠ [])
    (hplay : ∀ t ∈ sheet.tracks, ∀ token ∈ t.tokens, sheet.Playable params token) :
    ∃ report, sheet.Performs params ⟨sheet.bars params, .ok report⟩ := by
  have playable : ∀ {track token}, token ∈ sheet.tokensOf track → sheet.Playable params token := by
    intro track token hm
    obtain ⟨t, ht, htoken⟩ := Sheet.tokensOf_mem hm
    exact hplay t ht token htoken
  obtain ⟨own, hown, hends⟩ := Sheet.performs_to_first_stop hroom hn
  cases hends with
  | @failed track token rest _ _ hsplit he =>
    have hm : token ∈ sheet.tokensOf track := by rw [hsplit]; simp
    obtain ⟨note, hnote, -⟩ := playable hm
    cases he.symm.trans hnote
  | played hfirst hlast hall =>
    rw [Sheet.bars_cut hfirst hlast hall] at hown
    exact ⟨_, hown⟩
  | lost hm hn hlong =>
    obtain ⟨note, hnote, hshort⟩ := playable hm
    cases hn.symm.trans hnote
    exact absurd hlong (Nat.not_lt.mpr hshort)

end PlainScore
