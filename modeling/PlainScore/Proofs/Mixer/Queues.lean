import Mathlib.Algebra.Ring.Nat
import PlainScore.Proofs.Mixer.Lane
import PlainScore.Proofs.Mixer.Overlay

/-! The bar buffer as one unbounded queue of samples for each track.
`Queues` has no cells, no cursor and no carry-over. Whatever is asked of a mixer, in any order
and of any track, it answers as its queues do, and `Mixer.queues` stays the view of it. -/
namespace PlainScore

namespace Mixer

inductive Request where
  | append (track : Nat) (data : List Sample)
  | fillSilence (track : Nat)
  | flush
  | forceFlush

inductive Reply where
  | appended (full : Bool)
  | silenced
  | bar (samples : List Sample)

def settle {σ : Type} (s : σ) : Except Failure (Reply × σ) → Except Failure Reply × σ
  | .ok (reply, t) => (.ok reply, t)
  | .error f => (.error f, s)

def serve (m : Mixer) : Request → Except Failure (Reply × Mixer)
  | .append track data => ((m.append track data).map (Prod.map .appended id)).mapError .reported
  | .fillSilence track => ((m.fillSilence track).map (.silenced, ·)).mapError .reported
  | .flush => m.flush.map (Prod.map .bar id)
  | .forceFlush => m.forceFlush.map (Prod.map .bar id)

def request (m : Mixer) (r : Request) : Except Failure Reply × Mixer := settle m (m.serve r)

def requestAll (m : Mixer) : List Request → List (Except Failure Reply) × Mixer
  | [] => ([], m)
  | r :: rs =>
    let (reply, m) := m.request r
    let (replies, m) := m.requestAll rs
    (reply :: replies, m)

end Mixer

/-- The samples that each track has not played yet, and the length of a bar. -/
structure Queues where
  capacity : Nat
  rows : List (List Sample)

namespace Queues

def empty (tracks capacity : Nat) : Queues := ⟨max capacity 1, List.replicate tracks []⟩

def row (q : Queues) (track : Nat) : Except Failure (List Sample) :=
  match q.rows[track]? with
  | some row => .ok row
  | none => .error (.reported (.buffer (.noSuchTrack track q.rows.length)))

def setRow (q : Queues) (track : Nat) (row : List Sample) : Queues :=
  { q with rows := q.rows.set track row }

def isShort (q : Queues) (row : List Sample) : Bool := row.length < q.capacity

/-- Takes a bar from every queue. Where there are no queues to bound it, a bar may be longer
than a vector can be. -/
def takeBar (q : Queues) (finish : List Sample → List Sample) :
    Except Failure (Mixer.Reply × Queues) :=
  if q.rows = [] ∧ sampleLimit < q.capacity then .error .outOfRoom
  else .ok (.bar (finish (overlay q.rows 0 q.capacity)),
    { q with rows := q.rows.map (·.drop q.capacity) })

def serve (q : Queues) : Mixer.Request → Except Failure (Mixer.Reply × Queues)
  | .append track data => do
    let row ← q.row track
    if !q.isShort row then throw (.reported (.buffer (.alreadyFull track)))
    return (.appended (!q.isShort (row ++ data)), q.setRow track (row ++ data))
  | .fillSilence track => do
    let row ← q.row track
    return (.silenced, q.setRow track (row.rightpad q.capacity 0))
  | .flush =>
    match q.rows.findIdx? q.isShort with
    | some track => .error (.reported (.buffer (.notFull track)))
    | none => q.takeBar id
  | .forceFlush => q.takeBar (if q.rows.any q.isShort then List.rdropWhile (· == 0) else id)

def request (q : Queues) (r : Mixer.Request) : Except Failure Mixer.Reply × Queues :=
  Mixer.settle q (q.serve r)

def requestAll (q : Queues) : List Mixer.Request → List (Except Failure Mixer.Reply) × Queues
  | [] => ([], q)
  | r :: rs =>
    let (reply, q) := q.request r
    let (replies, q) := q.requestAll rs
    (reply :: replies, q)

/-- A forced flush keeps the whole bar, but no silence at its end when a queue is too short. -/
def Forces (q : Queues) (bar : List Sample) : Prop :=
  if q.rows.any q.isShort then Mixer.Trimmed (overlay q.rows 0 q.capacity) bar
  else bar = overlay q.rows 0 q.capacity

theorem forces_of_serve {q r : Queues} {bar : List Sample}
    (h : q.serve .forceFlush = .ok (.bar bar, r)) : q.Forces bar := by
  rw [serve, takeBar] at h
  split at h
  · cases h
  · cases h
    rw [Forces]
    by_cases hs : q.rows.any q.isShort = true
    · rw [if_pos hs, if_pos hs]
      exact Mixer.trimmed_trim _
    · rw [if_neg hs, if_neg hs, id]

end Queues

namespace Mixer

def queues (m : Mixer) : Queues := ⟨m.capacity, m.lanes.map Lane.pending⟩

structure Sound (m : Mixer) : Prop where
  capacity_pos : 0 < m.capacity
  room : m.lanes = [] ∨ m.capacity ≤ sampleLimit
  lanes_sound : ∀ l ∈ m.lanes, l.Sound m.capacity

variable {m : Mixer}

theorem withCapacity_fails {tracks capacity : Nat}
    (h : 0 < tracks ∧ sampleLimit < max capacity 1) :
    withCapacity tracks capacity = .error .outOfRoom := by
  rw [withCapacity, if_pos h]

theorem withCapacity_succeeds {tracks capacity : Nat}
    (h : ¬ (0 < tracks ∧ sampleLimit < max capacity 1)) :
    withCapacity tracks capacity = .ok ⟨max capacity 1, List.replicate tracks .empty⟩ := by
  rw [withCapacity, if_neg h]

theorem fresh_sound {tracks capacity : Nat}
    (h : ¬ (0 < tracks ∧ sampleLimit < max capacity 1)) :
    Sound ⟨max capacity 1, List.replicate tracks .empty⟩ := by
  constructor
  · exact Nat.lt_of_lt_of_le Nat.zero_lt_one (Nat.le_max_right _ _)
  · by_cases ht : tracks = 0
    · left
      rw [ht]
      rfl
    · right
      by_contra hn
      exact h ⟨Nat.pos_of_ne_zero ht, Nat.not_le.mp hn⟩
  · intro l hl
    rw [List.eq_of_mem_replicate hl]
    exact Lane.empty_sound

theorem queues_fresh (tracks capacity : Nat) :
    queues ⟨max capacity 1, List.replicate tracks .empty⟩ = Queues.empty tracks capacity := by
  simp [queues, Queues.empty]

theorem Sound.setLane (h : m.Sound) {track : Nat} {l : Lane} (hl : l.Sound m.capacity) :
    Sound { m with lanes := m.lanes.set track l } := by
  refine ⟨h.capacity_pos, ?_, ?_⟩
  · rcases h.room with hn | hc
    · left
      simp [hn]
    · exact Or.inr hc
  · intro k hk
    rcases List.mem_or_eq_of_mem_set hk with hk | rfl
    · exact h.lanes_sound k hk
    · exact hl

theorem queues_setLane (m : Mixer) (track : Nat) (l : Lane) :
    queues { m with lanes := m.lanes.set track l } = m.queues.setRow track l.pending := by
  simp [queues, Queues.setRow, List.map_set]

theorem Sound.map (h : m.Sound) {f : Lane → Lane}
    (hf : ∀ l, l.Sound m.capacity → (f l).Sound m.capacity) :
    Sound { m with lanes := m.lanes.map f } := by
  refine ⟨h.capacity_pos, ?_, ?_⟩
  · rcases h.room with hn | hc
    · left
      simp [hn]
    · exact Or.inr hc
  · intro k hk
    obtain ⟨l, hl, rfl⟩ := List.mem_map.mp hk
    exact hf l (h.lanes_sound l hl)

theorem queues_map (h : m.Sound) {f : Lane → Lane} {g : List Sample → List Sample}
    (hf : ∀ l, l.Sound m.capacity → (f l).pending = g l.pending) :
    queues { m with lanes := m.lanes.map f } =
      { m.queues with rows := m.queues.rows.map g } := by
  simp only [queues, List.map_map, Queues.mk.injEq, true_and]
  exact List.map_congr_left fun l hl => hf l (h.lanes_sound l hl)

theorem Sound.reset (h : m.Sound) : m.reset.Sound :=
  h.map fun _ hl => Lane.reset_sound hl

theorem queues_reset (h : m.Sound) :
    m.reset.queues = { m.queues with rows := m.queues.rows.map (·.drop m.capacity) } :=
  queues_map h fun _ hl => Lane.pending_reset hl

/-! ### Bars -/

theorem isShort_pending {l : Lane} (h : l.Sound m.capacity) :
    m.queues.isShort l.pending = !l.isFull m.capacity := by
  rw [Bool.eq_iff_iff, Bool.not_eq_true', h.not_full_iff]
  exact decide_eq_true_iff

/-- When all tracks are full, their cells hold the next bar and nothing older. -/
theorem mix_of_full (h : m.Sound) (hf : m.isFull = true) :
    mix m.capacity m.lanes = overlay m.queues.rows 0 m.capacity := by
  rw [mix_eq_overlay]
  apply overlay_congr
  intro l hl j hj
  rw [isFull, List.all_eq_true] at hf
  rw [(h.lanes_sound l hl).cells_of_full (hf l hl), List.getD_eq_getElem?_getD,
    List.getElem?_take_of_lt (by omega), List.getD_eq_getElem?_getD]

/-- A forced bar hears what is pending, and silence where an earlier bar left something. -/
theorem trim_mix_hush (h : m.Sound) :
    let hushed : Mixer := { m with lanes := m.lanes.map Lane.hush }
    trim (mix hushed.reach hushed.lanes) = trim (overlay m.queues.rows 0 m.capacity) := by
  intro hushed
  have hh : hushed.Sound := h.map fun _ hl => Lane.hush_sound hl
  rw [trim_mix_reach fun l hl => (hh.lanes_sound l hl).cells_le]
  congr 1
  simp only [hushed, queues, List.map_map]
  apply overlay_congr
  intro l hl j hj
  rw [Nat.zero_add]
  exact Lane.getD_hush (h.lanes_sound l hl) hj

theorem wholeBar_refines (h : m.Sound) (hf : m.isFull = true) :
    m.wholeBar.map (Prod.map Reply.bar queues) = m.queues.takeBar id := by
  have hr : m.queues.rows = [] ↔ m.lanes = [] := by simp [queues]
  unfold wholeBar Queues.takeBar
  by_cases hc : sampleLimit < m.capacity
  · have hn : m.lanes = [] := h.room.resolve_right (Nat.not_le.mpr hc)
    rw [if_pos hc, if_pos ⟨hr.mpr hn, hc⟩]
    rfl
  · have hn : ¬ (m.queues.rows = [] ∧ sampleLimit < m.queues.capacity) := fun hn => hc hn.2
    rw [if_neg hc, if_neg hn, mix_of_full h hf]
    simp only [Except.map, Prod.map, queues_reset h]
    rfl

theorem wholeBar_sound (h : m.Sound) {bar : List Sample} {n : Mixer}
    (hb : m.wholeBar = .ok (bar, n)) : n.Sound := by
  unfold wholeBar at hb
  split at hb
  · cases hb
  · cases hb
    exact h.reset

/-! ### Requests -/

theorem lane_of_getElem? {track : Nat} {l : Lane} (hl : m.lanes[track]? = some l) :
    m.lane track = .ok l := by
  rw [lane, hl]

theorem row_of_getElem? {track : Nat} {l : Lane} (hl : m.lanes[track]? = some l) :
    m.queues.row track = .ok l.pending := by
  simp [Queues.row, queues, hl]

theorem lane_of_missing {track : Nat} (hl : m.lanes[track]? = none) :
    m.lane track = .error (.buffer (.noSuchTrack track m.lanes.length)) := by
  rw [lane, hl]

theorem row_of_missing {track : Nat} (hl : m.lanes[track]? = none) :
    m.queues.row track = .error (.reported (.buffer (.noSuchTrack track m.lanes.length))) := by
  simp only [Queues.row, queues, List.getElem?_map, hl, Option.map_none, List.length_map]

theorem append_of_open {track : Nat} {l : Lane} (data : List Sample)
    (hl : m.lanes[track]? = some l) (hf : l.isFull m.capacity = false) :
    m.append track data = .ok ((l.push m.capacity data).isFull m.capacity,
      { m with lanes := m.lanes.set track (l.push m.capacity data) }) := by
  simp [append, lane_of_getElem? hl, hf, bind, Except.bind, pure, Except.pure]

theorem append_of_full {track : Nat} {l : Lane} (data : List Sample)
    (hl : m.lanes[track]? = some l) (hf : l.isFull m.capacity = true) :
    m.append track data = .error (.buffer (.alreadyFull track)) := by
  simp [append, lane_of_getElem? hl, hf, bind, Except.bind, throw, throwThe,
    MonadExceptOf.throw]

theorem append_of_missing {track : Nat} (data : List Sample) (hl : m.lanes[track]? = none) :
    m.append track data = .error (.buffer (.noSuchTrack track m.lanes.length)) := by
  simp [append, lane_of_missing hl, bind, Except.bind]

theorem fillSilence_of_getElem? {track : Nat} {l : Lane} (hl : m.lanes[track]? = some l) :
    m.fillSilence track =
      .ok { m with lanes := m.lanes.set track (l.fillSilence m.capacity) } := by
  simp [fillSilence, lane_of_getElem? hl, bind, Except.bind, pure, Except.pure]

theorem fillSilence_of_missing {track : Nat} (hl : m.lanes[track]? = none) :
    m.fillSilence track = .error (.buffer (.noSuchTrack track m.lanes.length)) := by
  simp [fillSilence, lane_of_missing hl, bind, Except.bind]

def seen (answer : Except Failure (Reply × Mixer)) : Except Failure (Reply × Queues) :=
  answer.map (Prod.map id queues)

theorem append_refines (h : m.Sound) (track : Nat) (data : List Sample) :
    seen (m.serve (.append track data)) = m.queues.serve (.append track data) := by
  simp only [serve, Queues.serve]
  cases hl : m.lanes[track]? with
  | none =>
    rw [append_of_missing data hl, row_of_missing hl]
    rfl
  | some l =>
    have hs := h.lanes_sound l (List.mem_of_getElem? hl)
    rw [row_of_getElem? hl]
    simp only [bind, Except.bind, isShort_pending hs, Bool.not_not]
    cases hf : l.isFull m.capacity with
    | true =>
      rw [append_of_full data hl hf]
      rfl
    | false =>
      have hpush : (l.push m.capacity data).Sound m.capacity := Lane.push_sound hs hf
      have hp := isShort_pending hpush
      rw [Lane.pending_push hs hf] at hp
      rw [append_of_open data hl hf]
      simp only [seen, Except.map, Except.mapError, Prod.map, id_eq, queues_setLane,
        Lane.pending_push hs hf, hp, Bool.not_not]
      rfl

theorem fillSilence_refines (h : m.Sound) (track : Nat) :
    seen (m.serve (.fillSilence track)) = m.queues.serve (.fillSilence track) := by
  simp only [serve, Queues.serve]
  cases hl : m.lanes[track]? with
  | none =>
    rw [fillSilence_of_missing hl, row_of_missing hl]
    rfl
  | some l =>
    have hs := h.lanes_sound l (List.mem_of_getElem? hl)
    rw [fillSilence_of_getElem? hl, row_of_getElem? hl]
    simp only [seen, Except.map, Except.mapError, Prod.map, id_eq, queues_setLane,
      Lane.pending_fillSilence hs]
    rfl

private theorem findIdx?_short (h : m.Sound) :
    m.queues.rows.findIdx? m.queues.isShort =
      m.lanes.findIdx? (!Lane.isFull m.capacity ·) := by
  have general : ∀ lanes : List Lane, (∀ l ∈ lanes, l.Sound m.capacity) →
      (lanes.map Lane.pending).findIdx? m.queues.isShort =
        lanes.findIdx? (!Lane.isFull m.capacity ·) := by
    intro lanes
    induction lanes with
    | nil => intro _; rfl
    | cons l lanes ih =>
      intro hs
      rw [List.map_cons, List.findIdx?_cons, List.findIdx?_cons, isShort_pending (hs l (by simp)),
        ih fun k hk => hs k (by simp [hk])]
  exact general m.lanes h.lanes_sound

private theorem any_short (h : m.Sound) : m.queues.rows.any m.queues.isShort = !m.isFull := by
  rw [Bool.eq_iff_iff, Bool.not_eq_true', isFull, List.all_eq_false, List.any_eq_true]
  constructor
  · rintro ⟨row, hr, hs⟩
    obtain ⟨l, hl, rfl⟩ := List.mem_map.mp hr
    rw [isShort_pending (h.lanes_sound l hl)] at hs
    exact ⟨l, hl, by simpa using hs⟩
  · rintro ⟨l, hl, hf⟩
    refine ⟨l.pending, List.mem_map_of_mem hl, ?_⟩
    rw [isShort_pending (h.lanes_sound l hl)]
    simpa using hf

theorem flush_refines (h : m.Sound) : seen (m.serve .flush) = m.queues.serve .flush := by
  simp only [serve, Queues.serve, flush, findIdx?_short h]
  cases hr : m.lanes.findIdx? (!Lane.isFull m.capacity ·) with
  | some track => rfl
  | none =>
    have hf : m.isFull = true := by
      rw [isFull, List.all_eq_true]
      intro l hl
      simpa using List.findIdx?_eq_none_iff.mp hr l hl
    dsimp only
    rw [← wholeBar_refines h hf]
    cases m.wholeBar with
    | error f => rfl
    | ok r => rfl

theorem forceFlush_refines (h : m.Sound) :
    seen (m.serve .forceFlush) = m.queues.serve .forceFlush := by
  simp only [serve, Queues.serve, forceFlush]
  rw [any_short h]
  cases hf : m.isFull with
  | true =>
    simp only [if_true, Bool.not_true, Bool.false_eq_true, if_false]
    rw [← wholeBar_refines h hf]
    cases m.wholeBar with
    | error f => rfl
    | ok r => rfl
  | false =>
    have hh := h.map fun _ hl => Lane.hush_sound hl
    have hq := queues_map (g := id) h fun _ hl => Lane.pending_hush hl
    have hn : ¬ (m.queues.rows = [] ∧ sampleLimit < m.queues.capacity) := by
      rintro ⟨hn, -⟩
      have hl : m.lanes = [] := by simpa [queues] using hn
      simp [isFull, hl] at hf
    simp only [Bool.false_eq_true, if_false, Bool.not_false, if_true]
    rw [Queues.takeBar, if_neg hn]
    simp only [seen, Except.map, Prod.map, id_eq, trim_mix_hush h, queues_reset hh, hq]
    simp only [List.map_id]
    rfl

theorem forces_of_forceFlush (h : m.Sound) {bar : List Sample} {n : Mixer}
    (hf : m.forceFlush = .ok (bar, n)) : m.queues.Forces bar := by
  apply Queues.forces_of_serve (r := n.queues)
  rw [← forceFlush_refines h, serve, hf]
  rfl

theorem serve_refines (h : m.Sound) (r : Request) : seen (m.serve r) = m.queues.serve r := by
  cases r with
  | append track data => exact append_refines h track data
  | fillSilence track => exact fillSilence_refines h track
  | flush => exact flush_refines h
  | forceFlush => exact forceFlush_refines h

theorem append_sound (h : m.Sound) {track : Nat} {data : List Sample} {full : Bool} {n : Mixer}
    (ha : m.append track data = .ok (full, n)) : n.Sound := by
  cases hl : m.lanes[track]? with
  | none =>
    rw [append_of_missing data hl] at ha
    cases ha
  | some l =>
    cases hf : l.isFull m.capacity with
    | true =>
      rw [append_of_full data hl hf] at ha
      cases ha
    | false =>
      rw [append_of_open data hl hf] at ha
      cases ha
      exact h.setLane (Lane.push_sound (h.lanes_sound l (List.mem_of_getElem? hl)) hf)

theorem fillSilence_sound (h : m.Sound) {track : Nat} {n : Mixer}
    (hs : m.fillSilence track = .ok n) : n.Sound := by
  cases hl : m.lanes[track]? with
  | none =>
    rw [fillSilence_of_missing hl] at hs
    cases hs
  | some l =>
    rw [fillSilence_of_getElem? hl] at hs
    cases hs
    exact h.setLane (Lane.fillSilence_sound (h.lanes_sound l (List.mem_of_getElem? hl)))

theorem flush_sound (h : m.Sound) {bar : List Sample} {n : Mixer}
    (hf : m.flush = .ok (bar, n)) : n.Sound := by
  unfold flush at hf
  split at hf
  · cases hf
  · exact wholeBar_sound h hf

theorem forceFlush_sound (h : m.Sound) {bar : List Sample} {n : Mixer}
    (hf : m.forceFlush = .ok (bar, n)) : n.Sound := by
  unfold forceFlush at hf
  split at hf
  · exact wholeBar_sound h hf
  · cases hf
    exact (h.map fun _ hl => Lane.hush_sound hl).reset

theorem request_sound (h : m.Sound) (r : Request) : (m.request r).2.Sound := by
  cases r with
  | append track data =>
    cases ha : m.append track data with
    | error e => simpa [request, serve, ha, Except.map, Except.mapError, settle] using h
    | ok p =>
      simpa [request, serve, ha, Except.map, Except.mapError, settle] using append_sound h ha
  | fillSilence track =>
    cases hs : m.fillSilence track with
    | error e => simpa [request, serve, hs, Except.map, Except.mapError, settle] using h
    | ok n =>
      simpa [request, serve, hs, Except.map, Except.mapError, settle] using fillSilence_sound h hs
  | flush =>
    cases hf : m.flush with
    | error e => simpa [request, serve, hf, Except.map, settle] using h
    | ok p => simpa [request, serve, hf, Except.map, settle] using flush_sound h hf
  | forceFlush =>
    cases hf : m.forceFlush with
    | error e => simpa [request, serve, hf, Except.map, settle] using h
    | ok p => simpa [request, serve, hf, Except.map, settle] using forceFlush_sound h hf

theorem request_refines (h : m.Sound) (r : Request) :
    Prod.map id queues (m.request r) = m.queues.request r := by
  rw [Queues.request, ← serve_refines h r, request]
  cases m.serve r with
  | error f => rfl
  | ok p => rfl

theorem requestAll_sound (h : m.Sound) (rs : List Request) : (m.requestAll rs).2.Sound := by
  induction rs generalizing m with
  | nil => exact h
  | cons r rs ih => exact ih (request_sound h r)

theorem requestAll_refines (h : m.Sound) (rs : List Request) :
    Prod.map id queues (m.requestAll rs) = m.queues.requestAll rs := by
  induction rs generalizing m with
  | nil => rfl
  | cons r rs ih =>
    have hr := request_refines h r
    have hi := ih (request_sound h r)
    simp only [requestAll, Queues.requestAll, ← hr, Prod.map, id_eq, ← hi]

/-- A mixer is made unless the bars of its tracks have no room, and then it replies to all that
is asked of it, one request after the other, as one unbounded queue for each track does. -/
theorem mixer_refines_queues (tracks capacity : Nat) :
    if 0 < tracks ∧ sampleLimit < max capacity 1 then
      withCapacity tracks capacity = .error .outOfRoom
    else ∃ m, withCapacity tracks capacity = .ok m ∧ ∀ rs,
      (m.requestAll rs).1 = ((Queues.empty tracks capacity).requestAll rs).1 ∧
      (m.requestAll rs).2.queues = ((Queues.empty tracks capacity).requestAll rs).2 ∧
      ∀ bar n, (m.requestAll rs).2.forceFlush = .ok (bar, n) →
        (m.requestAll rs).2.queues.Forces bar := by
  by_cases hr : 0 < tracks ∧ sampleLimit < max capacity 1
  · rw [if_pos hr]
    exact withCapacity_fails hr
  · rw [if_neg hr]
    refine ⟨_, withCapacity_succeeds hr, ?_⟩
    intro rs
    have hfresh := fresh_sound hr
    have h := requestAll_refines hfresh rs
    rw [queues_fresh] at h
    refine ⟨congrArg Prod.fst h, congrArg Prod.snd h, ?_⟩
    intro bar n hf
    exact forces_of_forceFlush (requestAll_sound hfresh rs) hf

/-- Without tracks nothing bounds the bar that a forced flush has to make. -/
theorem forced_flush_without_tracks_fails :
    ∃ m, withCapacity 0 (2 ^ 64 - 1) = .ok m ∧ m.forceFlush = .error .outOfRoom :=
  ⟨_, rfl, by decide⟩

end Mixer

end PlainScore
