import PlainScore.Track.Cursor

/-! Cursors keep their own places.
A cursor stands at a place in the token list and knows nothing else. `Places` answers queries from
these places alone, and a desk answers every sequence of queries in the same way. -/
namespace PlainScore

namespace Track

variable (t : Track) (place : Nat)

def noteAt? : Option Cursor.Evaluated := t.tokens[place]?.map Note.ofToken

def notesFrom : List Cursor.Evaluated := (t.tokens.drop place).map Note.ofToken

def toCome : Nat := t.tokens.length - place

def totalFrom : Except Error Float :=
  (t.notesFrom place).foldlM (fun total note => note.map (total + ·.value)) 0

def evaluableFrom : Nat := ((t.notesFrom place).takeWhile Except.toBool).length

variable {t place}

theorem totalFrom_eq (start : Float) (tokens : List String) :
    (tokens.map Note.ofToken).foldlM (fun total note => note.map (total + ·.value)) start =
      (sumFrom start tokens).1 := by
  induction tokens generalizing start with
  | nil => rfl
  | cons token tokens ih =>
    rw [List.map_cons, List.foldlM_cons, sumFrom]
    cases Note.ofToken token with
    | error e => rfl
    | ok note => exact ih (start + note.value)

/-- A sum goes just behind the first token that cannot be evaluated. -/
theorem sumFrom_left (start : Float) (tokens : List String) :
    (sumFrom start tokens).2 =
      tokens.drop (((tokens.map Note.ofToken).takeWhile Except.toBool).length + 1) := by
  induction tokens generalizing start with
  | nil => rfl
  | cons token tokens ih =>
    rw [sumFrom, List.map_cons, List.drop_succ_cons]
    cases h : Note.ofToken token with
    | error e => rfl
    | ok note =>
      rw [List.takeWhile_cons_of_pos rfl, List.length_cons]
      exact ih (start + note.value)

end Track

namespace Cursor

def Query.target? : Query → Option Nat
  | .fresh | .clone _ => none
  | .next i | .nth i _ | .last i | .rest i | .sum i | .hint i => some i

/-! ### Answers from places -/

namespace Places

def passed (t : Track) (place : Nat) : Query → Nat
  | .next _ => place + 1
  | .nth _ n => place + n + 1
  | .last _ | .rest _ => place + t.toCome place
  | .sum _ => place + t.evaluableFrom place + 1
  | .fresh | .clone _ | .hint _ => place

def reply (t : Track) (place : Nat) (q : Query) : Answer :=
  let left := t.toCome (passed t place q)
  match q with
  | .next _ => .note (t.noteAt? place) left
  | .nth _ n => .note (t.noteAt? (place + n)) left
  | .last _ => .note (t.notesFrom place).getLast? left
  | .rest _ => .notes (t.notesFrom place) left
  | .sum _ => .total (t.totalFrom place) left
  | .fresh | .clone _ | .hint _ => .hint left left left

/-- A cursor that was never made is like one at the end. -/
def place (t : Track) (places : List Nat) (i : Nat) : Nat := places.getD i t.tokens.length

theorem set_place (t : Track) (places : List Nat) (i : Nat) :
    places.set i (place t places i) = places := by
  by_cases h : i < places.length
  · simp [place, h]
  · exact List.set_eq_of_length_le (Nat.not_lt.mp h)

def ask (t : Track) (places : List Nat) (q : Query) : Answer × List Nat :=
  match q with
  | .fresh => (.cursor places.length, places ++ [0])
  | .clone i => (.cursor places.length, places ++ [place t places i])
  | .next i | .nth i _ | .last i | .rest i | .sum i | .hint i =>
    (reply t (place t places i) q, places.set i (passed t (place t places i) q))

def askAll (t : Track) (places : List Nat) : List Query → List Answer
  | [] => []
  | q :: qs => (ask t places q).1 :: askAll t (ask t places q).2 qs

end Places

/-! ### One cursor -/

theorem nth_eq (c : Cursor) (n : Nat) : c.nth n = (c.rest.1[n]?, ⟨c.left.drop (n + 1)⟩) := by
  rw [nth, rest, List.getElem?_map]
  by_cases h : n < c.left.length
  · rw [List.drop_eq_getElem_cons h, List.getElem?_eq_getElem h]
    rfl
  · have hend : c.left.length ≤ n := Nat.not_lt.mp h
    rw [List.drop_of_length_le hend, List.getElem?_eq_none hend,
      List.drop_of_length_le (Nat.le_succ_of_le hend)]
    rfl

theorem nth_succ (c : Cursor) (n : Nat) : c.nth (n + 1) = c.next.2.nth n := by
  obtain ⟨left⟩ := c
  cases left with
  | nil => simp [nth, next]
  | cons token rest => rfl

theorem next_eq_nth (c : Cursor) : c.next = c.nth 0 := by
  rw [next, nth, List.drop_zero]

/-! ### One cursor at a place -/

variable (t : Track) (place n : Nat)

/-- The cursor that stands at a place of a track. -/
def standing : Cursor := ⟨t.tokens.drop place⟩

theorem length_standing : (standing t place).length = t.toCome place := by
  rw [length, standing, List.length_drop, Track.toCome]

theorem nth_standing :
    (standing t place).nth n = (t.noteAt? (place + n), standing t (place + n + 1)) := by
  rw [nth_eq, rest, standing, standing, Track.noteAt?, List.getElem?_map, List.getElem?_drop,
    List.drop_drop, Nat.add_assoc]

theorem next_standing :
    (standing t place).next = (t.noteAt? place, standing t (place + 1)) := by
  rw [next_eq_nth, nth_standing, Nat.add_zero]

theorem standing_end : standing t (place + t.toCome place) = ⟨[]⟩ := by
  rw [standing, Track.toCome, List.drop_of_length_le (by omega)]

theorem rest_standing :
    (standing t place).rest = (t.notesFrom place, standing t (place + t.toCome place)) := by
  rw [standing_end, rest, standing, Track.notesFrom]

theorem last_standing : (standing t place).last =
    ((t.notesFrom place).getLast?, standing t (place + t.toCome place)) := by
  rw [last, rest_standing, standing_end]

theorem sum_standing : (standing t place).sum =
    (t.totalFrom place, standing t (place + t.evaluableFrom place + 1)) := by
  have hleft := Track.sumFrom_left 0 (t.tokens.drop place)
  rw [List.drop_drop, ← Nat.add_assoc] at hleft
  rw [sum, Track.totalFrom, Track.notesFrom, Track.totalFrom_eq, standing]
  exact congrArg (Prod.mk _) (congrArg Cursor.mk hleft)

theorem hint_standing : (standing t place).hint = (t.toCome place, t.toCome place) := by
  rw [hint, length_standing]

/-! ### Several cursors -/

namespace Desk

variable {t : Track} {d : Desk} {i j : Nat}

def ofPlaces (t : Track) (places : List Nat) : Desk := ⟨t, places.map (standing t)⟩

theorem cursor_ofPlaces (t : Track) (places : List Nat) (i : Nat) :
    (ofPlaces t places).cursor i = standing t (Places.place t places i) := by
  have hend : standing t t.tokens.length = ⟨[]⟩ := by rw [standing, List.drop_length]
  rw [cursor, ofPlaces, Places.place, List.getD_eq_getElem?_getD, List.getD_eq_getElem?_getD,
    List.getElem?_map]
  cases places[i]? with
  | none => exact hend.symm
  | some place => rfl

theorem put_ofPlaces (t : Track) (places : List Nat) (i place : Nat) :
    (ofPlaces t places).put i (standing t place) = ofPlaces t (places.set i place) := by
  rw [put, ofPlaces, ofPlaces, List.map_set]

theorem add_ofPlaces (t : Track) (places : List Nat) (place : Nat) :
    (ofPlaces t places).add (standing t place) =
      (.cursor places.length, ofPlaces t (places ++ [place])) := by
  rw [add, ofPlaces, ofPlaces, List.length_map, List.map_append]
  rfl

/-- The step lemma: a query is answered from the places, and leaves a desk of places. -/
theorem ask_ofPlaces (t : Track) (places : List Nat) (q : Query) :
    (ofPlaces t places).ask q =
      ((Places.ask t places q).1, ofPlaces t (Places.ask t places q).2) := by
  cases q with
  | fresh => exact add_ofPlaces t places 0
  | clone i =>
    rw [ask, cursor_ofPlaces]
    exact add_ofPlaces t places _
  | next i =>
    simp only [ask, cursor_ofPlaces, next_standing, length_standing, put_ofPlaces]
    rfl
  | nth i n =>
    simp only [ask, cursor_ofPlaces, nth_standing, length_standing, put_ofPlaces]
    rfl
  | last i =>
    simp only [ask, cursor_ofPlaces, last_standing, length_standing, put_ofPlaces]
    rfl
  | rest i =>
    simp only [ask, cursor_ofPlaces, rest_standing, length_standing, put_ofPlaces]
    rfl
  | sum i =>
    simp only [ask, cursor_ofPlaces, sum_standing, length_standing, put_ofPlaces]
    rfl
  | hint i =>
    simp only [ask, cursor_ofPlaces, hint_standing, length_standing, Places.ask, Places.reply,
      Places.passed, Places.set_place]

theorem askAll_ofPlaces (t : Track) (places : List Nat) (qs : List Query) :
    (ofPlaces t places).askAll qs = Places.askAll t places qs := by
  induction qs generalizing places with
  | nil => rfl
  | cons q qs ih =>
    rw [askAll, ask_ofPlaces, Places.askAll]
    exact congrArg (List.cons _) (ih _)

/-! ### What a query does to the cursors -/

def after (d : Desk) (qs : List Query) : Desk := qs.foldl (fun d q => (d.ask q).2) d

theorem cursor_of_not_made (h : d.cursors.length ≤ i) : d.cursor i = ⟨[]⟩ := by
  rw [cursor, List.getD_eq_getElem?_getD, List.getElem?_eq_none h]
  rfl

theorem cursor_put_self (h : i < d.cursors.length) (c : Cursor) : (d.put i c).cursor i = c := by
  simp [cursor, put, h]

theorem cursor_put_of_ne (h : i ≠ j) (c : Cursor) : (d.put i c).cursor j = d.cursor j := by
  simp [cursor, put, List.getD_eq_getElem?_getD, List.getElem?_set_ne h]

theorem put_of_not_made (h : d.cursors.length ≤ i) (c : Cursor) : d.put i c = d := by
  rw [put, List.set_eq_of_length_le h]

theorem put_put (d : Desk) (i : Nat) (b c : Cursor) : (d.put i b).put i c = d.put i c := by
  simp [put]

theorem length_cursors_le_ask (d : Desk) (q : Query) :
    d.cursors.length ≤ (d.ask q).2.cursors.length := by
  cases q <;> simp [ask, add, put]

/-- A query leaves all cursors alone but the one that it asks. -/
theorem cursor_ask_of_ne {q : Query} (hj : j < d.cursors.length) (hq : q.target? ≠ some j) :
    (d.ask q).2.cursor j = d.cursor j := by
  have hadd : ∀ c, (d.add c).2.cursor j = d.cursor j := by
    intro c
    simp [add, cursor, List.getD_eq_getElem?_getD, List.getElem?_append_left hj]
  cases q with
  | fresh => exact hadd _
  | clone i => exact hadd _
  | hint i => rfl
  | next i | nth i n | last i | rest i | sum i =>
    have hij : i ≠ j := by
      rintro rfl
      exact hq rfl
    exact cursor_put_of_ne hij _

theorem cursor_clone (d : Desk) (i : Nat) :
    (d.ask (.clone i)).2.cursor d.cursors.length = d.cursor i := by
  simp [ask, add, cursor]

/-! ### One note after the other -/

theorem cursor_after_next (d : Desk) (i : Nat) :
    (d.ask (.next i)).2.cursor i = (d.cursor i).next.2 := by
  by_cases h : i < d.cursors.length
  · exact cursor_put_self h _
  · have hnone := cursor_of_not_made (Nat.not_lt.mp h)
    rw [ask, hnone]
    exact (congrArg (cursor · i) (put_of_not_made (Nat.not_lt.mp h) _)).trans hnone

theorem ask_nth_eq (d : Desk) (i n : Nat) : d.ask (.nth i n) =
    (.note ((d.cursor i).nth n).1 ((d.cursor i).nth n).2.length, d.put i ((d.cursor i).nth n).2) :=
  rfl

theorem ask_nth_succ (d : Desk) (i n : Nat) :
    d.ask (.nth i (n + 1)) = (d.ask (.next i)).2.ask (.nth i n) := by
  have hput : ∀ c, (d.ask (.next i)).2.put i c = d.put i c := fun c => put_put d i _ c
  have hskip : (d.cursor i).nth (n + 1) = ((d.ask (.next i)).2.cursor i).nth n := by
    rw [cursor_after_next, nth_succ]
  rw [ask_nth_eq, ask_nth_eq, hput, hskip]

/-- To skip notes comes to the same as asking for them one by one. -/
theorem ask_nth (d : Desk) (i n : Nat) :
    d.ask (.nth i n) = (d.after (List.replicate n (.next i))).ask (.next i) := by
  induction n generalizing d with
  | zero =>
    simp only [ask, ← next_eq_nth]
    rfl
  | succ n ih => rw [ask_nth_succ, ih]; rfl

/-- Collecting gives the notes that would be given out one by one, and as many as were counted. -/
theorem ask_rest (d : Desk) (i : Nat) : ∃ notes, (d.ask (.rest i)).1 = .notes notes 0 ∧
    notes.length = (d.cursor i).length ∧
    ∀ n, ((d.after (List.replicate n (.next i))).ask (.next i)).1 =
      .note notes[n]? (notes.length - (n + 1)) := by
  refine ⟨(d.cursor i).rest.1, rfl, List.length_map .., ?_⟩
  intro n
  rw [← ask_nth, ask_nth_eq, nth_eq, length, List.length_drop, rest, List.length_map]

theorem ended_ask (hi : i < d.cursors.length) (h : d.cursor i = ⟨[]⟩) (q : Query) :
    (d.ask q).2.cursor i = ⟨[]⟩ := by
  by_cases hq : q.target? = some i
  · cases q with
    | fresh | clone => cases hq
    | hint => exact h
    | next | nth | last | rest | sum =>
      cases hq
      simp [ask, h, cursor_put_self hi, next, nth, last, rest, sum, Track.sumFrom]
  · rw [cursor_ask_of_ne hi hq, h]

theorem ended_after (hi : i < d.cursors.length) (h : d.cursor i = ⟨[]⟩) (qs : List Query) :
    (d.after qs).cursor i = ⟨[]⟩ := by
  induction qs generalizing d with
  | nil => exact h
  | cons q qs ih =>
    exact ih (Nat.lt_of_lt_of_le hi (length_cursors_le_ask d q)) (ended_ask hi h q)

structure Exact (d : Desk) : Prop where
  skip : ∀ i n, d.ask (.nth i n) = (d.after (List.replicate n (.next i))).ask (.next i)
  clone : ∀ i, (d.ask (.clone i)).2.cursor d.cursors.length = d.cursor i
  alone : ∀ q j, j < d.cursors.length → q.target? ≠ some j →
    (d.ask q).2.cursor j = d.cursor j
  ended : ∀ i < d.cursors.length, (d.cursor i).length = 0 →
    ∀ qs, ((d.after qs).cursor i).length = 0
  hint : ∀ i, d.ask (.hint i) =
    (.hint (d.cursor i).length (d.cursor i).length (d.cursor i).length, d)
  /-- There are as many notes still to come as a cursor says: collecting gives them, and so does
  asking for one after the other. -/
  remaining : ∀ i, ∃ notes, (d.ask (.rest i)).1 = .notes notes 0 ∧
    notes.length = (d.cursor i).length ∧
    ∀ n, ((d.after (List.replicate n (.next i))).ask (.next i)).1 =
      .note notes[n]? (notes.length - (n + 1))

/-- Any track and any queries to any number of cursors over it. Each cursor answers from its own
place in the token list, and counts exactly what lies between the place and the end. -/
theorem cursors_keep_their_places (t : Track) (asked : List Query) :
    (start t).askAll asked = Places.askAll t [0] asked ∧ ((start t).after asked).Exact := by
  refine ⟨askAll_ofPlaces t [0] asked, ?_⟩
  generalize (start t).after asked = d
  constructor
  · exact ask_nth d
  · exact cursor_clone d
  · exact fun q j hj hq => cursor_ask_of_ne hj hq
  · intro i hi h qs
    have hnil : d.cursor i = ⟨[]⟩ := congrArg Cursor.mk (List.length_eq_zero_iff.mp h)
    rw [ended_after hi hnil]
    rfl
  · exact fun i => rfl
  · exact ask_rest d

end Desk

end Cursor

end PlainScore
