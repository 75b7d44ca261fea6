import PlainScore.Track

/-! Cursors over the notes of a track.
A cursor is what is left of the token list. Notes are evaluated when they are asked for, and
a token that cannot be evaluated counts as one note like any other. -/
namespace PlainScore

structure Cursor where
  left : List String
  deriving DecidableEq, Repr

namespace Cursor

def ofTrack (t : Track) : Cursor := ⟨t.tokens⟩

def length (c : Cursor) : Nat := c.left.length

abbrev Evaluated := Except Error Note

def next (c : Cursor) : Option Evaluated × Cursor :=
  match c.left with
  | [] => (none, ⟨[]⟩)
  | token :: rest => (some (Note.ofToken token), ⟨rest⟩)

/-- The note after `n` others, which are not evaluated. -/
def nth (c : Cursor) (n : Nat) : Option Evaluated × Cursor :=
  match c.left.drop n with
  | [] => (none, ⟨[]⟩)
  | token :: rest => (some (Note.ofToken token), ⟨rest⟩)

theorem length_nth {c : Cursor} {n : Nat} (h : (c.nth n).1.isSome = true) :
    (c.nth n).2.length < c.length := by
  rw [nth] at h ⊢
  split at h
  · cases h
  · rename_i token rest hdrop
    have hlength := congrArg List.length hdrop
    rw [List.length_drop, List.length_cons] at hlength
    simp only [length]
    omega

def rest (c : Cursor) : List Evaluated × Cursor := (c.left.map Note.ofToken, ⟨[]⟩)

def last (c : Cursor) : Option Evaluated × Cursor := (c.rest.1.getLast?, ⟨[]⟩)

def sum (c : Cursor) : Except Error Float × Cursor :=
  let (total, left) := Track.sumFrom 0 c.left
  (total, ⟨left⟩)

/-- Least and greatest count of notes to come. -/
def hint (c : Cursor) : Nat × Nat := (c.length, c.length)

/-! ### Several cursors over one track -/

inductive Query where
  | fresh
  | clone (cursor : Nat)
  | next (cursor : Nat)
  | nth (cursor n : Nat)
  | last (cursor : Nat)
  | rest (cursor : Nat)
  | sum (cursor : Nat)
  | hint (cursor : Nat)
  deriving DecidableEq, Repr

inductive Answer where
  | cursor (index : Nat)
  | note (n : Option Evaluated) (left : Nat)
  | notes (ns : List Evaluated) (left : Nat)
  | total (t : Except Error Float) (left : Nat)
  | hint (least greatest left : Nat)

structure Desk where
  track : Track
  cursors : List Cursor

namespace Desk

def start (t : Track) : Desk := ⟨t, [ofTrack t]⟩

def cursor (d : Desk) (i : Nat) : Cursor := d.cursors.getD i ⟨[]⟩

def put (d : Desk) (i : Nat) (c : Cursor) : Desk := { d with cursors := d.cursors.set i c }

def add (d : Desk) (c : Cursor) : Answer × Desk :=
  (.cursor d.cursors.length, { d with cursors := d.cursors ++ [c] })

def ask (d : Desk) : Query → Answer × Desk
  | .fresh => d.add (ofTrack d.track)
  | .clone i => d.add (d.cursor i)
  | .next i => let (n, c) := (d.cursor i).next; (.note n c.length, d.put i c)
  | .nth i k => let (n, c) := (d.cursor i).nth k; (.note n c.length, d.put i c)
  | .last i => let (n, c) := (d.cursor i).last; (.note n c.length, d.put i c)
  | .rest i => let (ns, c) := (d.cursor i).rest; (.notes ns c.length, d.put i c)
  | .sum i => let (t, c) := (d.cursor i).sum; (.total t c.length, d.put i c)
  | .hint i =>
    let c := d.cursor i
    (.hint c.hint.1 c.hint.2 c.length, d)

def evaluated (d : Desk) : Query → List String
  | .fresh | .clone _ | .hint _ => []
  | .next i => (d.cursor i).left.take 1
  | .nth i k => ((d.cursor i).left.drop k).take 1
  | .last i | .rest i => (d.cursor i).left
  | .sum i => Track.summed (d.cursor i).left

def remarks (d : Desk) (q : Query) : List Line := Track.remarks (d.evaluated q)

def askAll (d : Desk) : List Query → List Answer
  | [] => []
  | q :: qs => let (a, d) := d.ask q; a :: d.askAll qs

def remarksAll (d : Desk) : List Query → List Line
  | [] => []
  | q :: qs => d.remarks q ++ (d.ask q).2.remarksAll qs

end Desk

end Cursor

end PlainScore
