import PlainScore.Audio

/-! The bar buffer: the samples of every track, collected until all tracks cover a bar.
A track has a row of cells for one bar, which is never cleared, and a cursor up to which they
belong to the current bar. When a note runs over the end of the bar, the rest of it is kept
for the bars to come. -/
namespace PlainScore

structure Lane where
  cells : List Sample
  written : Nat
  carry : Option (List Sample)
  deriving DecidableEq

namespace Lane

def empty : Lane := ⟨[], 0, none⟩

def pending (l : Lane) : List Sample := l.cells.take l.written ++ l.carry.getD []

def available (capacity : Nat) (l : Lane) : Nat := capacity - l.written

def isFull (capacity : Nat) (l : Lane) : Bool := l.carry.isSome || l.available capacity == 0

def copy (data : List Sample) (l : Lane) : Lane :=
  { l with
    cells := l.cells.take l.written ++ data ++ l.cells.drop (l.written + data.length)
    written := l.written + data.length }

/-- Adds samples up to the end of the bar and carries the rest over. -/
def push (capacity : Nat) (data : List Sample) (l : Lane) : Lane :=
  let available := l.available capacity
  if data.length ≤ available then l.copy data
  else { l.copy (data.take available) with carry := some (data.drop available) }

def fillSilence (capacity : Nat) (l : Lane) : Lane :=
  if l.isFull capacity then l else l.copy (List.replicate (l.available capacity) 0)

def hush (l : Lane) : Lane :=
  { l with cells := l.cells.take l.written ++ List.replicate (l.cells.length - l.written) 0 }

/-- Begins a bar with what the last one carried over, of which it takes no more than a bar. The
cells keep what they hold. -/
def reset (capacity : Nat) (l : Lane) : Lane :=
  match l.carry with
  | none => { l with written := 0 }
  | some carried =>
    if capacity < carried.length then
      push capacity (carried.take capacity) ⟨l.cells, 0, some (carried.drop capacity)⟩
    else push capacity carried ⟨l.cells, 0, none⟩

end Lane

structure Mixer where
  capacity : Nat
  lanes : List Lane
  deriving DecidableEq

namespace Mixer

/-- A bar has at least one sample. The bars of all tracks are set aside at once. -/
def withCapacity (tracks capacity : Nat) : Except Failure Mixer :=
  let capacity := max capacity 1
  if 0 < tracks ∧ sampleLimit < capacity then .error .outOfRoom
  else .ok ⟨capacity, List.replicate tracks .empty⟩

def ofBar (tracks : Nat) (seconds : Float) (p : Audio.Params) : Except Failure Mixer :=
  withCapacity tracks (p.sampleCount seconds)

def isTrackFull (m : Mixer) (track : Nat) : Bool :=
  match m.lanes[track]? with
  | some l => l.isFull m.capacity
  | none => false

def isFull (m : Mixer) : Bool := m.lanes.all (Lane.isFull m.capacity)

def isEmpty (m : Mixer) : Bool := m.lanes.all (·.written == 0)

def lane (m : Mixer) (track : Nat) : Except Error Lane :=
  match m.lanes[track]? with
  | some l => .ok l
  | none => .error (.buffer (.noSuchTrack track m.lanes.length))

def append (m : Mixer) (track : Nat) (data : List Sample) : Except Error (Bool × Mixer) := do
  let l ← m.lane track
  if l.isFull m.capacity then throw (.buffer (.alreadyFull track))
  let l := l.push m.capacity data
  return (l.isFull m.capacity, { m with lanes := m.lanes.set track l })

def fillSilence (m : Mixer) (track : Nat) : Except Error Mixer := do
  let l ← m.lane track
  return { m with lanes := m.lanes.set track (l.fillSilence m.capacity) }

/-- The sum of the tracks over their first `n` cells, in the order of the tracks and from zero. -/
def mix (n : Nat) (lanes : List Lane) : List Sample :=
  lanes.foldl (fun mixed l => List.zipWith (· + ·) mixed (l.cells.rightpad n 0))
    (List.replicate n 0)

def reset (m : Mixer) : Mixer := { m with lanes := m.lanes.map (Lane.reset m.capacity) }

def wholeBar (m : Mixer) : Except Failure (List Sample × Mixer) :=
  if sampleLimit < m.capacity then .error .outOfRoom
  else .ok (mix m.capacity m.lanes, m.reset)

def flush (m : Mixer) : Except Failure (List Sample × Mixer) :=
  match m.lanes.findIdx? (!Lane.isFull m.capacity ·) with
  | some track => .error (.reported (.buffer (.notFull track)))
  | none => m.wholeBar

def trim (xs : List Sample) : List Sample := (xs.reverse.dropWhile (· == 0)).reverse

def reach (m : Mixer) : Nat := m.lanes.foldl (fun n l => max n l.cells.length) 0

/-- Mixes what is there, without the silence at the end unless all tracks are full. Cells that
no track has reached would only add silence. -/
def forceFlush (m : Mixer) : Except Failure (List Sample × Mixer) :=
  if m.isFull then m.wholeBar
  else
    let m := { m with lanes := m.lanes.map Lane.hush }
    .ok (trim (mix m.reach m.lanes), m.reset)

end Mixer

end PlainScore
