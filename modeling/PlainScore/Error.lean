import PlainScore.Decimal.Layout

/-! What can go wrong, by cause, and the wording of each cause.
A cause that somebody else describes, such as a sound device, carries that description. -/
namespace PlainScore

inductive BufferMisuse where
  | noSuchTrack (track count : Nat)
  | alreadyFull (track : Nat)
  | notFull (track : Nat)
  | described (text : String)
  deriving DecidableEq, Repr

def BufferMisuse.text : BufferMisuse → String
  | .noSuchTrack track count => s!"Track {track} out of bounds ({count} tracks)"
  | .alreadyFull track => s!"Buffer of track {track} already full"
  | .notFull track => s!"Not ready to be flushed, track {track} is not full"
  | .described text => text

inductive Unreadable where
  | malformed
  | shapeless
  | directory
  deriving DecidableEq, Repr

def Unreadable.text : Unreadable → String
  | .malformed => "<json>"
  | .shapeless => "data did not match any variant of untagged enum RawSheet"
  | .directory => "Is a directory (os error 21)"

inductive SheetFault where
  | unreadable (file : Option String) (why : Unreadable)
  | meterText (text : String)
  | tempo (bpm : Float)
  | meter (numerator denominator : Nat)
  | noTracks
  | noSubsheets
  | badRange (first last count : Nat)
  | described (text : String)
  deriving DecidableEq

def SheetFault.text : SheetFault → String
  | .unreadable none why => "Could not read sheet: " ++ why.text
  | .unreadable (some file) why => "Could not read sheet " ++ file ++ ": " ++ why.text
  | .meterText text => "Invalid time signature " ++ text
  | .tempo bpm => "Invalid bpm " ++ Decimal.plain bpm
  | .meter numerator denominator => s!"Invalid time signature {numerator}/{denominator}"
  | .noTracks => "Sheet without tracks"
  | .noSubsheets => "Sheet without subsheets"
  | .badRange first last count => s!"Invalid subsheet range {first},{last} for {count} subsheets"
  | .described text => text

inductive AudioFault where
  | noDevice
  | described (text : String)
  deriving DecidableEq, Repr

def AudioFault.text : AudioFault → String
  | .noDevice => "No output device available"
  | .described text => text

inductive Worker where
  | producer
  | child (index : Nat)
  | described (text : String)
  deriving DecidableEq, Repr

def Worker.name : Worker → String
  | .producer => "synthesizer"
  | .child index => s!"synthesizer-{index}"
  | .described text => text

inductive LostEnd where
  | synthesizerOutput
  | relayOutput
  | endMarker (worker : Worker)
  | described (text : String)
  deriving DecidableEq, Repr

def LostEnd.text : LostEnd → String
  | .synthesizerOutput => "synthesizer output is no longer consumed"
  | .relayOutput => "hub output is no longer consumed"
  | .endMarker worker => worker.name ++ " stopped without end of stream"
  | .described text => text

inductive FileFault where
  | missing
  | notDirectory
  | nameTooLong
  | nulInName
  | described (text : String)
  deriving DecidableEq, Repr

def FileFault.text : FileFault → String
  | .missing => "No such file or directory (os error 2)"
  | .notDirectory => "Not a directory (os error 20)"
  | .nameTooLong => "File name too long (os error 36)"
  | .nulInName => "file name contained an unexpected NUL byte"
  | .described text => text

inductive Error where
  | malformedNote (text : String)
  | buffer (misuse : BufferMisuse)
  | sheet (fault : SheetFault)
  | audio (fault : AudioFault)
  | closed (lost : LostEnd)
  | interrupted
  | workerLost (worker : Worker)
  | file (fault : FileFault)
  deriving DecidableEq

def Error.message : Error → String
  | .malformedNote text => "Invalid note: " ++ text
  | .buffer misuse => "invalid buffer operation: " ++ misuse.text
  | .sheet fault => "sheet error: " ++ fault.text
  | .audio fault => "audio error: " ++ fault.text
  | .closed lost => "channel closed: " ++ lost.text
  | .interrupted => "synthesis interrupted"
  | .workerLost worker => "worker panicked: " ++ worker.name
  | .file fault => "I/O error: " ++ fault.text

/-- The most samples that one vector can hold: their bytes have to be countable in 63 bits. -/
def sampleLimit : Nat := Nat.pow 2 61 - 1

/-- How the work of a thread ends short: with an error that it reports, or, when it asks for
more samples than a vector can hold, by losing the thread. -/
inductive Failure where
  | reported (e : Error)
  | outOfRoom
  deriving DecidableEq

inductive Area where
  | configuration | sheet | audio | other
  deriving DecidableEq, Repr

structure Complaint where
  area : Area
  text : String
  deriving DecidableEq, Repr

namespace Complaint

def message (c : Complaint) : String :=
  match c.area with
  | .configuration => "configuration error: " ++ c.text
  | .sheet => "sheet error: " ++ c.text
  | .audio => "audio error: " ++ c.text
  | .other => "other error: " ++ c.text

/-- Notes are a matter of the sheet; what has no area of its own keeps its whole message. -/
def ofError : Error → Complaint
  | .malformedNote text => ⟨.sheet, (Error.malformedNote text).message⟩
  | .sheet fault => ⟨.sheet, fault.text⟩
  | .audio fault => ⟨.audio, fault.text⟩
  | .file fault => ⟨.other, fault.text⟩
  | e => ⟨.other, e.message⟩

def ofFileFault (f : FileFault) : Complaint := ⟨.other, f.text⟩

end Complaint

end PlainScore
