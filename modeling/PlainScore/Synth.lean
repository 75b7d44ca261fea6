import PlainScore.Handoff
import PlainScore.Mixer
import PlainScore.Report
import PlainScore.Sheet

/-! The synthesizer of one sheet, as a machine.
The machine moves from one point where other threads matter to the next: it looks at the
interrupt flag before each note, and it waits at its output for each bar. Everything in
between belongs to a single step. Tracks are filled one after the other until the bar is
complete; the run is over when the last track has no more notes. -/
namespace PlainScore

namespace Synth

abbrev Result := Except Failure Report

inductive Phase where
  | ready
  | polling (track : Nat)
  | serving (bar : List Sample) (last : Bool)
  | ending (result : Result)
  | marking (result : Result)
  | leaving (result : Result)
  | done (result : Result)

structure Status where
  started : Bool := false
  finished : Bool := false
  deriving DecidableEq, Repr

end Synth

structure Synth where
  sheet : Sheet
  params : Audio.Params
  mixer : Mixer
  left : List (List String)
  exhausted : List Bool
  totals : List Float
  phase : Synth.Phase
  status : Synth.Status
  journal : Journal

namespace Synth

def new (sheet : Sheet) (params : Audio.Params) : Except Failure Synth := do
  let tracks := sheet.tracks.length
  let mixer ← Mixer.ofBar tracks sheet.barDuration params
  return {
    sheet, params, mixer
    left := sheet.tracks.map (·.tokens)
    exhausted := List.replicate tracks false
    totals := List.replicate tracks 0
    phase := .ready
    status := {}
    journal := .empty }

def write (s : Synth) (l : Line) : Synth := { s with journal := s.journal.write l }

/-- Ends the run; the end marker is sent whatever the result is. -/
def finish (s : Synth) (result : Result) : Synth :=
  { s.write (.debug "Serving end of stream") with phase := .ending result }

def fail (s : Synth) (e : Error) : Synth := s.finish (.error (.reported e))

/-- The report of a run that ends well. -/
def conclude (s : Synth) : Synth :=
  let report : Report := ⟨s.totals⟩
  { s with journal := s.journal.writeAll report.remarks }.finish (.ok report)

def serveRemainder (s : Synth) : Synth :=
  if s.mixer.isEmpty then s.conclude
  else
    let s := s.write (.debug "Serving the remainder of buffer")
    match s.mixer.forceFlush with
    | .error f => s.finish (.error f)
    | .ok (bar, mixer) => { s with mixer, phase := .serving bar true }

/-- Tracks without notes are silent while the others go on. -/
def silenceExhausted (m : Mixer) (exhausted : List Bool) : Except Error Mixer :=
  exhausted.zipIdx.foldlM (fun m (gone, track) => if gone then m.fillSilence track else .ok m) m

def closeBar (s : Synth) : Synth :=
  match silenceExhausted s.mixer s.exhausted with
  | .error e => s.fail e
  | .ok mixer =>
    let s := { s with mixer }.write (.debug "Serving buffer")
    match s.mixer.flush with
    | .error f => s.finish (.error f)
    | .ok (bar, mixer) => { s with mixer, phase := .serving bar false }

def wants (s : Synth) (track : Nat) : Bool :=
  !s.exhausted.getD track true && !s.mixer.isTrackFull track

def advance (s : Synth) (start : Nat) : Synth :=
  match (List.range' start (s.left.length - start)).find? s.wants with
  | some track => { s with phase := .polling track }
  | none => s.closeBar

def lastTrack (s : Synth) : Nat := s.left.length - 1

def noteDuration (s : Synth) (note : Note) : Float :=
  note.value * Float.ofNat s.sheet.meter.denominator * s.sheet.beatDuration

def noteRemark (note : Note) (track : Nat) : Line :=
  .debug s!"Synthesizing {note.pitch.text} {Decimal.plain note.value} (track {track})"

def play (s : Synth) (track : Nat) (note : Note) : Synth :=
  let s := { s with totals := s.totals.modify track (· + note.value) }
  let s := s.write (noteRemark note track)
  match Audio.render s.params note.pitch.frequency (s.noteDuration note) with
  | .error f => s.finish (.error f)
  | .ok samples =>
    match s.mixer.append track samples with
    | .error e => s.fail e
    | .ok (full, mixer) =>
      let s := { s with mixer }
      if full then s.advance (track + 1) else { s with phase := .polling track }

def pull (s : Synth) (track : Nat) : Synth :=
  match s.left.getD track [] with
  | [] =>
    let s := s.write (.debug s!"No more notes in track {track}")
    if track = s.lastTrack then s.serveRemainder
    else { s with exhausted := s.exhausted.set track true }.advance (track + 1)
  | token :: rest =>
    let s := { s with left := s.left.set track rest
                      journal := s.journal.writeAll (Note.remarks token) }
    match Note.ofToken token with
    | .error e => s.fail e
    | .ok note => s.play track note

def startRemark (sheet : Sheet) : Line :=
  .debug (s!"Synthesizing {sheet.tracks.length} tracks at {Decimal.plain sheet.bpm} bpm " ++
    s!"({sheet.meter.numerator}/{sheet.meter.denominator})")

def start (s : Synth) : Synth :=
  let s := { s with status := { s.status with started := true } }.write (startRemark s.sheet)
  if s.left = [] then s.serveRemainder else s.advance 0

/-- The machine can move: it does not wait at its output and has not ended. -/
def canStep (s : Synth) (output : Handoff) : Bool :=
  match s.phase with
  | .serving _ _ | .ending _ => output.canSend
  | .done _ => false
  | _ => true

def step (interrupted : Bool) (output : Handoff) (s : Synth) : Synth × Handoff :=
  match s.phase with
  | .ready => (s.start, output)
  | .polling track => (if interrupted then s.fail .interrupted else s.pull track, output)
  | .serving bar last =>
    match output.trySend (.samples bar) with
    | (.sent, output) => (if last then s.conclude else s.advance 0, output)
    | (.closed, output) => (s.fail (.closed .synthesizerOutput), output)
    | (.full, output) => (s, output)
  | .ending result =>
    match output.trySend .endOfStream with
    | (.sent, output) => ({ s with phase := .marking result }, output)
    | (.closed, output) =>
      ({ s.write (.debug "End of stream not delivered, receiver is gone") with
          phase := .marking result }, output)
    | (.full, output) => (s, output)
  | .marking result =>
    ({ s with status := { s.status with finished := true }, phase := .leaving result }, output)
  | .leaving result => ({ s with phase := .done result }, output.dropSender)
  | .done _ => (s, output)

def result? (s : Synth) : Option Result :=
  match s.phase with
  | .done r => some r
  | _ => none

end Synth

end PlainScore
