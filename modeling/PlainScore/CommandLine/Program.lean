import PlainScore.CommandLine.Options
import PlainScore.Preferences
import PlainScore.Score.Manuscript
import PlainScore.Session
import PlainScore.Text.Quoted
import PlainScore.Text.Terminal

/-! The whole program: from its arguments and the files it finds to its exit code and log. -/
namespace PlainScore.Program

abbrev Found := Except FileFault Node

structure Surroundings where
  sheet : Found
  preferences : Preferences.Place
  device : Except Error Sink

structure Run where
  result : Except Complaint Unit
  lines : List Line
  written : Option (List UInt8)

def loadScore (file : String) : Found → Except Error Score
  | .error f => .error (.file f)
  | .ok .directory => .error (.sheet (.unreadable (some file) .directory))
  | .ok (.file bytes) => Score.load (some file) bytes

def loadRemarks : Found → List Line
  | .ok (.file bytes) => Score.loadRemarks bytes
  | _ => []

def selectRange (r : Option Range) (s : Score) : Except Complaint Score :=
  match r with
  | none => .ok s
  | some r =>
    match s.select r.start r.stop with
    | .ok s => .ok s
    | .error e => .error ⟨.configuration, e.message⟩

def selectRemarks (r : Option Range) (s : Score) : List Line :=
  match r with
  | none => []
  | some r => s.selectRemarks r.start r.stop

def play (score : Score) (params : Audio.Params) (device : Sink) :
    Except Complaint Unit × List Line :=
  match Session.ofScore score params device with
  | .error _ => (.error (.ofError (.workerLost .producer)), [])
  | .ok session =>
    match session.run.consumer with
    | .playback p =>
      let result := p.result?.getD (.ok ())
      (Playback.outcome result, p.journal.lines ++ Playback.outcomeRemarks result)
    | .listener _ => (.ok (), [])

def prepare (o : Options) (around : Surroundings) :
    Except Complaint (Score × Audio.Params) × List Line :=
  match (Preferences.load around.preferences).1 with
  | .error c => (.error c, [])
  | .ok p =>
    let configured := match p.amplitude with
      | some a => [Line.debug ("Configured amplitude " ++ Decimal.plain32 a)]
      | none => []
    let lines := configured ++ p.paramsRemarks ++ loadRemarks around.sheet
    match loadScore o.file around.sheet with
    | .error e => (.error (.ofError e), lines)
    | .ok score =>
      let lines := lines ++ selectRemarks o.range score
      match selectRange o.range score with
      | .error c => (.error c, lines)
      | .ok score => (.ok (score, p.params), lines)

/-- The sheet file is looked for before the preferences are read. -/
def run (o : Options) (around : Surroundings) : Run :=
  match around.sheet with
  | .error _ =>
    ⟨.error ⟨.configuration, "Sheet file not found " ++ Text.quoted o.file⟩, [], none⟩
  | .ok _ =>
    let written := (Preferences.load around.preferences).2
    match prepare o around with
    | (.error c, lines) => ⟨.error c, lines, written⟩
    | (.ok (score, params), lines) =>
      let lines := lines ++ [.info ("Playing " ++ o.file)]
      match around.device with
      | .error e => ⟨.error (.ofError e), lines, written⟩
      | .ok device =>
        let (result, played) := play score params device
        ⟨result, lines ++ played, written⟩

/-- The levels that are shown. Quiet wins over verbose. -/
def shows (o : Options) (l : Line) : Bool :=
  !o.quiet && (o.verbose || l.level != .debug)

def log (o : Options) (r : Run) : List Line :=
  let failure := match r.result with
    | .error c => [Line.error c.message]
    | .ok () => []
  (r.lines ++ failure).filter (shows o)

/-- A line break within a message is followed by four blanks. Control sequences in a message are
not shown. -/
def shownLines (l : Line) : List String :=
  let indented := String.intercalate "\n    " (l.render.splitOn "\n")
  (Text.shown indented).splitOn "\n"

def exitCode (r : Run) : Nat := if r.result.toBool then 0 else 1

def refusalCode (r : Refusal) : Nat := if r.isMistake then 2 else 0

def noDevice : Except Error Sink := .error (.audio .noDevice)

def invoke (arguments : List String) (files : FileTree) : Nat × Option (List String) :=
  match Options.parse arguments with
  | .error refusal => (refusalCode refusal, none)
  | .ok o =>
    let r := run o ⟨files.find o.file, Preferences.place files, noDevice⟩
    (exitCode r, some ((log o r).flatMap shownLines))

end PlainScore.Program
