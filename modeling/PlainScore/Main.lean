import PlainScore.CommandLine.Program

/-! The program: it reads what it finds, and prints the log of its run. -/
namespace PlainScore.Main

def usage : String :=
  "Usage: plainscore [-q|--quiet] [-v|--verbose] [-r|--range START,END] FILE"

def version : String := "plainscore 0.1.0"

def found (path : String) : IO Program.Found := do
  try
    let bytes ← IO.FS.readBinFile path
    return .ok (.file bytes.toList)
  catch
    | .noFileOrDirectory _ _ _ => return .error .missing
    | .inappropriateType _ code details =>
      if code = 21 then return .ok .directory
      else if code = 20 then return .error .notDirectory
      else return .error (.described details)
    | e => return .error (.described (toString e))

def folder (home : String) : String := home ++ "/" ++ Preferences.folderName

def preferencesFile (home : String) : String := folder home ++ "/" ++ Preferences.fileName

def place (home : String) : IO Preferences.Place := do
  match ← found (preferencesFile home) with
  | .ok n => return .folder (some n)
  | .error .notDirectory => return .blocked
  | .error _ => return .noFolder

def store (home : String) (bytes : List UInt8) : IO Unit := do
  IO.FS.createDirAll (folder home)
  IO.FS.writeBinFile (preferencesFile home) bytes.toByteArray

def run (o : Options) : IO UInt32 := do
  let home := (← IO.getEnv "HOME").getD "."
  let around : Program.Surroundings := ⟨← found o.file, ← place home, Program.noDevice⟩
  let r := Program.run o around
  match r.written with
  | some bytes => store home bytes
  | none => pure ()
  for l in (Program.log o r).flatMap Program.shownLines do
    IO.eprintln l
  return UInt32.ofNat (Program.exitCode r)

end PlainScore.Main

def main (arguments : List String) : IO UInt32 := do
  match PlainScore.Options.parse arguments with
  | .ok o => PlainScore.Main.run o
  | .error refusal =>
    match refusal with
    | .help => IO.println PlainScore.Main.usage
    | .version => IO.println PlainScore.Main.version
    | _ => IO.eprintln PlainScore.Main.usage
    return UInt32.ofNat (PlainScore.Program.refusalCode refusal)
