/-! What a thread of the program writes to its log. -/
namespace PlainScore

inductive Level where
  | debug | info | warn | error
  deriving DecidableEq, Repr

def Level.label : Level → String
  | .debug => "DEBUG"
  | .info => "INFO"
  | .warn => "WARN"
  | .error => "ERROR"

structure Line where
  level : Level
  text : String
  deriving DecidableEq, Repr

def Line.render (l : Line) : String := l.level.label ++ " " ++ l.text

def Line.debug (text : String) : Line := ⟨.debug, text⟩
def Line.info (text : String) : Line := ⟨.info, text⟩
def Line.warn (text : String) : Line := ⟨.warn, text⟩
def Line.error (text : String) : Line := ⟨.error, text⟩

structure Journal where
  newestFirst : List Line := []
  deriving DecidableEq, Repr

namespace Journal

def empty : Journal := {}

def lines (j : Journal) : List Line := j.newestFirst.reverse

def write (j : Journal) (l : Line) : Journal := ⟨l :: j.newestFirst⟩

def writeAll (j : Journal) (ls : List Line) : Journal := ls.foldl write j

@[simp] theorem lines_empty : empty.lines = [] := rfl

@[simp] theorem lines_write (j : Journal) (l : Line) : (j.write l).lines = j.lines ++ [l] := by
  simp [lines, write]

@[simp] theorem lines_writeAll (j : Journal) (ls : List Line) :
    (j.writeAll ls).lines = j.lines ++ ls := by
  induction ls generalizing j with
  | nil => simp [writeAll]
  | cons l ls ih =>
    have h := ih (j.write l)
    simp only [writeAll, List.foldl_cons, lines_write] at h ⊢
    simp [h]

end Journal

end PlainScore
