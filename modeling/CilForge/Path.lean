/-!
# Paths

How a file of the project's directory is named: by steps from there, between slashes. An empty
step and a dot stay where they are, so that one file has many paths.
-/

namespace CilForge

structure Path where
  text : String
deriving DecidableEq

namespace Path

def pieces (p : Path) : List String := p.text.splitOn "/"

/-- The pieces that lead somewhere. -/
def steps (p : Path) : List String := p.pieces.filter fun s => s ≠ "" && s ≠ "."

def isAbsolute (p : Path) : Bool := p.text.toList.head? = some '/'

/-- Whether two paths take the same steps from the same place. -/
def sameAs (p q : Path) : Bool := p.isAbsolute = q.isAbsolute && p.steps = q.steps

/-- The last step, if it does not lead up. -/
def fileName (p : Path) : String :=
  match p.steps.getLast? with
  | none | some ".." => ""
  | some name => name

/-- What a file system takes for the name of a file. -/
def isFileName (name : String) : Bool :=
  name ≠ ".." && name.utf8ByteSize ≤ 255 && !name.toList.contains '\x00'

/-- The file that a path leads to. The project's directory holds files only, so that there is one
step to take, and nothing may stand behind it. -/
def file? (p : Path) : Option String :=
  match p.steps with
  | [name] =>
    if !p.isAbsolute && p.pieces.getLast? = some name && isFileName name then some name else none
  | _ => none

end Path

end CilForge
