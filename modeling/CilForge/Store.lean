import CilForge.Fault
import CilForge.Path

/-!
# Images and files

Where module images are kept: in memory, or in files that are locked for as long as they are open.
Bytes are only written where they differ from what is there.
-/

namespace CilForge

abbrev Bytes := List UInt8

namespace Bytes

def slice (data : Bytes) (offset len : Nat) : Except Fault Bytes :=
  if offset + len ≤ data.length then .ok ((data.drop offset).take len)
  else .error (.malformed (.range offset len data.length))

/-- The first `size` bytes, with zeros for those that are missing. -/
def fit (data : Bytes) (size : Nat) : Bytes :=
  data.take size ++ List.replicate (size - data.length) 0

end Bytes

/-- An image in memory, with the number of times it was written. -/
structure MemoryImage where
  data : Bytes
  writes : Nat := 0

/-- Puts new bytes in place; tells whether they are different. -/
def MemoryImage.writeBack (m : MemoryImage) (bytes : Bytes) : Bool × MemoryImage :=
  if m.data = bytes then (false, m) else (true, ⟨bytes, m.writes + 1⟩)

/-- An open file: the path it was opened by, its name, and the size it had when it was opened or
last written through. -/
structure Holding where
  path : Path
  file : String
  size : Nat

/-- A directory of files, some of them open. -/
structure Disk where
  files : List (String × Bytes) := []
  held : List Holding := []

namespace Disk

/-- The name of the file that a path leads to, whether there is such a file or not. -/
def locate (path : Path) : Except Fault String :=
  match path.file? with
  | some name => .ok name
  | none => .error .file

def read (d : Disk) (path : Path) : Except Fault Bytes := do
  match d.files.lookup (← locate path) with
  | some bytes => return bytes
  | none => throw .file

def set (d : Disk) (file : String) (bytes : Bytes) : Disk :=
  { d with files := (file, bytes) :: d.files.filter (·.1 ≠ file) }

/-- Makes a file, or replaces its contents. -/
def put (d : Disk) (path : Path) (bytes : Bytes) : Except Fault Disk :=
  return d.set (← locate path) bytes

def held? (d : Disk) (path : Path) : Option Holding := d.held.find? (·.path = path)

def isOpen (d : Disk) (path : Path) : Bool := (d.held? path).isSome

/-- What is seen of an open file: the bytes up to the size it is known to have. -/
def view (d : Disk) (path : Path) : Bytes :=
  match d.held? path with
  | some h => ((d.files.lookup h.file).getD []).fit h.size
  | none => []

/-- Opens a file for one holder at a time, by whatever path. -/
def openFile (d : Disk) (path : Path) : Except Fault Disk := do
  let file ← locate path
  let bytes ← d.read path
  if d.held.any (·.file = file) then throw (.locked path.text)
  return { d with held := ⟨path, file, bytes.length⟩ :: d.held }

def close (d : Disk) (path : Path) : Disk :=
  { d with held := d.held.filter (·.path ≠ path) }

/-- Writes through an open file; tells whether the bytes are different from what is seen of it. -/
def writeBack (d : Disk) (path : Path) (bytes : Bytes) : Bool × Disk :=
  match d.held? path with
  | none => (false, d)
  | some h =>
    if d.view path = bytes then (false, d)
    else
      let written := (d.set h.file bytes).close path
      (true, { written with held := { h with size := bytes.length } :: written.held })

end Disk

end CilForge
