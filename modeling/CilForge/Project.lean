import CilForge.Pipeline
import CilForge.Store

/-!
# Projects

Takes module images through the pipeline: reads the module, runs all strategies, and writes the
image back if that has changed anything. Each file stands alone, and one that fails does not stop
the others.
-/

namespace CilForge

/-- How modules are kept as bytes. -/
structure ModuleFormat where
  read : Bytes → Except Fault ModuleDef
  write : ModuleDef → Except Fault Bytes

structure Report where
  path : Option Path := none
  module : String
  changed : Bool
  written : Bool := false
  events : EventLog

def Report.summary (r : Report) : String :=
  if r.events.isEmpty then s!"{r.module}: unchanged"
  else if r.written then s!"{r.module}: {r.events.summary}, written"
  else s!"{r.module}: {r.events.summary}"

/-- A computation that writes to the log and may fail. -/
abbrev Logged := ExceptT Fault (StateM (Array LogLine))

namespace Logged

def note (level : LogLevel) (message : String) : StateM (Array LogLine) Unit :=
  modify (·.push ⟨level, message⟩)

def ofExcept {α : Type} (e : Except Fault α) : Logged α := ExceptT.mk (pure e)

end Logged

/-- The outcome for a list of files. -/
structure ProjectResult where
  reports : Array Report := #[]
  failed : Array (Path × String) := #[]
  lockedCount : Nat := 0

namespace ProjectResult

def isComplete (r : ProjectResult) : Bool := r.failed.isEmpty

def writtenCount (r : ProjectResult) : Nat := r.reports.countP (·.written)

def report? (r : ProjectResult) (path : Path) : Option Report :=
  r.reports.find? fun s => s.path.any (·.sameAs path)

def addFailure (r : ProjectResult) (path : Path) (e : Fault) : ProjectResult :=
  let locked :=
    match e with
    | .locked _ => 1
    | _ => 0
  { r with failed := r.failed.push (path, e.text), lockedCount := r.lockedCount + locked }

end ProjectResult

structure Project where
  format : ModuleFormat
  context : Context

namespace Project

variable (p : Project)

def transform (m : ModuleDef) : Logged (Report × ModuleDef) := do
  let strategies := Strategy.ofSettings p.context.settings
  let (outcome, s) := Pipeline.run p.context strategies { module := m, log := ← get }
  set s.log
  let changed ← Logged.ofExcept outcome
  return ({
    module := s.module.name
    changed := changed || !s.generated.created.isEmpty
    events := s.events }, s.module)

/-- Runs the pipeline on an image; gives the image as it has to be kept. -/
def transformImage (data : Bytes) : Logged (Report × Bytes) := do
  let m ← Logged.ofExcept (p.format.read data)
  let (report, m) ← p.transform m
  if report.changed then
    let bytes ← Logged.ofExcept (p.format.write m)
    if bytes = data then return (report, data)
    let events := report.events.push { kind := .moduleTransformed, message := m.name }
    return ({ report with written := true, events }, bytes)
  else return (report, data)

/-- Runs the pipeline on a file, which is open meanwhile. -/
def processFile (path : Path) (d : Disk) : Logged (Report × Disk) := do
  let d ← Logged.ofExcept (d.openFile path)
  let (report, bytes) ← p.transformImage (d.view path)
  let (_, d) := d.writeBack path bytes
  return ({ report with path }, d.close path)

def process (paths : List Path) (d : Disk) :
    StateM (Array LogLine) (ProjectResult × Disk) :=
  paths.foldlM
    (fun (result, d) path => do
      match ← (p.processFile path d).run with
      | .ok (report, d) =>
        Logged.note .info report.summary
        return ({ result with reports := result.reports.push report }, d)
      | .error e =>
        Logged.note .warn s!"Skipping {path.text}: {e.text}"
        return (result.addFailure path e, d))
    ({}, d)

end Project

end CilForge
