import CilForge.Body.Arena
import Std.Data.HashMap

/-!
# Assembly by label

Code is written front to back, with branches to names that may be bound later. Finishing puts the
instructions into an empty body with their branches open, and closes the branches once there is an
instruction for every name.
-/

namespace CilForge

/-- An instruction whose targets are still names. -/
inductive Pending where
  | plain (instr : Instr)
  | branch (opcode : Opcode) (label : String)
  | switch (labels : List String)

/-- A finally region between labels. -/
structure LabelledRegion where
  tryStart : String
  tryEnd : String
  handlerStart : String
  handlerEnd : String

structure Draft where
  pending : Array Pending := #[]
  labels : Std.HashMap String Nat := ∅
  regions : Array LabelledRegion := #[]
  locals : Array Sig := #[]
deriving Inhabited

/-- A piece of code to be appended, which may be refused. -/
abbrev Asm := ExceptT Fault (StateM Draft)

namespace Asm

def declareLocal (sig : Sig) : Asm Unit := fun a =>
  (.ok (), { a with locals := a.locals.push sig })

/-- Binds a name to the place of the next instruction. A name bound before is bound anew, and that
is reported. -/
def label (name : String) : Asm Unit := fun a =>
  let known := a.labels.contains name
  let bound := { a with labels := a.labels.insert name a.pending.size }
  (if known then .error (.invariant (.duplicateLabel name)) else .ok (), bound)

def emit (i : Instr) : Asm Unit := fun a =>
  if i.opcode.isBranch || !i.wellFormed then (.error (.invariant (.cannotEmit i)), a)
  else (.ok (), { a with pending := a.pending.push (.plain i) })

def op (opcode : Opcode) : Asm Unit := emit ⟨opcode, .none⟩

def typed (opcode : Opcode) (sig : Sig) : Asm Unit := emit (.typed opcode sig)

def branch (opcode : Opcode) (label : String) : Asm Unit := fun a =>
  if opcode.operandKind = .target then
    (.ok (), { a with pending := a.pending.push (.branch opcode label) })
  else (.error (.invariant (.notBranch opcode)), a)

def switch (labels : List String) : Asm Unit := fun a =>
  (.ok (), { a with pending := a.pending.push (.switch labels) })

def tryFinally (r : LabelledRegion) : Asm Unit := fun a =>
  (.ok (), { a with regions := a.regions.push r })

end Asm

/-- What a draft is finished through: some of the edits of a body, which may be kept one way or another. -/
structure Gateway (σ : Type) where
  addLocal : Sig → ExceptT Fault (StateM σ) Nat
  push : Instr → ExceptT Fault (StateM σ) Handle
  setOperand : Handle → Operand → ExceptT Fault (StateM σ) Unit
  addRegion : Region → ExceptT Fault (StateM σ) Unit

def Edit.gateway : Gateway Body := ⟨Edit.addLocal, Edit.push, Edit.setOperand, Edit.addRegion⟩

def LinkedBody.gateway : Gateway LinkedBody where
  addLocal sig b := b.addLocal sig
  push i b := b.push i
  setOperand h o b := b.setOperand h o
  addRegion r b := b.addRegion r

/-- The instruction as it is put down first, with no place to branch to. -/
def Pending.opened : Pending → Instr
  | plain i => i
  | branch opcode _ => ⟨opcode, .none⟩
  | switch _ => ⟨.switch, .none⟩

namespace Draft

variable (a : Draft) (ids : Array Handle)

/-- The instruction a label stands before, `ids` being those of the draft; none at the end of the code. -/
def resolve (label : String) : Except Fault (Option Handle) :=
  match a.labels[label]? with
  | none => .error (.invariant (.undefinedLabel label))
  | some p => .ok ids[p]?

/-- As `resolve`, where there has to be an instruction. -/
def resolveTarget (label : String) : Except Fault Handle := do
  match ← a.resolve ids label with
  | some h => pure h
  | none => throw (.invariant (.labelPastEnd label))

/-- The operand that an instruction is still without. -/
def resolveOperand : Pending → Except Fault (Option Operand)
  | .plain _ => .ok none
  | .branch _ label => do return some (.target (← a.resolveTarget ids label))
  | .switch labels => do return some (.switch (← labels.mapM (a.resolveTarget ids)))

def resolveRegion (r : LabelledRegion) : Except Fault Region := do
  let tryStart ← a.resolveTarget ids r.tryStart
  let tryEnd ← a.resolve ids r.tryEnd
  let handlerStart ← a.resolveTarget ids r.handlerStart
  let handlerEnd ← a.resolve ids r.handlerEnd
  return { tryStart, tryEnd, handlerStart, handlerEnd }

section
variable {σ : Type} (g : Gateway σ)

def declare (sig : Sig) : ExceptT Fault (StateM σ) Unit := do
  let _ ← g.addLocal sig

def close (x : Pending × Handle) : ExceptT Fault (StateM σ) Unit := do
  match ← ExceptT.mk (pure (a.resolveOperand ids x.1)) with
  | some o => g.setOperand x.2 o
  | none => return ()

def protect (r : LabelledRegion) : ExceptT Fault (StateM σ) Unit := do
  g.addRegion (← ExceptT.mk (pure (a.resolveRegion ids r)))

def write : ExceptT Fault (StateM σ) Unit := do
  a.locals.toList.forM (declare g)
  let ids ← a.pending.toList.mapM fun p => g.push p.opened
  (a.pending.toList.zip ids).forM (a.close ids.toArray g)
  a.regions.toList.forM (a.protect ids.toArray g)

/-- What a draft makes of an empty body. -/
def finishWith (empty : σ) : Except Fault σ :=
  match a.write g empty with
  | (.ok (), b) => .ok b
  | (.error e, _) => .error e

end

def finish : Except Fault Body := a.finishWith Edit.gateway {}

/-- As `finish`, with the body kept as nodes. -/
def finishLinked : Except Fault LinkedBody := a.finishWith LinkedBody.gateway {}

/-- A body of the given code behind the given locals; there has to be code. -/
def build (locals : List Sig) (initLocals : Bool) (code : Option (Asm Unit)) :
    Except Fault Body := do
  let some code := code | throw (.other "Method body has no implementation")
  let (result, a) := code.run.run { locals := locals.toArray }
  result
  let body ← a.finish
  return { body with initLocals }

end Draft

end CilForge
