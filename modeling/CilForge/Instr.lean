import CilForge.Decimal.Shortest
import CilForge.Opcode
import CilForge.Signature
import CilForge.Text.Quoted

/-!
# Instructions

An instruction is an opcode with an operand. Branches name the instructions they go to by handle,
so that they survive every edit of the code around them.
-/

namespace CilForge

/-- The identity of an instruction within its body. -/
structure Handle where
  index : Nat
deriving DecidableEq, Hashable, Inhabited

def Handle.text (h : Handle) : String := s!"#{h.index}"

inductive Operand where
  | none
  | int32 (value : BitVec 32)
  | int64 (value : BitVec 64)
  | float32 (bits : BitVec 32)
  | float64 (bits : BitVec 64)
  | string (value : String)
  | type (sig : Sig)
  | field (ref : FieldRef)
  | method (ref : MethodRef)
  | localVar (index : Nat)
  | argument (index : Nat)
  | target (goal : Handle)
  | switch (goals : List Handle)
deriving DecidableEq, Inhabited

namespace Operand

def kind : Operand → OperandKind
  | none => .none
  | int32 _ => .int32
  | int64 _ => .int64
  | float32 _ => .float32
  | float64 _ => .float64
  | string _ => .string
  | type _ => .type
  | field _ => .field
  | method _ => .method
  | localVar _ => .localVar
  | argument _ => .argument
  | target _ => .target
  | switch _ => .switch

def targets : Operand → List Handle
  | target goal => [goal]
  | switch goals => goals
  | _ => []

/-- Puts `f h` for every handle `h` the operand names. -/
def mapTargets (f : Handle → Handle) : Operand → Operand
  | target goal => target (f goal)
  | switch goals => switch (goals.map f)
  | o => o

/-- The operand as it follows a mnemonic, with `label` for the instructions it names. -/
def text (label : Handle → String) : Operand → String
  | none => ""
  | int32 value => s!" {value.toInt}"
  | int64 value => s!" {value.toInt}"
  | float32 bits => " " ++ Decimal.single.text bits.toNat
  | float64 bits => " " ++ Decimal.double.text bits.toNat
  | string value => " " ++ Text.quoted value
  | type sig => " " ++ sig.text
  | field ref => " " ++ ref.text
  | method ref => " " ++ ref.text
  | localVar index => s!" V_{index}"
  | argument index => s!" A_{index}"
  | target goal => " " ++ label goal
  | switch goals => " (" ++ String.intercalate ", " (goals.map label) ++ ")"

end Operand

structure Instr where
  opcode : Opcode
  operand : Operand := .none
deriving DecidableEq, Inhabited

namespace Instr

def ldcI4 (value : BitVec 32) : Instr := ⟨.ldcI4, .int32 value⟩

def ldcI8 (value : BitVec 64) : Instr := ⟨.ldcI8, .int64 value⟩

def ldstr (value : String) : Instr := ⟨.ldstr, .string value⟩

def ldloc (index : Nat) : Instr := ⟨.ldloc, .localVar index⟩

def stloc (index : Nat) : Instr := ⟨.stloc, .localVar index⟩

def ldarg (index : Nat) : Instr := ⟨.ldarg, .argument index⟩

def branch (opcode : Opcode) (goal : Handle) : Instr := ⟨opcode, .target goal⟩

def switch (goals : List Handle) : Instr := ⟨.switch, .switch goals⟩

def call (opcode : Opcode) (ref : MethodRef) : Instr := ⟨opcode, .method ref⟩

def typed (opcode : Opcode) (sig : Sig) : Instr := ⟨opcode, .type sig⟩

def wellFormed (i : Instr) : Bool := i.opcode.operandKind = i.operand.kind

def targets (i : Instr) : List Handle := i.operand.targets

def target? (i : Instr) : Option Handle :=
  match i.operand with
  | .target goal => some goal
  | _ => none

def mapTargets (f : Handle → Handle) (i : Instr) : Instr :=
  { i with operand := i.operand.mapTargets f }

def int32? (i : Instr) : Option (BitVec 32) :=
  match i.opcode, i.operand with
  | .ldcI4, .int32 value => some value
  | _, _ => none

/-- The integer constant of either width that is loaded, in the wider one. -/
def int64? (i : Instr) : Option (BitVec 64) :=
  match i.opcode, i.operand with
  | .ldcI8, .int64 value => some value
  | _, _ => i.int32?.map (·.signExtend 64)

def type? (i : Instr) : Option Sig :=
  match i.operand with
  | .type sig => some sig
  | _ => none

def method? (i : Instr) : Option MethodRef :=
  match i.operand with
  | .method ref => some ref
  | _ => none

def string? (i : Instr) : Option String :=
  match i.operand with
  | .string value => some value
  | _ => none

def isTyped (i : Instr) (opcode : Opcode) (sig : Sig) : Bool :=
  i.opcode = opcode && i.type? = some sig

/-- Pops and pushes before they are narrowed; a call without a method has no effect. -/
def counts (i : Instr) : Nat × Nat :=
  match i.opcode.counts? with
  | some c => c
  | none =>
    match i.opcode, i.method? with
    | .newobj, some m => (m.sig.params.length, 1)
    | .call, some m | .callvirt, some m => (m.sig.popCount, m.sig.pushCount)
    | _, _ => (0, 0)

def effect (i : Instr) : StackEffect := .ofCounts i.counts.1 i.counts.2

/-- The instruction with `label` for the instructions it names. -/
def textWith (label : Handle → String) (i : Instr) : String :=
  i.opcode.mnemonic ++ i.operand.text label

def text (i : Instr) : String := i.textWith Handle.text

end Instr

end CilForge
