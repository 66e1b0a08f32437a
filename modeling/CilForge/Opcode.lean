/-!
# Opcodes

The instruction set: the operand each opcode takes, how it passes control on, how it moves the
stack, and the families that the evaluator treats alike.
-/

namespace CilForge

inductive Opcode where
  | nop | ldarg | ldarga | starg | ldloc | ldloca | stloc | ldnull | ldcI4 | ldcI8 | ldcR4
  | ldcR8 | ldstr | dup | pop | call | callvirt | newobj | ret | br | brfalse | brtrue | beq
  | bge | bgt | ble | blt | bneUn | bgeUn | bgtUn | bleUn | bltUn | switch | leave | endfinally
  | throw | add | sub | mul | div | rem | and | or | xor | shl | shr | shrUn | neg | not | ceq
  | cgt | cgtUn | clt | cltUn | convI1 | convI2 | convI4 | convI8 | convU1 | convU2 | convU4
  | convU8 | box | unbox | unboxAny | ldobj | stobj | ldtoken | ldfld | ldflda | stfld | ldsfld
  | ldsflda | stsfld | newarr | ldlen | ldelem | stelem | castclass | isinst | initobj
  | constrained
deriving DecidableEq, Inhabited

inductive OperandKind where
  | none | int32 | int64 | float32 | float64 | string | type | field | method
  | localVar | argument | target | switch
deriving DecidableEq

def OperandKind.text : OperandKind → String
  | none => "None" | int32 => "Int32" | int64 => "Int64" | float32 => "Float32"
  | float64 => "Float64" | string => "String" | type => "Type" | field => "Field"
  | method => "Method" | localVar => "Local" | argument => "Argument" | target => "Target"
  | switch => "Switch"

/-- How an instruction passes control on. -/
inductive Flow where
  | sequential | conditional | unconditional | call | ret | switch | throw | endFinally | leave
deriving DecidableEq

def Flow.text : Flow → String
  | sequential => "Sequential" | conditional => "ConditionalBranch"
  | unconditional => "UnconditionalBranch" | call => "Call" | ret => "Return"
  | switch => "Switch" | throw => "Throw" | endFinally => "EndFinally" | leave => "Leave"

/-- The counts an instruction is charged with on the stack. Both are kept in a byte, and their
difference in a signed byte. -/
structure StackEffect where
  pops : Nat
  pushes : Nat
  net : Int
deriving DecidableEq

def StackEffect.ofCounts (pops pushes : Nat) : StackEffect :=
  ⟨pops % 256, pushes % 256, Int.bmod (pushes - pops) 256⟩

inductive Arith where
  | add | sub | mul | div | rem | and | or | xor
deriving DecidableEq

inductive Shift where
  | left | right | rightUnsigned
deriving DecidableEq

inductive Relation where
  | eq | ne | lt | le | gt | ge
deriving DecidableEq

/-- A comparison of two stack values, by sign or not. -/
structure Comparison where
  rel : Relation
  unsigned : Bool := false
deriving DecidableEq

inductive Conversion where
  | i1 | i2 | i4 | i8 | u1 | u2 | u4 | u8
deriving DecidableEq

namespace Opcode

def all : List Opcode :=
  [.nop, .ldarg, .ldarga, .starg, .ldloc, .ldloca, .stloc, .ldnull, .ldcI4, .ldcI8, .ldcR4,
   .ldcR8, .ldstr, .dup, .pop, .call, .callvirt, .newobj, .ret, .br, .brfalse, .brtrue, .beq,
   .bge, .bgt, .ble, .blt, .bneUn, .bgeUn, .bgtUn, .bleUn, .bltUn, .switch, .leave, .endfinally,
   .throw, .add, .sub, .mul, .div, .rem, .and, .or, .xor, .shl, .shr, .shrUn, .neg, .not, .ceq,
   .cgt, .cgtUn, .clt, .cltUn, .convI1, .convI2, .convI4, .convI8, .convU1, .convU2, .convU4,
   .convU8, .box, .unbox, .unboxAny, .ldobj, .stobj, .ldtoken, .ldfld, .ldflda, .stfld, .ldsfld,
   .ldsflda, .stsfld, .newarr, .ldlen, .ldelem, .stelem, .castclass, .isinst, .initobj,
   .constrained]

def mnemonic : Opcode → String
  | nop => "nop" | ldarg => "ldarg" | ldarga => "ldarga" | starg => "starg" | ldloc => "ldloc"
  | ldloca => "ldloca" | stloc => "stloc" | ldnull => "ldnull" | ldcI4 => "ldc.i4"
  | ldcI8 => "ldc.i8" | ldcR4 => "ldc.r4" | ldcR8 => "ldc.r8" | ldstr => "ldstr" | dup => "dup"
  | pop => "pop" | call => "call" | callvirt => "callvirt" | newobj => "newobj" | ret => "ret"
  | br => "br" | brfalse => "brfalse" | brtrue => "brtrue" | beq => "beq" | bge => "bge"
  | bgt => "bgt" | ble => "ble" | blt => "blt" | bneUn => "bne.un" | bgeUn => "bge.un"
  | bgtUn => "bgt.un" | bleUn => "ble.un" | bltUn => "blt.un" | switch => "switch"
  | leave => "leave" | endfinally => "endfinally" | throw => "throw" | add => "add"
  | sub => "sub" | mul => "mul" | div => "div" | rem => "rem" | and => "and" | or => "or"
  | xor => "xor" | shl => "shl" | shr => "shr" | shrUn => "shr.un" | neg => "neg"
  | not => "not" | ceq => "ceq" | cgt => "cgt" | cgtUn => "cgt.un" | clt => "clt"
  | cltUn => "clt.un" | convI1 => "conv.i1" | convI2 => "conv.i2" | convI4 => "conv.i4"
  | convI8 => "conv.i8" | convU1 => "conv.u1" | convU2 => "conv.u2" | convU4 => "conv.u4"
  | convU8 => "conv.u8" | box => "box" | unbox => "unbox" | unboxAny => "unbox.any"
  | ldobj => "ldobj" | stobj => "stobj" | ldtoken => "ldtoken" | ldfld => "ldfld"
  | ldflda => "ldflda" | stfld => "stfld" | ldsfld => "ldsfld" | ldsflda => "ldsflda"
  | stsfld => "stsfld" | newarr => "newarr" | ldlen => "ldlen" | ldelem => "ldelem"
  | stelem => "stelem" | castclass => "castclass" | isinst => "isinst" | initobj => "initobj"
  | constrained => "constrained."

def ofMnemonic? (s : String) : Option Opcode := all.find? (·.mnemonic = s)

/-- The mnemonic as one word: its parts, capitalised and joined. -/
def title (o : Opcode) : String :=
  String.join ((o.mnemonic.splitOn ".").map String.capitalize)

def operandKind : Opcode → OperandKind
  | ldarg | ldarga | starg => .argument
  | ldloc | ldloca | stloc => .localVar
  | ldcI4 => .int32
  | ldcI8 => .int64
  | ldcR4 => .float32
  | ldcR8 => .float64
  | ldstr => .string
  | call | callvirt | newobj => .method
  | br | brfalse | brtrue | beq | bge | bgt | ble | blt | bneUn | bgeUn | bgtUn | bleUn | bltUn
  | leave => .target
  | switch => .switch
  | box | unbox | unboxAny | ldobj | stobj | ldtoken | newarr | ldelem | stelem | castclass
  | isinst | initobj | constrained => .type
  | ldfld | ldflda | stfld | ldsfld | ldsflda | stsfld => .field
  | _ => .none

def flow : Opcode → Flow
  | br => .unconditional
  | brfalse | brtrue | beq | bge | bgt | ble | blt | bneUn | bgeUn | bgtUn | bleUn | bltUn =>
    .conditional
  | switch => .switch
  | leave => .leave
  | endfinally => .endFinally
  | throw => .throw
  | ret => .ret
  | call | callvirt | newobj => .call
  | _ => .sequential

/-- Pops and pushes of an opcode; calls and `ret` depend on a signature and have none. -/
def counts? : Opcode → Option (Nat × Nat)
  | call | callvirt | newobj | ret => none
  | nop | br | leave | endfinally | constrained => some (0, 0)
  | ldarg | ldarga | ldloc | ldloca | ldnull | ldcI4 | ldcI8 | ldcR4 | ldcR8 | ldstr | ldtoken
  | ldsfld | ldsflda => some (0, 1)
  | starg | stloc | pop | brfalse | brtrue | switch | throw | stsfld | initobj => some (1, 0)
  | dup => some (1, 2)
  | beq | bge | bgt | ble | blt | bneUn | bgeUn | bgtUn | bleUn | bltUn | stobj | stfld =>
    some (2, 0)
  | add | sub | mul | div | rem | and | or | xor | shl | shr | shrUn | ceq | cgt | cgtUn | clt
  | cltUn | ldelem => some (2, 1)
  | stelem => some (3, 0)
  | neg | not | convI1 | convI2 | convI4 | convI8 | convU1 | convU2 | convU4 | convU8 | box
  | unbox | unboxAny | ldobj | ldfld | ldflda | newarr | ldlen | castclass | isinst => some (1, 1)

def effect? (o : Opcode) : Option StackEffect :=
  o.counts?.map fun (pops, pushes) => .ofCounts pops pushes

/-- Whether the opcode names other instructions. -/
def isBranch (o : Opcode) : Bool :=
  match o.flow with
  | .conditional | .unconditional | .leave | .switch => true
  | _ => false

/-- Whether control never passes on to the following instruction. -/
def isTerminal (o : Opcode) : Bool :=
  match o.flow with
  | .unconditional | .leave | .ret | .throw | .endFinally => true
  | _ => false

def arith? : Opcode → Option Arith
  | add => some .add | sub => some .sub | mul => some .mul | div => some .div | rem => some .rem
  | and => some .and | or => some .or | xor => some .xor
  | _ => none

def shift? : Opcode → Option Shift
  | shl => some .left | shr => some .right | shrUn => some .rightUnsigned
  | _ => none

def comparison? : Opcode → Option Comparison
  | ceq | beq => some ⟨.eq, false⟩
  | bneUn => some ⟨.ne, true⟩
  | cgt | bgt => some ⟨.gt, false⟩
  | cgtUn | bgtUn => some ⟨.gt, true⟩
  | clt | blt => some ⟨.lt, false⟩
  | cltUn | bltUn => some ⟨.lt, true⟩
  | bge => some ⟨.ge, false⟩
  | bgeUn => some ⟨.ge, true⟩
  | ble => some ⟨.le, false⟩
  | bleUn => some ⟨.le, true⟩
  | _ => none

def conversion? : Opcode → Option Conversion
  | convI1 => some .i1 | convI2 => some .i2 | convI4 => some .i4 | convI8 => some .i8
  | convU1 => some .u1 | convU2 => some .u2 | convU4 => some .u4 | convU8 => some .u8
  | _ => none

end Opcode

end CilForge
