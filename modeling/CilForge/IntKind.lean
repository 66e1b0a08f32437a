import CilForge.Instr

/-!
# Integer kinds and their values

An enum is stored as one of eight kinds of integer. A value of a kind is its bit pattern; it is
ordered and shown as the number it stands for, and narrow kinds are widened to 32 bits on the
evaluation stack.
-/

namespace CilForge

inductive IntKind where
  | int8 | uint8 | int16 | uint16 | int32 | uint32 | int64 | uint64
deriving DecidableEq, Inhabited

namespace IntKind

def ofSig? : Sig → Option IntKind
  | .prim .int8 => some int8 | .prim .uint8 => some uint8
  | .prim .int16 => some int16 | .prim .uint16 => some uint16
  | .prim .int32 => some int32 | .prim .uint32 => some uint32
  | .prim .int64 => some int64 | .prim .uint64 => some uint64
  | _ => none

def sig : IntKind → Sig
  | int8 => .prim .int8 | uint8 => .prim .uint8
  | int16 => .prim .int16 | uint16 => .prim .uint16
  | int32 => .prim .int32 | uint32 => .prim .uint32
  | int64 => .prim .int64 | uint64 => .prim .uint64

def width : IntKind → Nat
  | int8 | uint8 => 1
  | int16 | uint16 => 2
  | int32 | uint32 => 4
  | int64 | uint64 => 8

def bits (k : IntKind) : Nat := k.width * 8

def isSigned : IntKind → Bool
  | int8 | int16 | int32 | int64 => true
  | _ => false

def isWide (k : IntKind) : Bool := k.width = 8

theorem ofSig?_sig (k : IntKind) : ofSig? k.sig = some k := by cases k <;> rfl

end IntKind

/-- A value of an integer kind, as its bits. -/
abbrev EnumValue (k : IntKind) := BitVec k.bits

namespace EnumValue

variable {k : IntKind}

/-- The value of that number, cut to the width of the kind. -/
def ofWord (k : IntKind) (w : BitVec 64) : EnumValue k := w.setWidth k.bits

/-- The number that the bits stand for. -/
def toNumber (v : EnumValue k) : Int := if k.isSigned then v.toInt else v.toNat

def text (v : EnumValue k) : String := toString v.toNumber

def least (k : IntKind) : EnumValue k := if k.isSigned then BitVec.intMin k.bits else 0

def greatest (k : IntKind) : EnumValue k :=
  if k.isSigned then BitVec.intMax k.bits else BitVec.allOnes k.bits

/-- Exactly one bit is set. -/
def isSingleBit (v : EnumValue k) : Bool :=
  (List.range k.bits).countP (v.getLsbD ·) = 1

def next? (v : EnumValue k) : Option (EnumValue k) :=
  if v = greatest k then none else some (v + 1)

def prev? (v : EnumValue k) : Option (EnumValue k) :=
  if v = least k then none else some (v - 1)

/-- The distance up from a value that is not greater. -/
def offsetFrom (v base : EnumValue k) : Nat := (v.toNumber - base.toNumber).toNat

def stack32 (v : EnumValue k) : BitVec 32 := if k.isSigned then v.signExtend 32 else v.setWidth 32

def stack64 (v : EnumValue k) : BitVec 64 := v.setWidth 64

def load (v : EnumValue k) : Instr := if k.isWide then .ldcI8 v.stack64 else .ldcI4 v.stack32

end EnumValue

end CilForge
