import CilForge.Machine.Value

/-!
# Arithmetic of the machine

Integer operations on two widths. Sums and products wrap, quotients that do not exist or do not
fit are faults, and shift amounts count modulo the width.
-/

namespace CilForge

/-- The operation on words; none where a quotient does not exist or fit. -/
def Arith.word {w : Nat} (op : Arith) (a b : BitVec w) : Option (BitVec w) :=
  match op with
  | add => some (a + b)
  | sub => some (a - b)
  | mul => some (a * b)
  | div => if b = 0 || (a = BitVec.intMin w && b = -1) then none else some (a.sdiv b)
  | rem => if b = 0 || (a = BitVec.intMin w && b = -1) then none else some (a.srem b)
  | and => some (a &&& b)
  | or => some (a ||| b)
  | xor => some (a ^^^ b)

def Shift.word {w : Nat} (op : Shift) (a : BitVec w) (amount : BitVec 32) : BitVec w :=
  let n := amount.toNat % w
  match op with
  | left => a <<< n
  | right => a.sshiftRight n
  | rightUnsigned => a >>> n

/-- The order of two words, by sign or not. -/
def wordOrder {w : Nat} (unsigned : Bool) (a b : BitVec w) : Ordering :=
  if unsigned then compare a.toNat b.toNat else compare a.toInt b.toInt

def Relation.holds (r : Relation) (o : Ordering) : Bool :=
  match r with
  | eq => o.isEq
  | ne => o.isNe
  | lt => o.isLT
  | le => o.isLE
  | gt => o.isGT
  | ge => o.isGE

namespace Heap

def binary (heap : Heap) (o : Opcode) (left right : Value) : Except MachineFault Value :=
  match o.shift? with
  | some s => do
    let amount ← heap.int32 right
    match left with
    | .i32 a => return .i32 (s.word a amount)
    | .i64 a => return .i64 (s.word a amount)
    | v => throw (heap.fault .cannotShift v)
  | none =>
    match left, right with
    | .i32 a, .i32 b =>
      match o.arith? with
      | none => .error (.notBinary o)
      | some op =>
        match op.word a b with
        | some c => .ok (.i32 c)
        | none => .error (.arithmetic o)
    | .i64 a, .i64 b =>
      match o.arith? with
      | none => .error (.notBinary o)
      | some op =>
        match op.word a b with
        | some c => .ok (.i64 c)
        | none => .error (.arithmetic o)
    | _, _ => .error (heap.fault₂ (.mixedOperands o) left right)

def unary (heap : Heap) (o : Opcode) (v : Value) : Except MachineFault Value :=
  match o, v with
  | .neg, .i32 a => .ok (.i32 (-a))
  | .neg, .i64 a => .ok (.i64 (-a))
  | .not, .i32 a => .ok (.i32 (~~~a))
  | .not, .i64 a => .ok (.i64 (~~~a))
  | _, _ => .error (heap.fault (.cannotApply o) v)

def convertWords (o : Opcode) (narrow : BitVec 32) (signed unsigned : BitVec 64) :
    Except MachineFault Value :=
  match o.conversion? with
  | some .i1 => .ok (.i32 ((narrow.setWidth 8).signExtend 32))
  | some .u1 => .ok (.i32 ((narrow.setWidth 8).setWidth 32))
  | some .i2 => .ok (.i32 ((narrow.setWidth 16).signExtend 32))
  | some .u2 => .ok (.i32 ((narrow.setWidth 16).setWidth 32))
  | some .i4 | some .u4 => .ok (.i32 narrow)
  | some .i8 => .ok (.i64 signed)
  | some .u8 => .ok (.i64 unsigned)
  | none => .error (.notConversion o)

def convert (heap : Heap) (o : Opcode) (v : Value) : Except MachineFault Value :=
  match v with
  | .i32 a => convertWords o a (a.signExtend 64) (a.setWidth 64)
  | .i64 a => convertWords o (a.setWidth 32) a a
  | v => .error (heap.fault .cannotConvert v)

/-- Equality as `ceq` has it: only integers of one width and null can be compared. -/
def equal (heap : Heap) (left right : Value) : Except MachineFault Bool :=
  match left, right with
  | .i32 a, .i32 b => .ok (a = b)
  | .i64 a, .i64 b => .ok (a = b)
  | .null, .null => .ok true
  | .null, _ | _, .null => .ok false
  | _, _ => .error (heap.fault₂ .cannotCompare left right)

def order (heap : Heap) (unsigned : Bool) (left right : Value) : Except MachineFault Ordering :=
  match left, right with
  | .i32 a, .i32 b => .ok (wordOrder unsigned a b)
  | .i64 a, .i64 b => .ok (wordOrder unsigned a b)
  | _, _ => .error (heap.fault₂ .cannotOrder left right)

def compare (heap : Heap) (o : Opcode) (left right : Value) : Except MachineFault Bool := do
  match o.comparison? with
  | some ⟨.eq, _⟩ => heap.equal left right
  | some ⟨.ne, _⟩ => return !(← heap.equal left right)
  | some c => return c.rel.holds (← heap.order c.unsigned left right)
  | none =>
    let _ ← heap.order false left right
    throw (.notComparison o)

end Heap

end CilForge
