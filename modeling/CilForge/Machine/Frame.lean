import CilForge.Body.Basic
import CilForge.Machine.Arith

/-!
# Frames and instructions

A frame is a method in progress. `Frame.act` says what one instruction does to its frame; where
the instruction calls another method or changes the heap it only says which one, with what
arguments, or how.
-/

namespace CilForge

/-- A `leave` on its way: the handlers still to run, and where it goes then. -/
structure Departure where
  handlers : List Handle
  target : Handle

structure Frame where
  body : Body
  /-- The code from the instruction that comes next. -/
  ahead : List (Handle × Instr)
  stack : List Value := []
  locals : Array Value
  args : Array Value
  leaves : List Departure := []
  constrained : Option Sig := none

/-- What an instruction asks for, besides the new frame. -/
inductive Action where
  | next
  | jump (goal : Handle)
  /-- A new array of so many values, to be pushed. -/
  | alloc (element : Sig) (count : Nat)
  /-- A new value in a place of an array. -/
  | store (ref index : Nat) (value : Value)
  | ret (value : Option Value)
  | throw (value : Value)
  | call (method : MethodRef) (args : List Value)
  | new (ctor : MethodRef) (args : List Value)

namespace Frame

def start (body : Body) (args : List Value) : Frame :=
  { body, ahead := body.code, locals := body.locals.map Value.default, args := args.toArray }

/-- Goes on at an instruction of the body. -/
def goTo (f : Frame) (h : Handle) : Except MachineFault Frame :=
  match f.body.codeFrom h with
  | [] => .error (.noInstruction h)
  | code => .ok { f with ahead := code }

def push (f : Frame) (v : Value) : Frame := { f with stack := v :: f.stack }

def pop (f : Frame) : Except MachineFault (Value × Frame) :=
  match f.stack with
  | v :: rest => .ok (v, { f with stack := rest })
  | [] => .error .stackUnderflow

/-- The topmost values in the order in which they were pushed. -/
def popArgs (f : Frame) (count : Nat) : Except MachineFault (List Value × Frame) :=
  if f.stack.length < count then .error .stackUnderflow
  else .ok ((f.stack.take count).reverse, { f with stack := f.stack.drop count })

def getLocal (f : Frame) (index : Nat) : Except MachineFault Value :=
  match f.locals[index]? with
  | some v => .ok v
  | none => .error (.noLocal index)

def getArg (f : Frame) (index : Nat) : Except MachineFault Value :=
  match f.args[index]? with
  | some v => .ok v
  | none => .error (.noArgument index)

def setLocal (f : Frame) (index : Nat) (v : Value) : Except MachineFault Frame :=
  if index < f.locals.size then .ok { f with locals := f.locals.setIfInBounds index v }
  else .error (.noLocal index)

def setArg (f : Frame) (index : Nat) (v : Value) : Except MachineFault Frame :=
  if index < f.args.size then .ok { f with args := f.args.setIfInBounds index v }
  else .error (.noArgument index)

/-- The value at an address. Addresses name variables of the frame that uses them. -/
def load (f : Frame) (heap : Heap) : Value → Except MachineFault Value
  | .localAddress index => f.getLocal index
  | .argumentAddress index => f.getArg index
  | v => .error (heap.fault .notAddress v)

def store (f : Frame) (heap : Heap) (address v : Value) : Except MachineFault Frame :=
  match address with
  | .localAddress index => f.setLocal index v
  | .argumentAddress index => f.setArg index v
  | a => .error (heap.fault .notAddress a)

def position (f : Frame) (h : Handle) : Except MachineFault Nat :=
  match f.body.position? h with
  | some p => .ok p
  | none => .error (.noInstruction h)

def endPosition (f : Frame) : Option Handle → Except MachineFault Nat
  | some h => f.position h
  | none => .ok f.body.size

/-- The size and handler of a region that a jump between two places leaves. -/
def left? (f : Frame) (source target : Nat) (r : Region) :
    Except MachineFault (Option (Nat × Handle)) := do
  let low ← f.position r.tryStart
  let high ← f.endPosition r.tryEnd
  let inside p := low ≤ p && p < high
  return if inside source && !inside target then some (high - low, r.handlerStart) else none

/-- The finally handlers that a jump has to run, those of the smallest regions first. -/
def leftHandlers (f : Frame) (source target : Handle) : Except MachineFault (List Handle) := do
  let source ← f.position source
  let target ← f.position target
  let exits ← (f.body.regions.filter (·.isFinally)).mapM (f.left? source target)
  let sorted := (exits.filterMap id).mergeSort fun a b => a.1 ≤ b.1
  return sorted.map (·.2)

/-- Receivers of constrained calls are addresses; a value found there is boxed unless it is a
reference. -/
def receiver (f : Frame) (heap : Heap) (sig : Sig) (address : Value) :
    Except MachineFault Value := do
  let v ← f.load heap address
  return if v.isReference then v else .boxed sig v

/-- The arguments of a call, the receiver adjusted if the call is constrained. -/
def callArgs (f : Frame) (heap : Heap) (constrained : Option Sig) (m : MethodRef)
    (args : List Value) : Except MachineFault (List Value) :=
  match constrained, m.sig.hasThis, args with
  | some sig, true, this :: rest => do return (← f.receiver heap sig this) :: rest
  | _, _, args => .ok args

end Frame

namespace Instr

def needType (i : Instr) : Except MachineFault Sig :=
  match i.type? with
  | some sig => .ok sig
  | none => .error (.noTypeOperand i)

def needMethod (i : Instr) : Except MachineFault MethodRef :=
  match i.method? with
  | some m => .ok m
  | none => .error (.noMethodOperand i)

def needIndex (i : Instr) : Except MachineFault Nat :=
  match i.operand with
  | .localVar index | .argument index => .ok index
  | _ => .error (.noIndexOperand i)

def needTarget (i : Instr) : Except MachineFault Handle :=
  match i.target? with
  | some h => .ok h
  | none => .error (.noTarget i)

end Instr

def Heap.get (heap : Heap) : Value → Except MachineFault (Nat × ArrayObject)
  | .array ref => .ok (ref, heap[ref]?.getD default)
  | v => .error (heap.fault .notArray v)

namespace Frame

abbrev Effect := Except MachineFault (Frame × Action)

def act (f : Frame) (heap : Heap) (h : Handle) (i : Instr) : Effect := do
  let constrained := f.constrained
  let f := if i.opcode = .callvirt then f else { f with constrained := none }
  match i.opcode with
  | .nop => return (f, .next)
  | .ldarg =>
    let v ← f.getArg (← i.needIndex)
    return (f.push v, .next)
  | .ldarga => return (f.push (.argumentAddress (← i.needIndex)), .next)
  | .starg =>
    let (v, f) ← f.pop
    return (← f.setArg (← i.needIndex) v, .next)
  | .ldloc =>
    let v ← f.getLocal (← i.needIndex)
    return (f.push v, .next)
  | .ldloca => return (f.push (.localAddress (← i.needIndex)), .next)
  | .stloc =>
    let (v, f) ← f.pop
    return (← f.setLocal (← i.needIndex) v, .next)
  | .ldnull => return (f.push .null, .next)
  | .ldcI4 =>
    match i.operand with
    | .int32 v => return (f.push (.i32 v), .next)
    | _ => throw (.malformedInstr i)
  | .ldcI8 =>
    match i.operand with
    | .int64 v => return (f.push (.i64 v), .next)
    | _ => throw (.malformedInstr i)
  | .ldstr =>
    match i.operand with
    | .string text => return (f.push (.str text), .next)
    | _ => throw (.malformedInstr i)
  | .dup =>
    let (v, f) ← f.pop
    return ((f.push v).push v, .next)
  | .pop =>
    let (_, f) ← f.pop
    return (f, .next)
  | .call | .callvirt =>
    let m ← i.needMethod
    let (args, f) ← f.popArgs m.sig.popCount
    let constrained := if i.opcode = .callvirt then constrained else none
    let args ← f.callArgs heap constrained m args
    return ({ f with constrained := none }, .call m args)
  | .newobj =>
    let m ← i.needMethod
    let (args, f) ← f.popArgs m.sig.params.length
    return (f, .new m args)
  | .ret => return (f, .ret f.stack.head?)
  | .br => return (f, .jump (← i.needTarget))
  | .brfalse | .brtrue =>
    let (v, f) ← f.pop
    if v.isTrue = (i.opcode = .brtrue) then return (f, .jump (← i.needTarget))
    else return (f, .next)
  | .beq | .bge | .bgt | .ble | .blt | .bneUn | .bgeUn | .bgtUn | .bleUn | .bltUn =>
    let (right, f) ← f.pop
    let (left, f) ← f.pop
    if ← heap.compare i.opcode left right then return (f, .jump (← i.needTarget))
    else return (f, .next)
  | .switch =>
    let (v, f) ← f.pop
    let index ← heap.int32 v
    match i.targets[index.toNat]? with
    | some target => return (f, .jump target)
    | none => return (f, .next)
  | .leave =>
    let target ← i.needTarget
    match ← f.leftHandlers h target with
    | [] => return ({ f with stack := [] }, .jump target)
    | first :: rest =>
      return ({ f with stack := [], leaves := ⟨rest, target⟩ :: f.leaves }, .jump first)
  | .endfinally =>
    match f.leaves with
    | [] => throw .strayEndfinally
    | ⟨[], target⟩ :: outer =>
      return ({ f with stack := [], leaves := outer }, .jump target)
    | ⟨handler :: rest, target⟩ :: outer =>
      return ({ f with stack := [], leaves := ⟨rest, target⟩ :: outer }, .jump handler)
  | .throw =>
    let (v, f) ← f.pop
    return (f, .throw v)
  | .add | .sub | .mul | .div | .rem | .and | .or | .xor | .shl | .shr | .shrUn =>
    let (right, f) ← f.pop
    let (left, f) ← f.pop
    return (f.push (← heap.binary i.opcode left right), .next)
  | .neg | .not =>
    let (v, f) ← f.pop
    return (f.push (← heap.unary i.opcode v), .next)
  | .ceq | .cgt | .cgtUn | .clt | .cltUn =>
    let (right, f) ← f.pop
    let (left, f) ← f.pop
    return (f.push (.bool (← heap.compare i.opcode left right)), .next)
  | .convI1 | .convI2 | .convI4 | .convI8 | .convU1 | .convU2 | .convU4 | .convU8 =>
    let (v, f) ← f.pop
    return (f.push (← heap.convert i.opcode v), .next)
  | .box =>
    let sig ← i.needType
    let (v, f) ← f.pop
    return (f.push (if sig.isReference then v else .boxed sig v), .next)
  | .unboxAny =>
    let sig ← i.needType
    let (v, f) ← f.pop
    match v with
    | .boxed _ inner => return (f.push inner, .next)
    | v =>
      if sig.isReference then return (f.push v, .next)
      else throw (heap.fault (.cannotUnbox · sig) v)
  | .ldobj =>
    let (address, f) ← f.pop
    return (f.push (← f.load heap address), .next)
  | .stobj =>
    let (v, f) ← f.pop
    let (address, f) ← f.pop
    return (← f.store heap address v, .next)
  | .initobj =>
    let sig ← i.needType
    let (address, f) ← f.pop
    return (← f.store heap address (.default sig), .next)
  | .ldtoken => return (f.push (.typeToken (← i.needType)), .next)
  | .newarr =>
    let element ← i.needType
    let (v, f) ← f.pop
    let count ← heap.int32 v
    if count.toInt < 0 then throw (.negativeSize count.toInt)
    return (f, .alloc element count.toNat)
  | .ldlen =>
    let (v, f) ← f.pop
    let (_, a) ← heap.get v
    return (f.push (.i32 (BitVec.ofNat 32 a.values.size)), .next)
  | .ldelem =>
    let (v, f) ← f.pop
    let index ← heap.int32 v
    let (v, f) ← f.pop
    let (_, a) ← heap.get v
    match a.values[index.toNat]? with
    | some v => return (f.push v, .next)
    | none => throw (.indexRange index.toInt)
  | .stelem =>
    let (new, f) ← f.pop
    let (v, f) ← f.pop
    let index ← heap.int32 v
    let (v, f) ← f.pop
    let (ref, a) ← heap.get v
    if index.toNat < a.values.size then return (f, .store ref index.toNat new)
    else throw (.indexRange index.toInt)
  | .constrained => return ({ f with constrained := some (← i.needType) }, .next)
  | .ldcR4 | .ldcR8 | .unbox | .ldfld | .ldflda | .stfld | .ldsfld | .ldsflda | .stsfld
  | .castclass | .isinst => throw (.unsupportedOpcode i.opcode)

end Frame

end CilForge
