import CilForge.IntKind
import CilForge.Machine.Fault
import CilForge.Unroll

/-!
# Values of the machine

Integers of two widths, references, type tokens and addresses of variables. Arrays are shared, so
they live on a heap and a value only points to one.
-/

namespace CilForge

inductive Value where
  | i32 (value : BitVec 32)
  | i64 (value : BitVec 64)
  | str (text : String)
  | null
  | boxed (sig : Sig) (value : Value)
  | array (ref : Nat)
  | typeToken (sig : Sig)
  | type (sig : Sig)
  | object (name : TypeName)
  | localAddress (index : Nat)
  | argumentAddress (index : Nat)
deriving DecidableEq, Inhabited

structure ArrayObject where
  element : Sig
  values : Array Value
deriving Inhabited

abbrev Heap := Array ArrayObject

namespace Value

def bool (b : Bool) : Value := .i32 (if b then 1 else 0)

def ofEnum {k : IntKind} (v : EnumValue k) : Value :=
  if k.isWide then .i64 v.stack64 else .i32 v.stack32

def default : Sig → Value
  | .prim .int64 | .prim .uint64 => .i64 0
  | .prim .bool | .prim .char | .prim .int8 | .prim .uint8 | .prim .int16 | .prim .uint16
  | .prim .int32 | .prim .uint32 | .valueType _ => .i32 0
  | _ => .null

/-- What a conditional branch takes for true. -/
def isTrue : Value → Bool
  | i32 value => value ≠ 0
  | i64 value => value ≠ 0
  | null => false
  | _ => true

/-- Whether the value is a reference already, so that a constrained call does not box it. -/
def isReference : Value → Bool
  | str _ | null | object _ | array _ | boxed _ _ => true
  | _ => false

/-- The array that the value is, or that its boxes hold. -/
def array? : Value → Option Nat
  | array ref => some ref
  | boxed _ value => value.array?
  | _ => none

/-- The value with another array in the place of the one it leads to. -/
def leadTo (ref : Nat) : Value → Value
  | array _ => array ref
  | boxed sig value => boxed sig (value.leadTo ref)
  | v => v

/-- The text of the value, `inner` being that of the array it leads to. -/
def textWith (inner : String) : Value → String
  | i32 value => toString value.toInt
  | i64 value => toString value.toInt ++ "L"
  | str text => "\"" ++ text ++ "\""
  | null => "null"
  | boxed sig value => "box " ++ sig.text ++ "(" ++ value.textWith inner ++ ")"
  | array _ => inner
  | typeToken sig => "token " ++ sig.text
  | type sig => "typeof(" ++ sig.text ++ ")"
  | object name => "object " ++ name.text
  | localAddress index => s!"&V_{index}"
  | argumentAddress index => s!"&A_{index}"

/-- The text of the value, `text` giving that of an array. -/
def textBy (text : Nat → Option String) (v : Value) : Option String :=
  match v.array? with
  | some inner => (text inner).map v.textWith
  | none => some (v.textWith "")

/-- Equality of values, `same` telling it of arrays. -/
def sameBy (same : Nat × Nat → Option Bool) (v w : Value) : Option Bool :=
  match v.array?, w.array? with
  | some a, some b => if v.leadTo 0 = w.leadTo 0 then same (a, b) else some false
  | _, _ => some (v = w)

end Value

namespace Heap

/-- The text of an array, `text` giving those of the arrays in it. -/
def arrayTextBy (heap : Heap) (text : Nat → Option String) (ref : Nat) : Option String :=
  match heap[ref]? with
  | none => some ""
  | some a =>
    (a.values.toList.mapM (Value.textBy text)).map fun texts =>
      a.element.text ++ "[" ++ String.intercalate ", " texts ++ "]"

/-- The text of an array, if making it comes to an end: an array that leads back to itself has none. -/
def arrayText? (heap : Heap) : Nat → Option String := unroll heap.arrayTextBy (heap.size + 1)

/-- The text of a value, if making it comes to an end. -/
def text? (heap : Heap) : Value → Option String := Value.textBy heap.arrayText?

/-- Equality of the contents of two arrays, `same` telling it of the arrays in them. -/
def sameArrayBy (heap : Heap) (same : Nat × Nat → Option Bool) (arrays : Nat × Nat) : Option Bool :=
  match heap[arrays.1]?, heap[arrays.2]? with
  | some x, some y =>
    if x.element = y.element && x.values.size = y.values.size then
      (x.values.toList.zip y.values.toList).allM fun p => p.1.sameBy same p.2
    else some false
  | _, _ => some (arrays.1 = arrays.2)

/-- Equality of contents, if looking for a difference comes to an end. -/
def sameArray? (heap : Heap) : Nat × Nat → Option Bool := unroll heap.sameArrayBy (heap.size * heap.size + 1)

def same? (heap : Heap) : Value → Value → Option Bool := Value.sameBy heap.sameArray?

/-- A fault that tells a value. -/
def fault (heap : Heap) (kind : String → MachineFault) (v : Value) : MachineFault :=
  match heap.text? v with
  | some text => kind text
  | none => .endless

def fault₂ (heap : Heap) (kind : String → String → MachineFault) (v w : Value) : MachineFault :=
  match heap.text? v, heap.text? w with
  | some left, some right => kind left right
  | _, _ => .endless

def alloc (heap : Heap) (element : Sig) (values : Array Value) : Value × Heap :=
  (.array heap.size, heap.push ⟨element, values⟩)

def store (heap : Heap) (ref index : Nat) (v : Value) : Heap :=
  heap.modify ref fun a => { a with values := a.values.setIfInBounds index v }

def int32 (heap : Heap) : Value → Except MachineFault (BitVec 32)
  | .i32 value => .ok value
  | v => .error (heap.fault .expectedInt32 v)

/-- An integer of either width, widened by its sign. -/
def int64 (heap : Heap) : Value → Except MachineFault (BitVec 64)
  | .i32 value => .ok (value.signExtend 64)
  | .i64 value => .ok value
  | v => .error (heap.fault .expectedInteger v)

/-- The enum value of a kind that a stack value stands for. -/
def enum (heap : Heap) (k : IntKind) (v : Value) : Except MachineFault (EnumValue k) := do
  return .ofWord k (← heap.int64 v)

end Heap

end CilForge
