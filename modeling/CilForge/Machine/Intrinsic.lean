import CilForge.EnumInfo
import CilForge.Machine.Arith
import CilForge.Platform

/-!
# Platform methods as the machine does them

The reflective enum methods, modelled on the declarations that the module and the library hold.
-/

namespace CilForge

/-- The definitions a run refers to. -/
structure Scope where
  module : ModuleDef
  library : Library := []

namespace Scope

/-- The enum that a value type names, if it names one. -/
def enumInfo? (s : Scope) : Sig → Option EnumInfo
  | .valueType name =>
    match s.library.resolve s.module name with
    | .ok r => (EnumInfo.ofType name r.definition).toOption
    | .error _ => none
  | _ => none

def enumInfo (s : Scope) (sig : Sig) : Except MachineFault EnumInfo :=
  match s.enumInfo? sig with
  | some d => .ok d
  | none => .error (.notEnum sig)

end Scope

namespace Intrinsic

variable (s : Scope) (heap : Heap)

def expectType : Value → Except MachineFault Sig
  | .type sig => .ok sig
  | v => .error (heap.fault .expectedType v)

def unbox : Value → Except MachineFault (Sig × Value)
  | .boxed sig v => .ok (sig, v)
  | .null => .error .nullReference
  | v => .error (heap.fault .expectedBox v)

/-- The type and the bits of a boxed integer or enum value. -/
def boxedBits (v : Value) : Except MachineFault (Sig × BitVec 64) := do
  let (sig, inner) ← unbox heap v
  match IntKind.ofSig? sig with
  | some k => return (sig, (← heap.enum k inner).stack64)
  | none =>
    let d ← s.enumInfo sig
    return (sig, (← heap.enum d.kind inner).stack64)

def getTypeFromHandle : List Value → Except MachineFault Value
  | [.typeToken sig] => .ok (.type sig)
  | _ => .error (.arguments "GetTypeFromHandle expects a type handle")

def getValues : List Value → Except MachineFault (Value × Heap)
  | [type] => do
    let sig ← expectType heap type
    let d ← s.enumInfo sig
    return heap.alloc sig (d.valuesInOrder.map Value.ofEnum).toArray
  | _ => .error (.arguments "GetValues expects one argument")

def isDefined : List Value → Except MachineFault Value
  | [type, value] => do
    let sig ← expectType heap type
    let d ← s.enumInfo sig
    match value with
    | .str name => return .bool (d.declared.any (·.name = name))
    | value =>
      let (boxed, bits) ← boxedBits s heap value
      if boxed ≠ d.sig && boxed ≠ d.kind.sig then throw (.definedMismatch boxed d.name)
      return .bool (d.nameOf? (.ofWord d.kind bits)).isSome
  | _ => .error (.arguments "IsDefined expects two arguments")

def getUnderlyingType : List Value → Except MachineFault Value
  | [type] => do
    let d ← s.enumInfo (← expectType heap type)
    return .type d.kind.sig
  | _ => .error (.arguments "GetUnderlyingType expects one argument")

def hasFlag : List Value → Except MachineFault Value
  | [this, flag] => do
    let (left, value) ← boxedBits s heap this
    let (right, flag) ← boxedBits s heap flag
    if left ≠ right then throw (.flagMismatch left right)
    return .bool (value &&& flag = flag)
  | _ => .error (.arguments "HasFlag expects two arguments")

def toText : List Value → Except MachineFault Value
  | [.str text] => .ok (.str text)
  | [this] => do
    let (sig, inner) ← unbox heap this
    match IntKind.ofSig? sig with
    | some k => return .str (← heap.enum k inner).text
    | none =>
      match s.enumInfo? sig with
      | some d => return .str (d.format (← heap.enum d.kind inner))
      | none => throw (.noFormat sig)
  | _ => .error (.arguments "ToString expects a receiver")

def equals : List Value → Except MachineFault Value
  | [_, .null] => .ok (.bool false)
  | [this, other] => do
    let (left, a) ← boxedBits s heap this
    let (right, b) ← boxedBits s heap other
    return .bool (left = right && a = b)
  | _ => .error (.arguments "Equals expects two arguments")

def convertToString (m : MethodRef) (args : List Value) : Except MachineFault Value :=
  match m.sig.params.head?.bind IntKind.ofSig? with
  | none => .error (.noFormatter m)
  | some k =>
    match args with
    | [v] => do return .str (← heap.enum k v).text
    | _ => .error (.arguments "Convert.ToString expects one argument")

/-- The result of a platform method; none if the machine does not know it. -/
def invoke? (m : MethodRef) (args : List Value) : Option (Except MachineFault (Value × Heap)) :=
  let plain (r : Except MachineFault Value) := some (r.map (·, heap))
  if Platform.isGetTypeFromHandle m then plain (getTypeFromHandle args)
  else if Platform.isEnumGetValues m then some (getValues s heap args)
  else if Platform.isEnumIsDefined m then plain (isDefined s heap args)
  else if Platform.isEnumGetUnderlyingType m then plain (getUnderlyingType s heap args)
  else if Platform.isEnumHasFlag m then plain (hasFlag s heap args)
  else if Platform.isVirtualToString m then plain (toText s heap args)
  else if Platform.isVirtualEquals m then plain (equals s heap args)
  else if Platform.isConvertToString m then plain (convertToString heap m args)
  else if m = Platform.invalidOperation then plain (.ok (.object m.declaring))
  else none

end Intrinsic

end CilForge
