import CilForge.TypeName

/-!
# Signatures

The types that locals, parameters and operands have, and references to methods and fields by
declaring type, name and signature.
-/

namespace CilForge

/-- The types known by a word of their own. -/
inductive Primitive where
  | void | bool | char
  | int8 | uint8 | int16 | uint16 | int32 | uint32 | int64 | uint64
  | float32 | float64 | nint | nuint | string | object
deriving DecidableEq, Hashable, Inhabited

namespace Primitive

def all : List Primitive :=
  [void, bool, char, int8, uint8, int16, uint16, int32, uint32, int64, uint64, float32, float64,
    nint, nuint, string, object]

def text : Primitive → String
  | void => "void" | bool => "bool" | char => "char"
  | int8 => "int8" | uint8 => "uint8" | int16 => "int16" | uint16 => "uint16"
  | int32 => "int32" | uint32 => "uint32" | int64 => "int64" | uint64 => "uint64"
  | float32 => "float32" | float64 => "float64"
  | nint => "native int" | nuint => "native uint" | string => "string" | object => "object"

/-- The name under which the platform library defines the type. -/
def className? : Primitive → Option String
  | void => none | bool => some "Boolean" | char => some "Char"
  | int8 => some "SByte" | uint8 => some "Byte" | int16 => some "Int16" | uint16 => some "UInt16"
  | int32 => some "Int32" | uint32 => some "UInt32" | int64 => some "Int64"
  | uint64 => some "UInt64" | float32 => some "Single" | float64 => some "Double"
  | nint => some "IntPtr" | nuint => some "UIntPtr" | string => some "String"
  | object => some "Object"

end Primitive

inductive Sig where
  | prim (p : Primitive)
  | valueType (name : TypeName)
  | cls (name : TypeName)
  | generic (base : Sig) (args : List Sig)
  | typeParam (index : Nat)
  | methodParam (index : Nat)
  | array (element : Sig)
  | byRef (inner : Sig)
deriving Inhabited

namespace Sig

mutual

def decEq : (a b : Sig) → Decidable (a = b)
  | .prim p, b =>
    match b with
    | .prim q => decidable_of_iff (p = q) (by simp)
    | .valueType _ | .cls _ | .generic _ _ | .typeParam _ | .methodParam _ | .array _ | .byRef _ =>
      isFalse nofun
  | .valueType m, b =>
    match b with
    | .valueType n => decidable_of_iff (m = n) (by simp)
    | .prim _ | .cls _ | .generic _ _ | .typeParam _ | .methodParam _ | .array _ | .byRef _ =>
      isFalse nofun
  | .cls m, b =>
    match b with
    | .cls n => decidable_of_iff (m = n) (by simp)
    | .prim _ | .valueType _ | .generic _ _ | .typeParam _ | .methodParam _ | .array _
    | .byRef _ => isFalse nofun
  | .generic c as, b =>
    match b with
    | .generic d bs =>
      have := decEq c d
      have := decEqList as bs
      decidable_of_iff (c = d ∧ as = bs) (by simp)
    | .prim _ | .valueType _ | .cls _ | .typeParam _ | .methodParam _ | .array _ | .byRef _ =>
      isFalse nofun
  | .typeParam m, b =>
    match b with
    | .typeParam n => decidable_of_iff (m = n) (by simp)
    | .prim _ | .valueType _ | .cls _ | .generic _ _ | .methodParam _ | .array _ | .byRef _ =>
      isFalse nofun
  | .methodParam m, b =>
    match b with
    | .methodParam n => decidable_of_iff (m = n) (by simp)
    | .prim _ | .valueType _ | .cls _ | .generic _ _ | .typeParam _ | .array _ | .byRef _ =>
      isFalse nofun
  | .array e, b =>
    match b with
    | .array f =>
      have := decEq e f
      decidable_of_iff (e = f) (by simp)
    | .prim _ | .valueType _ | .cls _ | .generic _ _ | .typeParam _ | .methodParam _
    | .byRef _ => isFalse nofun
  | .byRef e, b =>
    match b with
    | .byRef f =>
      have := decEq e f
      decidable_of_iff (e = f) (by simp)
    | .prim _ | .valueType _ | .cls _ | .generic _ _ | .typeParam _ | .methodParam _
    | .array _ => isFalse nofun

def decEqList : (as bs : List Sig) → Decidable (as = bs)
  | [], [] => isTrue rfl
  | [], _ :: _ => isFalse nofun
  | _ :: _, [] => isFalse nofun
  | a :: as, b :: bs =>
    have := decEq a b
    have := decEqList as bs
    decidable_of_iff (a = b ∧ as = bs) (by simp)

end

instance : DecidableEq Sig := decEq

@[match_pattern] abbrev void : Sig := .prim .void
@[match_pattern] abbrev bool : Sig := .prim .bool
@[match_pattern] abbrev int32 : Sig := .prim .int32
@[match_pattern] abbrev string : Sig := .prim .string
@[match_pattern] abbrev object : Sig := .prim .object

def system (name : String) : Sig := .cls (.system name)

mutual

def text : Sig → String
  | .prim p => p.text
  | .valueType name => "valuetype " ++ name.text
  | .cls name => "class " ++ name.text
  | .generic base args => text base ++ "<" ++ String.intercalate ", " (textList args) ++ ">"
  | .typeParam index => s!"!{index}"
  | .methodParam index => s!"!!{index}"
  | .array element => text element ++ "[]"
  | .byRef inner => text inner ++ "&"

def textList : List Sig → List String
  | [] => []
  | s :: rest => text s :: textList rest

end

/-- The name of a type that a module defines. -/
def typeName? : Sig → Option TypeName
  | .valueType name | .cls name => some name
  | _ => none

/-- The platform name of a type known by a word. -/
def primitiveName? : Sig → Option TypeName
  | .prim p => p.className?.map TypeName.system
  | _ => none

def names (s : Sig) (name : TypeName) : Bool :=
  match s.typeName? with
  | some own => own = name
  | none => s.primitiveName? = some name

def isGeneric : Sig → Bool
  | .generic _ _ | .typeParam _ | .methodParam _ => true
  | _ => false

/-- Types whose values are references already and are not changed by boxing. -/
def isReference : Sig → Bool
  | .string | .object | .cls _ | .array _ => true
  | _ => false

end Sig

structure MethodSig where
  hasThis : Bool := false
  ret : Sig := .void
  params : List Sig := []
deriving DecidableEq, Inhabited

namespace MethodSig

def popCount (s : MethodSig) : Nat := s.params.length + s.hasThis.toNat

def pushCount (s : MethodSig) : Nat := if s.ret = .void then 0 else 1

end MethodSig

structure MethodRef where
  declaring : TypeName
  name : String
  sig : MethodSig
deriving DecidableEq, Inhabited

namespace MethodRef

def text (m : MethodRef) : String :=
  (if m.sig.hasThis then "instance " else "") ++
    s!"{m.sig.ret.text} {m.declaring.text}::{m.name}(" ++
    String.intercalate ", " (m.sig.params.map Sig.text) ++ ")"

/-- Whether the reference is to a method of that type, name and number of parameters. -/
def isNamed (m : MethodRef) (type : TypeName) (name : String) (params : Nat) : Bool :=
  m.declaring = type && m.name = name && m.sig.params.length = params

end MethodRef

structure FieldRef where
  declaring : TypeName
  name : String
  type : Sig
deriving DecidableEq, Inhabited

def FieldRef.text (f : FieldRef) : String :=
  s!"{f.type.text} {f.declaring.text}::{f.name}"

end CilForge
