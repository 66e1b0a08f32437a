import CilForge.Body.Listing
import CilForge.IntKind
import CilForge.Token
import CilForge.Unroll

/-!
# Modules

A module is a table of types, each with its fields, methods and attributes. A nested type knows
the type around it, which is always an earlier row of the table, and is on the list of types of
that one. Full names follow the links outwards, visits go down along the lists.
-/

namespace CilForge

inductive Constant where
  | boolean (value : Bool)
  | char (unit : BitVec 16)
  | int (kind : IntKind) (value : EnumValue kind)
  | string (value : String)
  | null

namespace Constant

/-- The integer behind a constant, widened by its own sign. -/
def word? : Constant → Option (BitVec 64)
  | boolean value => some (if value then 1 else 0)
  | char unit => some (unit.setWidth 64)
  | int kind value => some (if kind.isSigned then value.signExtend 64 else value.setWidth 64)
  | string _ | null => none

/-- The constant of an element type, cut to its width. -/
def ofWord? (sig : Sig) (w : BitVec 64) : Option Constant :=
  match sig with
  | .prim .bool => some (boolean (w != 0))
  | .prim .char => some (char (w.setWidth 16))
  | sig => (IntKind.ofSig? sig).map fun k => int k (.ofWord k w)

/-- The tag of an integer constant: sign and width in bytes. -/
def kindTag (k : IntKind) : String := (if k.isSigned then "I" else "U") ++ toString k.width

def text : Constant → String
  | boolean value => s!"Boolean({value})"
  | char unit => s!"Char({unit.toNat})"
  | int kind value => s!"{kindTag kind}({value.text})"
  | string value => s!"String({Text.quoted value})"
  | null => "Null"

end Constant

namespace TypeFlags

def notPublic : BitVec 32 := 0x0
def isPublic : BitVec 32 := 0x1
def nestedPublic : BitVec 32 := 0x2
def isAbstract : BitVec 32 := 0x80
def isSealed : BitVec 32 := 0x100
def beforeFieldInit : BitVec 32 := 0x100000

end TypeFlags

namespace FieldFlags

def isPublic : BitVec 32 := 0x6
def isStatic : BitVec 32 := 0x10
def isLiteral : BitVec 32 := 0x40
def specialName : BitVec 32 := 0x200
def runtimeSpecialName : BitVec 32 := 0x400
def hasDefault : BitVec 32 := 0x8000

end FieldFlags

namespace MethodFlags

def isAssembly : BitVec 32 := 0x3
def isStatic : BitVec 32 := 0x10
def hideBySig : BitVec 32 := 0x80

end MethodFlags

structure FieldDef where
  name : String
  flags : BitVec 32
  sig : Sig
  constant : Option Constant := none

namespace FieldDef

def isStatic (f : FieldDef) : Bool := f.flags &&& FieldFlags.isStatic ≠ 0

def isLiteral (f : FieldDef) : Bool :=
  f.isStatic && f.flags &&& FieldFlags.isLiteral ≠ 0 && f.constant.isSome

end FieldDef

structure MethodDef where
  token : Token := {}
  name : String
  flags : BitVec 32
  sig : MethodSig
  body : Option Body := none

structure TypeDef where
  token : Token := {}
  ns : String := ""
  name : String
  flags : BitVec 32
  base : Option TypeName := none
  enclosing : Option Nat := none
  nested : List Nat := []
  genericParams : Nat := 0
  fields : Array FieldDef := #[]
  methods : Array MethodDef := #[]
  attributes : List TypeName := []

namespace TypeDef

def isEnum (t : TypeDef) : Bool := t.base = some (.system "Enum")

def isValueType (t : TypeDef) : Bool := t.isEnum || t.base = some (.system "ValueType")

def hasAttribute (t : TypeDef) (name : TypeName) : Bool := t.attributes.contains name

def methodIndex? (t : TypeDef) (name : String) : Option Nat :=
  t.methods.findIdx? (·.name = name)

end TypeDef

/-- The place of a method: its type and its index there. -/
structure MethodId where
  type : Nat
  index : Nat
deriving DecidableEq

structure ModuleDef where
  name : String
  types : Array TypeDef := #[]
  methodRows : Nat := 0

namespace ModuleDef

def ids (m : ModuleDef) : List Nat := List.range m.types.size

def method? (m : ModuleDef) (id : MethodId) : Option MethodDef := do
  (← m.types[id.type]?).methods[id.index]?

def enclosing? (m : ModuleDef) (id : Nat) : Option Nat := (m.types[id]?).bind (·.enclosing)

def modifyType (m : ModuleDef) (id : Nat) (f : TypeDef → TypeDef) : ModuleDef :=
  { m with types := m.types.modify id f }

def setBody (m : ModuleDef) (id : MethodId) (body : Option Body) : ModuleDef :=
  m.modifyType id.type fun t =>
    { t with methods := t.methods.modify id.index fun d => { d with body } }

/-- Adds a type, and puts it on the list of the type around it. What is on its own list stays there. -/
def addType (m : ModuleDef) (t : TypeDef) : Except Fault (Nat × ModuleDef) :=
  let id := m.types.size
  let row := { t with token := .type (id + 1) }
  match t.enclosing with
  | none => .ok (id, { m with types := m.types.push row })
  | some e =>
    if e < id then
      let listed := m.modifyType e fun o => { o with nested := o.nested ++ [id] }
      .ok (id, { listed with types := listed.types.push row })
    else .error (.invariant (.noEnclosingType e))

def addMethod (m : ModuleDef) (type : Nat) (d : MethodDef) : Except Fault (MethodId × ModuleDef) :=
  match m.types[type]? with
  | none => .error (.invariant (.noType type))
  | some t =>
    let row := m.methodRows + 1
    let placed := m.modifyType type fun t =>
      { t with methods := t.methods.push { d with token := .method row } }
    .ok (⟨type, t.methods.size⟩, { placed with methodRows := row })

def nestedIn (m : ModuleDef) (id : Nat) : List Nat := ((m.types[id]?).map (·.nested)).getD []

def roots (m : ModuleDef) : List Nat := m.ids.filter fun id => (m.enclosing? id).isNone

/-- A type and then those that `visit` gives for the types on its list. -/
def visitBy (m : ModuleDef) (visit : Nat → Option (List Nat)) (id : Nat) : Option (List Nat) := do
  let parts ← (m.nestedIn id).mapM visit
  return id :: parts.flatten

/-- A type and then, along the lists, all types inside it. Lists that lead back to a type have no end. -/
def visit? (m : ModuleDef) : Nat → Option (List Nat) := unroll m.visitBy (m.types.size + 1)

/-- All types, each followed by the types inside it. -/
def order? (m : ModuleDef) : Option (List Nat) := do
  let parts ← m.roots.mapM m.visit?
  return parts.flatten

/-- The types to visit, as far as there is an order of them. -/
def order (m : ModuleDef) : List Nat := m.order?.getD []

/-- The namespace of the outermost type around a type, and the names from there inwards. -/
def path (m : ModuleDef) (id : Nat) : String × List String :=
  match m.types[id]? with
  | none => ("", [])
  | some t =>
    match t.enclosing with
    | none => (t.ns, [t.name])
    | some e =>
      if e < id then
        let outer := m.path e
        (outer.1, outer.2 ++ [t.name])
      else (t.ns, [t.name])
termination_by id

/-- The full name of a type; empty if there is no such type. -/
def typeName (m : ModuleDef) (id : Nat) : TypeName :=
  let (ns, names) := m.path id
  ⟨ns, String.intercalate "/" names⟩

def find? (m : ModuleDef) (name : TypeName) : Option Nat :=
  m.ids.find? fun id => m.typeName id = name

def methodRef? (m : ModuleDef) (id : MethodId) : Option MethodRef :=
  (m.method? id).map fun d => ⟨m.typeName id.type, d.name, d.sig⟩

/-- The first method of the named type that has that name and signature. -/
def lookup? (m : ModuleDef) (ref : MethodRef) : Option MethodDef := do
  let id ← m.find? ref.declaring
  (← m.types[id]?).methods.find? fun d => d.name = ref.name && d.sig = ref.sig

/-- The methods of a type, each followed by its code. -/
def typeListing (m : ModuleDef) (id : Nat) : List String :=
  match m.types[id]? with
  | none => []
  | some t =>
    t.methods.toList.flatMap fun d =>
      s!"{(m.typeName id).text}::{d.name}" :: ((d.body.map Body.listing).getD []).map ("  " ++ ·)

def listing? (m : ModuleDef) : Option (List String) := m.order?.map (·.flatMap m.typeListing)

def text? (m : ModuleDef) : Option String := m.listing?.map fun lines => String.join (lines.map (· ++ "\n"))

end ModuleDef

end CilForge
