import CilForge.Module.Basic

/-!
# Declaring enums

An enum is a sealed type over the platform's enum base: a field that holds the value, and one
literal field for each named constant.
-/

namespace CilForge

structure EnumDecl where
  name : String
  ns : String := ""
  underlying : Sig := .int32
  enclosing : Option Nat := none
  isFlags : Bool := false
  values : List (String × BitVec 64) := []

namespace EnumDecl

/-- The type of the constants: the enum itself, by its full name. -/
def sig (e : EnumDecl) (m : ModuleDef) : Sig :=
  match e.enclosing with
  | some id =>
    let outer := m.typeName id
    .valueType ⟨outer.ns, outer.name ++ "/" ++ e.name⟩
  | none => .valueType ⟨e.ns, e.name⟩

def valueField (e : EnumDecl) : FieldDef :=
  { name := "value__"
    flags := FieldFlags.isPublic ||| FieldFlags.specialName ||| FieldFlags.runtimeSpecialName
    sig := e.underlying }

def constantField (e : EnumDecl) (sig : Sig) (value : String × BitVec 64) :
    Except Fault FieldDef :=
  match Constant.ofWord? e.underlying value.2 with
  | none => .error (.unsupported (.enumBase e.underlying))
  | some constant =>
    .ok {
      name := value.1
      flags := FieldFlags.isPublic ||| FieldFlags.isStatic ||| FieldFlags.isLiteral |||
        FieldFlags.hasDefault
      sig
      constant }

def addTo (e : EnumDecl) (m : ModuleDef) : Except Fault (Nat × ModuleDef) := do
  let constants ← e.values.mapM (e.constantField (e.sig m))
  m.addType {
    ns := if e.enclosing.isSome then "" else e.ns
    name := e.name
    flags := (if e.enclosing.isSome then TypeFlags.nestedPublic else TypeFlags.isPublic) |||
      TypeFlags.isSealed
    base := some (.system "Enum")
    enclosing := e.enclosing
    attributes := if e.isFlags then [.system "FlagsAttribute"] else []
    fields := (e.valueField :: constants).toArray }

end EnumDecl

end CilForge
