import CilForge.Module.Basic

/-!
# Resolving names

A name is looked up in the module at hand first and then in the platform modules, in order.
-/

namespace CilForge

abbrev Library := List ModuleDef

/-- A definition, with its row if it is one of the module at hand. -/
structure Resolved where
  definition : TypeDef
  row : Option Nat

namespace Library

def resolve (lib : Library) (m : ModuleDef) (name : TypeName) : Except Fault Resolved :=
  match (m.find? name).bind fun id => (m.types[id]?).map (id, ·) with
  | some (id, t) => .ok ⟨t, some id⟩
  | none =>
    match lib.findSome? fun p => (p.find? name).bind (p.types[·]?) with
    | some t => .ok ⟨t, none⟩
    | none => .error (.unresolved name.text)

def resolveSig (lib : Library) (m : ModuleDef) (sig : Sig) : Except Fault Resolved :=
  match sig.typeName? with
  | some name => lib.resolve m name
  | none => .error (.unresolved sig.text)

end Library

end CilForge
