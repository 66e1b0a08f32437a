import CilForge.Event
import CilForge.Settings

/-!
# Sessions and generated methods

A session is the work on one module: the module as it is by now, the methods generated so far, the
events and the log. Each pair of operation and enum has one generated method, and a method that a
session before has left in the holder is used again.
-/

namespace CilForge

structure Context where
  settings : Settings := {}
  library : Library := []

structure Generated where
  holder : Option Nat := none
  helpers : List ((Operation × TypeName) × MethodRef) := []
  created : Array MethodId := #[]

structure Session where
  module : ModuleDef
  generated : Generated := {}
  events : EventLog := #[]
  log : Array LogLine := #[]

/-- A computation in a session that may fail; what it has done by then stays done. -/
abbrev Work := ExceptT Fault (StateM Session)

namespace Session

def record (s : Session) (e : Event) : Session := { s with events := s.events.push e }

def note (s : Session) (level : LogLevel) (message : String) : Session :=
  { s with log := s.log.push ⟨level, message⟩ }

end Session

namespace Work

def get : Work Session := fun s => (.ok s, s)

def update (f : Session → Session) : Work Unit := fun s => (.ok (), f s)

/-- Changes the module; a refusal leaves it alone. -/
def onModule {α : Type} (f : ModuleDef → Except Fault (α × ModuleDef)) : Work α := fun s =>
  match f s.module with
  | .ok (a, module) => (.ok a, { s with module })
  | .error e => (.error e, s)

/-- Goes through a list; tells whether some step has said yes. -/
def each {α : Type} (f : α → Work Bool) : List α → Work Bool
  | [] => return false
  | a :: rest => do
    let here ← f a
    let there ← each f rest
    return here || there

end Work

/-- Work that may have no end. -/
abbrev Work? := ExceptT Fault (StateT Session Option)

namespace Work?

def ofOption {α : Type} (o : Option α) : Work? α := fun s => o.map fun a => (.ok a, s)

def each {α : Type} (f : α → Work? Bool) : List α → Work? Bool
  | [] => return false
  | a :: rest => do
    let here ← f a
    let there ← each f rest
    return here || there

end Work?

namespace Generated

/-- The plain name of a generated method: dots and slashes of the enum's name are flattened. -/
def baseName (op : Operation) (enum : TypeName) : String :=
  op.name ++ "_" ++ enum.text.map fun c => if c = '.' || c = '/' then '_' else c

/-- The names tried for a method, one after the other. -/
def candidate (base : String) (n : Nat) : String := if n = 0 then base else s!"{base}_{n + 1}"

/-- A name to use: one that no method has, or one whose first method has the wanted signature,
given by its index. -/
def settle (methods : Array MethodDef) (sig : MethodSig) (name : String) :
    Option (String × Option Nat) :=
  match methods.findIdx? (·.name = name) with
  | none => some (name, none)
  | some i => if (methods[i]?.map (·.sig)) = some sig then some (name, some i) else none

/-- The first usable name. Among one more candidates than there are methods, one is free. -/
def chooseName (methods : Array MethodDef) (sig : MethodSig) (base : String) :
    String × Option Nat :=
  ((List.range (methods.size + 1)).findSome? fun n =>
    settle methods sig (candidate base n)).getD (base, none)

def holderDef (name : TypeName) : TypeDef :=
  { ns := name.ns
    name := name.name
    flags := TypeFlags.notPublic ||| TypeFlags.isAbstract ||| TypeFlags.isSealed |||
      TypeFlags.beforeFieldInit
    base := some (.system "Object") }

/-- The row of the holder, which is looked for once, and made if there is none. -/
def holderRow (name : TypeName) : Work Nat := do
  let s ← Work.get
  match s.generated.holder with
  | some id => return id
  | none =>
    let id ←
      match s.module.find? name with
      | some id => pure id
      | none => Work.onModule (·.addType (holderDef name))
    Work.update fun s => { s with generated := { s.generated with holder := some id } }
    return id

def create (ctx : Context) (holder : Nat) (name : String) (op : Operation) (d : EnumInfo) :
    Work MethodId := do
  let body ← ExceptT.mk (pure (op.generate d ctx.settings.density))
  let id ← Work.onModule fun m => m.addMethod holder {
    name
    flags := MethodFlags.isAssembly ||| MethodFlags.isStatic ||| MethodFlags.hideBySig
    sig := op.sig d.sig
    body := some body }
  Work.update fun s =>
    let made := s.note .debug s!"Generated helper {ctx.settings.holder.text}::{name}"
    { made with generated := { made.generated with created := made.generated.created.push id } }
  Work.update fun s => s.record {
    kind := .helperGenerated
    method := (s.module.method? id).map (·.token)
    message := s!"{ctx.settings.holder.text}::{name}" }
  return id

/-- Notes which method a request leads to, for the next one. -/
def keep (op : Operation) (d : EnumInfo) (name : String) (id : MethodId) : Work MethodRef := do
  match (← Work.get).module.methodRef? id with
  | none => throw (.invariant (.helperGone name))
  | some ref =>
    Work.update fun s => { s with generated :=
      { s.generated with helpers := ((op, d.name), ref) :: s.generated.helpers } }
    return ref

/-- The method of an operation on an enum in the holder, which is made if there is none. -/
def fetch (ctx : Context) (op : Operation) (d : EnumInfo) (holder : Nat) : Work MethodRef := do
  let methods := (((← Work.get).module.types[holder]?).map (·.methods)).getD #[]
  match chooseName methods (op.sig d.sig) (baseName op d.name) with
  | (name, some index) => keep op d name ⟨holder, index⟩
  | (name, none) => keep op d name (← create ctx holder name op d)

end Generated

def helper (ctx : Context) (op : Operation) (d : EnumInfo) : Work MethodRef := do
  match (← Work.get).generated.helpers.lookup (op, d.name) with
  | some ref => return ref
  | none => Generated.fetch ctx op d (← Generated.holderRow ctx.settings.holder)

end CilForge
