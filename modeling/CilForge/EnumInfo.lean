import CilForge.Library

/-!
# What is known of an enum

What an enum type declares: its integer kind, its named constants, and whether it is a set of
flags. From it follow the name of a value and the text the platform gives a value.
-/

namespace CilForge

structure EnumConstant (k : IntKind) where
  name : String
  value : EnumValue k
deriving DecidableEq

/-- The constants whose value no earlier one has. -/
def distinctConstants {k : IntKind} (cs : List (EnumConstant k)) : List (EnumConstant k) :=
  cs.foldl (fun kept c => if kept.any (·.value = c.value) then kept else kept ++ [c]) []

structure EnumInfo where
  name : TypeName
  kind : IntKind
  declared : List (EnumConstant kind)
  isFlags : Bool

namespace EnumInfo

/-- The integer of a literal field, as a constant of the kind. -/
def readConstant (name : TypeName) (k : IntKind) (f : FieldDef) :
    Except Fault (EnumConstant k) :=
  match f.constant.bind Constant.word? with
  | some w => .ok ⟨f.name, .ofWord k w⟩
  | none => .error (.unsupported (.constantKind name f.name))

/-- Reads the declaration of a type under the given name. -/
def ofType (name : TypeName) (t : TypeDef) : Except Fault EnumInfo := do
  if !t.isEnum then throw (.unsupported (.notEnum name))
  if 0 < t.genericParams then throw (.unsupported (.genericEnum name))
  match t.fields.find? fun f => f.name = "value__" && !f.isStatic with
  | none => throw (.unsupported (.noValueField name))
  | some field =>
    match IntKind.ofSig? field.sig with
    | none => throw (.unsupported (.underlyingType name field.sig))
    | some kind =>
      let declared ← (t.fields.toList.filter (·.isLiteral)).mapM (readConstant name kind)
      return { name, kind, declared, isFlags := t.hasAttribute (.system "FlagsAttribute") }

def sig (d : EnumInfo) : Sig := .valueType d.name

/-- The declared constants without later names of the same value. -/
def constants (d : EnumInfo) : List (EnumConstant d.kind) := distinctConstants d.declared

/-- All declared values by ascending bit pattern, repeated ones included. -/
def valuesInOrder (d : EnumInfo) : List (EnumValue d.kind) :=
  (d.declared.map (·.value)).mergeSort fun a b => a.toNat ≤ b.toNat

def nameOf? (d : EnumInfo) (v : EnumValue d.kind) : Option String :=
  (d.constants.find? (·.value = v)).map (·.name)

/-- Takes away from `rest` the constants it contains, in order, until nothing is left; gives their
names, the last one first, and what is left. -/
def strip {k : IntKind} : List (EnumConstant k) → EnumValue k → List String → List String × EnumValue k
  | [], rest, names => (names, rest)
  | c :: cs, rest, names =>
    if rest = 0 then (names, rest)
    else if rest &&& c.value = c.value then strip cs (rest &&& ~~~c.value) (c.name :: names)
    else strip cs rest names

def formatWith {k : IntKind} (constants : List (EnumConstant k)) (isFlags : Bool)
    (v : EnumValue k) : String :=
  match constants.find? (·.value = v) with
  | some c => c.name
  | none =>
    if !isFlags || v = 0 then v.text
    else
      let descending := (constants.filter (·.value ≠ 0)).mergeSort fun a b =>
        b.value.toNat ≤ a.value.toNat
      let (names, rest) := strip descending v []
      if rest = 0 then String.intercalate ", " names else v.text

/-- The text the platform gives a value: its name; for a set of flags the names it is made of, the
largest constants taken first; else its number. -/
def format (d : EnumInfo) (v : EnumValue d.kind) : String :=
  formatWith d.constants d.isFlags v

def ofSig (lib : Library) (m : ModuleDef) (sig : Sig) : Except Fault EnumInfo :=
  match sig with
  | .valueType name => do ofType name (← lib.resolve m name).definition
  | sig => .error (.unsupported (.notValueType sig))

end EnumInfo

end CilForge
