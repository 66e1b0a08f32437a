import CilForge.Draft
import CilForge.Roster
import CilForge.Platform

/-!
# Generated enum operations

Straight code for the enum operations that the platform does by reflection: lookups by table,
search or comparison for the name and the membership of a value, an array of all values, and
equality.
-/

namespace CilForge

/-- An enum operation that can be generated. -/
inductive Operation where
  | toString | isDefined | getValues | equals
deriving DecidableEq, Hashable

namespace Operation

def all : List Operation := [toString, isDefined, getValues, equals]

def name : Operation → String
  | toString => "ToString" | isDefined => "IsDefined" | getValues => "GetValues"
  | equals => "Equals"

def sig (op : Operation) (enum : Sig) : MethodSig :=
  match op with
  | toString => { ret := .string, params := [enum] }
  | isDefined => { ret := .bool, params := [enum] }
  | getValues => { ret := .array enum }
  | equals => { ret := .bool, params := [enum, enum] }

end Operation

/-- How lookups are generated: the places a table may have for each value, and how many unions of
flags are listed. -/
structure Density where
  ratio : Nat := 2
  maxFlags : Nat := 256

/-- What a lookup answers: the name of a value, or whether it is a declared one. -/
inductive Lookup where
  | names | membership
deriving DecidableEq

/-- A place of a dense table: an entry by number, or a value between entries. -/
inductive Slot (k : IntKind) where
  | hit (index : Nat)
  | gap (value : EnumValue k)

namespace Lookup

variable {k : IntKind}

def hitLabel (mode : Lookup) (index : Nat) : String :=
  match mode with
  | names => s!"hit_{index}"
  | membership => "hit"

def between (low high : EnumValue k) : List (EnumValue k) :=
  (List.range (high.offsetFrom low - 1)).map fun i => low + 1 + BitVec.ofNat _ i

/-- The places behind `last`, where the next entry has number `index`. -/
def slotsFrom (index : Nat) (last : EnumValue k) : List (EnumConstant k) → List (Slot k)
  | [] => []
  | e :: rest =>
    (between last e.value).map .gap ++ .hit index :: slotsFrom (index + 1) e.value rest

/-- The places of a table from the first to the last entry. -/
def slots : List (EnumConstant k) → List (Slot k)
  | [] => []
  | e :: rest => .hit 0 :: slotsFrom 1 e.value rest

def gapLabel (base value : EnumValue k) : String := s!"gap_{value.offsetFrom base}"

/-- Whether values between entries have code of their own: where their text is known, which for a
set of flags it is not. -/
def fillsGaps (mode : Lookup) (p : Roster k) : Bool := mode = names && !p.isFlags

def slotLabel (mode : Lookup) (p : Roster k) (base : EnumValue k) : Slot k → String
  | .hit index => mode.hitLabel index
  | .gap value => if mode.fillsGaps p then gapLabel base value else "fallback"

def gapValues (mode : Lookup) (p : Roster k) (slots : List (Slot k)) : List (EnumValue k) :=
  if mode.fillsGaps p then
    slots.filterMap fun
      | .hit _ => none
      | .gap value => some value
  else []

def emitEqualityTest (mode : Lookup) (index : Nat) (value : EnumValue k) : Asm Unit := do
  Asm.emit (.ldarg 0)
  if value = 0 then Asm.branch .brfalse (mode.hitLabel index)
  else
    Asm.emit value.load
    Asm.branch .beq (mode.hitLabel index)

/-- Puts the argument on the stack, counted from `base`. -/
def emitIndex (base : EnumValue k) : Asm Unit := do
  Asm.emit (.ldarg 0)
  if base ≠ 0 then
    Asm.emit base.load
    Asm.op .sub

/-- A jump table for the values from `base` on. A wide index is checked before it is narrowed. -/
def emitTable (base : EnumValue k) (labels : List String) : Asm Unit := do
  emitIndex base
  if k.isWide then
    let skip := s!"table_end_{base.toNat}"
    Asm.emit (.ldcI8 (BitVec.ofNat 64 labels.length))
    Asm.branch .bgeUn skip
    emitIndex base
    Asm.op .convU4
    Asm.switch labels
    Asm.label skip
  else Asm.switch labels

/-- Finds the run of the argument among those from `lo` to `hi` by halving. -/
def emitSearch (mode : Lookup) (p : Roster k) (lo hi : Nat) : Asm Unit :=
  if lo < hi then do
    let mid := lo + (hi - lo) / 2
    let run := p.runs[mid]?.getD default
    let first := (p.entries[run.start]?.map (·.value)).getD 0
    if run.len = 1 then emitEqualityTest mode run.start first
    else emitTable first ((List.range run.len).map fun i => mode.hitLabel (run.start + i))
    let left := s!"left_{lo}_{mid}"
    if lo < mid then
      Asm.emit (.ldarg 0)
      Asm.emit first.load
      Asm.branch (if k.isSigned then .blt else .bltUn) left
    emitSearch mode p (mid + 1) hi
    if lo < mid then
      Asm.label left
      emitSearch mode p lo mid
  else Asm.branch .br "fallback"
termination_by hi - lo

/-- What is done with a value that is not listed. -/
def emitFallback (mode : Lookup) (p : Roster k) (enum : Sig) : Asm Unit :=
  match mode with
  | membership => do
    Asm.emit (.ldcI4 0)
    Asm.op .ret
  | names => do
    Asm.emit (.ldarg 0)
    if p.isFlags && !p.exhaustive then
      Asm.typed .box enum
      Asm.emit (.call .callvirt Platform.objectToString)
    else Asm.emit (.call .call (Platform.convertToString k))
    Asm.op .ret

def emitHits (mode : Lookup) (p : Roster k) : Asm Unit :=
  match mode with
  | names =>
    p.entries.toList.zipIdx.forM fun (e, index) => do
      Asm.label (mode.hitLabel index)
      Asm.emit (.ldstr e.name)
      Asm.op .ret
  | membership =>
    if p.size = 0 then pure ()
    else do
      Asm.label "hit"
      Asm.emit (.ldcI4 1)
      Asm.op .ret

def emitGaps (base : EnumValue k) (values : List (EnumValue k)) : Asm Unit :=
  values.forM fun value => do
    Asm.label (gapLabel base value)
    Asm.emit (.ldstr value.text)
    Asm.op .ret

/-- The entries in the order in which they are tested one by one: zero, the cheapest, first. -/
def testOrder (p : Roster k) : List (Nat × EnumValue k) :=
  let all := p.entries.toList.zipIdx.map fun (e, index) => (index, e.value)
  all.filter (·.2 = 0) ++ all.filter (·.2 ≠ 0)

def emit (mode : Lookup) (p : Roster k) (enum : Sig) (ratio : Nat) : Asm Unit := do
  let base := (p.entries[0]?.map (·.value)).getD 0
  let shape := p.shape ratio
  let places := if shape = .denseTable then slots p.entries.toList else []
  match shape with
  | .empty => pure ()
  | .single | .pair =>
    (testOrder p).forM fun (index, value) => emitEqualityTest mode index value
  | .contiguous => emitTable base ((List.range p.size).map mode.hitLabel)
  | .denseTable => emitTable base (places.map (mode.slotLabel p base))
  | .binarySearch => emitSearch mode p 0 p.runs.length
  Asm.label "fallback"
  emitFallback mode p enum
  emitHits mode p
  emitGaps base (mode.gapValues p places)

end Lookup

namespace Operation

/-- The values a generated operation tells apart. -/
def roster (op : Operation) (d : EnumInfo) (density : Density) : Roster d.kind :=
  match op with
  | toString => .ofNames d density.maxFlags
  | _ => .ofValues d

def emitValues (d : EnumInfo) : Asm Unit := do
  let values := d.valuesInOrder
  Asm.emit (.ldcI4 (BitVec.ofNat 32 values.length))
  Asm.typed .newarr d.sig
  values.zipIdx.forM fun (value, index) => do
    Asm.op .dup
    Asm.emit (.ldcI4 (BitVec.ofNat 32 index))
    Asm.emit value.load
    Asm.typed .stelem d.sig
  Asm.op .ret

def emitEquals : Asm Unit := do
  Asm.emit (.ldarg 0)
  Asm.emit (.ldarg 1)
  Asm.op .ceq
  Asm.op .ret

def emit (op : Operation) (d : EnumInfo) (density : Density) : Asm Unit :=
  match op with
  | toString => Lookup.names.emit (op.roster d density) d.sig density.ratio
  | isDefined => Lookup.membership.emit (op.roster d density) d.sig density.ratio
  | getValues => emitValues d
  | equals => emitEquals

def generate (op : Operation) (d : EnumInfo) (density : Density) : Except Fault Body := do
  let (result, a) := (op.emit d density).run.run {}
  result
  a.finish

end Operation

end CilForge
