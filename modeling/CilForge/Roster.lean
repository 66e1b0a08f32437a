import CilForge.EnumInfo

/-!
# Rosters of values

The values a generated lookup has to tell apart, in ascending order and grouped into runs of
consecutive values, and the shape of code that suits them.
-/

namespace CilForge

/-- A stretch of consecutive entries. -/
structure Run where
  start : Nat
  len : Nat
deriving DecidableEq, Inhabited

inductive Shape where
  | empty | single | pair | contiguous | denseTable | binarySearch
deriving DecidableEq

def Shape.text : Shape → String
  | empty => "Empty" | single => "Single" | pair => "Pair" | contiguous => "Contiguous"
  | denseTable => "DenseTable" | binarySearch => "BinarySearch"

structure Roster (k : IntKind) where
  entries : Array (EnumConstant k)
  runs : List Run
  isFlags : Bool
  exhaustive : Bool

namespace Roster

variable {k : IntKind}

/-- Drops entries that repeat the value of the one before. -/
def dedup : List (EnumConstant k) → List (EnumConstant k)
  | a :: b :: rest => if a.value = b.value then dedup (a :: rest) else a :: dedup (b :: rest)
  | short => short
termination_by l => l.length

/-- The runs of the entries from place `start + len` on, where the open run has `len` entries and
ends with `last`. -/
def runsFrom (start len : Nat) (last : EnumValue k) : List (EnumConstant k) → List Run
  | [] => [⟨start, len⟩]
  | e :: rest =>
    if last.next? = some e.value then runsFrom start (len + 1) e.value rest
    else ⟨start, len⟩ :: runsFrom (start + len) 1 e.value rest

def runsOf : List (EnumConstant k) → List Run
  | [] => []
  | e :: rest => runsFrom 0 1 e.value rest

def ofEntries (entries : List (EnumConstant k)) (isFlags exhaustive : Bool) : Roster k :=
  let sorted := dedup (entries.mergeSort fun a b => a.value.toNumber ≤ b.value.toNumber)
  { entries := sorted.toArray, runs := runsOf sorted, isFlags, exhaustive }

/-- The unions of two or more of the given values, in the order of the subsets read as binary
numbers. -/
def unions (singles : List (EnumValue k)) : List (EnumValue k) :=
  (List.range (1 <<< singles.length)).filterMap fun subset =>
    let chosen := singles.zipIdx.filter fun (_, bit) => subset.testBit bit
    if chosen.length < 2 then none
    else some (chosen.foldl (fun acc (v, _) => acc ||| v) 0)

/-- The values of a lookup by name. The unions of the single bits of a set of flags are listed as
well, as long as there are at most `budget` of them. -/
def ofNames (d : EnumInfo) (budget : Nat) : Roster d.kind :=
  let constants := d.constants
  let singles := ((constants.map (·.value)).filter (·.isSingleBit)).mergeSort fun a b =>
    a.toNat ≤ b.toNat
  if d.isFlags && singles.length < 64 && 1 <<< singles.length ≤ budget then
    let new := (unions singles).filter fun v => constants.all (·.value ≠ v)
    let named := new.map fun v => ⟨EnumInfo.formatWith constants d.isFlags v, v⟩
    let covered : EnumValue d.kind := singles.foldl (· ||| ·) 0
    ofEntries (constants ++ named) d.isFlags (covered = BitVec.allOnes d.kind.bits)
  else ofEntries constants d.isFlags false

def ofValues (d : EnumInfo) : Roster d.kind := ofEntries d.constants false false

def size (p : Roster k) : Nat := p.entries.size

def span (p : Roster k) : Nat :=
  match p.entries[0]?, p.entries.back? with
  | some first, some last => last.value.offsetFrom first.value
  | _, _ => 0

/-- The entry of a value within `len` entries from `start`, by halving. -/
def search (p : Roster k) (v : EnumValue k) (start len : Nat) : Option (EnumConstant k) :=
  if len = 0 then none
  else
    let half := len / 2
    match p.entries[start + half]? with
    | none => none
    | some e =>
      if e.value = v then some e
      else if e.value.toNumber < v.toNumber then p.search v (start + half + 1) (len - half - 1)
      else p.search v start half
termination_by len

def lookup? (p : Roster k) (v : EnumValue k) : Option (EnumConstant k) := p.search v 0 p.size

/-- Up to two values are tested one by one; one run is a table, and so are more if the table has at
most `ratio` places for each value. -/
def shape (p : Roster k) (ratio : Nat) : Shape :=
  match p.size with
  | 0 => .empty
  | 1 => .single
  | 2 => .pair
  | count =>
    if p.runs.length = 1 then .contiguous
    else if p.span ≤ ratio * count then .denseTable
    else .binarySearch

end Roster

end CilForge
