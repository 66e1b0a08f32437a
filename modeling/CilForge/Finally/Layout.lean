import CilForge.Body.Depth
import CilForge.Finally.Nesting

/-!
# The layout of finally regions

What has to be known before finally regions can be turned into plain jumps: which regions each
`leave` runs through, which handler each `endfinally` ends, and which state variable each handler
reads to find its way on.
-/

namespace CilForge.Finally

/-- A `leave` with the regions it leaves, innermost first. -/
structure Leave where
  at' : Handle
  target : Handle
  exits : List Nat

structure Layout where
  nesting : Nesting
  /-- The ends of the handler of each region, in the order of the regions of the body. -/
  ends : List (Nat × List Handle)
  leaves : List Leave

section
variable (b : Body)

def position (h : Handle) : Except Fault Nat :=
  match b.position? h with
  | some p => .ok p
  | none => .error (.invariant (.unlinkedBoundary h))

def endPosition : Option Handle → Except Fault Nat
  | some h => position b h
  | none => .ok b.size

def regionSpans (r : Region) (region : Nat) : Except Fault Ranges := do
  if !r.isFinally then throw (.unsupported (.handlerFlags r.flags))
  let trySpan := ⟨← position b r.tryStart, ← endPosition b r.tryEnd⟩
  let handlerSpan := ⟨← position b r.handlerStart, ← endPosition b r.handlerEnd⟩
  return { region, trySpan, handlerSpan, handlerStart := r.handlerStart }

/-- Two protected ranges have to be different and nested or disjoint. -/
def checkPair (x y : Span) : Except Fault Unit := do
  if x = y then throw (.unsupported .sharedRange)
  if x.overlaps y && !x.encloses y && !y.encloses x then throw (.unsupported .partialOverlap)

def checkNesting : List Ranges → Except Fault Unit
  | [] => .ok ()
  | r :: rest => do
    rest.forM fun s => checkPair r.trySpan s.trySpan
    checkNesting rest

/-- The region whose handler an `endfinally` at a place ends: the shortest around it, and of those
the first. -/
def ownerOf (regions : List Ranges) (p : Nat) : Option Ranges :=
  (regions.filter (·.handlerSpan.contains p)).foldl
    (fun best r =>
      match best with
      | none => some r
      | some s => if r.handlerSpan.len < s.handlerSpan.len then some r else some s)
    none

/-- Every `endfinally` with its region. -/
def ownedEnds (regions : List Ranges) : Except Fault (List (Nat × Handle)) :=
  (b.code.zipIdx.filter fun (p, _) => p.2.opcode = .endfinally).mapM fun (p, place) =>
    match ownerOf regions place with
    | some r => .ok (r.region, p.1)
    | none => .error (.unsupported (.strayEndfinally p.1))

/-- The ends of a region's handler, of which there has to be one. -/
def handlerEnds (owned : List (Nat × Handle)) (r : Ranges) :
    Except Fault (Nat × List Handle) :=
  match (owned.filter (·.1 = r.region)).map (·.2) with
  | [] => .error (.unsupported (.endlessHandler r.region))
  | ends => .ok (r.region, ends)

def readLeave (nesting : Nesting) (depths : Body.Depths) (h : Handle) (i : Instr) (place : Nat) :
    Except Fault Leave := do
  if depths[h]?.any (· ≠ 0) then throw (.unsupported (.loadedLeave h))
  match i.target? with
  | none => throw (.invariant (.noTarget h))
  | some target => return ⟨h, target, nesting.exits place (← position b target)⟩

/-- Finds the layout of a body, or tells why there is none. -/
def Layout.ofBody : Except Fault Layout := do
  let regions ← b.regions.zipIdx.mapM fun (r, i) => regionSpans b r i
  checkNesting regions
  let nesting := Nesting.ofRegions regions
  let owned ← ownedEnds b regions
  let ends ← regions.mapM (handlerEnds owned)
  let depths ← b.depths
  let leaves ← (b.code.zipIdx.filter fun (p, _) => p.2.opcode = .leave).mapM fun (p, place) =>
    readLeave b nesting depths p.1 p.2 place
  return { nesting, ends, leaves }

end

namespace Layout

variable (p : Layout)

/-- Where control goes from a handler when it has run, its region being the last one to leave. -/
def destinations (node : Nat) : List Handle :=
  ((p.leaves.filter fun l => l.exits.getLast? = some node).map (·.target)).eraseDups

/-- Whether control may go on from a handler to that of the region around. -/
def forwards (node : Nat) : Bool := p.leaves.any fun l => l.exits.dropLast.contains node

/-- Whether a handler is ever entered by a `leave`. -/
def isEntered (node : Nat) : Bool := !(p.destinations node).isEmpty || p.forwards node

/-- The least number that is not taken. -/
def leastFree (taken : List Nat) : Nat :=
  ((List.range (taken.length + 1)).find? fun n => !taken.contains n).getD 0

/-- Gives a node a state variable that no node with an overlapping extent has. -/
def assign (slots : List (Nat × Nat)) (n : Node) (i : Nat) : List (Nat × Nat) :=
  if p.isEntered i then
    let taken := slots.filterMap fun (j, slot) =>
      if (p.nesting[j]?).any (·.extent.overlaps n.extent) then some slot else none
    slots ++ [(i, leastFree taken)]
  else slots

def slots : List (Nat × Nat) :=
  p.nesting.toList.zipIdx.foldl (fun slots (n, i) => p.assign slots n i) []

def slotCount : Nat := (p.slots.map (·.2 + 1)).foldl max 0

end Layout

end CilForge.Finally
