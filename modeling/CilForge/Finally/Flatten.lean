import CilForge.Finally.Layout
import CilForge.Workpiece
import CilForge.Platform

/-!
# Flattening finally regions

Turns finally regions into plain jumps. A `leave` notes in a state variable of each region it
leaves where that region's handler has to go on to, and jumps to the innermost handler; where a
handler ends, it switches on its state variable. A handler that no `leave` enters ends by throwing.
-/

namespace CilForge.Finally

def passName : String := "flatten"

/-- Which instruction stands in the place of one that is gone. -/
abbrev Renaming := List (Handle × Handle)

def Renaming.apply (r : Renaming) (h : Handle) : Handle := (r.lookup h).getD h

/-- The local that holds the state of each node that has one. -/
abbrev StateVars := List (Nat × Nat)

def StateVars.ofNode (vars : StateVars) (node : Nat) : Nat := (vars.lookup node).getD 0

/-- How many state variables there can be: they are counted with 16 bits. -/
def maxVars : Nat := 0xffff

def addLocals : Nat → Edit (List Nat)
  | 0 => return []
  | n + 1 => do
    let first ← Edit.addLocal .int32
    return first :: (← addLocals n)

namespace Layout

variable (p : Layout)

/-- The first region, counted from one, whose state has the number that no variable is made for. -/
def unslotted : Nat :=
  let nodes := p.ends.map fun (region, _) => (p.nesting.nodeOf? region).getD 0
  (nodes.find? fun node => p.slots.lookup node = some maxVars).getD 0 + 1

def addStateVars : Edit StateVars := do
  let added ← addLocals (min p.slotCount maxVars)
  if maxVars < p.slotCount then throw (.invariant (.noStateSlot p.unslotted))
  return p.slots.map fun (node, slot) => (node, added[slot]?.getD 0)

def handlerStart? (node : Nat) : Option Handle := (p.nesting[node]?).map (·.handlerStart)

def outerHandler? (node : Nat) : Option Handle :=
  ((p.nesting[node]?).bind (·.parent)).bind p.handlerStart?

/-- Where a handler may go on to: its own destinations, then the handler around. -/
def continuations (node : Nat) : List Handle :=
  p.destinations node ++ if p.forwards node then (p.outerHandler? node).toList else []

/-- What an `endfinally` becomes: a jump by state, to the first place if no other fits. -/
def dispatchCode (vars : StateVars) (renamed : Renaming) (node : Nat) : Instr × List Instr :=
  match (p.continuations node).map renamed.apply with
  | [] => (.call .newobj Platform.invalidOperation, [⟨.throw, .none⟩])
  | first :: rest =>
    (.ldloc (vars.ofNode node), [.switch (first :: rest), .branch .br first])

def replaceEnds (code : Instr × List Instr) : List Handle → Renaming → Edit Renaming
  | [], renamed => return renamed
  | h :: rest, renamed => do
    let first ← Edit.expand h code.1 code.2
    replaceEnds code rest ((h, first) :: renamed)

def replaceHandlers (vars : StateVars) : List (Nat × List Handle) → Renaming → Edit Renaming
  | [], renamed => return renamed
  | (region, ends) :: rest, renamed => do
    let node := (p.nesting.nodeOf? region).getD 0
    let renamed ← replaceEnds (p.dispatchCode vars renamed node) ends renamed
    replaceHandlers vars rest renamed

/-- The state that a node on the way of a `leave` is put in: the number of the destination for the
last one, and of the handler around for the others. -/
def stateOf (l : Leave) (node : Nat) : Nat :=
  if l.exits.getLast? = some node then (p.destinations node).idxOf l.target
  else (p.destinations node).length

def stores (vars : StateVars) (l : Leave) : List Instr :=
  l.exits.flatMap fun node =>
    [.ldcI4 (BitVec.ofNat 32 (p.stateOf l node)), .stloc (vars.ofNode node)]

def leaveCode (vars : StateVars) (renamed : Renaming) (l : Leave) : Instr × List Instr :=
  let entry := (l.exits.head?.bind p.handlerStart?).getD l.target
  let jump : Instr := .branch .br (renamed.apply entry)
  match p.stores vars l with
  | [] => (jump, [])
  | first :: rest => (first, rest ++ [jump])

def replaceLeaves (vars : StateVars) : List Leave → Renaming → Edit Unit
  | [], _ => return
  | l :: rest, renamed => do
    let code := p.leaveCode vars renamed l
    let first ← Edit.expand l.at' code.1 code.2
    replaceLeaves vars rest ((l.at', first) :: renamed)

def apply : Edit Unit := do
  let vars ← p.addStateVars
  let renamed ← p.replaceHandlers vars p.ends []
  p.replaceLeaves vars p.leaves renamed
  Edit.clearRegions

end Layout

/-- Whether flattening a body has no end, as a region finds all numbers for its state taken. -/
def endless (b : Body) : Bool :=
  !b.regions.isEmpty &&
    match Layout.ofBody b with
    | .ok layout => maxVars + 1 < layout.slotCount
    | .error _ => false

/-- Flattens a body; one without regions is left alone. -/
def run (method : Token) : Pass Bool := do
  let b ← Pass.body
  if b.regions.isEmpty then return false
  let layout ← ExceptT.mk (pure (Layout.ofBody b))
  Pass.edit layout.apply
  let regions := b.regions.length
  Pass.note .debug s!"{method.text}: flattened {regions} finally regions"
  Pass.record {
    kind := .handlersFlattened
    method := method
    pass := passName
    message := s!"{regions} regions, {layout.slotCount} state slots" }
  return true

end CilForge.Finally
