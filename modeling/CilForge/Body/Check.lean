import CilForge.Body.Basic

/-!
# Well linked bodies

The check that a finished body is fit for use: operands fit their opcodes, targets and boundaries
are in the body, locals are declared, and no range is empty or inverted.
-/

namespace CilForge.Body

section
variable (b : Body) (places : Places)

def checkTargets (at' : Handle) : List Handle → Except Fault Unit
  | [] => .ok ()
  | t :: rest =>
    if places.contains t then checkTargets at' rest
    else .error (.invariant (.danglingTarget t at'))

def checkInstr (h : Handle) (i : Instr) : Except Fault Unit := do
  if !i.wellFormed then throw (.invariant (.operandKind h i))
  checkTargets places h i.targets
  match i.operand with
  | .localVar index =>
    if b.locals.size ≤ index then throw (.invariant (.undeclaredLocal index h))
  | _ => pure ()

/-- The place of a region boundary; no boundary stands for the end of the method. -/
def boundaryPosition : Option Handle → Except Fault Nat
  | none => .ok b.size
  | some h =>
    match places[h]? with
    | some p => .ok p
    | none => .error (.invariant (.danglingBoundary h))

def checkRegion (r : Region) : Except Fault Unit := do
  let tryStart ← b.boundaryPosition places (some r.tryStart)
  let tryEnd ← b.boundaryPosition places r.tryEnd
  let handlerStart ← b.boundaryPosition places (some r.handlerStart)
  let handlerEnd ← b.boundaryPosition places r.handlerEnd
  let _ ← b.boundaryPosition places r.filterStart
  if tryEnd ≤ tryStart || handlerEnd ≤ handlerStart then
    throw (.invariant (.emptyRegion r.tryStart))

end

def check (b : Body) : Except Fault Unit := do
  let places := b.places
  b.code.forM fun (h, i) => b.checkInstr places h i
  b.regions.forM (b.checkRegion places)

end CilForge.Body
