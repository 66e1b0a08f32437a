import CilForge.Body.Basic

/-!
# Edits of a body

The operations through which a body changes. Each refuses handles that are not in the body, so
that branches and region boundaries always name instructions of it. An edit that is refused may
have changed the body already, so it gives back a body in either case.
-/

namespace CilForge

/-- A computation that changes a body and may be refused. -/
abbrev Edit := ExceptT Fault (StateM Body)

namespace Body

def require (b : Body) (h : Handle) : Except Fault Unit :=
  if b.contains h then .ok () else .error (.invariant (.unknownInstr h))

def requireAll (b : Body) : List Handle → Except Fault Unit
  | [] => .ok ()
  | h :: rest =>
    match b.require h with
    | .ok () => b.requireAll rest
    | .error e => .error e

def rebranch (b : Body) (old new : Handle) : Body :=
  { b with code := b.code.map fun (h, i) =>
      (h, i.mapTargets fun t => if t = old then new else t) }

def slotCount (b : Body) (h : Handle) : Nat :=
  (b.code.flatMap fun p => p.2.targets).count h

def rebound (b : Body) (old new : Handle) : Body :=
  { b with regions := b.regions.map (·.rebound old new) }

/-- Lets every range that ends at `old` run to the end of the method. -/
def openEnds (b : Body) (old : Handle) : Body :=
  { b with regions := b.regions.map (·.openEnds old) }

def fresh (b : Body) : Handle := ⟨b.nextIndex⟩

end Body

namespace Edit

open Body

def addLocal (sig : Sig) : Edit Nat := fun b =>
  if b.locals.size < 65536 then
    (.ok b.locals.size, { b with locals := b.locals.push sig })
  else (.error (.invariant .tooManyLocals), b)

def addRegion (r : Region) : Edit Unit := fun b =>
  match b.requireAll r.boundaries with
  | .ok () => (.ok (), { b with regions := b.regions ++ [r] })
  | .error e => (.error e, b)

def clearRegions : Edit Unit := fun b => (.ok (), { b with regions := [] })

def setInitLocals (flag : Bool) : Edit Unit := fun b => (.ok (), { b with initLocals := flag })

def push (i : Instr) : Edit Handle := fun b =>
  match b.requireAll i.targets with
  | .ok () =>
    (.ok b.fresh, { b with code := b.code ++ [(b.fresh, i)], nextIndex := b.nextIndex + 1 })
  | .error e => (.error e, b)

def insertAfter (anchor : Handle) (i : Instr) : Edit Handle := fun b =>
  match b.requireAll (anchor :: i.targets) with
  | .ok () =>
    (.ok b.fresh, { b with
      code := b.code.flatMap fun p => if p.1 = anchor then [p, (b.fresh, i)] else [p]
      nextIndex := b.nextIndex + 1 })
  | .error e => (.error e, b)

def insertBefore (anchor : Handle) (i : Instr) : Edit Handle := fun b =>
  match b.requireAll (anchor :: i.targets) with
  | .ok () =>
    (.ok b.fresh, { b with
      code := b.code.flatMap fun p => if p.1 = anchor then [(b.fresh, i), p] else [p]
      nextIndex := b.nextIndex + 1 })
  | .error e => (.error e, b)

/-- Puts an instruction in the place of another. All that named the old one, the operand of the
new one included, names the new one. -/
def replace (old : Handle) (i : Instr) : Edit Handle := fun b =>
  match b.requireAll (old :: i.targets) with
  | .ok () =>
    let placed : Body := { b with
      code := b.code.map fun p => if p.1 = old then (b.fresh, i) else p
      nextIndex := b.nextIndex + 1 }
    (.ok b.fresh, (placed.rebranch old b.fresh).rebound old b.fresh)
  | .error e => (.error e, b)

/-- Where branches to an instruction go once it is gone: a plain jump passes them on to its own
destination, any other instruction to the one behind it. -/
def passesOnTo (b : Body) (h : Handle) (i : Instr) : Option Handle :=
  match i.opcode with
  | .br | .leave => i.target?
  | _ => b.next? h

/-- Takes an instruction out once no branch names it: boundaries move to the next instruction, and
without one there are only ends to move. -/
def unlink (h : Handle) : Edit Unit := fun b =>
  match b.next? h with
  | some next =>
    (.ok (), { (b.rebound h next) with code := b.code.filter (·.1 ≠ h) })
  | none =>
    if b.regions.any fun r => r.starts.contains h then
      (.error (.invariant (.noRegionSuccessor h)), b)
    else (.ok (), { (b.openEnds h) with code := b.code.filter (·.1 ≠ h) })

/-- Removes an instruction. Branches are moved before the regions are looked at, and stay moved if
a region refuses. -/
def remove (h : Handle) : Edit Unit := fun b =>
  match b.get? h with
  | none => (.error (.invariant (.unknownInstr h)), b)
  | some i =>
    if b.isTarget h then
      match passesOnTo b h i with
      | some s =>
        if s = h then (.error (.invariant (.noSuccessor h)), b)
        else unlink h (b.rebranch h s)
      | none => (.error (.invariant (.noSuccessor h)), b)
    else unlink h b

def setOperand (h : Handle) (o : Operand) : Edit Unit := fun b =>
  match b.requireAll (o.targets ++ [h]) with
  | .ok () =>
    (.ok (), { b with code := b.code.map fun p =>
      if p.1 = h then (h, { p.2 with operand := o }) else p })
  | .error e => (.error e, b)

/-- Moves all that names one instruction to another; gives the number of branch slots moved. -/
def retarget (old new : Handle) : Edit Nat := fun b =>
  match b.requireAll [old, new] with
  | .ok () => (.ok (b.slotCount old), (b.rebranch old new).rebound old new)
  | .error e => (.error e, b)

/-- Puts a sequence of instructions in the place of one; gives the handle of the first. -/
def expand (old : Handle) (head : Instr) (tail : List Instr) : Edit Handle := do
  let first ← replace old head
  let _ ← tail.foldlM (fun at' i => insertAfter at' i) first
  return first

/-! ## Edits one by one -/

inductive Op where
  | push (i : Instr)
  | insertAfter (anchor : Handle) (i : Instr)
  | insertBefore (anchor : Handle) (i : Instr)
  | replace (old : Handle) (i : Instr)
  | remove (h : Handle)
  | setOperand (h : Handle) (o : Operand)
  | retarget (old new : Handle)
  | addRegion (r : Region)
  | clearRegions
  | addLocal (sig : Sig)
  | setInitLocals (flag : Bool)

def Op.apply (b : Body) : Op → Body
  | push i => (Edit.push i b).2
  | insertAfter anchor i => (Edit.insertAfter anchor i b).2
  | insertBefore anchor i => (Edit.insertBefore anchor i b).2
  | replace old i => (Edit.replace old i b).2
  | remove h => (Edit.remove h b).2
  | setOperand h o => (Edit.setOperand h o b).2
  | retarget old new => (Edit.retarget old new b).2
  | addRegion r => (Edit.addRegion r b).2
  | clearRegions => (Edit.clearRegions b).2
  | addLocal sig => (Edit.addLocal sig b).2
  | setInitLocals flag => (Edit.setInitLocals flag b).2

/-- What an edit gives back if it is not refused. -/
inductive Result where
  | done
  | handle (h : Handle)
  | count (n : Nat)

def Op.answer (b : Body) : Op → Except Fault Result
  | push i => (Edit.push i b).1.map .handle
  | insertAfter anchor i => (Edit.insertAfter anchor i b).1.map .handle
  | insertBefore anchor i => (Edit.insertBefore anchor i b).1.map .handle
  | replace old i => (Edit.replace old i b).1.map .handle
  | remove h => (Edit.remove h b).1.map fun _ => .done
  | setOperand h o => (Edit.setOperand h o b).1.map fun _ => .done
  | retarget old new => (Edit.retarget old new b).1.map .count
  | addRegion r => (Edit.addRegion r b).1.map fun _ => .done
  | clearRegions => .ok .done
  | addLocal sig => (Edit.addLocal sig b).1.map .count
  | setInitLocals _ => .ok .done

end Edit

end CilForge
