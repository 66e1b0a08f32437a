import CilForge.Body.Check
import CilForge.Body.Edit
import CilForge.Unroll

/-!
# Bodies as linked nodes

How a body is kept: its instructions are nodes in the order in which they were made, and each knows
the nodes before and behind it. A handle is the number of a node, cut to 32 bits. A node that is taken
out stays where it is, but is no longer live.

The edits are those of `CilForge.Edit`, which has the lines of a body as a list. Going through nodes
need not come to an end if their links go round, and then there is no answer.
-/

namespace CilForge

structure Node where
  instr : Instr
  prev : Option Handle := none
  next : Option Handle := none
  live : Bool := true

structure Arena where
  nodes : Array Node := #[]
  head : Option Handle := none
  tail : Option Handle := none
  len : Nat := 0

namespace Arena

variable (a : Arena)

/-- The node of a handle, if it is live. -/
def node? (h : Handle) : Option Node := a.nodes[h.index]?.filter (·.live)

def contains (h : Handle) : Bool := (a.node? h).isSome

def get? (h : Handle) : Option Instr := (a.node? h).map (·.instr)

def next? (h : Handle) : Option Handle := (a.node? h).bind (·.next)

def prev? (h : Handle) : Option Handle := (a.node? h).bind (·.prev)

/-- The lines from a node on, `rest` giving those from the next. -/
def linesBy (rest : Option Handle → Option (List (Handle × Instr))) : Option Handle → Option (List (Handle × Instr))
  | none => some []
  | some h =>
    match a.node? h with
    | none => some []
    | some n => do
      let behind ← rest n.next
      return (h, n.instr) :: behind

/-- The lines from a node on; there is no end of them if the links go round. -/
def linesFrom? : Option Handle → Option (List (Handle × Instr)) := unroll a.linesBy (a.nodes.size + 1)

def lines? : Option (List (Handle × Instr)) := a.linesFrom? a.head

def aimsBy (goal : Handle) (rest : Option Handle → Option Bool) : Option Handle → Option Bool
  | none => some false
  | some h =>
    match a.node? h with
    | none => some false
    | some n => if n.instr.targets.contains goal then some true else rest n.next

/-- Whether an instruction from a node on branches to `goal`; looks no further than the first. -/
def aimsFrom? (goal : Handle) : Option Handle → Option Bool := unroll (a.aimsBy goal) (a.nodes.size + 1)

def isTarget? (goal : Handle) : Option Bool := a.aimsFrom? goal a.head

def setPrev (h : Handle) (prev : Option Handle) : Arena :=
  { a with nodes := a.nodes.modify h.index fun n => { n with prev } }

def setNext (h : Handle) (next : Option Handle) : Arena :=
  { a with nodes := a.nodes.modify h.index fun n => { n with next } }

/-- What `h` has behind it is now `next`; without `h` it is what comes first. -/
def joinBehind (h next : Option Handle) : Arena :=
  match h with
  | some h => a.setNext h next
  | none => { a with head := next }

/-- What `h` has before it is now `prev`; without `h` it is what comes last. -/
def joinBefore (h prev : Option Handle) : Arena :=
  match h with
  | some h => a.setPrev h prev
  | none => { a with tail := prev }

/-- A new node without neighbours. The cut of its number gives an old handle once there are as many
nodes as handles. -/
def allocate (i : Instr) : Handle × Arena :=
  (⟨(BitVec.ofNat 32 a.nodes.size).toNat⟩, { a with nodes := a.nodes.push { instr := i }, len := a.len + 1 })

def pushBack (i : Instr) : Handle × Arena :=
  let (h, made) := a.allocate i
  (h, { (made.setPrev h a.tail).joinBehind a.tail (some h) with tail := some h })

def linkAfter (anchor : Handle) (i : Instr) : Handle × Arena :=
  let next := a.nodes[anchor.index]?.bind (·.next)
  let (h, made) := a.allocate i
  let linked := ((made.setPrev h (some anchor)).setNext h next).setNext anchor (some h)
  (h, linked.joinBefore next (some h))

def linkBefore (anchor : Handle) (i : Instr) : Handle × Arena :=
  let prev := a.nodes[anchor.index]?.bind (·.prev)
  let (h, made) := a.allocate i
  let linked := ((made.setPrev h prev).setNext h (some anchor)).setPrev anchor (some h)
  (h, linked.joinBehind prev (some h))

def unlink (h : Handle) : Arena :=
  let prev := a.nodes[h.index]?.bind (·.prev)
  let next := a.nodes[h.index]?.bind (·.next)
  let dead := { a with
    nodes := a.nodes.modify h.index fun n => { n with prev := none, next := none, live := false } }
  { (dead.joinBehind prev next).joinBefore next prev with len := a.len - 1 }

/-- Lets all live instructions that branch to `old` branch to `new`. -/
def rebranch (old new : Handle) : Arena :=
  { a with nodes := a.nodes.map fun n =>
      if n.live then { n with instr := n.instr.mapTargets fun t => if t = old then new else t } else n }

/-- How many branch slots of live instructions name a handle. -/
def slotCount (h : Handle) : Nat :=
  ((a.nodes.toList.filter (·.live)).flatMap (·.instr.targets)).count h

def setOperand (h : Handle) (o : Operand) : Arena :=
  { a with nodes := a.nodes.modify h.index fun n => { n with instr := { n.instr with operand := o } } }

end Arena

structure LinkedBody where
  arena : Arena := {}
  locals : Array Sig := #[]
  regions : List Region := []
  initLocals : Bool := true

namespace LinkedBody

/-- What an edit gives back: whether it was refused, and the body in either case. -/
abbrev Answer (α : Type) := Except Fault α × LinkedBody

variable (b : LinkedBody)

/-- The body as it is met on the way from its first node. -/
def read? : Option Body :=
  b.arena.lines?.map fun code =>
    { code, nextIndex := b.arena.nodes.size, locals := b.locals, regions := b.regions, initLocals := b.initLocals }

def check? : Option (Except Fault Unit) := b.read?.map Body.check

def require (h : Handle) : Except Fault Unit :=
  if b.arena.contains h then .ok () else .error (.invariant (.unknownInstr h))

def requireAll (hs : List Handle) : Except Fault Unit := hs.forM b.require

def addLocal (sig : Sig) : Answer Nat :=
  if b.locals.size < 65536 then (.ok b.locals.size, { b with locals := b.locals.push sig })
  else (.error (.invariant .tooManyLocals), b)

def addRegion (r : Region) : Answer Unit :=
  match b.requireAll r.boundaries with
  | .ok () => (.ok (), { b with regions := b.regions ++ [r] })
  | .error e => (.error e, b)

def clearRegions : Answer Unit := (.ok (), { b with regions := [] })

def setInitLocals (flag : Bool) : Answer Unit := (.ok (), { b with initLocals := flag })

/-- Adds a node by `link`, once all that `needed` names is there. -/
def insert (needed : List Handle) (link : Arena → Handle × Arena) : Answer Handle :=
  match b.requireAll needed with
  | .ok () => (.ok (link b.arena).1, { b with arena := (link b.arena).2 })
  | .error e => (.error e, b)

def push (i : Instr) : Answer Handle := b.insert i.targets (·.pushBack i)

def insertAfter (anchor : Handle) (i : Instr) : Answer Handle :=
  b.insert (anchor :: i.targets) (·.linkAfter anchor i)

def insertBefore (anchor : Handle) (i : Instr) : Answer Handle :=
  b.insert (anchor :: i.targets) (·.linkBefore anchor i)

def moveBoundaries (old : Handle) : Option Handle → List Region
  | some new => b.regions.map (·.rebound old new)
  | none => b.regions.map (·.openEnds old)

def replace (old : Handle) (i : Instr) : Answer Handle :=
  match b.requireAll (old :: i.targets) with
  | .ok () =>
    let (new, linked) := b.arena.linkAfter old i
    (.ok new, { b with
      arena := (linked.rebranch old new).unlink old
      regions := b.moveBoundaries old (some new) })
  | .error e => (.error e, b)

/-- Takes out a node that no branch names, `behind` being the node behind it. -/
def drop (h : Handle) (behind : Option Handle) : Answer Unit :=
  if behind.isNone && b.regions.any fun r => r.starts.contains h then
    (.error (.invariant (.noRegionSuccessor h)), b)
  else (.ok (), { b with arena := b.arena.unlink h, regions := b.moveBoundaries h behind })

def passesOnTo (h : Handle) (i : Instr) : Option Handle :=
  match i.opcode with
  | .br | .leave => i.target?
  | _ => b.arena.next? h

def remove (h : Handle) : Option (Answer Unit) :=
  match b.arena.get? h with
  | none => some (.error (.invariant (.unknownInstr h)), b)
  | some i => do
    let behind := b.arena.next? h
    if ← b.arena.isTarget? h then
      match b.passesOnTo h i with
      | some s =>
        if s = h then return (.error (.invariant (.noSuccessor h)), b)
        else return drop { b with arena := b.arena.rebranch h s } h behind
      | none => return (.error (.invariant (.noSuccessor h)), b)
    else return b.drop h behind

def setOperand (h : Handle) (o : Operand) : Answer Unit :=
  match b.requireAll o.targets with
  | .ok () =>
    match b.require h with
    | .ok () => (.ok (), { b with arena := b.arena.setOperand h o })
    | .error e => (.error e, b)
  | .error e => (.error e, b)

def retarget (old new : Handle) : Answer Nat :=
  match b.requireAll [old, new] with
  | .ok () => (.ok (b.arena.slotCount old), { b with
      arena := b.arena.rebranch old new
      regions := b.moveBoundaries old (some new) })
  | .error e => (.error e, b)

/-! ## Edits one by one -/

def answered {α : Type} (result : α → Edit.Result) (x : Answer α) : Answer Edit.Result := (x.1.map result, x.2)

/-- What an edit comes to, if it comes to an end. -/
def run? (a : LinkedBody) : Edit.Op → Option (Answer Edit.Result)
  | .push i => some (answered .handle (a.push i))
  | .insertAfter anchor i => some (answered .handle (a.insertAfter anchor i))
  | .insertBefore anchor i => some (answered .handle (a.insertBefore anchor i))
  | .replace old i => some (answered .handle (a.replace old i))
  | .remove h => (a.remove h).map (answered fun _ => .done)
  | .setOperand h o => some (answered (fun _ => .done) (a.setOperand h o))
  | .retarget old new => some (answered .count (a.retarget old new))
  | .addRegion r => some (answered (fun _ => .done) (a.addRegion r))
  | .clearRegions => some (answered (fun _ => .done) a.clearRegions)
  | .addLocal sig => some (answered .count (a.addLocal sig))
  | .setInitLocals flag => some (answered (fun _ => .done) (a.setInitLocals flag))

/-- What is left of a body when all edits have been tried. -/
def after? (a : LinkedBody) : List Edit.Op → Option LinkedBody
  | [] => some a
  | op :: ops => (a.run? op).bind fun x => x.2.after? ops

end LinkedBody

end CilForge
