import CilForge.Fault
import Std.Data.HashMap

/-!
# Method bodies

A body is its instructions in order, each under a handle of its own, together with its locals and
protected regions. Handles are given out in order and never given out again.
-/

namespace CilForge

structure Body where
  code : List (Handle × Instr) := []
  nextIndex : Nat := 0
  locals : Array Sig := #[]
  regions : List Region := []
  initLocals : Bool := true
deriving Inhabited

namespace Body

def handles (b : Body) : List Handle := b.code.map (·.1)

def size (b : Body) : Nat := b.code.length

def get? (b : Body) (h : Handle) : Option Instr := b.code.lookup h

def contains (b : Body) (h : Handle) : Bool := (b.get? h).isSome

def first? (b : Body) : Option Handle := b.handles.head?

def last? (b : Body) : Option Handle := b.handles.getLast?

/-- The handle behind the first occurrence of `h`. -/
def following (h : Handle) : List (Handle × Instr) → Option Handle
  | [] => none
  | p :: rest => if p.1 = h then rest.head?.map (·.1) else following h rest

def next? (b : Body) (h : Handle) : Option Handle := following h b.code

def prev? (b : Body) (h : Handle) : Option Handle := following h b.code.reverse

/-- The code from an instruction on; there is none if the instruction is not in the body. -/
def codeFrom (b : Body) (h : Handle) : List (Handle × Instr) := b.code.dropWhile (·.1 ≠ h)

/-- The place of an instruction, counted from zero. -/
def position? (b : Body) (h : Handle) : Option Nat := b.code.findIdx? (·.1 = h)

abbrev Places := Std.HashMap Handle Nat

/-- The places of all instructions, for those who ask often. -/
def places (b : Body) : Places := .ofList b.handles.zipIdx

def referrers (b : Body) (h : Handle) : List Handle :=
  (b.code.filter fun p => p.2.targets.contains h).map (·.1)

def isTarget (b : Body) (h : Handle) : Bool :=
  b.code.any fun p => p.2.targets.contains h

def isBoundary (b : Body) (h : Handle) : Bool :=
  b.regions.any fun r => r.boundaries.contains h

end Body

end CilForge
