import CilForge.Body.Basic

/-!
# Reading straight code

Walks forward through code that control enters at its first instruction only, counting the values
on the stack, to find where the operand expression that starts there ends.
-/

namespace CilForge.CallSite

/-- Whether control can come to an instruction other than from the one before. -/
def isJoin (b : Body) (h : Handle) : Bool := b.isTarget h || b.isBoundary h

/-- The next instruction, if control comes to it from here only. -/
def follow? (b : Body) (h : Handle) : Option (Handle × Instr) := do
  let next ← b.next? h
  if isJoin b next then none
  let i ← b.get? next
  return (next, i)

def constant? (i : Instr) : Option (BitVec 64) :=
  match i.opcode with
  | .ldcI4 | .ldcI8 => i.int64?
  | _ => none

/-- The first instruction from `h` on, within `fuel` of them, at which `stop` holds, where `depth`
values are on the stack at `h`. On the way control only passes on to the next instruction, and the
lowest `floor` values are not touched. -/
def walkFrom (b : Body) (floor : Nat) (stop : Handle → Instr → Nat → Bool) :
    Nat → Handle → Nat → Option Handle
  | 0, _, _ => none
  | fuel + 1, h, depth => do
    let i ← b.get? h
    if isJoin b h then none
    else if stop h i depth then some h
    else if i.opcode.flow ≠ .sequential && i.opcode.flow ≠ .call then none
    else if depth < i.effect.pops + floor then none
    else
      let next ← b.next? h
      walkFrom b floor stop fuel next (depth - i.effect.pops + i.effect.pushes)

def reach : Nat := 64

def walk (b : Body) (start : Handle) (depth floor : Nat)
    (stop : Handle → Instr → Nat → Bool) : Option Handle :=
  walkFrom b floor stop reach start depth

end CilForge.CallSite
