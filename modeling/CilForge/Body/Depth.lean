import CilForge.Body.Basic

/-!
# Stack depths

The number of values on the stack before each instruction that control can reach, found by
following every path from the method entry and the handlers. A body whose paths disagree, or take
values that are not there, has none.
-/

namespace CilForge.Body

abbrev Depths := Std.HashMap Handle Nat

/-- Instructions by handle, each with the handle behind it. -/
abbrev Links := Std.HashMap Handle (Instr × Option Handle)

def links (b : Body) : Links :=
  let behind := (b.handles.drop 1).map some ++ [none]
  .ofList ((b.code.zip behind).map fun ((h, i), next) => (h, i, next))

/-- Where control starts, and with how many values: handlers other than pure finally handlers find
the exception on the stack. -/
def entries (b : Body) : List (Handle × Nat) :=
  b.first?.toList.map (·, 0) ++ b.regions.flatMap fun r =>
    (r.handlerStart, if r.isFinally then 0 else 1) :: r.filterStart.toList.map (·, 1)

/-- Where control goes from an instruction that leaves `after` values, and with how many. -/
def successors (i : Instr) (next : Option Handle) (after : Nat) : List (Handle × Nat) :=
  match i.opcode.flow with
  | .sequential | .call => next.toList.map (·, after)
  | .conditional | .switch => (i.targets ++ next.toList).map (·, after)
  | .unconditional => i.target?.toList.map (·, after)
  | .leave => i.target?.toList.map (·, 0)
  | .ret | .throw | .endFinally => []

theorem size_erase_lt {left : Links} {h : Handle} {link : Instr × Option Handle}
    (live : left[h]? = some link) : (left.erase h).size < left.size := by
  have mem : h ∈ left := by
    rw [Std.HashMap.mem_iff_isSome_getElem?, live]; rfl
  have pos : left.size ≠ 0 := by
    intro zero
    have empty : left.isEmpty = true := by simp [Std.HashMap.isEmpty_eq_size_eq_zero, zero]
    exact Std.HashMap.not_mem_of_isEmpty empty mem
  rw [Std.HashMap.size_erase, if_pos mem]
  omega

/-- Follows the paths from number `done` on in order; the ways on from an instruction that is seen
for the first time become new paths. The instructions not seen yet are in `left`. -/
def explore (left : Links) (known : Depths) (paths : Array (Handle × Nat)) (done : Nat) :
    Except Fault Depths :=
  if _ : done < paths.size then
    let (h, d) := paths[done]
    match known[h]? with
    | some k =>
      if k = d then explore left known paths (done + 1)
      else .error (.unsupported (.depthMismatch h k d))
    | none =>
      match _ : left[h]? with
      | none => .error (.invariant (.danglingDepth h))
      | some (i, next) =>
        if d < i.effect.pops then .error (.unsupported (.depthUnderflow h))
        else
          let after := d - i.effect.pops + i.effect.pushes
          explore (left.erase h) (known.insert h d) (paths ++ successors i next after) (done + 1)
  else .ok known
termination_by (left.size, paths.size - done)
decreasing_by
  · exact Prod.Lex.right _ (by omega)
  · exact Prod.Lex.left _ _ (size_erase_lt ‹_›)

def depths (b : Body) : Except Fault Depths := explore b.links ∅ b.entries.toArray 0

end CilForge.Body
