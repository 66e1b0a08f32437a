import CilForge.Proofs.Body.Linked

/-!
# Refused edits

An edit that is refused leaves the body as it was, but for one case: the removal of a last jump
that branches name and at which a region starts. There the branches have been moved on to the
destination of the jump before the region refuses.
-/

namespace CilForge

namespace Edit

def faultOf {α : Type} : Except Fault α → Option Fault
  | .ok _ => none
  | .error e => some e

def Op.fault? (b : Body) : Op → Option Fault
  | push i => faultOf (Edit.push i b).1
  | insertAfter anchor i => faultOf (Edit.insertAfter anchor i b).1
  | insertBefore anchor i => faultOf (Edit.insertBefore anchor i b).1
  | replace old i => faultOf (Edit.replace old i b).1
  | remove h => faultOf (Edit.remove h b).1
  | setOperand h o => faultOf (Edit.setOperand h o b).1
  | retarget old new => faultOf (Edit.retarget old new b).1
  | addRegion r => faultOf (Edit.addRegion r b).1
  | clearRegions => faultOf (Edit.clearRegions b).1
  | addLocal sig => faultOf (Edit.addLocal sig b).1
  | setInitLocals flag => faultOf (Edit.setInitLocals flag b).1

end Edit

namespace Body

variable {b : Body} {h s : Handle}

/-- The last instruction is a jump to `s` that a branch names and at which a region starts. -/
structure Strands (b : Body) (h s : Handle) : Prop where
  targeted : b.isTarget h = true
  jump : ∃ i, b.get? h = some i ∧ (i.opcode = .br ∨ i.opcode = .leave) ∧ i.target? = some s
  elsewhere : s ≠ h
  last : b.next? h = none
  starts : (b.regions.any fun r => r.starts.contains h) = true

/-- A branch that is moved elsewhere does not name its old destination any more. -/
theorem isTarget_rebranch (elsewhere : s ≠ h) : (b.rebranch h s).isTarget h = false := by
  rw [Bool.eq_false_iff]
  intro named
  obtain ⟨p, line, mem⟩ := isTarget_iff.1 named
  obtain ⟨q, -, targets⟩ := targets_rebranch line
  rw [targets] at mem
  obtain ⟨t, -, moved⟩ := List.mem_map.1 mem
  unfold Handle.swap at moved
  split at moved
  · exact elsewhere moved
  · contradiction

theorem unlink_refused (refused : (Edit.faultOf (Edit.unlink h b).1).isSome = true) :
    b.next? h = none ∧ (b.regions.any fun r => r.starts.contains h) = true ∧
      (Edit.unlink h b).2 = b := by
  unfold Edit.unlink at refused ⊢
  split at refused
  · cases refused
  · rename_i last
    split at refused
    · rename_i starts
      rw [if_pos starts]
      exact ⟨last, starts, rfl⟩
    · cases refused

theorem Strands.remove (strands : b.Strands h s) :
    Edit.remove h b = (.error (.invariant (.noRegionSuccessor h)), b.rebranch h s) := by
  obtain ⟨i, found, jump, goal⟩ := strands.jump
  have passes : Edit.passesOnTo b h i = some s := by
    unfold Edit.passesOnTo
    rcases jump with jump | jump
    all_goals rw [jump]; exact goal
  unfold Edit.remove
  simp only [found, strands.targeted, if_true, passes, if_neg strands.elsewhere]
  unfold Edit.unlink
  rw [next?_rebranch, strands.last]
  exact if_pos strands.starts

theorem Strands.remove_ne (strands : b.Strands h s) : (Edit.remove h b).2 ≠ b := by
  rw [strands.remove]
  intro same
  have clear := isTarget_rebranch (b := b) strands.elsewhere
  rw [show b.rebranch h s = b from same, strands.targeted] at clear
  cases clear

theorem remove_refused (refused : (Edit.faultOf (Edit.remove h b).1).isSome = true) :
    (Edit.remove h b).2 = b ∨ ∃ s, b.Strands h s := by
  unfold Edit.remove at refused ⊢
  split at refused
  · exact .inl rfl
  · rename_i i found
    split at refused
    · rename_i targeted
      rw [if_pos targeted]
      split at refused
      · rename_i s passes
        split at refused
        · rename_i same
          rw [if_pos same]
          exact .inl rfl
        · rename_i elsewhere
          obtain ⟨last, starts, -⟩ := unlink_refused refused
          rw [next?_rebranch] at last
          refine .inr ⟨s, targeted, ⟨i, found, ?_⟩, elsewhere, last, starts⟩
          -- an instruction that passes branches on to the one behind it is not the last one
          unfold Edit.passesOnTo at passes
          split at passes
          · exact ⟨.inl ‹_›, passes⟩
          · exact ⟨.inr ‹_›, passes⟩
          · rw [last] at passes
            cases passes
      · exact .inl rfl
    · rename_i untargeted
      rw [if_neg untargeted]
      exact .inl (unlink_refused refused).2.2

theorem guarded_refused {α : Type} {a : α} {b' : Body} {guard : Except Fault Unit} :
    let edit : Except Fault α × Body := match guard with
      | .ok () => (.ok a, b')
      | .error e => (.error e, b)
    (Edit.faultOf edit.1).isSome = true → edit.2 = b := by
  cases guard with
  | ok _ => nofun
  | error _ => exact fun _ => rfl

/-- A refused edit changes the body just where a removal strands, and then it has moved the
branches and nothing else. -/
theorem refused_edit (b : Body) (op : Edit.Op) (refused : (op.fault? b).isSome = true) :
    (op.apply b ≠ b ↔ ∃ h s, op = .remove h ∧ b.Strands h s) ∧
      ∀ h s, op = .remove h → b.Strands h s →
        op.fault? b = some (.invariant (.noRegionSuccessor h)) ∧ op.apply b = b.rebranch h s := by
  have moved (h s : Handle) (is : op = .remove h) (strands : b.Strands h s) :
      op.fault? b = some (.invariant (.noRegionSuccessor h)) ∧ op.apply b = b.rebranch h s := by
    subst is
    constructor
    · exact congrArg (fun r => Edit.faultOf r.1) strands.remove
    · exact congrArg Prod.snd strands.remove
  have kept : op.apply b = b ∨ ∃ h s, op = .remove h ∧ b.Strands h s := by
    cases op with
    | remove h =>
      rcases remove_refused refused with kept | ⟨s, strands⟩
      · exact .inl kept
      · exact .inr ⟨h, s, rfl, strands⟩
    | addLocal sig =>
      change (Edit.faultOf (Edit.addLocal sig b).1).isSome = true at refused
      change (Edit.addLocal sig b).2 = b ∨ _
      unfold Edit.addLocal at refused ⊢
      split at refused
      · cases refused
      · rename_i full
        exact .inl (by rw [if_neg full])
    | clearRegions | setInitLocals flag => cases refused
    | push i | insertAfter anchor i | insertBefore anchor i | replace old i | setOperand h o
    | retarget old new | addRegion r => exact .inl (guarded_refused refused)
  refine ⟨⟨fun changed => kept.resolve_left changed, ?_⟩, moved⟩
  rintro ⟨h, s, rfl, strands⟩
  exact strands.remove_ne

/-- A body that ends with a jump at which a region starts and to which another jump goes. -/
def stranded : Body :=
  let ops : List Edit.Op := [.push ⟨.nop, .none⟩, .push (.branch .br ⟨0⟩),
    .insertBefore ⟨0⟩ (.branch .br ⟨1⟩),
    .addRegion { tryStart := ⟨0⟩, tryEnd := some ⟨1⟩, handlerStart := ⟨1⟩, handlerEnd := none }]
  ops.foldl Edit.Op.apply {}

theorem stranded_strands : stranded.Strands ⟨1⟩ ⟨0⟩ where
  targeted := rfl
  jump := ⟨_, rfl, .inl rfl, rfl⟩
  elsewhere := by decide
  last := rfl
  starts := rfl

/-- The removal of the last jump is refused, yet the first jump goes elsewhere afterwards. -/
theorem stranded_remove : stranded.Reachable ∧
    (Edit.Op.remove ⟨1⟩).fault? stranded = some (.invariant (.noRegionSuccessor ⟨1⟩)) ∧
    ((Edit.Op.remove ⟨1⟩).apply stranded).code ≠ stranded.code :=
  ⟨Reachable.empty.edits, rfl, by decide⟩

theorem refused_edit_stranded : ((Edit.Op.remove ⟨1⟩).fault? stranded).isSome = true ∧
    (Edit.Op.remove ⟨1⟩).apply stranded ≠ stranded :=
  ⟨rfl, (refused_edit stranded (.remove ⟨1⟩) rfl).1.2 ⟨_, _, rfl, stranded_strands⟩⟩

end Body

end CilForge
