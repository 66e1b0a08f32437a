import CilForge.Proofs.Body.Arena
import CilForge.Proofs.Body.Check
import CilForge.Proofs.Body.Splice

/-!
# Linked bodies and lists

Every edit of linked nodes is answered like the edit of the list that they mirror, and they mirror the
list that has been edited. So whatever edits are tried on the empty body, refused or not, the links
and all that branches and regions name stay sound, as long as no more instructions are asked for than
there are handles.
-/

namespace CilForge

open Body Edit

namespace Body

variable {b : Body}

theorem nextIndex_le (op : Op) : b.nextIndex ≤ (op.apply b).nextIndex := by
  have unlink (h : Handle) (c : Body) : (Edit.unlink h c).2.nextIndex = c.nextIndex := by
    unfold Edit.unlink
    split
    · rfl
    · split <;> rfl
  cases op with
  | push i | insertAfter anchor i | insertBefore anchor i | replace old i =>
    simp only [Op.apply, Edit.push, Edit.insertAfter, Edit.insertBefore, Edit.replace]
    split
    · exact Nat.le_succ _
    · exact Nat.le_refl _
  | setOperand | retarget | addRegion =>
    simp only [Op.apply, Edit.setOperand, Edit.retarget, Edit.addRegion]
    split <;> exact Nat.le_refl _
  | clearRegions | setInitLocals => exact Nat.le_refl _
  | addLocal sig =>
    change _ ≤ (Edit.addLocal sig b).2.nextIndex
    unfold Edit.addLocal
    split <;> exact Nat.le_refl _
  | remove h =>
    change _ ≤ (Edit.remove h b).2.nextIndex
    unfold Edit.remove
    split
    · exact Nat.le_refl _
    · split
      · split
        · split
          · exact Nat.le_refl _
          · exact Nat.le_of_eq (unlink h (b.rebranch h _)).symm
        · exact Nat.le_refl _
      · exact Nat.le_of_eq (unlink h b).symm

theorem nextIndex_edits (ops : List Op) : ∀ {b : Body}, b.nextIndex ≤ (ops.foldl Op.apply b).nextIndex := by
  induction ops with
  | nil => exact Nat.le_refl _
  | cons op ops ih => exact Nat.le_trans (nextIndex_le op) ih

end Body

namespace LinkedBody

structure Mirrors (a : LinkedBody) (b : Body) : Prop where
  arena : a.arena.Mirrors b
  locals : a.locals = b.locals
  regions : a.regions = b.regions
  initLocals : a.initLocals = b.initLocals

structure Follows {α : Type} (x : Answer α) (y : Except Fault α × Body) : Prop where
  answer : x.1 = y.1
  mirrors : x.2.Mirrors y.2

variable {a : LinkedBody} {b : Body} {h : Handle} {i : Instr}

theorem mirrors_empty : Mirrors {} {} := by
  refine ⟨⟨rfl, fun h => ?_, rfl, rfl, rfl⟩, rfl, rfl, rfl⟩
  rw [Arena.node?, Array.getElem?_empty]
  rfl

theorem Follows.answered {α : Type} {x : Answer α} {y : Except Fault α × Body} (same : Follows x y)
    (result : α → Result) : ∃ a', some (answered result x) = some (y.1.map result, a') ∧ a'.Mirrors y.2 :=
  ⟨x.2, by rw [LinkedBody.answered, same.answer], same.mirrors⟩

namespace Mirrors

section
variable (m : a.Mirrors b)
include m

theorem require (h : Handle) : a.require h = b.require h := by
  rw [LinkedBody.require, m.arena.contains, Body.require]

theorem requireAll (hs : List Handle) : a.requireAll hs = b.requireAll hs := by
  induction hs with
  | nil => rfl
  | cons h hs ih =>
    change (a.require h >>= fun _ => a.requireAll hs) = _
    rw [m.require, ih, Body.requireAll]
    cases b.require h <;> rfl

theorem push (num : b.Numbered) (room : ((Op.push i).apply b).nextIndex ≤ 2 ^ 32) :
    Follows (a.push i) (Edit.push i b) := by
  simp only [Op.apply, LinkedBody.push, LinkedBody.insert, Edit.push, m.requireAll] at room ⊢
  cases guard : b.requireAll i.targets with
  | error e => exact ⟨rfl, m⟩
  | ok _ =>
    rw [guard] at room
    obtain ⟨given, arena⟩ := m.arena.pushBack (i := i) num room
    exact ⟨congrArg _ given, arena, m.locals, m.regions, m.initLocals⟩

theorem insertAfter {anchor : Handle} (num : b.Numbered)
    (room : ((Op.insertAfter anchor i).apply b).nextIndex ≤ 2 ^ 32) :
    Follows (a.insertAfter anchor i) (Edit.insertAfter anchor i b) := by
  simp only [Op.apply, LinkedBody.insertAfter, LinkedBody.insert, Edit.insertAfter, m.requireAll] at room ⊢
  cases guard : b.requireAll (anchor :: i.targets) with
  | error e => exact ⟨rfl, m⟩
  | ok _ =>
    rw [guard] at room
    obtain ⟨before, j, behind, code⟩ := exists_split (requireAll_eq_ok.1 guard anchor List.mem_cons_self)
    obtain ⟨given, arena⟩ := m.arena.linkAfter (i := i) num room code
    refine ⟨congrArg _ given, ?_, m.locals, m.regions, m.initLocals⟩
    simp only [code, Edited.flatMap_here (num.lines code)]
    exact arena

theorem insertBefore {anchor : Handle} (num : b.Numbered)
    (room : ((Op.insertBefore anchor i).apply b).nextIndex ≤ 2 ^ 32) :
    Follows (a.insertBefore anchor i) (Edit.insertBefore anchor i b) := by
  simp only [Op.apply, LinkedBody.insertBefore, LinkedBody.insert, Edit.insertBefore, m.requireAll] at room ⊢
  cases guard : b.requireAll (anchor :: i.targets) with
  | error e => exact ⟨rfl, m⟩
  | ok _ =>
    rw [guard] at room
    obtain ⟨before, j, behind, code⟩ := exists_split (requireAll_eq_ok.1 guard anchor List.mem_cons_self)
    obtain ⟨given, arena⟩ := m.arena.linkBefore (i := i) num room code
    refine ⟨congrArg _ given, ?_, m.locals, m.regions, m.initLocals⟩
    simp only [code, Edited.flatMap_here (num.lines code)]
    exact arena

theorem replace {old : Handle} (num : b.Numbered) (room : ((Op.replace old i).apply b).nextIndex ≤ 2 ^ 32) :
    Follows (a.replace old i) (Edit.replace old i b) := by
  simp only [Op.apply, LinkedBody.replace, Edit.replace, m.requireAll] at room ⊢
  cases guard : b.requireAll (old :: i.targets) with
  | error e => exact ⟨rfl, m⟩
  | ok _ =>
    rw [guard] at room
    obtain ⟨before, j, behind, code⟩ := exists_split (requireAll_eq_ok.1 guard old List.mem_cons_self)
    obtain ⟨given, linked⟩ := m.arena.linkAfter (i := i) num room code
    have inserted : Body.Numbered
        { b with code := before ++ (old, j) :: (b.fresh, i) :: behind, nextIndex := b.nextIndex + 1 } := by
      have inserted := num.insertAfter old i
      simp only [Edit.insertAfter, guard, code, Edited.flatMap_here (num.lines code)] at inserted
      exact inserted
    have dropped := (linked.rebranch old b.fresh).unlink (inserted.rebranch old b.fresh)
      ((List.map_append ..).trans rfl)
    simp only [given]
    refine ⟨rfl, dropped.same ?_ rfl, m.locals, ?_, m.initLocals⟩
    · simp only [Body.rebound, Body.rebranch, code, Edited.map_here (num.lines code)]
      exact List.map_append
    · simp only [LinkedBody.moveBoundaries, m.regions]
      rfl

theorem setOperand {o : Operand} : Follows (a.setOperand h o) (Edit.setOperand h o b) := by
  have guards : b.requireAll (o.targets ++ [h]) = (b.requireAll o.targets).bind fun _ => b.require h := by
    generalize o.targets = ts
    induction ts with
    | nil => simp only [List.nil_append, Body.requireAll]; cases b.require h <;> rfl
    | cons t ts ih =>
      rw [List.cons_append, Body.requireAll, Body.requireAll, ih]
      cases b.require t <;> rfl
  simp only [LinkedBody.setOperand, Edit.setOperand, m.requireAll, m.require, guards]
  cases b.requireAll o.targets with
  | error e => exact ⟨rfl, m⟩
  | ok _ =>
    dsimp only
    cases b.require h with
    | error e => exact ⟨rfl, m⟩
    | ok _ => exact ⟨rfl, (m.arena.setOperand h o).same rfl rfl, m.locals, m.regions, m.initLocals⟩

theorem retarget {old new : Handle} (num : b.Numbered) :
    Follows (a.retarget old new) (Edit.retarget old new b) := by
  simp only [LinkedBody.retarget, Edit.retarget, m.requireAll]
  cases guard : b.requireAll [old, new] with
  | error e => exact ⟨rfl, m⟩
  | ok _ =>
    refine ⟨congrArg _ (m.arena.slotCount num old), (m.arena.rebranch old new).same rfl rfl, m.locals, ?_, m.initLocals⟩
    simp only [LinkedBody.moveBoundaries, m.regions]
    rfl

theorem addRegion {r : Region} : Follows (a.addRegion r) (Edit.addRegion r b) := by
  simp only [LinkedBody.addRegion, Edit.addRegion, m.requireAll]
  cases guard : b.requireAll r.boundaries with
  | error e => exact ⟨rfl, m⟩
  | ok _ => exact ⟨rfl, m.arena.same rfl rfl, m.locals, congrArg (· ++ [r]) m.regions, m.initLocals⟩

theorem addLocal {sig : Sig} : Follows (a.addLocal sig) (Edit.addLocal sig b) := by
  simp only [LinkedBody.addLocal, Edit.addLocal, m.locals]
  split
  · exact ⟨rfl, m.arena.same rfl rfl, rfl, m.regions, m.initLocals⟩
  · exact ⟨rfl, m⟩

theorem drop (num : b.Numbered) {x y : List (Handle × Instr)} (code : b.code = x ++ (h, i) :: y) :
    Follows (a.drop h (b.next? h)) (Edit.unlink h b) := by
  have arena := m.arena.unlink num code
  have lines : b.code.filter (·.1 ≠ h) = x ++ y := by rw [code, Edited.filter_here (num.lines code)]
  simp only [LinkedBody.drop, Edit.unlink, m.regions]
  cases b.next? h with
  | some next =>
    refine ⟨rfl, arena.same lines rfl, m.locals, ?_, m.initLocals⟩
    rw [LinkedBody.moveBoundaries, m.regions]
    rfl
  | none =>
    by_cases starts : (b.regions.any fun r => r.starts.contains h) = true
    · simp only [starts, Option.isNone_none, Bool.and_self, if_true]
      exact ⟨rfl, m⟩
    · simp only [starts, Option.isNone_none, Bool.and_false]
      refine ⟨rfl, arena.same lines rfl, m.locals, ?_, m.initLocals⟩
      rw [LinkedBody.moveBoundaries, m.regions]
      rfl

theorem passesOnTo (h : Handle) (i : Instr) : a.passesOnTo h i = Edit.passesOnTo b h i := by
  unfold LinkedBody.passesOnTo Edit.passesOnTo
  cases i.opcode with
  | br | leave => rfl
  | _ => exact m.arena.next?

theorem remove (num : b.Numbered) : ∃ x, a.remove h = some x ∧ Follows x (Edit.remove h b) := by
  simp only [LinkedBody.remove, Edit.remove, m.arena.get?, m.arena.isTarget? num, m.arena.next?, m.passesOnTo]
  cases found : b.get? h with
  | none => exact ⟨(.error (.invariant (.unknownInstr h)), a), rfl, rfl, m⟩
  | some i =>
    obtain ⟨x, y, code⟩ := List.append_of_mem (mem_of_lookup found)
    simp only [Option.bind_eq_bind, Option.bind_some]
    by_cases targeted : b.isTarget h = true
    · simp only [targeted, if_true]
      cases Edit.passesOnTo b h i with
      | none => exact ⟨(.error (.invariant (.noSuccessor h)), a), rfl, rfl, m⟩
      | some s =>
        by_cases same : s = h
        · simp only [same, if_true]
          exact ⟨(.error (.invariant (.noSuccessor h)), a), rfl, rfl, m⟩
        · simp only [same, if_false]
          have moved : LinkedBody.Mirrors { a with arena := a.arena.rebranch h s } (b.rebranch h s) :=
            ⟨m.arena.rebranch h s, m.locals, m.regions, m.initLocals⟩
          have lines : (b.rebranch h s).code = x.map (relabel (Handle.swap h s)) ++
              (h, i.mapTargets (Handle.swap h s)) :: y.map (relabel (Handle.swap h s)) := by
            change b.code.map (relabel (Handle.swap h s)) = _
            rw [code, List.map_append]
            rfl
          have dropped := moved.drop (num.rebranch h s) lines
          rw [next?_rebranch] at dropped
          exact ⟨_, rfl, dropped⟩
    · simp only [targeted]
      exact ⟨_, rfl, m.drop num code⟩

theorem run? (num : b.Numbered) (op : Op) (room : (op.apply b).nextIndex ≤ 2 ^ 32) :
    ∃ a', a.run? op = some (op.answer b, a') ∧ a'.Mirrors (op.apply b) := by
  cases op with
  | push i => exact (m.push num room).answered .handle
  | insertAfter anchor i => exact (m.insertAfter num room).answered .handle
  | insertBefore anchor i => exact (m.insertBefore num room).answered .handle
  | replace old i => exact (m.replace num room).answered .handle
  | remove h =>
    obtain ⟨x, came, same⟩ := m.remove (h := h) num
    rw [LinkedBody.run?, came]
    exact same.answered fun _ => .done
  | setOperand h o => exact m.setOperand.answered fun _ => .done
  | retarget old new => exact (m.retarget num).answered .count
  | addRegion r => exact m.addRegion.answered fun _ => .done
  | clearRegions => exact ⟨_, rfl, m.arena.same rfl rfl, m.locals, rfl, m.initLocals⟩
  | addLocal sig => exact m.addLocal.answered .count
  | setInitLocals flag => exact ⟨_, rfl, m.arena.same rfl rfl, m.locals, m.regions, rfl⟩

end

/-- Whatever edits are tried, refused ones included, the nodes mirror the list that has been edited. -/
theorem edits (ops : List Op) : ∀ {a : LinkedBody} {b : Body}, a.Mirrors b → b.Numbered →
    (ops.foldl Op.apply b).nextIndex ≤ 2 ^ 32 → ∃ a', a.after? ops = some a' ∧ a'.Mirrors (ops.foldl Op.apply b) := by
  induction ops with
  | nil => exact fun m _ _ => ⟨_, rfl, m⟩
  | cons op ops ih =>
    intro a b m num room
    obtain ⟨a₁, came, m₁⟩ := m.run? num op (Nat.le_trans (nextIndex_edits ops) room)
    obtain ⟨a₂, rest, m₂⟩ := ih m₁ (num.apply op) room
    refine ⟨a₂, ?_, m₂⟩
    rw [after?, came]
    exact rest

theorem read? (m : a.Mirrors b) (num : b.Numbered) : a.read? = some b := by
  rw [LinkedBody.read?, m.arena.lines? num, m.arena.size, m.locals, m.regions, m.initLocals]
  rfl

end Mirrors

/-- Jumps to each other under a region; the last of them is replaced, and its removal then refused. -/
def tangled : List Op := [.push ⟨.nop, .none⟩, .push (.branch .br ⟨0⟩), .insertBefore ⟨0⟩ (.branch .br ⟨1⟩),
  .addRegion { tryStart := ⟨0⟩, tryEnd := some ⟨1⟩, handlerStart := ⟨1⟩, handlerEnd := none },
  .replace ⟨1⟩ (.branch .br ⟨1⟩), .remove ⟨3⟩]

end LinkedBody

end CilForge
