import CilForge.Proofs.Body.Refines
import CilForge.Proofs.Body.Refusal

/-!
# Edits of a list

Looked at from outside the nodes of a body are a list of lines, with regions and locals beside it. Every edit that is
not refused is an edit of that list. A handle stays with one instruction: once the instruction is gone no other one gets
the handle.
-/

namespace CilForge

open Edit

structure View where
  lines : List (Handle × Instr)
  regions : List Region
  locals : Array Sig
  initLocals : Bool

/-- The ways through the nodes, forth and back, and what their handles name are those of the lines. -/
structure LinkedBody.Shows (a : LinkedBody) (v : View) : Prop where
  forth : Meets a.arena.next? a.arena.head (v.lines.map (·.1))
  back : Meets a.arena.prev? a.arena.tail (v.lines.map (·.1)).reverse
  instr : ∀ h i, a.arena.get? h = some i ↔ (h, i) ∈ v.lines
  len : a.arena.len = v.lines.length
  regions : a.regions = v.regions
  locals : a.locals = v.locals
  initLocals : a.initLocals = v.initLocals

/-- Every boundary of a region is moved by `f`. Where `f` gives nothing an end becomes the end of the method, and there
is no start. -/
structure Region.Moved (f : Handle → Option Handle) (r r' : Region) : Prop where
  tryStart : f r.tryStart = some r'.tryStart
  tryEnd : r'.tryEnd = r.tryEnd.bind f
  handlerStart : f r.handlerStart = some r'.handlerStart
  handlerEnd : r'.handlerEnd = r.handlerEnd.bind f
  filterStart : r.filterStart.map f = r'.filterStart.map some
  flags : r'.flags = r.flags
  catchType : r'.catchType = r.catchType

/-- Where control goes on once an instruction is gone that `behind` follows. -/
def Instr.successor? (i : Instr) (behind : List (Handle × Instr)) : Option Handle :=
  match i.opcode with
  | .br | .leave => i.target?
  | _ => behind.head?.map (·.1)

/-- What an edit makes of the lines, the regions and the locals, and what it gives back. -/
inductive View.Edited (v : View) : Op → Result → View → Prop where
  | push {i : Instr} {n : Handle} : (∀ p ∈ v.lines, p.1 ≠ n) →
    Edited v (.push i) (.handle n) { v with lines := v.lines ++ [(n, i)] }
  | insertAfter {anchor n : Handle} {i j : Instr} {before behind : List (Handle × Instr)} :
    v.lines = before ++ (anchor, j) :: behind → (∀ p ∈ v.lines, p.1 ≠ n) →
    Edited v (.insertAfter anchor i) (.handle n) { v with lines := before ++ (anchor, j) :: (n, i) :: behind }
  | insertBefore {anchor n : Handle} {i j : Instr} {before behind : List (Handle × Instr)} :
    v.lines = before ++ (anchor, j) :: behind → (∀ p ∈ v.lines, p.1 ≠ n) →
    Edited v (.insertBefore anchor i) (.handle n) { v with lines := before ++ (n, i) :: (anchor, j) :: behind }
  | replace {old n : Handle} {i j : Instr} {before behind : List (Handle × Instr)} {regions : List Region} :
    v.lines = before ++ (old, j) :: behind → (∀ p ∈ v.lines, p.1 ≠ n) →
    List.Forall₂ (Region.Moved fun h => some (Handle.swap old n h)) v.regions regions →
    Edited v (.replace old i) (.handle n)
      { v with lines := (before ++ (n, i) :: behind).map (relabel (Handle.swap old n)), regions }
  | remove {h s : Handle} {j : Instr} {before behind : List (Handle × Instr)} {regions : List Region} :
    v.lines = before ++ (h, j) :: behind →
    ((∃ p ∈ v.lines, h ∈ p.2.targets) → j.successor? behind = some s ∧ s ≠ h) →
    List.Forall₂ (Region.Moved fun x => if x = h then behind.head?.map (·.1) else some x) v.regions regions →
    Edited v (.remove h) .done
      { v with lines := (before ++ behind).map (relabel (Handle.swap h s)), regions }
  | setOperand {h : Handle} {o : Operand} {j : Instr} {before behind : List (Handle × Instr)} :
    v.lines = before ++ (h, j) :: behind →
    Edited v (.setOperand h o) .done { v with lines := before ++ (h, { j with operand := o }) :: behind }
  | retarget {old new : Handle} {regions : List Region} :
    List.Forall₂ (Region.Moved fun h => some (Handle.swap old new h)) v.regions regions →
    Edited v (.retarget old new) (.count ((v.lines.flatMap fun p => p.2.targets).count old))
      { v with lines := v.lines.map (relabel (Handle.swap old new)), regions }
  | addRegion {r : Region} : Edited v (.addRegion r) .done { v with regions := v.regions ++ [r] }
  | clearRegions : Edited v .clearRegions .done { v with regions := [] }
  | addLocal {sig : Sig} : Edited v (.addLocal sig) (.count v.locals.size) { v with locals := v.locals.push sig }
  | setInitLocals {flag : Bool} : Edited v (.setInitLocals flag) .done { v with initLocals := flag }

namespace Body

variable {b : Body} {h h' : Handle} {i j : Instr} {op : Op} {result : Result}

def view (b : Body) : View := ⟨b.code, b.regions, b.locals, b.initLocals⟩

theorem view_eq {b' : Body} {lines : List (Handle × Instr)} (code : b'.code = lines)
    (locals : b'.locals = b.locals) (init : b'.initLocals = b.initLocals) :
    b'.view = { b.view with lines, regions := b'.regions } := by
  simp [view, code, locals, init]

theorem Numbered.new (num : b.Numbered) : ∀ p ∈ b.view.lines, p.1 ≠ b.fresh := by
  intro p line
  exact num.ne_fresh (List.mem_map_of_mem line)

/-! ## Regions -/

theorem moved_rebound (rs : List Region) (old new : Handle) :
    List.Forall₂ (Region.Moved fun h => some (Handle.swap old new h)) rs (rs.map (·.rebound old new)) := by
  rw [List.forall₂_map_right_iff, List.forall₂_same]
  rintro ⟨flags, tryStart, tryEnd, handlerStart, handlerEnd, catchType, filterStart⟩ -
  refine ⟨rfl, ?_, rfl, ?_, ?_, rfl, rfl⟩
  · cases tryEnd <;> rfl
  · cases handlerEnd <;> rfl
  · cases filterStart <;> rfl

theorem moved_openEnds {rs : List Region} (starts : ∀ r ∈ rs, h ∉ r.starts) :
    List.Forall₂ (Region.Moved fun x => if x = h then none else some x) rs (rs.map (·.openEnds h)) := by
  rw [List.forall₂_map_right_iff, List.forall₂_same]
  intro r mem
  have other {x : Handle} (start : x ∈ r.starts) : x ≠ h := by
    rintro rfl
    exact starts r mem start
  have ends (e : Option Handle) :
      (if e = some h then none else e) = e.bind fun x => if x = h then none else some x := by
    cases e with
    | none => rfl
    | some x => by_cases same : x = h <;> simp [same]
  refine ⟨if_neg (other ?_), ends r.tryEnd, if_neg (other ?_), ends r.handlerEnd, ?_, rfl, rfl⟩
  · simp [Region.starts]
  · simp [Region.starts]
  · change _ = r.filterStart.map some
    cases filter : r.filterStart with
    | none => rfl
    | some x => exact congrArg some (if_neg (other (by simp [Region.starts, filter])))

/-! ## Single edits -/

theorem map_eq_ok {α β : Type} {f : α → β} {x : Except Fault α} {y : β} (given : x.map f = .ok y) :
    ∃ a, x = .ok a ∧ y = f a := by
  cases x with
  | ok a => exact ⟨a, rfl, (Except.ok.inj given).symm⟩
  | error e => cases given

theorem isSome_fault? {e : Fault} (refused : op.answer b = .error e) : (op.fault? b).isSome = true := by
  have fails {α : Type} {f : α → Result} {x : Except Fault α} (refused : x.map f = .error e) :
      (faultOf x).isSome = true := by
    cases x with
    | ok a => cases refused
    | error e => rfl
  cases op with
  | clearRegions | setInitLocals => cases refused
  | push | insertAfter | insertBefore | replace | remove | setOperand | retarget | addRegion | addLocal =>
    exact fails refused

theorem guarded_done {α : Type} {f : α → Result} {x : α} {b' : Body} {guard : Except Fault Unit} :
    let edit : Except Fault α × Body := match guard with
      | .ok () => (.ok x, b')
      | .error e => (.error e, b)
    edit.1.map f = .ok result → guard = .ok () ∧ result = f x ∧ edit = (.ok x, b') := by
  cases guard with
  | ok _ => exact fun given => ⟨rfl, (Except.ok.inj given).symm, rfl⟩
  | error _ => nofun

section
variable (num : b.Numbered)
include num

theorem edited_push (given : (Op.push i).answer b = .ok result) :
    b.view.Edited (.push i) result ((Op.push i).apply b).view := by
  obtain ⟨-, rfl, edit⟩ := guarded_done given
  change View.Edited _ _ (.handle b.fresh) (Edit.push i b).2.view
  rw [show Edit.push i b = _ from edit]
  exact .push num.new

theorem edited_insertAfter (given : (Op.insertAfter h i).answer b = .ok result) :
    b.view.Edited (.insertAfter h i) result ((Op.insertAfter h i).apply b).view := by
  obtain ⟨ok, rfl, edit⟩ := guarded_done given
  obtain ⟨before, j, behind, code⟩ := exists_split (requireAll_eq_ok.1 ok h List.mem_cons_self)
  have nodup := num.lines code
  change View.Edited _ _ (.handle b.fresh) (Edit.insertAfter h i b).2.view
  rw [show Edit.insertAfter h i b = _ from edit]
  simp only [code, Edited.flatMap_here nodup]
  exact .insertAfter code num.new

theorem edited_insertBefore (given : (Op.insertBefore h i).answer b = .ok result) :
    b.view.Edited (.insertBefore h i) result ((Op.insertBefore h i).apply b).view := by
  obtain ⟨ok, rfl, edit⟩ := guarded_done given
  obtain ⟨before, j, behind, code⟩ := exists_split (requireAll_eq_ok.1 ok h List.mem_cons_self)
  have nodup := num.lines code
  change View.Edited _ _ (.handle b.fresh) (Edit.insertBefore h i b).2.view
  rw [show Edit.insertBefore h i b = _ from edit]
  simp only [code, Edited.flatMap_here nodup]
  exact .insertBefore code num.new

theorem edited_replace (given : (Op.replace h i).answer b = .ok result) :
    b.view.Edited (.replace h i) result ((Op.replace h i).apply b).view := by
  obtain ⟨ok, rfl, edit⟩ := guarded_done given
  obtain ⟨before, j, behind, code⟩ := exists_split (requireAll_eq_ok.1 ok h List.mem_cons_self)
  have nodup := num.lines code
  change View.Edited _ _ (.handle b.fresh) (Edit.replace h i b).2.view
  rw [show Edit.replace h i b = _ from edit]
  simp only [code, Edited.map_here nodup]
  exact .replace code num.new (moved_rebound b.regions h b.fresh)

theorem edited_setOperand {o : Operand} (given : (Op.setOperand h o).answer b = .ok result) :
    b.view.Edited (.setOperand h o) result ((Op.setOperand h o).apply b).view := by
  obtain ⟨ok, rfl, edit⟩ := guarded_done given
  obtain ⟨before, j, behind, code⟩ := exists_split (requireAll_eq_ok.1 ok h (by simp))
  have nodup := num.lines code
  change View.Edited _ _ _ (Edit.setOperand h o b).2.view
  rw [show Edit.setOperand h o b = _ from edit]
  simp only [code, Edited.map_here nodup]
  exact .setOperand code

theorem unlink_done {before behind : List (Handle × Instr)} (code : b.code = before ++ (h, j) :: behind)
    (done : (Edit.unlink h b).1 = .ok ()) :
    (Edit.unlink h b).2.code = before ++ behind ∧
      List.Forall₂ (Region.Moved fun x => if x = h then behind.head?.map (·.1) else some x)
        b.regions (Edit.unlink h b).2.regions ∧
      (Edit.unlink h b).2.locals = b.locals ∧ (Edit.unlink h b).2.initLocals = b.initLocals := by
  have next := next?_of_append num.nodup code
  have nodup := num.lines code
  have lines : b.code.filter (·.1 ≠ h) = before ++ behind := by rw [code, Edited.filter_here nodup]
  unfold Edit.unlink at done ⊢
  rw [next] at done ⊢
  split at done
  · rename_i n head
    simp only [head]
    have swap : (fun x => if x = h then some n else some x) = fun x => some (Handle.swap h n x) := by
      funext x
      exact (apply_ite some _ _ _).symm
    refine ⟨lines, ?_, rfl, rfl⟩
    rw [swap]
    exact moved_rebound b.regions h n
  · rename_i last
    simp only [last]
    split at done
    · cases done
    · rename_i free
      rw [if_neg free]
      refine ⟨lines, moved_openEnds ?_, rfl, rfl⟩
      intro r mem start
      exact free (List.any_eq_true.2 ⟨r, mem, List.contains_iff_mem.2 start⟩)

theorem edited_remove (given : (Op.remove h).answer b = .ok result) :
    b.view.Edited (.remove h) result ((Op.remove h).apply b).view := by
  obtain ⟨_, done, rfl⟩ := map_eq_ok given
  change View.Edited _ _ _ (Edit.remove h b).2.view
  unfold Edit.remove at done ⊢
  split at done
  · cases done
  · rename_i j found
    obtain ⟨before, behind, code⟩ := List.append_of_mem (mem_of_lookup found)
    split at done
    · rename_i targeted
      rw [if_pos targeted]
      split at done
      · rename_i s passes
        split at done
        · cases done
        · rename_i elsewhere
          rw [if_neg elsewhere]
          have moved : (b.rebranch h s).code = before.map (relabel (Handle.swap h s)) ++
              relabel (Handle.swap h s) (h, j) :: behind.map (relabel (Handle.swap h s)) := by
            change b.code.map (relabel (Handle.swap h s)) = _
            rw [code, List.map_append, List.map_cons]
          obtain ⟨lines, regions, locals, init⟩ := unlink_done (num.rebranch h s) moved done
          have successor : j.successor? behind = some s := by
            rw [← passes]
            unfold Instr.successor? Edit.passesOnTo
            rewrite [next?_of_append num.nodup code]
            rfl
          rw [List.head?_map, Option.map_map] at regions
          rw [view_eq lines locals init, ← List.map_append]
          exact .remove code (fun _ => ⟨successor, elsewhere⟩) regions
      · cases done
    · rename_i untargeted
      rw [if_neg untargeted]
      obtain ⟨lines, regions, locals, init⟩ := unlink_done num code done
      have unmoved : before ++ behind = (before ++ behind).map (relabel (Handle.swap h h)) := by
        rw [Edited.swap_self, List.map_congr_left fun p _ => relabel_id p, List.map_id']
      rw [view_eq lines locals init, unmoved]
      exact .remove code (fun named => absurd (isTarget_iff.2 named) untargeted) regions

end

/-- Every edit that is not refused edits what is seen of the body. -/
theorem edited_view (num : b.Numbered) (op : Op) (given : op.answer b = .ok result) :
    b.view.Edited op result (op.apply b).view := by
  cases op with
  | push i => exact edited_push num given
  | insertAfter anchor i => exact edited_insertAfter num given
  | insertBefore anchor i => exact edited_insertBefore num given
  | replace old i => exact edited_replace num given
  | remove h => exact edited_remove num given
  | setOperand h o => exact edited_setOperand num given
  | retarget old new =>
    obtain ⟨-, rfl, edit⟩ := guarded_done given
    change View.Edited _ _ _ (Edit.retarget old new b).2.view
    rw [show Edit.retarget old new b = _ from edit]
    exact .retarget (moved_rebound b.regions old new)
  | addRegion r =>
    obtain ⟨-, rfl, edit⟩ := guarded_done given
    change View.Edited _ _ _ (Edit.addRegion r b).2.view
    rw [show Edit.addRegion r b = _ from edit]
    exact .addRegion
  | addLocal sig =>
    obtain ⟨n, done, rfl⟩ := map_eq_ok given
    change View.Edited _ _ _ (Edit.addLocal sig b).2.view
    unfold Edit.addLocal at done ⊢
    split at done
    · rename_i room
      rw [if_pos room]
      cases done
      exact .addLocal
    · cases done
  | clearRegions =>
    cases given
    exact .clearRegions
  | setInitLocals flag =>
    cases given
    exact .setInitLocals

/-! ## What handles name -/

/-- A line that an edit does not add has been there, with the same opcode. -/
theorem old_line {v v' : View} (edited : v.Edited op result v') (line : (h, i) ∈ v'.lines)
    (other : result ≠ .handle h) : ∃ j, (h, j) ∈ v.lines ∧ j.opcode = i.opcode := by
  have relabelled {σ : Handle → Handle} {l : List (Handle × Instr)} (mem : (h, i) ∈ l.map (relabel σ)) :
      ∃ j, (h, j) ∈ l ∧ j.opcode = i.opcode := by
    obtain ⟨⟨x, j⟩, old, same⟩ := List.mem_map.1 mem
    cases same
    exact ⟨j, old, rfl⟩
  cases edited with
  | push _ =>
    rcases List.mem_append.1 line with old | new
    · exact ⟨i, old, rfl⟩
    · cases List.mem_singleton.1 new
      exact absurd rfl other
  | @insertAfter _ n _ _ _ _ code _ | @insertBefore _ n _ _ _ _ code _ =>
    have ne : h ≠ n := fun same => other (congrArg Result.handle same.symm)
    refine ⟨i, ?_, rfl⟩
    rw [code]
    simpa [ne] using line
  | @replace _ n _ _ before behind _ code _ _ =>
    have ne : h ≠ n := fun same => other (congrArg Result.handle same.symm)
    obtain ⟨j, mem, same⟩ := relabelled line
    refine ⟨j, ?_, same⟩
    simp only [List.mem_append, List.mem_cons, Prod.mk.injEq, ne, false_and, false_or] at mem
    rw [code, List.mem_append, List.mem_cons]
    exact mem.imp id .inr
  | remove code _ _ =>
    obtain ⟨j, mem, same⟩ := relabelled line
    refine ⟨j, ?_, same⟩
    rw [code, List.mem_append, List.mem_cons]
    exact (List.mem_append.1 mem).imp id .inr
  | @setOperand _ _ j _ _ code =>
    rw [code]
    rcases List.mem_append.1 line with old | line
    · exact ⟨i, List.mem_append_left _ old, rfl⟩
    · rcases List.mem_cons.1 line with here | old
      · cases here
        exact ⟨j, List.mem_append_right _ List.mem_cons_self, rfl⟩
      · exact ⟨i, List.mem_append_right _ (List.mem_cons_of_mem _ old), rfl⟩
  | retarget _ => exact relabelled line
  | addRegion | clearRegions | addLocal | setInitLocals => exact ⟨i, line, rfl⟩

theorem handle_eq {n : Handle} (given : op.answer b = .ok (.handle n)) : n = b.fresh := by
  cases op with
  | push i | insertAfter anchor i | insertBefore anchor i | replace old i =>
    obtain ⟨-, same, -⟩ := guarded_done given
    exact Result.handle.inj same
  | remove | setOperand | retarget | addRegion | addLocal =>
    obtain ⟨_, -, other⟩ := map_eq_ok given
    cases other
  | clearRegions | setInitLocals => cases given

/-- An instruction whose handle was given out before an edit has been there before the edit. -/
theorem get?_of_apply (num : b.Numbered) (op : Op) (old : h.index < b.nextIndex)
    (there : (op.apply b).get? h = some i) : ∃ j, b.get? h = some j ∧ j.opcode = i.opcode := by
  simp only [get?_iff num.nodup]
  have line := mem_of_lookup there
  cases answer : op.answer b with
  | ok result =>
    refine old_line (edited_view num op answer) line ?_
    rintro rfl
    rw [handle_eq answer] at old
    exact Nat.lt_irrefl _ old
  | error e =>
    obtain ⟨changes, moved⟩ := refused_edit b op (isSome_fault? answer)
    by_cases same : op.apply b = b
    · exact ⟨i, same ▸ line, rfl⟩
    · obtain ⟨x, s, is, strands⟩ := changes.1 same
      rw [(moved x s is strands).2] at line
      obtain ⟨⟨y, j⟩, mem, eq⟩ := List.mem_map.1 line
      cases eq
      exact ⟨j, mem, rfl⟩

theorem get?_of_edits (ops : List Op) : ∀ {b : Body}, b.Numbered → h.index < b.nextIndex →
    (ops.foldl Op.apply b).get? h = some i → ∃ j, b.get? h = some j ∧ j.opcode = i.opcode := by
  induction ops with
  | nil => exact fun _ _ there => ⟨i, there, rfl⟩
  | cons op ops ih =>
    intro b num old there
    obtain ⟨j, there, same⟩ := ih (num.apply op) (Nat.lt_of_lt_of_le old (nextIndex_le op)) there
    obtain ⟨k, there, same'⟩ := get?_of_apply num op old there
    exact ⟨k, there, same'.trans same⟩

end Body

namespace LinkedBody

variable {a : LinkedBody} {b : Body} {ops : List Op}

theorem Mirrors.shows (m : a.Mirrors b) (num : b.Numbered) : a.Shows b.view where
  forth := by
    rw [m.arena.head, funext fun h => m.arena.next? (h := h)]
    exact Body.meets_next num.nodup
  back := by
    rw [m.arena.tail, funext fun h => m.arena.prev? (h := h)]
    exact Body.meets_prev num.nodup
  instr h i := by
    rw [m.arena.get?]
    exact Body.get?_iff num.nodup
  len := m.arena.len
  regions := m.regions
  locals := m.locals
  initLocals := m.initLocals

theorem mirrors_first (rest : List Op) (few : ((ops ++ rest).foldl Op.apply ({} : Body)).nextIndex ≤ 2 ^ 32) :
    ∃ a, after? {} ops = some a ∧ a.Mirrors (ops.foldl Op.apply {}) := by
  rw [List.foldl_append] at few
  exact mirrors_empty.edits ops Body.Reachable.empty.numbered (Nat.le_trans (Body.nextIndex_edits rest) few)

end LinkedBody

end CilForge
