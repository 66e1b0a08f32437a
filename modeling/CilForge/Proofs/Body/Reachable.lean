import CilForge.Body.Edit

/-!
# Bodies made by edits

A body comes about by edits of the empty one. `Numbered` is what all such bodies have in common:
no handle occurs twice, and the handles still to come are new.
-/

namespace CilForge

def numbered (first : Nat) : List Instr → List (Handle × Instr)
  | [] => []
  | i :: rest => (⟨first⟩, i) :: numbered (first + 1) rest

theorem numbered_eq_zipIdx : ∀ (first : Nat) (is : List Instr),
    numbered first is = (is.zipIdx first).map fun x => (⟨x.2⟩, x.1)
  | _, [] => rfl
  | first, i :: is => by rw [numbered, numbered_eq_zipIdx, List.zipIdx_cons, List.map_cons]

theorem instrs_numbered : ∀ (n : Nat) (is : List Instr), (numbered n is).map (·.2) = is
  | _, [] => rfl
  | n, i :: is => by rw [numbered, List.map_cons, instrs_numbered]

theorem handles_numbered (is : List Instr) : (numbered 0 is).map (·.1) = (List.range is.length).map Handle.mk := by
  rw [numbered_eq_zipIdx, List.map_map, List.range_eq_range', ← List.zipIdx_map_snd, List.map_map]
  rfl

theorem mem_handles_range {h : Handle} {n : Nat} : h ∈ (List.range n).map Handle.mk ↔ h.index < n := by
  rw [List.mem_map]
  exact ⟨fun ⟨_, mem, eq⟩ => eq ▸ List.mem_range.1 mem, fun lt => ⟨h.index, List.mem_range.2 lt, rfl⟩⟩

theorem mem_numbered {i : Instr} {n : Nat} {is : List Instr} :
    (∃ h, (h, i) ∈ numbered n is) ↔ i ∈ is := by
  constructor
  · rintro ⟨h, mem⟩
    rw [← instrs_numbered n is]
    exact List.mem_map_of_mem mem
  · intro mem
    rw [← instrs_numbered n is] at mem
    obtain ⟨⟨h, i⟩, line, rfl⟩ := List.mem_map.1 mem
    exact ⟨h, line⟩

namespace Body

inductive Reachable : Body → Prop where
  | empty : Reachable {}
  | edit {b : Body} (op : Edit.Op) : Reachable b → Reachable (op.apply b)

structure Numbered (b : Body) : Prop where
  nodup : b.handles.Nodup
  below : ∀ h ∈ b.handles, h.index < b.nextIndex

variable {b : Body}

theorem Numbered.fresh (num : b.Numbered) : b.fresh ∉ b.handles := fun h =>
  Nat.lt_irrefl _ (num.below _ h)

theorem handles_rebranch (old new : Handle) : (b.rebranch old new).handles = b.handles := by
  unfold rebranch handles
  rw [List.map_map]
  rfl

theorem numbered_of_handles {b' : Body} (num : b.Numbered) (handles : b'.handles = b.handles)
    (next : b'.nextIndex = b.nextIndex) : b'.Numbered :=
  ⟨handles ▸ num.nodup, handles ▸ next ▸ num.below⟩

theorem numbered_of_range (handles : b.handles = (List.range b.nextIndex).map Handle.mk) : b.Numbered := by
  refine ⟨?_, fun h mem => mem_handles_range.1 (handles ▸ mem)⟩
  rw [handles, List.Nodup, List.pairwise_map]
  exact List.nodup_range.imp fun ne eq => ne (congrArg Handle.index eq)

theorem Numbered.rebranch (num : b.Numbered) (old new : Handle) : (b.rebranch old new).Numbered :=
  numbered_of_handles num (handles_rebranch old new) rfl

theorem Numbered.filter (num : b.Numbered) {b' : Body} {p : Handle × Instr → Bool}
    (code : b'.code = b.code.filter p) (next : b'.nextIndex = b.nextIndex) : b'.Numbered := by
  have sub : b'.handles.Sublist b.handles := by
    unfold handles
    rw [code]
    exact List.filter_sublist.map _
  exact ⟨num.nodup.sublist sub, fun h hh => next ▸ num.below h (sub.subset hh)⟩

theorem Numbered.extend (num : b.Numbered) {b' : Body} (nodup : b'.handles.Nodup)
    (sub : ∀ h ∈ b'.handles, h ∈ b.handles ∨ h = b.fresh) (next : b'.nextIndex = b.nextIndex + 1) :
    b'.Numbered := by
  refine ⟨nodup, fun h hh => ?_⟩
  rcases sub h hh with old | rfl
  · have := num.below h old
    omega
  · rw [next]
    exact Nat.lt_succ_self _

theorem mem_insert {anchor new h : Handle} {l : List Handle} {f : Handle → List Handle}
    (f_anchor : ∀ x ∈ f anchor, x = anchor ∨ x = new) (f_other : ∀ x, x ≠ anchor → f x = [x])
    (mem : h ∈ l.flatMap f) : h ∈ l ∨ h = new := by
  obtain ⟨x, hx, hh⟩ := List.mem_flatMap.1 mem
  by_cases ax : x = anchor
  · subst ax
    rcases f_anchor h hh with rfl | rfl
    · exact .inl hx
    · exact .inr rfl
  · rw [f_other x ax, List.mem_singleton] at hh
    exact .inl (hh ▸ hx)

theorem nodup_insert {anchor new : Handle} {f : Handle → List Handle} (f_nodup : (f anchor).Nodup)
    (f_anchor : ∀ x ∈ f anchor, x = anchor ∨ x = new) (f_other : ∀ x, x ≠ anchor → f x = [x]) :
    ∀ {l : List Handle}, l.Nodup → new ∉ l → (l.flatMap f).Nodup
  | [], _, _ => List.nodup_nil
  | x :: l, nodup, fresh => by
    obtain ⟨notin, nodup⟩ := List.nodup_cons.1 nodup
    rw [List.mem_cons, not_or] at fresh
    rw [List.flatMap_cons, List.nodup_append]
    refine ⟨?_, nodup_insert f_nodup f_anchor f_other nodup fresh.2, ?_⟩
    · by_cases ax : x = anchor
      · rw [ax]; exact f_nodup
      · rw [f_other x ax]; exact List.pairwise_singleton _ x
    · rintro y hy _ hy' rfl
      by_cases ax : x = anchor
      · subst ax
        rcases f_anchor y hy with rfl | rfl
        · -- the anchor itself does not come again
          obtain ⟨z, hz, hyz⟩ := List.mem_flatMap.1 hy'
          rw [f_other z (fun eq => notin (eq ▸ hz)), List.mem_singleton] at hyz
          exact notin (hyz ▸ hz)
        · obtain ⟨z, hz, hyz⟩ := List.mem_flatMap.1 hy'
          rw [f_other z (fun eq => notin (eq ▸ hz)), List.mem_singleton] at hyz
          exact fresh.2 (hyz ▸ hz)
      · rw [f_other x ax, List.mem_singleton] at hy
        subst hy
        rcases mem_insert f_anchor f_other hy' with old | rfl
        · exact notin old
        · exact fresh.1 rfl

theorem handles_flatMap {f : Handle × Instr → List (Handle × Instr)} {g : Handle → List Handle}
    (h : ∀ p, (f p).map (·.1) = g p.1) (l : List (Handle × Instr)) :
    (l.flatMap f).map (·.1) = (l.map (·.1)).flatMap g := by
  rw [List.map_flatMap, List.flatMap_map]
  exact congrArg (l.flatMap ·) (funext h)

theorem lookup_isSome {h : Handle} : ∀ {l : List (Handle × Instr)},
    (l.lookup h).isSome = true ↔ h ∈ l.map (·.1)
  | [] => by simp
  | (x, i) :: l => by
    rw [List.lookup_cons, List.map_cons, List.mem_cons]
    by_cases eq : h = x
    · simp [eq]
    · rw [beq_eq_false_iff_ne.2 eq]
      simp only [eq, false_or]
      exact lookup_isSome

theorem contains_iff {h : Handle} : b.contains h = true ↔ h ∈ b.handles := lookup_isSome

theorem requireAll_eq_ok : ∀ {hs : List Handle}, b.requireAll hs = .ok () ↔ ∀ h ∈ hs, h ∈ b.handles
  | [] => by simp [requireAll]
  | h :: hs => by
    rw [requireAll, List.forall_mem_cons, ← contains_iff, ← requireAll_eq_ok, require]
    by_cases live : b.contains h = true
    · simp [live]
    · simp [live]

section
variable (num : b.Numbered)
include num

theorem Numbered.push (i : Instr) : (Edit.push i b).2.Numbered := by
  unfold Edit.push
  split
  · refine num.extend ?_ ?_ rfl
    · unfold handles
      rw [List.map_append, List.nodup_append]
      refine ⟨num.nodup, List.pairwise_singleton _ _, ?_⟩
      rintro h hh h' hh' rfl
      rw [List.map_singleton, List.mem_singleton] at hh'
      subst hh'
      exact num.fresh hh
    · intro h hh
      unfold handles at hh
      rw [List.map_append, List.mem_append, List.map_singleton, List.mem_singleton] at hh
      exact hh
  · exact num

theorem Numbered.insert (anchor : Handle) {f : Handle × Instr → List (Handle × Instr)}
    (g : Handle → List Handle) (h : ∀ p, (f p).map (·.1) = g p.1) (g_nodup : (g anchor).Nodup)
    (g_anchor : ∀ x ∈ g anchor, x = anchor ∨ x = b.fresh) (g_other : ∀ x, x ≠ anchor → g x = [x]) :
    Numbered { b with code := b.code.flatMap f, nextIndex := b.nextIndex + 1 } := by
  have handles : handles { b with code := b.code.flatMap f, nextIndex := b.nextIndex + 1 } =
      b.handles.flatMap g := handles_flatMap h b.code
  refine num.extend ?_ ?_ rfl
  · rw [handles]
    exact nodup_insert g_nodup g_anchor g_other num.nodup num.fresh
  · intro x hx
    rw [handles] at hx
    exact mem_insert g_anchor g_other hx

theorem Numbered.ne_fresh {h : Handle} (live : h ∈ b.handles) : h ≠ b.fresh := by
  rintro rfl
  exact num.fresh live

theorem Numbered.insertAfter (anchor : Handle) (i : Instr) :
    (Edit.insertAfter anchor i b).2.Numbered := by
  unfold Edit.insertAfter
  split
  · rename_i ok
    have ne := num.ne_fresh (requireAll_eq_ok.1 ok anchor (by simp))
    refine num.insert anchor (fun x => if x = anchor then [x, b.fresh] else [x]) ?_ ?_ ?_ ?_
    · intro p
      by_cases eq : p.1 = anchor <;> simp [eq]
    · simp [ne]
    · simp
    · intro x hx
      simp [hx]
  · exact num

theorem Numbered.insertBefore (anchor : Handle) (i : Instr) :
    (Edit.insertBefore anchor i b).2.Numbered := by
  unfold Edit.insertBefore
  split
  · rename_i ok
    have ne := num.ne_fresh (requireAll_eq_ok.1 ok anchor (by simp))
    refine num.insert anchor (fun x => if x = anchor then [b.fresh, x] else [x]) ?_ ?_ ?_ ?_
    · intro p
      by_cases eq : p.1 = anchor <;> simp [eq]
    · simp [ne.symm]
    · simp [or_comm]
    · intro x hx
      simp [hx]
  · exact num

theorem Numbered.replace (old : Handle) (i : Instr) : (Edit.replace old i b).2.Numbered := by
  unfold Edit.replace
  split
  · have placed : Numbered { b with
        code := b.code.map fun p => if p.1 = old then (b.fresh, i) else p
        nextIndex := b.nextIndex + 1 } := by
      have same : (b.code.map fun p => if p.1 = old then (b.fresh, i) else p) =
          b.code.flatMap fun p => if p.1 = old then [(b.fresh, i)] else [p] := by
        rw [List.map_eq_flatMap]
        congr 1
        funext p
        split <;> rfl
      rw [same]
      refine num.insert old (fun x => if x = old then [b.fresh] else [x]) ?_ ?_ ?_ ?_
      · intro p
        by_cases eq : p.1 = old <;> simp [eq]
      · simp
      · simp
      · intro x hx
        simp [hx]
    exact numbered_of_handles (placed.rebranch old b.fresh) rfl rfl
  · exact num

theorem Numbered.unlink (h : Handle) : (Edit.unlink h b).2.Numbered := by
  unfold Edit.unlink
  split
  · exact num.filter rfl rfl
  · split
    · exact num
    · exact num.filter rfl rfl

theorem Numbered.remove (h : Handle) : (Edit.remove h b).2.Numbered := by
  unfold Edit.remove
  split
  · exact num
  · split
    · split
      · split
        · exact num
        · exact (num.rebranch _ _).unlink h
      · exact num
    · exact num.unlink h

theorem Numbered.setOperand (h : Handle) (o : Operand) : (Edit.setOperand h o b).2.Numbered := by
  unfold Edit.setOperand
  split
  · refine numbered_of_handles num ?_ rfl
    unfold handles
    rw [List.map_map]
    refine List.map_congr_left fun p _ => ?_
    simp only [Function.comp]
    split
    · rename_i eq; exact eq.symm
    · rfl
  · exact num

theorem Numbered.apply (op : Edit.Op) : (op.apply b).Numbered := by
  cases op with
  | push i => exact num.push i
  | insertAfter anchor i => exact num.insertAfter anchor i
  | insertBefore anchor i => exact num.insertBefore anchor i
  | replace old i => exact num.replace old i
  | remove h => exact num.remove h
  | setOperand h o => exact num.setOperand h o
  | retarget old new =>
    change (Edit.retarget old new b).2.Numbered
    unfold Edit.retarget
    split
    · exact numbered_of_handles (num.rebranch old new) rfl rfl
    · exact num
  | addRegion r =>
    change (Edit.addRegion r b).2.Numbered
    unfold Edit.addRegion
    split <;> exact numbered_of_handles num rfl rfl
  | addLocal sig =>
    change (Edit.addLocal sig b).2.Numbered
    unfold Edit.addLocal
    split <;> exact numbered_of_handles num rfl rfl
  | clearRegions | setInitLocals flag => exact numbered_of_handles num rfl rfl

end

theorem Reachable.edits {ops : List Edit.Op} (h : b.Reachable) :
    (ops.foldl Edit.Op.apply b).Reachable := by
  induction ops generalizing b with
  | nil => exact h
  | cons op ops ih => exact ih (h.edit op)

theorem Reachable.of_edits (ops : List Edit.Op) (edited : ops.foldl Edit.Op.apply {} = b) : b.Reachable :=
  edited ▸ Reachable.empty.edits

theorem Reachable.numbered (h : b.Reachable) : b.Numbered := by
  induction h with
  | empty => exact ⟨List.nodup_nil, by simp [handles]⟩
  | edit op _ ih => exact ih.apply op

end Body

end CilForge
