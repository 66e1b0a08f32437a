import CilForge.Proofs.CallSite.Visit
import CilForge.Proofs.Finally.Flatten

/-!
# Sites of flattened bodies

Flattening puts code without calls in the place of `leave` and `endfinally`, none of which passes on
control, and takes away the boundaries of regions, at which the stack is empty. So the cells of a
flattened body are aligned with those of the body.
-/

namespace CilForge

open CallSite Body

namespace Finally

section
variable {b b' : Body} {p : Layout} {vars : StateVars} {σ : Handle → Handle}
  {E : Handle × Instr → List (Handle × Instr)} {regions : List Ranges} {depths : Depths}

theorem regions_of_apply (done : p.apply b = (.ok (), b')) : b'.regions = [] := by
  obtain ⟨_, _, -, done⟩ := Edit.bind_eq_ok.1 done
  obtain ⟨_, _, -, done⟩ := Edit.bind_eq_ok.1 done
  obtain ⟨_, _, -, cleared⟩ := Edit.bind_eq_ok.1 done
  cases cleared
  rfl

/-! ## What the new code names -/

def Named (b : Body) (h : Handle) : Prop := b.isTarget h = true ∨ b.isBoundary h = true

theorem live_of_named (linked : b.Linked) {h : Handle} (named : Named b h) : h ∈ b.handles := by
  rcases named with target | boundary
  · obtain ⟨q, line, mem⟩ := isTarget_iff.1 target
    exact linked.targets q line h mem
  · obtain ⟨r, mem, inside⟩ := List.any_eq_true.1 boundary
    exact linked.boundaries r mem h (List.contains_iff_mem.1 inside)

section
variable (reads : Reads b regions depths p)
include reads

theorem Reads.named_target {l : Leave} (mem : l ∈ p.leaves) : Named b l.target := by
  obtain ⟨_, _, i, code, -, goes, -⟩ := reads.leaves mem
  refine .inl (isTarget_iff.2 ⟨_, List.mem_of_getElem? code, ?_⟩)
  unfold Instr.target? at goes
  unfold Instr.targets
  split at goes
  · rename_i goal operand
    cases goes
    rw [operand]
    exact List.mem_singleton_self _
  · cases goes

theorem Reads.named_handler {node : Nat} {h : Handle} (start : p.handlerStart? node = some h) : Named b h := by
  obtain ⟨x, there, rfl⟩ := Option.map_eq_some_iff.1 start
  have lt := (Array.getElem?_eq_some_iff.1 there).1
  have mem : x.toRanges ∈ regions :=
    reads.perm.mem_iff.1 (List.mem_map_of_mem (Array.mem_toList_iff.2 (Array.mem_of_getElem? there)))
  obtain ⟨reg, line, placed⟩ := reads.spans.placed mem
  refine .inr (List.any_eq_true.2 ⟨reg, line, List.contains_iff_mem.2 ?_⟩)
  rw [placed.handler]
  simp [Region.boundaries]

theorem Reads.named_continuation {node : Nat} {h : Handle} (mem : h ∈ p.continuations node) : Named b h := by
  rcases List.mem_append.1 mem with mem | mem
  · rw [Layout.destinations, List.mem_eraseDups] at mem
    obtain ⟨l, line, rfl⟩ := List.mem_map.1 mem
    exact reads.named_target (List.mem_filter.1 line).1
  · split at mem
    · obtain ⟨outer, -, start⟩ := Option.bind_eq_some_iff.1 (Option.mem_toList.1 mem)
      exact reads.named_handler start
    · cases mem

theorem Reads.named_written {t : Handle} {i : Instr} (written : p.Written vars i) (mem : t ∈ i.targets) :
    Named b t := by
  cases written with
  | @enter l leave =>
    rw [List.mem_singleton.1 mem]
    unfold Layout.entry
    cases start : l.exits.head?.bind p.handlerStart? with
    | none => exact reads.named_target leave
    | some h =>
      obtain ⟨n, -, start⟩ := Option.bind_eq_some_iff.1 start
      exact reads.named_handler start
  | select n => exact reads.named_continuation mem
  | go goal =>
    rw [List.mem_singleton.1 mem]
    exact reads.named_continuation goal
  | state | store | load | missing | throw => cases mem

end

theorem Flattened.named (flat : Flattened b p vars σ E b') (reads : Reads b regions depths p) {h : Handle}
    (target : b'.isTarget h = true) : ∃ t, Named b t ∧ h = σ t := by
  obtain ⟨q, line, mem⟩ := isTarget_iff.1 target
  rcases flat.line_cases line with ⟨q₀, old, eq⟩ | ⟨i, written, eq⟩
  · rw [eq, Instr.targets_mapTargets] at mem
    obtain ⟨t, named, rfl⟩ := List.mem_map.1 mem
    exact ⟨t, .inl (isTarget_iff.2 ⟨q₀, old, named⟩), rfl⟩
  · rw [eq, Instr.targets_mapTargets] at mem
    obtain ⟨t, named, rfl⟩ := List.mem_map.1 mem
    exact ⟨t, reads.named_written written named, rfl⟩

theorem Flattened.linked (flat : Flattened b p vars σ E b') (reads : Reads b regions depths p)
    (linked : b.Linked) (bare : b'.regions = []) : b'.Linked := by
  refine ⟨fun q line t mem => ?_, by rw [bare]; nofun⟩
  obtain ⟨t₀, named, rfl⟩ := flat.named reads (isTarget_iff.2 ⟨q, line, mem⟩)
  obtain ⟨⟨h, i⟩, line₀, rfl⟩ := List.mem_map.1 (live_of_named linked named)
  have first := (flat.blocks (h, i) line₀).first
  obtain ⟨x, head, eq⟩ := Option.map_eq_some_iff.1 first
  rw [← eq, handles, flat.code]
  exact List.mem_map_of_mem (List.mem_flatMap.2 ⟨_, line₀, List.mem_of_head? head⟩)

/-! ## Branches stay -/

theorem Flattened.target_of_block (flat : Flattened b p vars σ E b') {q : Handle × Instr} (line : q ∈ b.code)
    {j : Instr} (new : j.mapTargets σ ∈ (E q).map (·.2)) {t : Handle} (mem : t ∈ j.targets) :
    b'.isTarget (σ t) = true := by
  obtain ⟨x, inside, eq⟩ := List.mem_map.1 new
  refine isTarget_iff.2 ⟨x, ?_, ?_⟩
  · rw [flat.code]
    exact List.mem_flatMap.2 ⟨q, line, inside⟩
  · rw [eq, Instr.targets_mapTargets]
    exact List.mem_map_of_mem mem

/-- What a `leave` goes to is gone to from the `leave` itself, or from the end of the last handler that
runs for it. -/
theorem Flattened.target_of_leave (flat : Flattened b p vars σ E b') (reads : Reads b regions depths p)
    (num : b.Numbered) (ends : ∀ r ∈ regions, ∃ e ∈ p.ends, e.1 = r.region ∧ e.2 ≠ []) {place : Nat}
    {h t : Handle} {i : Instr} (code : b.code[place]? = some (h, i)) (opcode : i.opcode = .leave)
    (mem : t ∈ i.targets) : b'.isTarget (σ t) = true := by
  obtain ⟨l, leave, rfl, instrs⟩ := block_leave reads num flat code opcode
  obtain ⟨_, goal, _, code', -, goes, -, exits, -⟩ := reads.leaves leave
  obtain ⟨rfl, rfl⟩ := line_unique num.nodup code code'
  obtain rfl : t = l.target := by
    unfold Instr.target? at goes
    unfold Instr.targets at mem
    split at goes
    · rename_i operand
      cases goes
      rw [operand] at mem
      exact List.mem_singleton.1 mem
    · cases goes
  cases last : l.exits.getLast? with
  | none =>
    have none : l.exits = [] := List.getLast?_eq_none_iff.1 last
    refine flat.target_of_block (List.mem_of_getElem? code) (j := .branch .br l.target) ?_
      (List.mem_singleton_self _)
    rw [instrs, Layout.whole_leaveCode, Layout.entry, none]
    simp
  | some n =>
    have exit : n ∈ p.nesting.exits place goal := exits ▸ List.mem_of_getLast? last
    have lt := reads.exits_lt leave (List.mem_of_getLast? last)
    obtain ⟨e, line, region, some⟩ := ends _ (reads.rangesAt_mem lt)
    obtain ⟨x, inside⟩ := List.exists_mem_of_ne_nil _ some
    obtain ⟨place', j, r, code'', opcode', owner, same⟩ := reads.ends line inside
    obtain ⟨r', owner', instrs'⟩ := block_end reads num flat code'' opcode'
    cases owner.symm.trans owner'
    have goes : l.target ∈ p.continuations n := by
      refine List.mem_append_left _ ?_
      rw [Layout.destinations, List.mem_eraseDups]
      exact List.mem_map.2 ⟨l, List.mem_filter.2 ⟨leave, decide_eq_true last⟩, rfl⟩
    obtain ⟨state, way⟩ := List.getElem?_of_mem goes
    obtain ⟨rest, dispatch⟩ := p.whole_dispatchCode vars way
    refine flat.target_of_block (List.mem_of_getElem? code'') (j := .switch (p.continuations n)) ?_ goes
    rw [instrs', same, region, reads.nodeOf?_region lt, Option.getD_some, dispatch]
    simp

theorem Flattened.target (flat : Flattened b p vars σ E b') (reads : Reads b regions depths p)
    (num : b.Numbered) (ends : ∀ r ∈ regions, ∃ e ∈ p.ends, e.1 = r.region ∧ e.2 ≠ [])
    (formed : ∀ q ∈ b.code, q.2.wellFormed = true) {t : Handle} (target : b.isTarget t = true) :
    b'.isTarget (σ t) = true := by
  obtain ⟨⟨h, i⟩, line, mem⟩ := isTarget_iff.1 target
  obtain ⟨place, code⟩ := List.getElem?_of_mem line
  by_cases leave : i.opcode = .leave
  · exact flat.target_of_leave reads num ends code leave mem
  by_cases endfinally : i.opcode = .endfinally
  · have kind := formed _ line
    unfold Instr.wellFormed at kind
    unfold Instr.targets at mem
    rw [endfinally] at kind
    cases operand : i.operand <;> rw [operand] at kind mem <;> cases mem <;> cases kind
  · refine flat.target_of_block line (j := i) ?_ mem
    rw [block_plain reads num flat code leave endfinally]
    exact List.mem_singleton_self _

theorem Flattened.eq_of_old (flat : Flattened b p vars σ E b') (num : b.Numbered) {t : Handle}
    (live : t ∈ b.handles) (old : σ t ∈ b.handles) : σ t = t := by
  refine Classical.byContradiction fun moved => ?_
  obtain ⟨q, line, rfl⟩ := List.mem_map.1 live
  have block := flat.blocks q line
  obtain ⟨_, -, -, high⟩ := block.moves moved
  obtain ⟨x, head, eq⟩ := Option.map_eq_some_iff.1 block.first
  have := high x (List.mem_of_head? head)
  have := num.below _ old
  rw [eq] at *
  omega

/-! ## Cells -/

theorem inert_of_code {lines : Lines} (code : List Instr) {z : Instr}
    (instrs : lines.map (·.2) = (code ++ [z]).map (·.mapTargets σ)) (uncalled : ∀ i ∈ code ++ [z], isCall i = false)
    (stops : z.straight = false) : Inert (cellsOf b' lines) := by
  constructor
  · intro c mem
    obtain ⟨q, line, rfl⟩ := List.mem_map.1 mem
    have new : q.2 ∈ (code ++ [z]).map (·.mapTargets σ) := instrs ▸ List.mem_map_of_mem line
    obtain ⟨i, old, eq⟩ := List.mem_map.1 new
    have none := uncalled i old
    rw [← eq, Instr.seen_mapTargets]
    unfold called?
    rw [if_neg]
    exact Bool.eq_false_iff.1 none
  · rw [List.map_append] at instrs
    obtain ⟨init, last, rfl, -, eq⟩ := List.map_eq_append_iff.1 instrs
    obtain ⟨q, rest, rfl, same, none⟩ := List.map_eq_cons_iff.1 eq
    obtain rfl := List.map_eq_nil_iff.1 none
    refine ⟨cellsOf b' init, cellAt b' q, by simp [cellsOf, cellAt], ?_⟩
    simp only [cellAt]
    rw [same, Instr.seen_mapTargets]
    exact stops

theorem Flattened.inert (flat : Flattened b p vars σ E b') (reads : Reads b regions depths p)
    (num : b.Numbered) {place : Nat} {h : Handle} {i : Instr} (code : b.code[place]? = some (h, i))
    (opcode : i.opcode = .leave ∨ i.opcode = .endfinally) : Inert (cellsOf b' (E (h, i))) := by
  rcases opcode with leave | endfinally
  · obtain ⟨l, -, -, instrs⟩ := block_leave reads num flat code leave
    rw [Layout.whole_leaveCode] at instrs
    refine inert_of_code _ instrs (fun j mem => ?_) rfl
    rcases List.mem_append.1 mem with mem | mem
    · obtain ⟨n, -, mem⟩ := List.mem_flatMap.1 mem
      simp only [List.mem_cons, List.not_mem_nil, or_false] at mem
      rcases mem with rfl | rfl <;> rfl
    · rw [List.mem_singleton.1 mem]
      rfl
  · obtain ⟨r, -, instrs⟩ := block_end reads num flat code endfinally
    unfold Layout.dispatchCode whole at instrs
    split at instrs
    · refine inert_of_code [.call .newobj Platform.invalidOperation] instrs (fun j mem => ?_) rfl
      simp only [List.cons_append, List.nil_append, List.mem_cons, List.not_mem_nil, or_false] at mem
      rcases mem with rfl | rfl <;> rfl
    · rename_i first rest _
      refine inert_of_code [_, .switch (first :: rest)] instrs (fun j mem => ?_) rfl
      simp only [List.cons_append, List.nil_append, List.mem_cons, List.not_mem_nil, or_false] at mem
      rcases mem with rfl | rfl | rfl <;> rfl

/-- Where control comes to a line that stays: only boundaries with an empty stack are gone. -/
theorem Flattened.joins (flat : Flattened b p vars σ E b') (reads : Reads b regions depths p)
    (num : b.Numbered) (linked : b.Linked) (fit : b.Fit) (leveled : Leveled b) (bare : b'.regions = [])
    (ends : ∀ r ∈ regions, ∃ e ∈ p.ends, e.1 = r.region ∧ e.2 ≠ []) {u v : Lines} {h : Handle} {i : Instr}
    (code : b.code = u ++ (h, i) :: v) (stays : σ h = h) :
    Joins (isJoin b h) (isJoin b' h) (sight ((h, i) :: v)) := by
  have live : h ∈ b.handles := List.mem_map_of_mem (a := (h, i)) (by rw [code]; simp)
  have plain : isJoin b' h = b'.isTarget h := by
    simp [isJoin, isBoundary, bare]
  rw [plain]
  by_cases target : b.isTarget h = true
  · have := flat.target reads num ends fit.formed target
    rw [stays] at this
    exact .inl (by rw [this, isJoin, target, Bool.true_or])
  by_cases boundary : b.isBoundary h = true
  · have join : isJoin b h = true := by rw [isJoin, boundary, Bool.or_true]
    cases new : b'.isTarget h with
    | true => exact .inl join
    | false => exact .inr ⟨join, rfl, leveled h boundary u i v code⟩
  · refine .inl ?_
    have none : isJoin b h = false := by simp [isJoin, target, boundary]
    rw [none, eq_comm, Bool.eq_false_iff]
    intro new
    obtain ⟨t, named, eq⟩ := flat.named reads new
    have same : t = h := by
      have := flat.eq_of_old num (live_of_named linked named) (eq ▸ live)
      exact this.symm.trans eq.symm
    rw [same] at named
    exact named.elim target boundary

/-- The cells of a flattened body are aligned with those of the body. -/
theorem Flattened.along (flat : Flattened b p vars σ E b') (reads : Reads b regions depths p)
    (num : b.Numbered) (linked : b.Linked) (fit : b.Fit) (leveled : Leveled b) (bare : b'.regions = [])
    (ends : ∀ r ∈ regions, ∃ e ∈ p.ends, e.1 = r.region ∧ e.2 ≠ []) :
    Along [] (cellsOf b b.code).reverse (cellsOf b' b'.code).reverse := by
  suffices part : ∀ pre post : Lines, b.code = pre ++ post →
      Along (sight post) (cellsOf b pre).reverse (cellsOf b' (pre.flatMap E)).reverse by
    rw [flat.code]
    exact part b.code [] (by simp)
  intro pre
  induction pre using List.reverseRecOn with
  | nil => exact fun _ _ => .nil
  | append_singleton pre q ih =>
    intro post code
    obtain ⟨h, i⟩ := q
    have code' : b.code = pre ++ (h, i) :: post := by simpa using code
    have place : b.code[pre.length]? = some (h, i) := by rw [code']; simp
    have before := ih ((h, i) :: post) code'
    have cells : (cellsOf b (pre ++ [(h, i)])).reverse = cellAt b (h, i) :: (cellsOf b pre).reverse := by
      simp [cellsOf, cellAt]
    rw [cells, List.flatMap_append, cellsOf_append, List.reverse_append]
    simp only [List.flatMap_cons, List.flatMap_nil, List.append_nil]
    by_cases gone : i.opcode = .leave ∨ i.opcode = .endfinally
    · refine .stop ?_ (flat.inert reads num place gone) before
      change Instr.straight i.seen = false
      rcases gone with opcode | opcode <;> simp [Instr.straight, opcode, Opcode.flow]
    · rw [not_or] at gone
      have block := block_plain reads num flat place gone.1 gone.2
      have stays : σ h = h := by
        have first := (flat.blocks (h, i) (List.mem_of_getElem? place)).first
        rw [block] at first
        exact (Option.some.inj first).symm
      have joins := flat.joins reads num linked fit leveled bare ends code' stays
      rw [block]
      simp only [cellsOf, List.map_cons, List.map_nil, List.reverse_cons, List.reverse_nil, List.nil_append,
        List.cons_append, Instr.seen_mapTargets, cellAt]
      exact .line joins before

/-- What flattening makes of a body with an empty stack at its boundaries. -/
structure Aligns (b b' : Body) : Prop where
  numbered : b'.Numbered
  linked : b'.Linked
  bare : b'.regions = []
  locals : b.locals.size ≤ b'.locals.size
  along : Along [] (cellsOf b b.code).reverse (cellsOf b' b'.code).reverse

theorem run_aligns {method : Token} {w w' : Workpiece} (num : w.body.Numbered) (linked : w.body.Linked)
    (fit : w.body.Fit) (leveled : Leveled w.body) (done : Finally.run method w = (.ok true, w')) :
    Aligns w.body w'.body := by
  obtain ⟨layout, laid, applied⟩ := apply_of_run done
  obtain ⟨regions, depths, spans, reads⟩ := reads_of_ofBody laid
  obtain ⟨vars, σ, E, flat⟩ := flattened_of_reads reads num applied
  have bare := regions_of_apply applied
  obtain ⟨more, locals, -⟩ := flat.locals
  refine ⟨flat.numbered, flat.linked reads linked bare, bare, ?_,
    flat.along reads num linked fit leveled bare fun r mem => exists_end laid spans mem⟩
  rw [locals, Array.size_append]
  exact Nat.le_add_right _ _

end

end Finally

end CilForge
