import CilForge.Proofs.Finally.Flatten

/-!
# Pending handlers

The layout of a body and the machine agree on the handlers that a `leave` runs, whatever the order
of the regions in the body. While one of them runs, the states of the others wait to be read. A
`leave` in that handler writes to another state variable if the handler stands in the extent of the
region that waits. Where it stands elsewhere the two may have one variable, and then the flattened
body goes astray.
-/

namespace CilForge.Finally

def leftRegions (b : Body) (source goal : Nat) : List (Region × Nat) :=
  b.regions.zipIdx.filter fun x =>
    (tryRange b x.1).contains source && !(tryRange b x.1).contains goal

variable {b : Body} {regions : List Ranges} {p : Layout} {depths : Body.Depths}

theorem Placed.tryRange_eq {reg : Region} {n : Nat} {r : Ranges} (placed : Placed b reg n r) :
    tryRange b reg = r.trySpan := by
  have stop : (reg.tryEnd.elim b.size fun h => (b.position? h).getD 0) = r.trySpan.stop := by
    have there := placed.tryStop
    cases end' : reg.tryEnd with
    | none =>
      rw [end'] at there
      exact Except.ok.inj there
    | some h =>
      rw [end'] at there
      rw [Option.elim_some, position_eq_ok there, Option.getD_some]
  unfold tryRange
  rw [stop, position_eq_ok placed.tryStart, Option.getD_some]

theorem map_eq_of_forall₂ {α β γ : Type} {R : α → β → Prop} {f : α → γ} {g : β → γ}
    (same : ∀ a b, R a b → f a = g b) {l : List α} {l' : List β} (h : List.Forall₂ R l l') :
    l.map f = l'.map g := by
  induction h with
  | nil => rfl
  | cons h _ ih => rw [List.map_cons, List.map_cons, same _ _ h, ih]

theorem Reads.exists_left (reads : Reads b regions depths p) (num : b.Numbered)
    (short : b.nextIndex ≤ 0x100000000) (source goal : Nat) :
    ∃ left : List (Region × Nat), left.Perm (leftRegions b source goal) ∧
      List.Forall₂ (fun x n => Placed b x.1 x.2 (p.nesting.rangesAt n)) left
        (p.nesting.exits source goal) := by
  have placed : List.Forall₂ (fun x r => Placed b x.1 x.2 r) b.regions.zipIdx regions :=
    reads.spans.imp fun _ _ => regionSpans_eq_ok
  have filtered : List.Forall₂ (fun x r => Placed b x.1 x.2 r) (leftRegions b source goal)
      (regions.filter fun r => r.trySpan.contains source && !r.trySpan.contains goal) := by
    refine List.rel_filter (fun {x r} here => ?_) placed
    simp only [here.tryRange_eq]
  obtain ⟨left, nodes, perm⟩ := List.perm_comp_forall₂ (reads.exits_perm num short source goal) filtered.flip
  exact ⟨left, perm, List.forall₂_map_right_iff.1 nodes.flip⟩

/-- A `leave` runs the handlers of the regions whose protected range it is in and its destination is
not, each once and the smallest first. The layout has these regions in this order, and the machine
runs their handlers in this order. -/
theorem leave_exits (reachable : b.Reachable) (short : b.nextIndex ≤ 0x100000000)
    (found : Layout.ofBody b = .ok p) {h : Handle} {i : Instr} (mem : (h, i) ∈ b.code)
    (leave : i.opcode = .leave) :
    ∃ target source goal, i.target? = some target ∧ b.position? h = some source ∧
      b.position? target = some goal ∧ ⟨h, target, p.nesting.exits source goal⟩ ∈ p.leaves ∧
      ∃ left : List (Region × Nat), left.Perm (leftRegions b source goal) ∧
        left.Pairwise (fun x y => (tryRange b x.1).stop - (tryRange b x.1).start <
          (tryRange b y.1).stop - (tryRange b y.1).start) ∧
        (p.nesting.exits source goal).map (fun n => (p.nesting[n]?).map (·.region)) =
          left.map (fun x => some x.2) ∧
        (p.nesting.exits source goal).map p.handlerStart? =
          left.map (fun x => some x.1.handlerStart) ∧
        ∀ f : Frame, f.body = b → f.leftHandlers h target = .ok (left.map (·.1.handlerStart)) := by
  obtain ⟨regions, depths, -, reads⟩ := reads_of_ofBody found
  have num := reachable.numbered
  obtain ⟨source, code⟩ := List.mem_iff_getElem?.1 mem
  obtain ⟨l, line, rfl⟩ := reads.allLeaves code leave
  obtain ⟨place, goal, j, code', -, target, there, exits, -⟩ := reads.leaves line
  have here := Body.position?_of_get num.nodup code
  -- a handle stands once, so the two places are one
  have same : place = source := by
    have := Body.position?_of_get num.nodup code'
    rw [here, Option.some.injEq] at this
    exact this.symm
  subst same
  rw [code, Option.some.injEq, Prod.mk.injEq] at code'
  obtain ⟨-, rfl⟩ := code'
  have arranged := reads.arranged num short
  have node {n : Nat} (exit : n ∈ p.nesting.exits place goal) : n < p.nesting.size :=
    p.nesting.lt_size (.inl (arranged.mem_exits.1 exit).1)
  obtain ⟨left, perm, nodes⟩ := reads.exists_left num short place goal
  -- three readings of one list of regions: their numbers, where their handlers start, their ranges
  have numbers : left.map (·.2) =
      (p.nesting.exits place goal).map fun n => (p.nesting.rangesAt n).region :=
    map_eq_of_forall₂ (fun _ _ placed => placed.region.symm) nodes
  have starts : left.map (·.1.handlerStart) = (p.nesting.exits place goal).map p.handlerOf :=
    map_eq_of_forall₂ (fun _ _ placed => placed.handler.symm) nodes
  have ranges : left.map (fun x => tryRange b x.1) =
      (p.nesting.exits place goal).map fun n => (p.nesting.rangesAt n).trySpan :=
    map_eq_of_forall₂ (fun _ _ placed => placed.tryRange_eq) nodes
  refine ⟨l.target, place, goal, target, here, there, exits ▸ line, left, perm, ?_, ?_, ?_, ?_⟩
  · have sizes : (left.map fun x => tryRange b x.1).Pairwise
        fun s t => s.stop - s.start < t.stop - t.start := by
      rw [ranges, List.pairwise_map]
      refine (arranged.pairwise_exits place goal).imp_of_mem fun {m n} hm _ inside => ?_
      have nonempty := (arranged.mem_exits.1 hm).1
      rw [Span.contains_iff] at nonempty
      exact inside.2.shorter (by omega)
    rwa [List.pairwise_map] at sizes
  · rw [show left.map (fun x => some x.2) = (left.map (·.2)).map some by rw [List.map_map]; rfl,
      numbers, List.map_map]
    refine List.map_congr_left fun n exit => ?_
    simp [Nesting.rangesAt, node exit]
  · rw [show left.map (fun x => some x.1.handlerStart) = (left.map (·.1.handlerStart)).map some by
      rw [List.map_map]; rfl, starts, List.map_map]
    exact List.map_congr_left fun n exit => Layout.handlerStart?_eq (node exit)
  · intro f body
    rw [reads.leftHandlers_eq num short body here there, starts]
    rfl

/-! ## State variables of regions that wait -/

/-- A handler that a `leave` enters belongs to a region around that `leave`. -/
theorem Reads.entered_contains (reads : Reads b regions depths p) (num : b.Numbered)
    (short : b.nextIndex ≤ 0x100000000) {n : Nat} (entered : p.isEntered n = true) :
    ∃ place, (p.nesting.rangesAt n).trySpan.contains place = true := by
  have exits : ∃ l ∈ p.leaves, n ∈ l.exits := by
    unfold Layout.isEntered at entered
    rcases Bool.or_eq_true_iff.1 entered with some | forwards
    · obtain ⟨h, mem⟩ := List.exists_mem_of_ne_nil (p.destinations n) (by simpa using some)
      unfold Layout.destinations at mem
      rw [List.mem_eraseDups] at mem
      obtain ⟨l, line, -⟩ := List.mem_map.1 mem
      obtain ⟨line, last⟩ := List.mem_filter.1 line
      exact ⟨l, line, List.mem_of_getLast? (of_decide_eq_true last)⟩
    · unfold Layout.forwards at forwards
      obtain ⟨l, line, exit⟩ := List.any_eq_true.1 forwards
      exact ⟨l, line, List.dropLast_subset _ (List.contains_iff_mem.1 exit)⟩
  obtain ⟨l, line, exit⟩ := exits
  obtain ⟨place, goal, _, -, -, -, -, eq, -⟩ := reads.leaves line
  rw [eq] at exit
  exact ⟨place, ((reads.arranged num short).mem_exits.1 exit).1⟩

/-- The region `c` lies in the handler of `m`, which is `a` or lies in the protected range of `a`, so
that a `leave` of `c` can come while the state of `a` waits. If both have one state variable, `m` is
not `a`, and its handler is not in the extent of `a`. -/
theorem shared_slot (reachable : b.Reachable) (short : b.nextIndex ≤ 0x100000000)
    (found : Layout.ofBody b = .ok p) {a m c : Nat} {A B C : Node} (hA : p.nesting[a]? = some A)
    (hB : p.nesting[m]? = some B) (hC : p.nesting[c]? = some C) (ne : a ≠ c)
    (enteredA : p.isEntered a = true) (enteredC : p.isEntered c = true)
    (inside : B.handlerSpan.encloses C.trySpan = true)
    (around : m = a ∨ A.trySpan.encloses B.trySpan = true) :
    ∃ s t, p.slots.lookup a = some s ∧ p.slots.lookup c = some t ∧
      (s = t → m ≠ a ∧ A.trySpan.encloses B.trySpan = true ∧ A.extent.overlaps C.extent = false ∧
        A.extent.encloses B.handlerSpan = false) := by
  obtain ⟨regions, depths, -, reads⟩ := reads_of_ofBody found
  have slots := p.assigned_slots
  have ltA := (Array.getElem?_eq_some_iff.1 hA).1
  have ltC := (Array.getElem?_eq_some_iff.1 hC).1
  have rangesA : p.nesting.rangesAt a = A.toRanges := by simp [Nesting.rangesAt, hA]
  have rangesC : p.nesting.rangesAt c = C.toRanges := by simp [Nesting.rangesAt, hC]
  obtain ⟨s, hs⟩ := slots.all a ltA enteredA
  obtain ⟨t, ht⟩ := slots.all c ltC enteredC
  refine ⟨s, t, hs, ht, fun same => ?_⟩
  subst same
  obtain ⟨place, there⟩ := reads.entered_contains reachable.numbered short enteredC
  rw [rangesC] at there
  have inHandler := Span.contains_of_encloses inside there
  have inC : C.extent.contains place = true := Ranges.extent_contains (.inl there)
  have apart : A.extent.overlaps C.extent = false := by
    rw [Bool.eq_false_iff]
    intro overlap
    refine ne (slots.apart a c s hs ht ?_)
    rw [rangesA, rangesC]
    exact overlap
  have outside : ¬ A.extent.contains place = true := fun inA => by
    rw [Span.overlaps_of_contains inA inC] at apart
    cases apart
  have other : m ≠ a := by
    rintro rfl
    rw [hA, Option.some.injEq] at hB
    subst hB
    exact outside (Ranges.extent_contains (.inr inHandler))
  refine ⟨other, around.resolve_left other, apart, ?_⟩
  rw [Bool.eq_false_iff]
  exact fun encloses => outside (Span.contains_of_encloses encloses inHandler)

/-! ## A handler away from the regions around it -/

/-- The second region lies in the protected range of the first one. Its handler stands behind that
of the first one, and holds the third region. -/
def outlying : Body where
  code := [(⟨0⟩, .branch .br ⟨2⟩), (⟨1⟩, .branch .leave ⟨7⟩), (⟨2⟩, .branch .leave ⟨9⟩),
    (⟨3⟩, ⟨.endfinally, .none⟩), (⟨4⟩, .branch .leave ⟨6⟩), (⟨5⟩, ⟨.endfinally, .none⟩),
    (⟨6⟩, ⟨.endfinally, .none⟩), (⟨7⟩, .ldcI4 1), (⟨8⟩, ⟨.ret, .none⟩), (⟨9⟩, .ldcI4 2),
    (⟨10⟩, ⟨.ret, .none⟩)]
  nextIndex := 11
  regions := [
    { tryStart := ⟨1⟩, tryEnd := some ⟨3⟩, handlerStart := ⟨3⟩, handlerEnd := some ⟨4⟩ },
    { tryStart := ⟨2⟩, tryEnd := some ⟨3⟩, handlerStart := ⟨4⟩, handlerEnd := some ⟨7⟩ },
    { tryStart := ⟨4⟩, tryEnd := some ⟨5⟩, handlerStart := ⟨5⟩, handlerEnd := some ⟨6⟩ }]

def outlyingRegions : List Ranges :=
  [⟨0, ⟨1, 3⟩, ⟨3, 4⟩, ⟨3⟩⟩, ⟨1, ⟨2, 3⟩, ⟨4, 7⟩, ⟨4⟩⟩, ⟨2, ⟨4, 5⟩, ⟨5, 6⟩, ⟨5⟩⟩]

def outlyingEdits : List Edit.Op := [
  .push ⟨.br, .none⟩, .push ⟨.leave, .none⟩, .push ⟨.leave, .none⟩, .push ⟨.endfinally, .none⟩,
  .push ⟨.leave, .none⟩, .push ⟨.endfinally, .none⟩, .push ⟨.endfinally, .none⟩, .push (.ldcI4 1),
  .push ⟨.ret, .none⟩, .push (.ldcI4 2), .push ⟨.ret, .none⟩, .setOperand ⟨0⟩ (.target ⟨2⟩),
  .setOperand ⟨1⟩ (.target ⟨7⟩), .setOperand ⟨2⟩ (.target ⟨9⟩), .setOperand ⟨4⟩ (.target ⟨6⟩),
  .addRegion { tryStart := ⟨1⟩, tryEnd := some ⟨3⟩, handlerStart := ⟨3⟩, handlerEnd := some ⟨4⟩ },
  .addRegion { tryStart := ⟨2⟩, tryEnd := some ⟨3⟩, handlerStart := ⟨4⟩, handlerEnd := some ⟨7⟩ },
  .addRegion { tryStart := ⟨4⟩, tryEnd := some ⟨5⟩, handlerStart := ⟨5⟩, handlerEnd := some ⟨6⟩ }]

theorem outlying_reachable : outlying.Reachable := .of_edits outlyingEdits rfl

theorem outlying_consistent :
    outlying.Consistent fun h => if h.index = 8 ∨ h.index = 10 then 1 else 0 := by decide

def outlyingLayout : Layout where
  nesting := #[⟨⟨0, ⟨1, 3⟩, ⟨3, 4⟩, ⟨3⟩⟩, none⟩, ⟨⟨1, ⟨2, 3⟩, ⟨4, 7⟩, ⟨4⟩⟩, some 0⟩,
    ⟨⟨2, ⟨4, 5⟩, ⟨5, 6⟩, ⟨5⟩⟩, none⟩]
  ends := [(0, [⟨3⟩]), (1, [⟨6⟩]), (2, [⟨5⟩])]
  leaves := [⟨⟨1⟩, ⟨7⟩, [0]⟩, ⟨⟨2⟩, ⟨9⟩, [1, 0]⟩, ⟨⟨4⟩, ⟨6⟩, [2]⟩]

theorem ofBody_outlying : Layout.ofBody outlying = .ok outlyingLayout := by
  obtain ⟨depths, found, agree⟩ :=
    Body.depths_of_consistent outlying_reachable.numbered outlying_consistent
  have nesting : Nesting.ofRegions outlyingRegions = outlyingLayout.nesting := by cbv
  have leave {h target : Handle} {i : Instr} {place goal : Nat} {exits : List Nat}
      (empty : (if h.index = 8 ∨ h.index = 10 then 1 else 0) = 0) (goes : i.target? = some target)
      (there : outlying.position? target = some goal)
      (eq : outlyingLayout.nesting.exits place goal = exits) :
      readLeave outlying (.ofRegions outlyingRegions) depths h i place = .ok ⟨h, target, exits⟩ := by
    rw [readLeave_of_empty (fun d known => (agree h d known).trans empty) goes there, nesting, eq]
  have layout : Layout.ofBody outlying =
      .ok ⟨.ofRegions outlyingRegions, outlyingLayout.ends, outlyingLayout.leaves⟩ := by
    refine ofBody_eq_ok rfl rfl rfl rfl found (.cons ?_ (.cons ?_ (.cons ?_ .nil)))
    · exact leave rfl rfl (rfl : outlying.position? ⟨7⟩ = some 7) (by cbv)
    · exact leave rfl rfl (rfl : outlying.position? ⟨9⟩ = some 9) (by cbv)
    · exact leave rfl rfl (rfl : outlying.position? ⟨6⟩ = some 6) (by cbv)
  rw [layout, nesting]

theorem leave_exits_outlying : outlying.Reachable ∧ outlying.nextIndex ≤ 0x100000000 ∧
    Layout.ofBody outlying = .ok outlyingLayout ∧ (⟨2⟩, .branch .leave ⟨9⟩) ∈ outlying.code ∧
    ∀ f : Frame, f.body = outlying → f.leftHandlers ⟨2⟩ ⟨9⟩ = .ok [⟨4⟩, ⟨3⟩] := by
  have line : (⟨2⟩, .branch .leave ⟨9⟩) ∈ outlying.code := by decide
  refine ⟨outlying_reachable, by decide, ofBody_outlying, line, fun f body => ?_⟩
  obtain ⟨target, source, goal, goes, here, there, -, left, -, -, -, starts, runs⟩ :=
    leave_exits outlying_reachable (by decide) ofBody_outlying line rfl
  cases goes
  cases here
  cases there
  have exits : outlyingLayout.nesting.exits 2 9 = [1, 0] := by cbv
  have handlers : [1, 0].map outlyingLayout.handlerStart? = [some ⟨4⟩, some ⟨3⟩] := rfl
  rw [exits, handlers] at starts
  have same : left.map (·.1.handlerStart) = [⟨4⟩, ⟨3⟩] := by
    have := congrArg (List.filterMap id) starts
    simpa [List.filterMap_map] using this.symm
  rw [runs f body, same]

theorem shared_slot_outlying : ∃ A B C, outlyingLayout.nesting[0]? = some A ∧
    outlyingLayout.nesting[1]? = some B ∧ outlyingLayout.nesting[2]? = some C ∧
    outlyingLayout.isEntered 0 = true ∧ outlyingLayout.isEntered 2 = true ∧
    B.handlerSpan.encloses C.trySpan = true ∧ A.trySpan.encloses B.trySpan = true ∧
    ∃ s t, outlyingLayout.slots.lookup 0 = some s ∧ outlyingLayout.slots.lookup 2 = some t ∧
      (s = t → A.extent.overlaps C.extent = false ∧ A.extent.encloses B.handlerSpan = false) := by
  have first : outlyingLayout.isEntered 0 = true := by cbv
  have third : outlyingLayout.isEntered 2 = true := by cbv
  refine ⟨_, _, _, rfl, rfl, rfl, first, third, rfl, rfl, ?_⟩
  obtain ⟨s, t, hs, ht, shared⟩ := shared_slot outlying_reachable (by decide) ofBody_outlying
    (a := 0) (m := 1) (c := 2) rfl rfl rfl (by decide) first third rfl (.inr rfl)
  exact ⟨s, t, hs, ht, fun same => (shared same).2.2⟩

/-- The first and the third region have one state variable, and the `leave` of the third one writes
over the state that the first one waits for. -/
theorem outlying_shares : Layout.ofBody outlying = .ok outlyingLayout ∧
    (∃ A B C, outlyingLayout.nesting[0]? = some A ∧ outlyingLayout.nesting[1]? = some B ∧
      outlyingLayout.nesting[2]? = some C ∧ outlyingLayout.isEntered 0 = true ∧
      outlyingLayout.isEntered 2 = true ∧ B.handlerSpan.encloses C.trySpan = true ∧
      A.trySpan.encloses B.trySpan = true ∧ outlyingLayout.slots.lookup 0 = some 0 ∧
      outlyingLayout.slots.lookup 2 = some 0) ∧
    (quiet.execute outlying [] {}).1 = .ok (.returned (some (.i32 2))) ∧
    ∃ flat, outlyingLayout.apply outlying = (.ok (), flat) ∧
      (quiet.execute flat [] {}).1 = .ok (.returned (some (.i32 1))) := by
  have applied : outlyingLayout.apply outlying = (.ok (), (outlyingLayout.apply outlying).2) :=
    Prod.ext (by cbv) rfl
  refine ⟨ofBody_outlying, ⟨_, _, _, rfl, rfl, rfl, by cbv, by cbv, rfl, rfl, by cbv, by cbv⟩, by cbv, _,
    applied, by cbv⟩

end CilForge.Finally
