import CilForge.Finally.Flatten
import CilForge.Proofs.Body.Expand
import CilForge.Proofs.Finally.Layout

/-!
# States

Each handler that a `leave` enters has a state variable of its own among the handlers that can
wait at the same time. The states a `leave` stores lead from one handler to the next and at last to
its destination.
-/

namespace CilForge.Finally

namespace Ranges

def extent (r : Ranges) : Span := r.trySpan.hull r.handlerSpan

theorem extent_contains {r : Ranges} {p : Nat}
    (h : r.trySpan.contains p = true ∨ r.handlerSpan.contains p = true) :
    r.extent.contains p = true := by
  rw [Span.contains_iff, Span.contains_iff] at h
  rw [Span.contains_iff]
  simp only [extent, Span.hull]
  omega

end Ranges

namespace Layout

variable (p : Layout)

theorem leastFree_not_mem (taken : List Nat) : leastFree taken ∉ taken := by
  unfold leastFree
  cases h : (List.range (taken.length + 1)).find? fun n => !taken.contains n with
  | some n =>
    have := List.find?_some h
    simpa using this
  | none =>
    -- more numbers than there are taken
    have sub : List.range (taken.length + 1) ⊆ taken := by
      intro n hn
      have := List.find?_eq_none.1 h n hn
      simpa using this
    have := (List.subperm_of_subset List.nodup_range sub).length_le
    rw [List.length_range] at this
    omega

structure Assigned (k : Nat) (slots : List (Nat × Nat)) : Prop where
  below : ∀ x ∈ slots, x.1 < k
  all : ∀ i < k, p.isEntered i = true → ∃ s, slots.lookup i = some s
  apart : ∀ i j s, slots.lookup i = some s → slots.lookup j = some s →
    (p.nesting.rangesAt i).extent.overlaps (p.nesting.rangesAt j).extent = true → i = j

variable {p} {k : Nat} {slots : List (Nat × Nat)}

theorem mem_of_lookup {i s : Nat} (h : slots.lookup i = some s) : (i, s) ∈ slots := by
  obtain ⟨l₁, l₂, rfl, -⟩ := List.lookup_eq_some_iff.1 h
  simp

theorem lookup_none (a : p.Assigned k slots) : slots.lookup k = none := by
  rw [List.lookup_eq_none_iff]
  intro x hx
  have := a.below x hx
  rw [bne_iff_ne]
  omega

theorem Assigned.skip (a : p.Assigned k slots) (none : p.isEntered k = false) :
    p.Assigned (k + 1) slots := by
  refine ⟨fun x hx => Nat.lt_succ_of_lt (a.below x hx), fun i hi enter => ?_, a.apart⟩
  rcases Nat.lt_succ_iff_lt_or_eq.1 hi with lt | rfl
  · exact a.all i lt enter
  · rw [none] at enter
    cases enter

theorem Assigned.enter (a : p.Assigned k slots) {x : Node} (node : p.nesting[k]? = some x) :
    p.Assigned (k + 1) (slots ++ [(k, leastFree (slots.filterMap fun y =>
      if (p.nesting[y.1]?).any (·.extent.overlaps x.extent) then some y.2 else none))]) := by
  have here : (p.nesting.rangesAt k).extent = x.extent := by
    unfold Nesting.rangesAt
    rw [node]
    rfl
  have free := leastFree_not_mem (slots.filterMap fun y =>
    if (p.nesting[y.1]?).any (·.extent.overlaps x.extent) then some y.2 else none)
  generalize leastFree _ = new at free
  have last {i s : Nat} (h : (slots ++ [(k, new)]).lookup i = some s) :
      slots.lookup i = some s ∨ i = k ∧ s = new := by
    rw [List.lookup_append, Option.or_eq_some_iff] at h
    rcases h with old | ⟨-, h⟩
    · exact .inl old
    · by_cases eq : i = k
      · rw [eq, List.lookup_cons_self, Option.some.injEq] at h
        exact .inr ⟨eq, h.symm⟩
      · rw [List.lookup_cons, beq_eq_false_iff_ne.2 eq] at h
        cases h
  -- the new variable is not that of an overlapping node
  have differs {i s : Nat} (h : slots.lookup i = some s)
      (overlap : (p.nesting.rangesAt i).extent.overlaps x.extent = true) : s ≠ new := by
    rintro rfl
    apply free
    rw [List.mem_filterMap]
    refine ⟨(i, s), mem_of_lookup h, if_pos ?_⟩
    rw [show (fun y : Node => y.extent.overlaps x.extent) =
      fun y => (fun r : Ranges => r.extent.overlaps x.extent) y.toRanges from rfl,
      p.nesting.any_eq fun r => r.extent.overlaps x.extent]
    · exact overlap
    · simp [Ranges.extent, Span.hull, Span.overlaps]
  have swap {i j : Nat} (overlap : (p.nesting.rangesAt i).extent.overlaps
      (p.nesting.rangesAt j).extent = true) : (p.nesting.rangesAt j).extent.overlaps
        (p.nesting.rangesAt i).extent = true := by
    rw [Span.overlaps_iff] at overlap ⊢
    exact ⟨overlap.2, overlap.1⟩
  constructor
  · intro y hy
    rcases List.mem_append.1 hy with hy | hy
    · exact Nat.lt_succ_of_lt (a.below y hy)
    · rw [List.mem_singleton] at hy
      rw [hy]
      exact Nat.lt_succ_self k
  · intro i hi enter
    rw [List.lookup_append]
    rcases Nat.lt_succ_iff_lt_or_eq.1 hi with lt | rfl
    · obtain ⟨s, hs⟩ := a.all i lt enter
      exact ⟨s, by rw [hs]; rfl⟩
    · exact ⟨new, by rw [lookup_none a, List.lookup_cons_self]; rfl⟩
  · intro i j s hi hj overlap
    rcases last hi with oldI | ⟨rfl, rfl⟩
    · rcases last hj with oldJ | ⟨rfl, rfl⟩
      · exact a.apart i j s oldI oldJ overlap
      · rw [here] at overlap
        exact absurd rfl (differs oldI overlap)
    · rcases last hj with oldJ | ⟨rfl, -⟩
      · have overlap := swap overlap
        rw [here] at overlap
        exact absurd rfl (differs oldJ overlap)
      · rfl

theorem Assigned.foldl : ∀ {l : List Node} {k : Nat} {slots : List (Nat × Nat)},
    p.Assigned k slots → (∀ i < l.length, p.nesting[k + i]? = l[i]?) →
    p.Assigned (k + l.length) ((l.zipIdx k).foldl (fun slots x => p.assign slots x.1 x.2) slots)
  | [], k, slots, a, _ => a
  | x :: l, k, slots, a, nodes => by
    have step : p.Assigned (k + 1) (p.assign slots x k) := by
      unfold assign
      split
      · exact a.enter (nodes 0 (by simp))
      · rename_i none
        exact a.skip (Bool.eq_false_iff.2 none)
    have rest := step.foldl (l := l) fun i hi => by
      have := nodes (i + 1) (by simpa using hi)
      rwa [show k + (i + 1) = k + 1 + i by omega, List.getElem?_cons_succ] at this
    rw [List.length_cons, show k + (l.length + 1) = k + 1 + l.length by omega]
    exact rest

variable (p) in
theorem assigned_slots : p.Assigned p.nesting.size p.slots := by
  have none : p.Assigned 0 [] :=
    ⟨nofun, fun i hi => absurd hi (Nat.not_lt_zero i), nofun⟩
  have all := none.foldl (l := p.nesting.toList) fun i _ => by simp
  rw [Nat.zero_add, Array.length_toList] at all
  exact all

theorem le_foldl_max {l : List Nat} : ∀ {start n : Nat}, n ≤ start ∨ n ∈ l → n ≤ l.foldl max start := by
  induction l with
  | nil => intro start n h; exact h.resolve_right List.not_mem_nil
  | cons x l ih =>
    intro start n h
    apply ih
    rcases h with le | mem
    · exact .inl (Nat.le_trans le (Nat.le_max_left ..))
    · rcases List.mem_cons.1 mem with rfl | mem
      · exact .inl (Nat.le_max_right ..)
      · exact .inr mem

theorem lt_slotCount {i s : Nat} (h : p.slots.lookup i = some s) : s < p.slotCount := by
  unfold slotCount
  apply Nat.lt_of_succ_le
  exact le_foldl_max (.inr (List.mem_map_of_mem (f := fun x => x.2 + 1) (mem_of_lookup h)))

theorem leastFree_le (taken : List Nat) : leastFree taken ≤ taken.length := by
  unfold leastFree
  cases found : (List.range (taken.length + 1)).find? fun n => !taken.contains n with
  | none => exact Nat.zero_le _
  | some n => exact Nat.le_of_lt_succ (List.mem_range.1 (List.mem_of_find?_eq_some found))

theorem foldl_max_le {m : Nat} : ∀ {l : List Nat} {start : Nat}, start ≤ m → (∀ n ∈ l, n ≤ m) →
    l.foldl max start ≤ m
  | [], _, least, _ => least
  | x :: l, _, least, all => foldl_max_le (l := l) (Nat.max_le.2 ⟨least, all x (List.mem_cons_self ..)⟩)
      fun n mem => all n (List.mem_cons_of_mem _ mem)

variable (p) in
/-- A node gets a number below that of the nodes up to it: those before it take no more than one each. -/
theorem foldl_assign_lt : ∀ {l : List Node} {k : Nat} {slots : List (Nat × Nat)}, slots.length ≤ k →
    (∀ x ∈ slots, x.2 < k) →
    ∀ x ∈ (l.zipIdx k).foldl (fun slots x => p.assign slots x.1 x.2) slots, x.2 < k + l.length
  | [], _, _, _, below => below
  | n :: l, k, slots, few, below => by
    have step : (p.assign slots n k).length ≤ k + 1 ∧ ∀ x ∈ p.assign slots n k, x.2 < k + 1 := by
      unfold assign
      split
      · refine ⟨by simpa using few, fun x mem => ?_⟩
        rcases List.mem_append.1 mem with old | new
        · exact Nat.lt_succ_of_lt (below x old)
        · rw [List.mem_singleton.1 new]
          have := leastFree_le (slots.filterMap fun y =>
            if (p.nesting[y.1]?).any (·.extent.overlaps n.extent) then some y.2 else none)
          have := List.length_filterMap_le (fun y : Nat × Nat =>
            if (p.nesting[y.1]?).any (·.extent.overlaps n.extent) then some y.2 else none) slots
          dsimp only
          omega
      · exact ⟨Nat.le_succ_of_le few, fun x mem => Nat.lt_succ_of_lt (below x mem)⟩
    rw [List.length_cons, Nat.add_left_comm, Nat.add_comm]
    exact foldl_assign_lt step.1 step.2

variable (p) in
theorem slotCount_le : p.slotCount ≤ p.nesting.size := by
  have below : ∀ x ∈ p.slots, x.2 < 0 + p.nesting.toList.length := p.foldl_assign_lt (Nat.le_refl 0) nofun
  rw [Nat.zero_add, Array.length_toList] at below
  refine foldl_max_le (Nat.zero_le _) fun n mem => ?_
  obtain ⟨x, slot, rfl⟩ := List.mem_map.1 mem
  exact below x slot

end Layout

/-- There are no more state variables than regions, so that with few regions none is out of numbers. -/
theorem endless_of_few {b : Body} (few : b.regions.length ≤ maxVars + 1) : endless b = false := by
  unfold endless
  cases laid : Layout.ofBody b with
  | error e => exact Bool.and_false _
  | ok p =>
    obtain ⟨regions, depths, -, reads⟩ := reads_of_ofBody laid
    have nodes := reads.perm.length_eq
    have spans := reads.spans.length_eq
    have le := p.slotCount_le
    rw [List.length_map, Array.length_toList] at nodes
    rw [List.length_zipIdx] at spans
    dsimp only
    rw [Bool.and_eq_false_iff]
    exact .inr (decide_eq_false (by omega))

/-! ## State variables -/

theorem addLocals_eq_ok : ∀ {n : Nat} {b b' : Body} {added : List Nat},
    addLocals n b = (.ok added, b') → added = List.range' b.locals.size n ∧
      ∃ more, b' = { b with locals := b.locals ++ more } ∧ more.size = n
  | 0, b, b', added, h => by
    obtain ⟨rfl, rfl⟩ := Edit.pure_eq_ok.1 h
    exact ⟨rfl, #[], by simp, rfl⟩
  | n + 1, b, b', added, h => by
    obtain ⟨first, b₁, hf, h⟩ := Edit.bind_eq_ok.1 h
    obtain ⟨rest, b₂, hr, h⟩ := Edit.bind_eq_ok.1 h
    obtain ⟨rfl, rfl⟩ := Edit.pure_eq_ok.1 h
    unfold Edit.addLocal at hf
    split at hf
    · cases hf
      obtain ⟨rfl, more, rfl, size⟩ := addLocals_eq_ok hr
      refine ⟨?_, #[.int32] ++ more, ?_, ?_⟩
      · rw [Array.size_push, List.range'_succ]
      · simp
      · rw [Array.size_append, size]
        simp [Nat.add_comm]
    · cases hf

theorem lookup_map_snd {g : Nat → Nat} {n : Nat} : ∀ {l : List (Nat × Nat)},
    (l.map fun x => (x.1, g x.2)).lookup n = (l.lookup n).map g
  | [] => rfl
  | x :: l => by
    rw [List.map_cons, List.lookup_cons, List.lookup_cons]
    cases n == x.1 with
    | true => rfl
    | false => exact lookup_map_snd

/-- If there are variables for all slots, these are what has been added. -/
theorem addLocals_of_addStateVars {p : Layout} {b b' : Body} {vars : StateVars}
    (h : p.addStateVars b = (.ok vars, b')) : ∃ added, addLocals p.slotCount b = (.ok added, b') ∧
      vars = p.slots.map fun x => (x.1, added[x.2]?.getD 0) := by
  obtain ⟨added, b₁, ha, h⟩ := Edit.bind_eq_ok.1 h
  split at h
  · cases h
  · rename_i few
    obtain ⟨rfl, rfl⟩ := Edit.pure_eq_ok.1 h
    exact ⟨added, Nat.min_eq_left (Nat.le_of_not_lt few) ▸ ha, rfl⟩

theorem addStateVars_eq_ok {p : Layout} {b b' : Body} {vars : StateVars}
    (h : p.addStateVars b = (.ok vars, b')) :
    (∃ more, b' = { b with locals := b.locals ++ more } ∧ more.size = p.slotCount) ∧
      ∀ n s, p.slots.lookup n = some s → vars.ofNode n = b.locals.size + s := by
  obtain ⟨added, ha, rfl⟩ := addLocals_of_addStateVars h
  obtain ⟨rfl, more⟩ := addLocals_eq_ok ha
  refine ⟨more, fun n s hs => ?_⟩
  have := Layout.lt_slotCount hs
  have found := lookup_map_snd (g := fun s => (List.range' b.locals.size p.slotCount)[s]?.getD 0)
    (n := n) (l := p.slots)
  rw [hs] at found
  refine (congrArg (·.getD 0) found).trans ?_
  simp [this]

/-! ## Ways on -/

theorem nodup_eraseDups (l : List Handle) : l.eraseDups.Nodup := by
  induction h : l.length using Nat.strongRecOn generalizing l with
  | ind n ih =>
    cases l with
    | nil => exact List.nodup_nil
    | cons x l =>
      have shorter : (l.filter fun y => !y == x).length < n := by
        have := List.length_filter_le (fun y => !y == x) l
        rw [List.length_cons] at h
        omega
      rw [List.eraseDups_cons, List.nodup_cons]
      refine ⟨fun mem => ?_, ih _ shorter _ rfl⟩
      rw [List.mem_eraseDups, List.mem_filter] at mem
      simp at mem

def Layout.handlerOf (p : Layout) (n : Nat) : Handle := (p.nesting.rangesAt n).handlerStart

theorem Layout.handlerStart?_eq {p : Layout} {n : Nat} (lt : n < p.nesting.size) :
    p.handlerStart? n = some (p.handlerOf n) := by
  simp [handlerStart?, handlerOf, Nesting.rangesAt, lt]

section
variable {p : Layout} {l : Leave} (mem : l ∈ p.leaves)
include mem

theorem Layout.target_mem_destinations {n : Nat} (last : l.exits.getLast? = some n) :
    l.target ∈ p.destinations n := by
  unfold Layout.destinations
  rw [List.mem_eraseDups]
  exact List.mem_map_of_mem (List.mem_filter.2 ⟨mem, decide_eq_true last⟩)

theorem Layout.forwards_of_exits {m n : Nat} {before behind : List Nat}
    (exits : l.exits = before ++ n :: m :: behind) : p.forwards n = true := by
  unfold Layout.forwards
  rw [List.any_eq_true]
  refine ⟨l, mem, ?_⟩
  rw [exits, List.dropLast_append_cons, List.dropLast_cons_cons]
  simp

end

theorem Layout.exists_exit {p : Layout} {n : Nat} (some : p.continuations n ≠ []) : ∃ l ∈ p.leaves, n ∈ l.exits := by
  obtain ⟨goal, mem⟩ := List.exists_mem_of_ne_nil _ some
  rcases List.mem_append.1 mem with mem | mem
  · rw [Layout.destinations, List.mem_eraseDups] at mem
    obtain ⟨l, line, -⟩ := List.mem_map.1 mem
    obtain ⟨line, last⟩ := List.mem_filter.1 line
    exact ⟨l, line, List.mem_of_getLast? (of_decide_eq_true last)⟩
  · split at mem
    · rename_i forwards
      obtain ⟨l, line, inner⟩ := List.any_eq_true.1 forwards
      exact ⟨l, line, List.dropLast_subset _ (List.contains_iff_mem.1 inner)⟩
    · cases mem

namespace Reads

variable {b : Body} {regions : List Ranges} {p : Layout} {depths : Body.Depths}
  (reads : Reads b regions depths p)
include reads

theorem exits_lt {l : Leave} (mem : l ∈ p.leaves) {n : Nat} (exit : n ∈ l.exits) :
    n < p.nesting.size := by
  obtain ⟨_, _, _, -, -, -, -, exits, -⟩ := reads.leaves mem
  rw [exits] at exit
  exact p.nesting.exits_lt exit

theorem lookup_slots {l : Leave} (mem : l ∈ p.leaves) {n : Nat} (exit : n ∈ l.exits) :
    ∃ s, p.slots.lookup n = some s := by
  refine p.assigned_slots.all n (reads.exits_lt mem exit) ?_
  obtain ⟨before, behind, exits⟩ := List.append_of_mem exit
  unfold Layout.isEntered
  rw [Bool.or_eq_true]
  cases behind with
  | nil =>
    have goal := Layout.target_mem_destinations (n := n) mem (by rw [exits]; simp)
    refine .inl ?_
    rw [Bool.not_eq_true', List.isEmpty_eq_false_iff]
    exact List.ne_nil_of_mem goal
  | cons m behind => exact .inr (Layout.forwards_of_exits mem exits)

end Reads

namespace Laid

variable {b : Body} {regions : List Ranges} {p : Layout} {depths : Body.Depths}
  (laid : Laid b regions depths p) {l : Leave} (mem : l ∈ p.leaves)
include laid mem

theorem exits_nodup : l.exits.Nodup := by
  obtain ⟨_, _, _, -, -, -, -, exits, -⟩ := laid.leaves mem
  rw [exits]
  exact (laid.arranged.pairwise_exits _ _).imp fun h => Nat.ne_of_gt h.1

theorem getLast?_exits_ne {m n : Nat} {before behind : List Nat}
    (exits : l.exits = before ++ n :: m :: behind) : l.exits.getLast? ≠ some n := by
  have nodup := laid.exits_nodup mem
  intro eq
  rw [exits, List.nodup_append, List.nodup_cons] at nodup
  rw [exits, List.getLast?_append, List.getLast?_cons_cons, Option.or_eq_some_iff] at eq
  rcases eq with eq | ⟨eq, -⟩
  · exact nodup.2.1.1 (List.mem_of_getLast? eq)
  · simp at eq

/-- The state stored for a node leads to the next handler, and to the destination at last. -/
theorem continuations_stateOf {n : Nat} {before behind : List Nat}
    (exits : l.exits = before ++ n :: behind) :
    (p.continuations n)[p.stateOf l n]? = (behind.map p.handlerOf ++ [l.target]).head? := by
  unfold Layout.continuations Layout.stateOf
  cases behind with
  | nil =>
    have last : l.exits.getLast? = some n := by rw [exits]; simp
    have goal := Layout.target_mem_destinations mem last
    rw [if_pos last, List.getElem?_append_left (List.idxOf_lt_length_of_mem goal),
      List.getElem?_idxOf goal]
    rfl
  | cons m behind =>
    have hm := laid.exits_lt mem (n := m) (by rw [exits]; simp)
    have outer : p.outerHandler? n = some (p.handlerOf m) := by
      obtain ⟨_, _, _, -, -, -, -, way, -⟩ := laid.leaves mem
      have parent := Nesting.parentOf_of_exits (way.symm.trans exits)
      unfold Nesting.parentOf at parent
      unfold Layout.outerHandler?
      rw [parent, Option.bind_some]
      exact Layout.handlerStart?_eq hm
    rw [if_neg (laid.getLast?_exits_ne mem exits), if_pos (Layout.forwards_of_exits mem exits), outer,
      List.getElem?_append_right (Nat.le_refl _), Nat.sub_self]
    rfl

omit mem in
theorem destinations_lt {n : Nat} (lt : n < p.nesting.size) :
    (p.destinations n).length < b.size := by
  have proper := laid.proper lt
  obtain ⟨reg, -, placed⟩ := laid.spans.placed (laid.rangesAt_mem lt)
  have start := position_eq_ok placed.tryStart
  have live {h : Handle} {k : Nat} (there : b.position? h = some k) : h ∈ b.handles := by
    obtain ⟨i, code⟩ := Body.get_of_position? there
    exact List.mem_map_of_mem (List.mem_of_getElem? code)
  have goal {h : Handle} (mem : h ∈ p.destinations n) :
      ∃ k, b.position? h = some k ∧ (p.nesting.rangesAt n).trySpan.contains k = false := by
    unfold Layout.destinations at mem
    rw [List.mem_eraseDups] at mem
    obtain ⟨l, hl, rfl⟩ := List.mem_map.1 mem
    obtain ⟨hl, last⟩ := List.mem_filter.1 hl
    obtain ⟨_, k, _, -, -, -, there, exits, -⟩ := laid.leaves hl
    have exit := List.mem_of_getLast? (of_decide_eq_true last)
    rw [exits] at exit
    exact ⟨k, there, (laid.arranged.mem_exits.1 exit).2⟩
  have nodup : (reg.tryStart :: p.destinations n).Nodup := by
    refine List.nodup_cons.2 ⟨fun mem => ?_, nodup_eraseDups _⟩
    obtain ⟨k, there, outside⟩ := goal mem
    rw [start, Option.some.injEq] at there
    rw [← there, Bool.eq_false_iff] at outside
    exact outside (Span.contains_iff.2 ⟨Nat.le_refl _, proper.tryNonempty⟩)
  have sub : reg.tryStart :: p.destinations n ⊆ b.handles := by
    intro h hh
    rcases List.mem_cons.1 hh with rfl | hh
    · exact live start
    · obtain ⟨k, there, -⟩ := goal hh
      exact live there
  have := (List.subperm_of_subset nodup sub).length_le
  rw [List.length_cons, Body.handles, List.length_map] at this
  exact this

theorem stateOf_lt {n : Nat} (exit : n ∈ l.exits) : p.stateOf l n < 0x100000000 := by
  have := laid.destinations_lt (laid.exits_lt mem exit)
  have := laid.numbered.size_le
  have := laid.short
  have le : p.stateOf l n ≤ (p.destinations n).length := by
    unfold Layout.stateOf
    split
    · exact List.idxOf_le_length
    · exact Nat.le_refl _
  omega

end Laid

end CilForge.Finally
