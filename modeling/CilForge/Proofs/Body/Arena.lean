import CilForge.Body.Arena
import CilForge.Proofs.Body.Linked
import CilForge.Proofs.Unroll
import Mathlib.Algebra.Group.Nat.Defs
import Mathlib.Data.Finset.Image
import Mathlib.Data.List.Nodup

/-!
# Nodes that mirror a list

An arena mirrors a list of lines if each live node holds the instruction of its handle, with the
handles before and behind it in the list. Linking a node in, taking one out and writing operands keep
it a mirror of the list that is edited likewise, as long as handles are not cut.
-/

namespace CilForge

namespace Body

variable {b : Body} {h n : Handle} {i j : Instr} {x y : List (Handle × Instr)}

/-! ## Neighbours in a list -/

theorem following_insert (nodup : ((x ++ y).map (·.1)).Nodup) (new : n ∉ (x ++ y).map (·.1)) :
    following h (x ++ (n, i) :: y) =
      if h = n then y.head?.map (·.1) else if x.getLast?.map (·.1) = some h then some n else following h (x ++ y) := by
  induction x with
  | nil =>
    rw [List.nil_append, following]
    by_cases same : h = n
    · rw [if_pos same.symm, if_pos same]
    · rw [if_neg (Ne.symm same), if_neg same]
      rfl
  | cons p x ih =>
    rw [List.cons_append, List.map_cons, List.nodup_cons] at nodup
    rw [List.cons_append, List.map_cons, List.mem_cons, not_or] at new
    rw [List.cons_append, List.cons_append, following, following, ih nodup.2 new.2]
    by_cases here : p.1 = h
    · have other : h ≠ n := fun eq => new.1 (here.trans eq).symm
      rw [if_pos here, if_neg other, if_pos here]
      cases x with
      | nil => simp [here]
      | cons q x =>
        have last : ((q :: x).getLast?).map (·.1) ≠ some h := by
          intro found
          obtain ⟨z, last, same⟩ := Option.map_eq_some_iff.1 found
          refine nodup.1 (here.trans same.symm ▸ List.mem_map_of_mem ?_)
          exact List.mem_append_left _ (List.mem_of_getLast? last)
        rw [List.getLast?_cons_cons, if_neg last]
        rfl
    · rw [if_neg here, if_neg here]
      cases x with
      | nil => simp [here]
      | cons q x => rw [List.getLast?_cons_cons]

theorem following_last (nodup : ((x ++ y).map (·.1)).Nodup) (last : x.getLast?.map (·.1) = some h) :
    following h (x ++ y) = y.head?.map (·.1) := by
  obtain ⟨⟨h, i⟩, here, rfl⟩ := Option.map_eq_some_iff.1 last
  obtain ⟨x, rfl⟩ := List.getLast?_eq_some_iff.1 here
  refine following_of_append nodup (i := i) (?_ : _ = x ++ _)
  rw [List.append_assoc]
  rfl

theorem following_insert_reverse (nodup : ((x ++ y).map (·.1)).Nodup) (new : n ∉ (x ++ y).map (·.1)) :
    following h (x ++ (n, i) :: y).reverse = if h = n then x.getLast?.map (·.1)
      else if y.head?.map (·.1) = some h then some n else following h (x ++ y).reverse := by
  rw [← List.nodup_reverse, ← List.map_reverse, List.reverse_append] at nodup
  rw [← List.mem_reverse, ← List.map_reverse, List.reverse_append] at new
  rw [List.reverse_append, List.reverse_cons, List.append_assoc, List.singleton_append, following_insert nodup new,
    List.head?_reverse, List.getLast?_reverse, List.reverse_append]

theorem following_first_reverse (nodup : ((x ++ y).map (·.1)).Nodup) (first : y.head?.map (·.1) = some h) :
    following h (x ++ y).reverse = x.getLast?.map (·.1) := by
  rw [← List.nodup_reverse, ← List.map_reverse, List.reverse_append] at nodup
  rw [List.reverse_append, following_last nodup (by rw [List.getLast?_reverse, first]), List.head?_reverse]

theorem lookup_map (f : Handle → Instr → Instr) (l : List (Handle × Instr)) :
    (l.map fun p => (p.1, f p.1 p.2)).lookup h = (l.lookup h).map (f h) := by
  induction l with
  | nil => rfl
  | cons p l ih =>
    rw [List.map_cons, List.lookup_cons, List.lookup_cons, ih]
    by_cases same : h = p.1
    · simp [same]
    · simp [beq_eq_false_iff_ne.2 same]

theorem nodup_middle : ((x ++ (n, i) :: y).map (·.1)).Nodup ↔
    n ∉ (x ++ y).map (·.1) ∧ ((x ++ y).map (·.1)).Nodup := by
  rw [← List.nodup_cons]
  exact (List.perm_middle.map Prod.fst).nodup_iff

theorem following_of_not_mem {l : List (Handle × Instr)} (out : h ∉ l.map (·.1)) : following h l = none := by
  induction l with
  | nil => rfl
  | cons p l ih =>
    rw [List.map_cons, List.mem_cons, not_or] at out
    rw [following, if_neg (Ne.symm out.1), ih out.2]

theorem following_map {f : Handle × Instr → Handle × Instr} (keeps : ∀ p, (f p).1 = p.1)
    (l : List (Handle × Instr)) : following h (l.map f) = following h l := by
  induction l with
  | nil => rfl
  | cons p l ih =>
    rw [List.map_cons, following, following, keeps, ih, List.head?_map, Option.map_map]
    rw [show ((·.1) ∘ f : Handle × Instr → Handle) = (·.1) from funext keeps]

theorem lookup_insert (new : n ∉ (x ++ y).map (·.1)) :
    (x ++ (n, i) :: y).lookup h = if h = n then some i else (x ++ y).lookup h := by
  induction x with
  | nil =>
    rw [List.nil_append, List.lookup_cons]
    by_cases same : h = n
    · rw [beq_iff_eq.2 same, if_pos same]
    · rw [beq_eq_false_iff_ne.2 same, if_neg same]
      rfl
  | cons p x ih =>
    rw [List.cons_append, List.map_cons, List.mem_cons, not_or] at new
    rw [List.cons_append, List.cons_append, List.lookup_cons, List.lookup_cons, ih new.2]
    by_cases same : h = n
    · have other : (h == p.1) = false := beq_eq_false_iff_ne.2 fun eq => new.1 (same.symm.trans eq)
      simp only [other, if_pos same]
    · simp only [if_neg same]

/-- What lies beside a seam does not have the next handle. -/
theorem Numbered.seam (num : b.Numbered) {o : Option (Handle × Instr)} (sub : ∀ p, o = some p → p ∈ b.code) :
    o.map (·.1) ≠ some b.fresh := by
  intro found
  obtain ⟨p, here, same⟩ := Option.map_eq_some_iff.1 found
  exact num.fresh (same ▸ List.mem_map_of_mem (sub p here))

end Body

/-- The node of `h` when the seam between `prev` and `next` is sewn anew. -/
def Node.resew (h : Handle) (prev next behindPrev beforeNext : Option Handle) (n : Node) : Node :=
  { n with
    next := if prev = some h then behindPrev else n.next
    prev := if next = some h then beforeNext else n.prev }

namespace Arena

open Body

/-- The live nodes are the lines of the body, with their neighbours, and no handle is cut. -/
structure Mirrors (a : Arena) (b : Body) : Prop where
  size : a.nodes.size = b.nextIndex
  node : ∀ h, a.node? h = (b.get? h).map fun i => ⟨i, b.prev? h, b.next? h, true⟩
  head : a.head = b.first?
  tail : a.tail = b.last?
  len : a.len = b.size

variable {a a' : Arena} {b : Body} {g h : Handle} {v : Option Handle} {i : Instr} {x y : List (Handle × Instr)}

/-! ## Nodes after a change -/

theorem nodes_modify (f : Node → Node) :
    (a.nodes.modify g.index f)[h.index]? = a.nodes[h.index]?.map fun n => if g = h then f n else n := by
  rw [Array.getElem?_modify]
  by_cases same : g = h
  · simp [same]
  · have other : g.index ≠ h.index := fun eq => same (congrArg Handle.mk eq)
    simp [same, other]

theorem nodes_setPrev :
    (a.setPrev g v).nodes[h.index]? = a.nodes[h.index]?.map fun n => if g = h then { n with prev := v } else n :=
  nodes_modify _

theorem nodes_setNext :
    (a.setNext g v).nodes[h.index]? = a.nodes[h.index]?.map fun n => if g = h then { n with next := v } else n :=
  nodes_modify _

theorem nodes_joinBehind (o : Option Handle) : (a.joinBehind o v).nodes[h.index]? =
    a.nodes[h.index]?.map fun n => if o = some h then { n with next := v } else n := by
  cases o with
  | none => simp [joinBehind]
  | some g =>
    rw [joinBehind, nodes_setNext]
    simp only [Option.some.injEq]

theorem nodes_joinBefore (o : Option Handle) : (a.joinBefore o v).nodes[h.index]? =
    a.nodes[h.index]?.map fun n => if o = some h then { n with prev := v } else n := by
  cases o with
  | none => simp [joinBefore]
  | some g =>
    rw [joinBefore, nodes_setPrev]
    simp only [Option.some.injEq]

@[simp]
theorem size_setPrev : (a.setPrev g v).nodes.size = a.nodes.size := Array.size_modify ..

@[simp]
theorem size_setNext : (a.setNext g v).nodes.size = a.nodes.size := Array.size_modify ..

@[simp]
theorem allocate_rest : (a.allocate i).2.nodes.size = a.nodes.size + 1 ∧ (a.allocate i).2.head = a.head ∧
    (a.allocate i).2.tail = a.tail ∧ (a.allocate i).2.len = a.len + 1 :=
  ⟨Array.size_push .., rfl, rfl, rfl⟩

@[simp]
theorem joinBehind_rest (o : Option Handle) : (a.joinBehind o v).nodes.size = a.nodes.size ∧
    (a.joinBehind o v).head = (if o = none then v else a.head) ∧ (a.joinBehind o v).tail = a.tail ∧
    (a.joinBehind o v).len = a.len := by
  cases o with
  | none => exact ⟨rfl, rfl, rfl, rfl⟩
  | some g => exact ⟨size_setNext, rfl, rfl, rfl⟩

@[simp]
theorem joinBefore_rest (o : Option Handle) : (a.joinBefore o v).nodes.size = a.nodes.size ∧
    (a.joinBefore o v).head = a.head ∧ (a.joinBefore o v).tail = (if o = none then v else a.tail) ∧
    (a.joinBefore o v).len = a.len := by
  cases o with
  | none => exact ⟨rfl, rfl, rfl, rfl⟩
  | some g => exact ⟨size_setPrev, rfl, rfl, rfl⟩

theorem node?_of_nodes {f : Node → Node} (nodes : a'.nodes[h.index]? = a.nodes[h.index]?.map f)
    (live : ∀ n, (f n).live = n.live) : a'.node? h = (a.node? h).map f := by
  rw [node?, node?, nodes]
  cases a.nodes[h.index]? with
  | none => rfl
  | some n => cases alive : n.live <;> simp [Option.filter, live, alive]

/-! ## Walks along the links -/

/-- The nodes, as what a walk can be at. -/
def places (a : Arena) : Finset (Option Handle) := (Finset.range a.nodes.size).image fun k => some ⟨k⟩

theorem card_places (a : Arena) : a.places.card < a.nodes.size + 1 :=
  Nat.lt_succ_of_le (Finset.card_image_le.trans_eq (Finset.card_range _))

theorem node?_of_not_mem (out : some h ∉ a.places) : a.node? h = none := by
  rw [node?, Array.getElem?_eq_none]
  · rfl
  · refine Nat.not_lt.1 fun lt => out ?_
    exact Finset.mem_image.2 ⟨h.index, Finset.mem_range.2 lt, rfl⟩

/-- A walk that stops at the end and at nodes that are not live, and goes on from the others. -/
theorem unrolls_of_walk {β : Type} {body : (Option Handle → Option β) → Option Handle → Option β}
    (last : ∀ f g, body f none = body g none)
    (dead : ∀ h, a.node? h = none → ∀ f g, body f (some h) = body g (some h))
    (live : ∀ h n, a.node? h = some n → ∀ f g, Under f g → ∀ y, body f (some h) = some y → body g (some h) = some y) :
    Unrolls body a.places where
  mono {f g} under h? y given := by
    cases h? with
    | none => rwa [last g f]
    | some h =>
      cases found : a.node? h with
      | none => rwa [dead h found g f]
      | some n => exact live h n found f g under y given
  leaf {h?} out f g := by
    cases h? with
    | none => exact last f g
    | some h => exact dead h (node?_of_not_mem out) f g

theorem linesFrom?_eq (a : Arena) : a.linesFrom? = a.linesBy a.linesFrom? := by
  refine (unrolls_of_walk (a := a) (fun _ _ => rfl) (fun h dead f g => ?_) fun h n found f g under lines given => ?_).eq
    a.card_places
  · simp only [linesBy, dead]
  · simp only [linesBy, found] at given ⊢
    obtain ⟨behind, rest, given⟩ := Option.bind_eq_some_iff.1 given
    exact Option.bind_eq_some_iff.2 ⟨behind, under _ _ rest, given⟩

theorem aimsFrom?_eq (a : Arena) (goal : Handle) : a.aimsFrom? goal = a.aimsBy goal (a.aimsFrom? goal) := by
  refine (unrolls_of_walk (a := a) (fun _ _ => rfl) (fun h dead f g => ?_) fun h n found f g under aims given => ?_).eq
    a.card_places
  · simp only [aimsBy, dead]
  · simp only [aimsBy, found] at given ⊢
    by_cases hit : n.instr.targets.contains goal
    · rwa [if_pos hit] at given ⊢
    · rw [if_neg hit] at given ⊢
      exact under _ _ given

namespace Mirrors

variable (m : a.Mirrors b)
include m

theorem get? : a.get? h = b.get? h := by
  rw [Arena.get?, m.node, Option.map_map]
  exact Option.map_id'

theorem contains : a.contains h = b.contains h := by
  rw [Arena.contains, Body.contains, m.node, Option.isSome_map]

theorem next? : a.next? h = b.next? h := by
  rw [Arena.next?, m.node]
  cases there : b.get? h with
  | none => exact (following_of_not_mem fun mem => by simpa [Body.contains, there] using contains_iff.2 mem).symm
  | some i => rfl

theorem prev? : a.prev? h = b.prev? h := by
  rw [Arena.prev?, m.node]
  cases there : b.get? h with
  | none =>
    refine (following_of_not_mem (l := b.code.reverse) fun mem => ?_).symm
    rw [List.map_reverse, List.mem_reverse] at mem
    simpa [Body.contains, there] using contains_iff.2 mem
  | some i => rfl

theorem same {b' : Body} (code : b'.code = b.code) (next : b'.nextIndex = b.nextIndex) : a.Mirrors b' := by
  obtain ⟨size, node, head, tail, len⟩ := m
  simp only [Body.get?, Body.prev?, Body.next?, Body.first?, Body.last?, Body.size, handles, ← code, ← next]
    at size node head tail len
  exact ⟨size, node, head, tail, len⟩

/-! ## Linking and taking out -/

/-- A node linked in between two others, which are its neighbours from then on. -/
theorem splice (num : b.Numbered) (code : b.code = x ++ y) (size : a'.nodes.size = a.nodes.size + 1)
    (len : a'.len = a.len + 1)
    (nodes : ∀ h : Handle, a'.nodes[h.index]? =
      if h = b.fresh then some ⟨i, x.getLast?.map (·.1), y.head?.map (·.1), true⟩
      else a.nodes[h.index]?.map
        (Node.resew h (x.getLast?.map (·.1)) (y.head?.map (·.1)) (some b.fresh) (some b.fresh)))
    (head : a'.head = if x = [] then some b.fresh else a.head)
    (tail : a'.tail = if y = [] then some b.fresh else a.tail) :
    a'.Mirrors { b with code := x ++ (b.fresh, i) :: y, nextIndex := b.nextIndex + 1 } := by
  have handles : b.handles = (x ++ y).map (·.1) := by rw [Body.handles, code]
  have nodup := handles ▸ num.nodup
  have new := handles ▸ num.fresh
  refine ⟨by rw [size, m.size], fun h => ?_, ?_, ?_, ?_⟩
  · simp only [Body.get?, Body.next?, Body.prev?, lookup_insert new, following_insert nodup new,
      following_insert_reverse nodup new]
    by_cases same : h = b.fresh
    · simp [node?, nodes, same]
    · rw [node?_of_nodes ((nodes h).trans (if_neg same)) fun _ => rfl, m.node, Option.map_map]
      simp [Body.get?, Body.next?, Body.prev?, code, same, Function.comp_def, Node.resew]
  · rw [head, m.head, first?_eq, first?_eq, code]
    cases x <;> simp
  · rw [tail, m.tail, last?_eq, last?_eq, code]
    rcases List.eq_nil_or_concat y with rfl | ⟨y, p, rfl⟩ <;> simp
  · rw [len, m.len, Body.size, Body.size, code]
    simp only [List.length_append, List.length_cons]
    omega

theorem allocate (room : b.nextIndex < 2 ^ 32) : (a.allocate i).1 = b.fresh ∧
    ∀ h : Handle, (a.allocate i).2.nodes[h.index]? = if h = b.fresh then some { instr := i } else a.nodes[h.index]? := by
  have index (h : Handle) : h = b.fresh ↔ h.index = a.nodes.size := by
    rw [m.size]
    exact ⟨congrArg Handle.index, congrArg Handle.mk⟩
  refine ⟨by rw [Arena.allocate, m.size, BitVec.toNat_ofNat, Nat.mod_eq_of_lt room]; rfl, fun h => ?_⟩
  rw [Arena.allocate, Array.getElem?_push]
  simp only [index]

theorem node_at (num : b.Numbered) (code : b.code = x ++ (h, i) :: y) :
    a.nodes[h.index]? = some ⟨i, x.getLast?.map (·.1), y.head?.map (·.1), true⟩ := by
  have found := m.node h
  rw [get?_of_append num.nodup code, Option.map_some, next?_of_append num.nodup code, prev?_of_append num.nodup code,
    node?, Option.filter_eq_some_iff] at found
  exact found.1

theorem pushBack (num : b.Numbered) (room : b.nextIndex < 2 ^ 32) :
    (a.pushBack i).1 = b.fresh ∧
      (a.pushBack i).2.Mirrors { b with code := b.code ++ [(b.fresh, i)], nextIndex := b.nextIndex + 1 } := by
  obtain ⟨given, made⟩ := m.allocate (i := i) room
  have last : b.last? = b.code.getLast?.map (·.1) := List.getLast?_map
  have other := num.seam (o := b.code.getLast?) fun p => List.mem_of_getLast?
  refine ⟨given, m.splice num (List.append_nil _).symm ?_ ?_ (fun h => ?_) ?_ ?_⟩
  · simp [Arena.pushBack]
  · simp [Arena.pushBack, setPrev]
  · simp only [Arena.pushBack, nodes_joinBehind, nodes_setPrev, made, given, m.tail, last]
    by_cases same : h = b.fresh
    · simp [same, other]
    · simp only [same, Ne.symm same, if_false, Option.map_map]
      refine Option.map_congr fun n _ => ?_
      simp only [Node.resew, Function.comp]
      split <;> rfl
  · simp [Arena.pushBack, setPrev, m.tail, last, given]
  · simp [Arena.pushBack, given]

theorem linkAfter {j : Instr} (num : b.Numbered) (room : b.nextIndex < 2 ^ 32) (code : b.code = x ++ (g, j) :: y) :
    (a.linkAfter g i).1 = b.fresh ∧ (a.linkAfter g i).2.Mirrors
      { b with code := x ++ (g, j) :: (b.fresh, i) :: y, nextIndex := b.nextIndex + 1 } := by
  obtain ⟨given, made⟩ := m.allocate (i := i) room
  have split : b.code = (x ++ [(g, j)]) ++ y := by rw [code, List.append_assoc]; rfl
  have next : a.nodes[g.index]?.bind (·.next) = y.head?.map (·.1) := by rw [m.node_at num code]; rfl
  have other : g ≠ b.fresh := num.ne_fresh (by rw [Body.handles, code]; simp)
  have other' := num.seam (o := y.head?) fun p mem => by
    rw [split]
    exact List.mem_append_right _ (List.mem_of_head? mem)
  rw [List.append_cons x]
  refine ⟨given, m.splice num split ?_ ?_ (fun h => ?_) ?_ ?_⟩
  · simp [Arena.linkAfter]
  · simp [Arena.linkAfter, setPrev, setNext]
  · simp only [Arena.linkAfter, nodes_joinBefore, nodes_setNext, nodes_setPrev, made, given, next,
      List.getLast?_concat, Option.map_some]
    by_cases same : h = b.fresh
    · simp [same, other, other']
    · simp only [same, Ne.symm same, if_false, Option.map_map]
      refine Option.map_congr fun n _ => ?_
      simp only [Node.resew, Function.comp, Option.some.injEq]
      split <;> split <;> rfl
  · simp [Arena.linkAfter, setPrev, setNext]
  · simp [Arena.linkAfter, setPrev, setNext, given, next]

theorem linkBefore {j : Instr} (num : b.Numbered) (room : b.nextIndex < 2 ^ 32) (code : b.code = x ++ (g, j) :: y) :
    (a.linkBefore g i).1 = b.fresh ∧ (a.linkBefore g i).2.Mirrors
      { b with code := x ++ (b.fresh, i) :: (g, j) :: y, nextIndex := b.nextIndex + 1 } := by
  obtain ⟨given, made⟩ := m.allocate (i := i) room
  have prev : a.nodes[g.index]?.bind (·.prev) = x.getLast?.map (·.1) := by rw [m.node_at num code]; rfl
  have other : g ≠ b.fresh := num.ne_fresh (by rw [Body.handles, code]; simp)
  have other' := num.seam (o := x.getLast?) fun p mem => by
    rw [code]
    exact List.mem_append_left _ (List.mem_of_getLast? mem)
  refine ⟨given, m.splice num code ?_ ?_ (fun h => ?_) ?_ ?_⟩
  · simp [Arena.linkBefore]
  · simp [Arena.linkBefore, setPrev, setNext]
  · simp only [Arena.linkBefore, nodes_joinBehind, nodes_setNext, nodes_setPrev, made, given, prev,
      List.head?_cons, Option.map_some]
    by_cases same : h = b.fresh
    · simp [same, other, other']
    · simp only [same, Ne.symm same, if_false, Option.map_map]
      refine Option.map_congr fun n _ => ?_
      simp only [Node.resew, Function.comp, Option.some.injEq]
      split <;> split <;> rfl
  · simp [Arena.linkBefore, setPrev, setNext, given, prev]
  · simp [Arena.linkBefore, setPrev, setNext]

/-- A node taken out leaves those beside it as each other's neighbours. -/
theorem unlink (num : b.Numbered) (code : b.code = x ++ (g, i) :: y) :
    (a.unlink g).Mirrors { b with code := x ++ y } := by
  have here := m.node_at num code
  obtain ⟨out, nodup⟩ : g ∉ (x ++ y).map (·.1) ∧ ((x ++ y).map (·.1)).Nodup := by
    rw [← nodup_middle (i := i), ← code]
    exact num.nodup
  have beside {o : Option (Handle × Instr)} (sub : ∀ p, o = some p → p ∈ x ++ y) : o.map (·.1) ≠ some g := by
    intro found
    obtain ⟨p, here, same⟩ := Option.map_eq_some_iff.1 found
    exact out (same ▸ List.mem_map_of_mem (sub p here))
  have last := beside (o := x.getLast?) fun p mem => List.mem_append_left _ (List.mem_of_getLast? mem)
  have first := beside (o := y.head?) fun p mem => List.mem_append_right _ (List.mem_of_head? mem)
  have nodes (h : Handle) : (a.unlink g).nodes[h.index]? = a.nodes[h.index]?.map fun n =>
      if g = h then { n with prev := none, next := none, live := false }
      else n.resew h (x.getLast?.map (·.1)) (y.head?.map (·.1)) (y.head?.map (·.1)) (x.getLast?.map (·.1)) := by
    simp only [Arena.unlink, here, Option.bind_some, nodes_joinBefore, nodes_joinBehind, nodes_modify, Option.map_map]
    refine Option.map_congr fun n _ => ?_
    by_cases same : g = h
    · subst same
      simp [last, first]
    · simp only [Node.resew, Function.comp, same, if_false]
      split <;> split <;> rfl
  refine ⟨?_, fun h => ?_, ?_, ?_, ?_⟩
  · simp [Arena.unlink, m.size]
  · by_cases same : g = h
    · subst same
      have gone : (x ++ y).lookup g = none := Option.not_isSome_iff_eq_none.1 fun there => out (lookup_isSome.1 there)
      simp [node?, nodes, here, Option.filter, Body.get?, gone]
    · have kept : (a.unlink g).nodes[h.index]? = _ := (nodes h).trans (Option.map_congr fun n _ => if_neg same)
      rw [node?_of_nodes kept fun _ => rfl, m.node, Option.map_map]
      simp only [Body.get?, Body.next?, Body.prev?, code, lookup_insert out, following_insert nodup out,
        following_insert_reverse nodup out, if_neg (Ne.symm same)]
      refine Option.map_congr fun j _ => ?_
      simp only [Function.comp, Node.resew, Node.mk.injEq, true_and, and_true]
      constructor
      · split
        · rename_i before
          exact (following_first_reverse nodup before).symm
        · rfl
      · split
        · rename_i behind
          exact (following_last nodup behind).symm
        · rfl
  · simp only [Arena.unlink, here, Option.bind_some, joinBefore_rest, joinBehind_rest, m.head, first?_eq, code]
    cases x with
    | nil => rfl
    | cons p x => simp
  · simp only [Arena.unlink, here, Option.bind_some, joinBefore_rest, joinBehind_rest, m.tail, last?_eq, code]
    rcases List.eq_nil_or_concat y with rfl | ⟨y, p, rfl⟩
    · simp
    · simp
  · simp [Arena.unlink, m.len, Body.size, code]

/-! ## Writing operands -/

theorem rewrite {f : Handle → Instr → Instr} (size : a'.nodes.size = a.nodes.size) (head : a'.head = a.head)
    (tail : a'.tail = a.tail) (len : a'.len = a.len)
    (node : ∀ h, a'.node? h = (a.node? h).map fun n => { n with instr := f h n.instr }) :
    a'.Mirrors { b with code := b.code.map fun p => (p.1, f p.1 p.2) } := by
  have handles : ({ b with code := b.code.map fun p => (p.1, f p.1 p.2) } : Body).handles = b.handles := by
    rw [Body.handles, List.map_map]
    rfl
  refine ⟨size.trans m.size, fun h => ?_, ?_, ?_, ?_⟩
  · rw [node, m.node, Option.map_map]
    simp only [Body.get?, lookup_map, Body.next?, Body.prev?, ← List.map_reverse, Option.map_map]
    simp only [following_map (f := fun p => (p.1, f p.1 p.2)) fun _ => rfl]
    rfl
  · rw [head, m.head, Body.first?, Body.first?, handles]
  · rw [tail, m.tail, Body.last?, Body.last?, handles]
  · rw [len, m.len, Body.size, Body.size, List.length_map]

theorem rebranch (old new : Handle) : (a.rebranch old new).Mirrors (b.rebranch old new) := by
  refine m.rewrite (f := fun _ i => i.mapTargets (Handle.swap old new)) ?_ rfl rfl rfl fun h => ?_
  · simp [Arena.rebranch]
  · rw [node?, node?, Arena.rebranch, Array.getElem?_map]
    cases a.nodes[h.index]? with
    | none => rfl
    | some n => cases live : n.live <;> (simp [Option.filter, live]; try rfl)

theorem setOperand (h : Handle) (o : Operand) : (a.setOperand h o).Mirrors
    { b with code := b.code.map fun p => if p.1 = h then (h, { p.2 with operand := o }) else p } := by
  have same : (fun p : Handle × Instr => if p.1 = h then (h, { p.2 with operand := o }) else p) =
      fun p => (p.1, if p.1 = h then { p.2 with operand := o } else p.2) := by
    funext p
    split
    · rename_i here
      rw [here]
    · rfl
  rw [same]
  refine m.rewrite (f := fun k i => if k = h then { i with operand := o } else i) ?_ rfl rfl rfl fun k => ?_
  · simp [Arena.setOperand]
  · refine node?_of_nodes ((nodes_modify _).trans (Option.map_congr fun n _ => ?_)) fun _ => rfl
    by_cases here : h = k
    · simp [here]
    · simp [here, Ne.symm here]

/-! ## Going through the nodes -/

theorem next_line (num : b.Numbered) (code : b.code = x ++ (h, i) :: y) :
    a.node? h = some ⟨i, x.getLast?.map (·.1), y.head?.map (·.1), true⟩ := by
  rw [node?, m.node_at num code]
  rfl

theorem linesFrom? (num : b.Numbered) (code : b.code = x ++ y) : a.linesFrom? (y.head?.map (·.1)) = some y := by
  induction y generalizing x with
  | nil => exact congrFun a.linesFrom?_eq none
  | cons p y ih =>
    have behind := ih (x := x ++ [p]) (by rw [code, List.append_assoc]; rfl)
    rw [List.head?_cons, Option.map_some, a.linesFrom?_eq]
    simp only [linesBy, m.next_line num code, behind]
    rfl

theorem lines? (num : b.Numbered) : a.lines? = some b.code := by
  rw [Arena.lines?, m.head, first?_eq]
  exact m.linesFrom? num (List.nil_append _).symm

theorem aimsFrom? (num : b.Numbered) (goal : Handle) (code : b.code = x ++ y) :
    a.aimsFrom? goal (y.head?.map (·.1)) = some (y.any fun p => p.2.targets.contains goal) := by
  induction y generalizing x with
  | nil => exact congrFun (a.aimsFrom?_eq goal) none
  | cons p y ih =>
    have behind := ih (x := x ++ [p]) (by rw [code, List.append_assoc]; rfl)
    rw [List.head?_cons, Option.map_some, a.aimsFrom?_eq, List.any_cons]
    simp only [aimsBy, m.next_line num code, behind]
    cases p.2.targets.contains goal <;> rfl

theorem isTarget? (num : b.Numbered) (goal : Handle) : a.isTarget? goal = some (b.isTarget goal) := by
  rw [Arena.isTarget?, m.head, first?_eq]
  exact m.aimsFrom? num goal (List.nil_append _).symm

/-- The live nodes in the order in which they were made hold the instructions of the lines. -/
theorem live_perm (num : b.Numbered) :
    ((a.nodes.toList.filter (·.live)).map (·.instr)).Perm (b.code.map (·.2)) := by
  let live := (a.nodes.toList.zipIdx.filter (·.1.live)).map fun x => ((⟨x.2⟩ : Handle), x.1.instr)
  have instrs : (a.nodes.toList.filter (·.live)).map (·.instr) = live.map (·.2) := by
    conv_lhs => rw [← List.zipIdx_map_fst 0 a.nodes.toList]
    rw [List.filter_map, List.map_map, List.map_map]
    rfl
  have keys : (live.map (·.1)).Nodup := by
    have numbers : ((a.nodes.toList.zipIdx.filter (·.1.live)).map (·.2)).Nodup := by
      refine List.Nodup.sublist (List.filter_sublist.map _) ?_
      rw [List.zipIdx_map_snd]
      exact List.nodup_range'
    have handles := numbers.map (f := Handle.mk) fun _ _ => Handle.mk.inj
    rw [List.map_map] at handles ⊢
    exact handles
  have mem (p : Handle × Instr) : p ∈ live ↔ p ∈ b.code := by
    obtain ⟨h, i⟩ := p
    rw [← get?_iff num.nodup, ← m.get?, Arena.get?, node?]
    simp only [live, List.mem_map, List.mem_filter, Prod.exists, Prod.mk.injEq, List.mk_mem_zipIdx_iff_getElem?,
      Array.getElem?_toList, Option.map_eq_some_iff, Option.filter_eq_some_iff]
    constructor
    · rintro ⟨n, k, ⟨found, alive⟩, rfl, rfl⟩
      exact ⟨n, ⟨found, alive⟩, rfl⟩
    · rintro ⟨n, ⟨found, alive⟩, rfl⟩
      exact ⟨n, h.index, ⟨found, alive⟩, rfl, rfl⟩
  rw [instrs]
  exact ((List.perm_ext_iff_of_nodup (.of_map _ keys) (.of_map _ num.nodup)).2 mem).map _

theorem slotCount (num : b.Numbered) (h : Handle) : a.slotCount h = b.slotCount h := by
  have slots := (m.live_perm num).flatMap_right Instr.targets
  rw [List.flatMap_map, List.flatMap_map] at slots
  exact slots.count_eq h

end Mirrors

end Arena

end CilForge
