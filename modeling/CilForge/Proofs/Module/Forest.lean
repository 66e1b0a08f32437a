import CilForge.Proofs.Module.Visits
import Mathlib.Data.List.Nodup
import Mathlib.Data.List.Perm.Basic
import Mathlib.Logic.Relation

/-!
# Types inside types

The types of a module form a forest: each type names the type around it, and is on the list of the types
inside that one. Additions keep the two kinds of links in step (`Kept`), if new types bring no lists of their
own, so that visiting along the lists comes to an end, as climbing along the links does. Main result: each
type is visited once, with all that is inside it right behind it (`order_built`).
-/

namespace CilForge

inductive Addition where
  | type (t : TypeDef)
  | method (type : Nat) (d : MethodDef)

namespace ModuleDef

/-- Adds to a module; a call that is refused changes nothing. -/
def add (m : ModuleDef) : Addition → ModuleDef
  | .type t =>
    match m.addType t with
    | .ok (_, m') => m'
    | .error _ => m
  | .method row d =>
    match m.addMethod row d with
    | .ok (_, m') => m'
    | .error _ => m

def built (name : String) (calls : List Addition) : ModuleDef := calls.foldl add { name }

/-- Climbs from a type to the type around it and so on, and collects the names on the way, unless this
takes more than `room` steps. -/
def climb? (m : ModuleDef) : Nat → Option TypeDef → List String → String → Option (String × List String)
  | 0, _, _, _ => none
  | _ + 1, none, names, ns => some (ns, names)
  | room + 1, some t, names, _ => m.climb? room (t.enclosing.bind (m.types[·]?)) (t.name :: names) t.ns

def climbedName? (m : ModuleDef) (room id : Nat) : Option TypeName := do
  let (ns, names) ← m.climb? room m.types[id]? [] ""
  return ⟨ns, String.intercalate "/" names⟩

def Within (m : ModuleDef) (c p : Nat) : Prop := m.enclosing? c = some p

def Inside (m : ModuleDef) : Nat → Nat → Prop := Relation.TransGen m.Within

/-- The namespace of the outermost type around a type, and the names from there inwards. -/
inductive Lineage (m : ModuleDef) : Nat → String → List String → Prop where
  | outermost {id t} : m.types[id]? = some t → t.enclosing = none → Lineage m id t.ns [t.name]
  | inner {id t p ns names} : m.types[id]? = some t → t.enclosing = some p → Lineage m p ns names →
      Lineage m id ns (names ++ [t.name])

/-! ## Visiting a forest -/

def inner (m : ModuleDef) (id : Nat) : List Nat := m.ids.filter fun c => id < c && m.enclosing? c = some id

/-- A type with all types inside it, each before those inside it. -/
def subtree (m : ModuleDef) (id : Nat) : List Nat :=
  id :: (m.inner id).attach.flatMap fun c => m.subtree c.1
termination_by m.types.size - id
decreasing_by
  have mem := List.mem_filter.1 c.2
  have := List.mem_range.1 mem.1
  have : id < c.1 := by simpa using And.left (by simpa using mem.2)
  omega

def depthFirst (m : ModuleDef) : List Nat := m.roots.flatMap m.subtree

theorem subtree_eq (m : ModuleDef) (id : Nat) : m.subtree id = id :: (m.inner id).flatMap m.subtree := by
  rw [subtree]
  congr 1
  rw [← List.flatMap_map, List.attach_map_subtype_val]

theorem inner_induction {m : ModuleDef} {P : Nat → Prop} (step : ∀ id, (∀ c ∈ m.inner id, P c) → P id)
    (id : Nat) : P id := by
  induction h : m.types.size - id using Nat.strongRecOn generalizing id with
  | ind n ih =>
    subst h
    refine step id fun c mem => ih _ ?_ c rfl
    obtain ⟨lt, test⟩ := List.mem_filter.1 mem
    have lt : c < m.types.size := List.mem_range.1 lt
    have above : id < c := of_decide_eq_true (Bool.and_eq_true_iff.1 test).1
    omega

theorem lt_of_within {m : ModuleDef} {c p : Nat} (within : m.Within c p) : c < m.types.size := by
  obtain ⟨t, row, -⟩ := Option.bind_eq_some_iff.1 within
  exact (Array.getElem?_eq_some_iff.1 row).1

theorem within_unique (m : ModuleDef) : Relator.RightUnique m.Within := fun _ _ _ first second =>
  Option.some.inj (first.symm.trans second)

def Grounded (m : ModuleDef) : Prop := ∀ c p, m.Within c p → p < c

section
variable {m : ModuleDef} (grounded : m.Grounded)
include grounded

theorem below_of_row {id p : Nat} {t : TypeDef} (row : m.types[id]? = some t) (around : t.enclosing = some p) :
    p < id := by
  refine grounded id p ?_
  rw [Within, enclosing?, row]
  exact around

theorem mem_inner {c id : Nat} : c ∈ m.inner id ↔ m.Within c id := by
  rw [inner, List.mem_filter, ids, List.mem_range, Bool.and_eq_true, decide_eq_true_eq, decide_eq_true_eq]
  exact ⟨fun h => h.2.2, fun within => ⟨lt_of_within within, grounded _ _ within, within⟩⟩

theorem lt_of_inside {c p : Nat} (inside : m.Inside c p) : p < c := by
  induction inside with
  | single within => exact grounded _ _ within
  | tail _ within ih => exact Nat.lt_trans (grounded _ _ within) ih

theorem mem_subtree {c id : Nat} : c ∈ m.subtree id ↔ Relation.ReflTransGen m.Within c id := by
  induction id using inner_induction (m := m) generalizing c with
  | step id ih =>
    rw [subtree_eq, List.mem_cons, List.mem_flatMap, Relation.ReflTransGen.cases_tail_iff, eq_comm]
    refine or_congr_right ⟨?_, ?_⟩
    · rintro ⟨d, mem, inside⟩
      exact ⟨d, (ih d mem).1 inside, (mem_inner grounded).1 mem⟩
    · rintro ⟨d, inside, within⟩
      have mem := (mem_inner grounded).2 within
      exact ⟨d, mem, (ih d mem).2 inside⟩

theorem mem_flatMap_subtree {c id : Nat} : c ∈ (m.inner id).flatMap m.subtree ↔ m.Inside c id := by
  rw [List.mem_flatMap, Inside, Relation.TransGen.tail'_iff]
  constructor
  · rintro ⟨d, mem, inside⟩
    exact ⟨d, (mem_subtree grounded).1 inside, (mem_inner grounded).1 mem⟩
  · rintro ⟨d, inside, within⟩
    exact ⟨d, (mem_inner grounded).2 within, (mem_subtree grounded).2 inside⟩

theorem comparable {x c d : Nat} (first : x ∈ m.subtree c) (second : x ∈ m.subtree d) :
    c = d ∨ m.Inside c d ∨ m.Inside d c := by
  rw [mem_subtree grounded] at first second
  rcases first.total_of_right_unique m.within_unique second with h | h
  · rcases Relation.reflTransGen_iff_eq_or_transGen.1 h with eq | inside
    · exact .inl eq.symm
    · exact .inr (.inl inside)
  · rcases Relation.reflTransGen_iff_eq_or_transGen.1 h with eq | inside
    · exact .inl eq
    · exact .inr (.inr inside)

theorem disjoint_subtree {c d : Nat} (ne : c ≠ d) (same : m.enclosing? c = m.enclosing? d) :
    List.Disjoint (m.subtree c) (m.subtree d) := by
  have apart {c d : Nat} (same : m.enclosing? c = m.enclosing? d) (inside : m.Inside c d) : False := by
    obtain ⟨p, within, rest⟩ := Relation.TransGen.head'_iff.1 inside
    have low : p < d := grounded _ _ (show m.enclosing? d = some p from same ▸ within)
    rcases Relation.reflTransGen_iff_eq_or_transGen.1 rest with eq | inside
    · omega
    · have := lt_of_inside grounded inside
      omega
  intro x first second
  rcases comparable grounded first second with eq | inside | inside
  · exact ne eq
  · exact apart same inside
  · exact apart same.symm inside

theorem nodup_subtree (id : Nat) : (m.subtree id).Nodup := by
  induction id using inner_induction (m := m) with
  | step id ih =>
    rw [subtree_eq, List.nodup_cons]
    refine ⟨fun mem => Nat.lt_irrefl _ (lt_of_inside grounded ((mem_flatMap_subtree grounded).1 mem)), ?_⟩
    refine List.nodup_flatMap.2 ⟨ih, ?_⟩
    have distinct : (m.inner id).Nodup := List.nodup_range.filter _
    refine distinct.imp_of_mem fun mem mem' ne => disjoint_subtree grounded ne ?_
    exact ((mem_inner grounded).1 mem).trans ((mem_inner grounded).1 mem').symm

theorem exists_root {id : Nat} (lt : id < m.types.size) :
    ∃ r, r < m.types.size ∧ m.enclosing? r = none ∧ Relation.ReflTransGen m.Within id r := by
  induction id using Nat.strongRecOn with
  | ind id ih =>
    cases around : m.enclosing? id with
    | none => exact ⟨id, lt, around, .refl⟩
    | some p =>
      have below := grounded _ _ around
      obtain ⟨r, lt', top, inside⟩ := ih p below (Nat.lt_trans below lt)
      exact ⟨r, lt', top, .head around inside⟩

omit grounded in
theorem mem_roots {r : Nat} : r ∈ m.roots ↔
    r < m.types.size ∧ m.enclosing? r = none := by
  rw [roots, List.mem_filter, ids, List.mem_range, Option.isNone_iff_eq_none]

theorem depthFirst_perm : m.depthFirst.Perm m.ids := by
  have once : m.depthFirst.Nodup := by
    refine List.nodup_flatMap.2 ⟨fun r _ => nodup_subtree grounded r, ?_⟩
    have distinct : (m.roots).Nodup := List.nodup_range.filter _
    refine distinct.imp_of_mem fun mem mem' ne => disjoint_subtree grounded ne ?_
    exact (mem_roots.1 mem).2.trans (mem_roots.1 mem').2.symm
  refine (List.perm_ext_iff_of_nodup once List.nodup_range).2 fun id => ?_
  rw [List.mem_range, depthFirst, List.mem_flatMap]
  constructor
  · rintro ⟨r, root, mem⟩
    rcases Relation.ReflTransGen.cases_head ((mem_subtree grounded).1 mem) with rfl | ⟨p, within, -⟩
    · exact (mem_roots.1 root).1
    · exact lt_of_within within
  · intro lt
    obtain ⟨r, lt', top, inside⟩ := exists_root grounded lt
    exact ⟨r, mem_roots.2 ⟨lt', top⟩, (mem_subtree grounded).2 inside⟩

/-- A type is visited together with all that is inside it. -/
theorem subtree_infix_depthFirst {id : Nat} (lt : id < m.types.size) : m.subtree id <:+: m.depthFirst := by
  obtain ⟨r, lt', top, inside⟩ := exists_root grounded lt
  have part {c p : Nat} (within : m.Within c p) : m.subtree c <:+: m.subtree p := by
    rw [subtree_eq m p]
    exact (List.infix_flatMap_of_mem ((mem_inner grounded).2 within) _).trans (List.suffix_cons _ _).isInfix
  have whole : m.subtree id <:+: m.subtree r := by
    clear lt' top
    induction inside with
    | refl => exact List.infix_rfl
    | tail _ within ih => exact ih.trans (part within)
  exact whole.trans (List.infix_flatMap_of_mem (mem_roots.2 ⟨lt', top⟩) _)

/-! ## Names -/

theorem path_of_lineage {id : Nat} {ns : String} {names : List String} (lineage : m.Lineage id ns names) :
    m.path id = (ns, names) := by
  induction lineage with
  | outermost row top => rw [path, row]; simp only [top]
  | @inner id t p ns names row around _ ih =>
    have below : p < id := below_of_row grounded row around
    rw [path, row]
    simp only [around, if_pos below, ih]

theorem length_lineage {id : Nat} {ns : String} {names : List String} (lineage : m.Lineage id ns names) :
    names.length ≤ id + 1 := by
  induction lineage with
  | outermost => exact Nat.le_add_left ..
  | @inner id t p ns names row around _ ih =>
    have below : p < id := below_of_row grounded row around
    rw [List.length_append, List.length_singleton]
    omega

theorem exists_lineage {id : Nat} (lt : id < m.types.size) : ∃ ns names, m.Lineage id ns names := by
  induction id using Nat.strongRecOn with
  | ind id ih =>
    have row : m.types[id]? = some m.types[id] := Array.getElem?_eq_getElem lt
    cases around : m.types[id].enclosing with
    | none => exact ⟨_, _, .outermost row around⟩
    | some p =>
      have below : p < id := below_of_row grounded row around
      obtain ⟨ns, names, lineage⟩ := ih p below (Nat.lt_trans below lt)
      exact ⟨ns, _, .inner row around lineage⟩

end

/-- A climb ends, and has then collected the whole lineage. -/
theorem climb?_eq {m : ModuleDef} {id : Nat} {ns : String} {names : List String}
    (lineage : m.Lineage id ns names) {room : Nat} (enough : names.length < room) (below : List String)
    (any : String) : m.climb? room m.types[id]? below any = some (ns, names ++ below) := by
  obtain ⟨room, rfl⟩ : ∃ k, room = k + 1 := ⟨room - 1, by omega⟩
  induction lineage generalizing room below any with
  | outermost row top =>
    obtain ⟨room, rfl⟩ : ∃ k, room = k + 1 := ⟨room - 1, by rw [List.length_singleton] at enough; omega⟩
    rw [row, climb?, top, Option.bind_none, climb?]
    rfl
  | inner row around _ ih =>
    rw [List.length_append, List.length_singleton] at enough
    obtain ⟨room, rfl⟩ : ∃ k, room = k + 1 := ⟨room - 1, by omega⟩
    rw [row, climb?, around, Option.bind_some, ih _ _ _ (by omega), List.append_assoc, List.singleton_append]

theorem climbedName?_eq {m : ModuleDef} (grounded : m.Grounded) {room : Nat} (enough : m.types.size < room)
    (id : Nat) : m.climbedName? room id = some (m.typeName id) := by
  by_cases lt : id < m.types.size
  · obtain ⟨ns, names, lineage⟩ := exists_lineage grounded lt
    have short := length_lineage grounded lineage
    rw [climbedName?, climb?_eq lineage (by omega), typeName, path_of_lineage grounded lineage, List.append_nil]
    rfl
  · obtain ⟨room, rfl⟩ : ∃ k, room = k + 1 := ⟨room - 1, by omega⟩
    have none : m.types[id]? = none := Array.getElem?_eq_none (Nat.le_of_not_lt lt)
    rw [climbedName?, none, climb?, typeName, path, none]
    rfl

/-! ## Links and lists -/

/-- The lists are the links the other way round. -/
structure Kept (m : ModuleDef) : Prop where
  grounded : m.Grounded
  lists : m.nestedIn = m.inner

variable {m m' : ModuleDef}

theorem addType_ok {t : TypeDef} {id : Nat} (ok : m.addType t = .ok (id, m')) :
    id = m.types.size ∧ (∀ e, t.enclosing = some e → e < id) ∧ m'.types.size = id + 1 ∧
      ∀ i, m'.types[i]? = if i = id then some { t with token := .type (id + 1) }
        else (m.types[i]?).map fun o => if t.enclosing = some i then { o with nested := o.nested ++ [id] } else o := by
  unfold addType at ok
  split at ok
  · rename_i top
    cases ok
    refine ⟨rfl, by simp [top], Array.size_push _, fun i => ?_⟩
    rw [Array.getElem?_push]
    simp [top]
  · rename_i e around
    simp only at ok
    split at ok
    · rename_i below
      cases ok
      refine ⟨rfl, fun e' eq => Option.some.inj (around.symm.trans eq) ▸ below, ?_, fun i => ?_⟩
      · rw [Array.size_push, modifyType, Array.size_modify]
      · rw [Array.getElem?_push, modifyType, Array.size_modify, Array.getElem?_modify]
        simp only [around, Option.some.injEq]
        split
        · rfl
        · split <;> simp
    · cases ok

theorem enclosing?_addType {t : TypeDef} {id : Nat} (ok : m.addType t = .ok (id, m')) (c : Nat) :
    m'.enclosing? c = if c = id then t.enclosing else m.enclosing? c := by
  obtain ⟨-, -, -, rows⟩ := addType_ok ok
  rw [enclosing?, rows, enclosing?]
  split
  · rfl
  · rw [Option.bind_map]
    refine congrArg _ (funext fun o => ?_)
    rw [Function.comp_apply]
    split <;> rfl

/-- A type that brings no list is a new leaf. -/
theorem nestedIn_addType {t : TypeDef} {id : Nat} (ok : m.addType t = .ok (id, m')) (bare : t.nested = []) (p : Nat) :
    m'.nestedIn p = m.nestedIn p ++ if t.enclosing = some p then [id] else [] := by
  obtain ⟨rfl, below, -, rows⟩ := addType_ok ok
  rw [nestedIn, rows, nestedIn]
  by_cases new : p = m.types.size
  · have apart : t.enclosing ≠ some p := fun eq => Nat.lt_irrefl _ (new ▸ below p eq)
    rw [if_pos new, if_neg apart, Array.getElem?_eq_none (Nat.le_of_eq new.symm)]
    exact bare
  · rw [if_neg new]
    by_cases here : t.enclosing = some p
    · have lt : p < m.types.size := below p here
      rw [Array.getElem?_eq_getElem lt, if_pos here]
      simp [here]
    · simp [here]

theorem inner_addType {t : TypeDef} {id : Nat} (ok : m.addType t = .ok (id, m')) (p : Nat) :
    m'.inner p = m.inner p ++ if t.enclosing = some p then [id] else [] := by
  obtain ⟨rfl, below, size, -⟩ := addType_ok ok
  have old : ∀ c ∈ List.range m.types.size, (p < c && m'.enclosing? c = some p : Bool) =
      (p < c && m.enclosing? c = some p : Bool) := by
    intro c mem
    rw [enclosing?_addType ok, if_neg (Nat.ne_of_lt (List.mem_range.1 mem))]
  rw [inner, ids, size, List.range_succ, List.filter_append, List.filter_congr old]
  congr 1
  rw [List.filter_singleton, enclosing?_addType ok, if_pos rfl]
  by_cases around : t.enclosing = some p
  · simp [around, below p around]
  · simp [around]

theorem rows_addMethod {row : Nat} {d : MethodDef} {id : MethodId} (ok : m.addMethod row d = .ok (id, m')) :
    m'.ids = m.ids ∧ m'.enclosing? = m.enclosing? ∧ m'.nestedIn = m.nestedIn := by
  unfold addMethod at ok
  split at ok
  · cases ok
  · cases ok
    refine ⟨congrArg List.range (Array.size_modify ..), funext fun c => ?_, funext fun c => ?_⟩
    · simp only [enclosing?, modifyType, Array.getElem?_modify]
      split
      · rw [Option.bind_map]; rfl
      · rfl
    · simp only [nestedIn, modifyType, Array.getElem?_modify]
      split
      · rw [Option.map_map]; rfl
      · rfl

theorem kept_add (kept : m.Kept) {call : Addition} (bare : ∀ t, call = .type t → t.nested = []) :
    (m.add call).Kept := by
  cases call with
  | type t =>
    unfold add
    dsimp only
    split
    · rename_i id m' ok
      refine ⟨fun c p within => ?_, funext fun p => ?_⟩
      · rw [Within, enclosing?_addType ok] at within
        split at within
        · rename_i new
          exact new ▸ (addType_ok ok).2.1 p within
        · exact kept.grounded c p within
      · rw [nestedIn_addType ok (bare t rfl), inner_addType ok, kept.lists]
    · exact kept
  | method row d =>
    unfold add
    dsimp only
    split
    · rename_i id m' ok
      obtain ⟨ids, links, lists⟩ := rows_addMethod ok
      refine ⟨fun c p within => kept.grounded c p ?_, funext fun p => ?_⟩
      · rw [Within, ← links]; exact within
      · rw [lists, kept.lists, inner, inner, ids, links]
    · exact kept

theorem kept_built (name : String) {calls : List Addition} (bare : ∀ t, .type t ∈ calls → t.nested = []) :
    (built name calls).Kept := by
  have run (calls : List Addition) : ∀ m : ModuleDef, m.Kept → (∀ t, .type t ∈ calls → t.nested = []) →
      (calls.foldl add m).Kept := by
    induction calls with
    | nil => exact fun m kept _ => kept
    | cons call rest ih =>
      refine fun m kept bare => ih _ (kept_add kept fun t eq => bare t ?_) fun t mem => bare t (.tail _ mem)
      exact eq ▸ List.mem_cons_self
  exact run calls _ ⟨fun _ _ within => (nomatch within), rfl⟩ bare

/-! ## The order of visits -/

theorem Kept.visit (kept : m.Kept) (id : Nat) : m.visit? id = some (m.subtree id) := by
  induction id using inner_induction (m := m) with
  | step id ih =>
    rw [← kept.lists] at ih
    rw [visit?_eq, visitBy, mapM_eq_some ih, subtree_eq, ← kept.lists]
    rfl

theorem Kept.order?_eq (kept : m.Kept) : m.order? = some m.depthFirst := by
  rw [order?, mapM_eq_some fun id _ => kept.visit id]
  rfl

theorem acc_built (name : String) {calls : List Addition} (bare : ∀ t, .type t ∈ calls → t.nested = []) :
    ∀ r ∈ (built name calls).roots, Acc (fun c p => c ∈ (built name calls).nestedIn p) r := by
  rw [← order?_isSome_iff, (kept_built name bare).order?_eq]
  rfl

/-- Whatever calls a module is built by, if no type has come with a list of its own: the types are visited
to an end, each once, and right behind it those inside it and no others. The climb to a type's full name ends
as well, and gives the namespace of the outermost type around it with the names from there inwards. -/
theorem order_built (name : String) (calls : List Addition) (bare : ∀ t, .type t ∈ calls → t.nested = []) :
    let m := built name calls
    (∃ order, m.order? = some order ∧ order.Perm m.ids ∧
      ∀ id ∈ m.ids, ∃ before below after, order = before ++ id :: below ++ after ∧
        ∀ c, c ∈ below ↔ m.Inside c id) ∧
    (∀ id ∈ m.ids, ∃ ns names, m.Lineage id ns names ∧
      m.typeName id = ⟨ns, String.intercalate "/" names⟩) ∧
    ∀ room, m.types.size < room → ∀ id, m.climbedName? room id = some (m.typeName id) := by
  have kept := kept_built name bare
  have grounded := kept.grounded
  refine ⟨⟨_, kept.order?_eq, depthFirst_perm grounded, fun id mem => ?_⟩, fun id mem => ?_,
    fun room => climbedName?_eq grounded⟩
  · obtain ⟨before, after, eq⟩ := subtree_infix_depthFirst grounded (List.mem_range.1 mem)
    rw [subtree_eq] at eq
    exact ⟨before, _, after, eq.symm, fun c => mem_flatMap_subtree grounded⟩
  · obtain ⟨ns, names, lineage⟩ := exists_lineage grounded (List.mem_range.1 mem)
    refine ⟨ns, names, lineage, ?_⟩
    rw [typeName, path_of_lineage grounded lineage]

/-- Two types inside a type, one of them around a third, and a type that is refused. -/
def tenement : List Addition := [
  .type { name := "House", ns := "Town", flags := 0 },
  .type { name := "Floor", flags := 0, enclosing := some 0 },
  .type { name := "Annex", flags := 0, enclosing := some 7 },
  .type { name := "Yard", flags := 0, enclosing := some 0 },
  .type { name := "Room", flags := 0, enclosing := some 1 }]

theorem order_built_tenement : (∀ t, .type t ∈ tenement → t.nested = []) ∧
    ∃ order, (built "Town" tenement).order? = some order ∧ order.Perm [0, 1, 2, 3] ∧
      ∃ before below after, order = before ++ 1 :: below ++ after ∧
        ∀ c, c ∈ below ↔ (built "Town" tenement).Inside c 1 := by
  have bare : ∀ t, .type t ∈ tenement → t.nested = [] := by
    simp [tenement]
  obtain ⟨⟨order, ended, once, behind⟩, -⟩ := order_built "Town" tenement bare
  exact ⟨bare, order, ended, once, behind 1 (by decide)⟩

end ModuleDef

end CilForge
