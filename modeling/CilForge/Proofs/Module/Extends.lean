import CilForge.Session
import CilForge.Proofs.Module.Visits
import Mathlib.Data.List.Basic

/-!
# Modules that grow

`Extends` is all that work on a module may do to it: methods of the module stand in a given relation
to what they were, all else that was there is there, and what is new is the type that holds
generated methods, at the end of the table, and methods at the end of that type.
-/

namespace CilForge

def TypeDef.Keeps (t t' : TypeDef) : Prop := t' = { t with methods := t'.methods }

theorem TypeDef.Keeps.trans {t t' t'' : TypeDef} (first : t.Keeps t') (second : t'.Keeps t'') :
    t.Keeps t'' := by
  unfold Keeps at first second ⊢
  rw [second, first]

theorem TypeDef.Keeps.named {t t' : TypeDef} (keeps : t.Keeps t') :
    t'.ns = t.ns ∧ t'.name = t.name ∧ t'.enclosing = t.enclosing := by
  unfold Keeps at keeps
  rw [keeps]
  exact ⟨rfl, rfl, rfl⟩

namespace ModuleDef

def holderAt (holder : TypeName) (row : Nat) (methods : Array MethodDef) : TypeDef :=
  { Generated.holderDef holder with token := .type (row + 1), methods }

def withHolder (m : ModuleDef) (holder : TypeName) : ModuleDef :=
  { m with types := m.types.push (holderAt holder m.types.size #[]) }

/-- `m'` is `m` with its methods changed as `R` says, and with methods added to the holder, which
may be new. -/
structure Extends (holder : TypeName) (R : MethodId → MethodDef → MethodDef → Prop)
    (m m' : ModuleDef) : Prop where
  name : m'.name = m.name
  /-- Of a type there is at most more methods, and that only if it is the holder. -/
  types : ∀ i t, m.types[i]? = some t → ∃ t', m'.types[i]? = some t' ∧ t.Keeps t' ∧
    (∀ j d, t.methods[j]? = some d → ∃ d', t'.methods[j]? = some d' ∧ R ⟨i, j⟩ d d') ∧
    (t'.methods.size = t.methods.size ∨ m.find? holder = some i)
  /-- There is at most one more type, and that is the holder. -/
  added : m'.types.size = m.types.size ∨
    m'.types.size = m.types.size + 1 ∧ m.find? holder = none ∧
      ∃ methods, m'.types[m.types.size]? = some (holderAt holder m.types.size methods)

variable {m m' m'' : ModuleDef} {holder : TypeName} {R S T : MethodId → MethodDef → MethodDef → Prop}

/-! ## Names -/

theorem lt_size {i : Nat} {t : TypeDef} (row : m.types[i]? = some t) : i < m.types.size :=
  (Array.getElem?_eq_some_iff.1 row).1

theorem path_congr (same : ∀ (i : Nat) t, m.types[i]? = some t → ∃ t', m'.types[i]? = some t' ∧
    t'.ns = t.ns ∧ t'.name = t.name ∧ t'.enclosing = t.enclosing) (i : Nat)
    (lt : i < m.types.size) : m'.path i = m.path i := by
  induction i using Nat.strongRecOn with
  | ind i ih =>
    have row : m.types[i]? = some m.types[i] := Array.getElem?_eq_getElem lt
    obtain ⟨t', row', ns, name, enclosing⟩ := same i _ row
    rw [path, path, row, row']
    simp only [ns, name, enclosing]
    split
    · rfl
    · rename_i e _
      split
      · rename_i below
        rw [ih e below (Nat.lt_trans below lt)]
      · rfl

theorem typeName_congr (same : ∀ (i : Nat) t, m.types[i]? = some t → ∃ t', m'.types[i]? = some t' ∧
    t'.ns = t.ns ∧ t'.name = t.name ∧ t'.enclosing = t.enclosing) {i : Nat}
    (lt : i < m.types.size) : m'.typeName i = m.typeName i := by
  rw [typeName, typeName, path_congr same i lt]

theorem find?_eq_some {name : TypeName} {i : Nat} : m.find? name = some i ↔
    m.typeName i = name ∧ i < m.types.size ∧ ∀ j, j < i → m.typeName j ≠ name := by
  rw [find?, ids, List.find?_range_eq_some]
  simp

theorem find?_eq_none {name : TypeName} : m.find? name = none ↔
    ∀ i, i < m.types.size → m.typeName i ≠ name := by
  rw [find?, ids, List.find?_range_eq_none]
  simp

namespace Extends

variable (ext : Extends holder R m m')
include ext

theorem row {i : Nat} {t : TypeDef} (row : m.types[i]? = some t) : ∃ t', m'.types[i]? = some t' ∧
    t'.ns = t.ns ∧ t'.name = t.name ∧ t'.enclosing = t.enclosing := by
  obtain ⟨t', row', keeps, -⟩ := ext.types i t row
  exact ⟨t', row', keeps.named⟩

theorem size_le : m.types.size ≤ m'.types.size := by
  rcases ext.added with same | ⟨more, -⟩ <;> omega

theorem typeName {i : Nat} (lt : i < m.types.size) : m'.typeName i = m.typeName i :=
  typeName_congr (fun _ _ => ext.row) lt

theorem find?_of_lt {name : TypeName} {i : Nat} (lt : i < m.types.size) :
    m'.find? name = some i ↔ m.find? name = some i := by
  have le := ext.size_le
  rw [find?_eq_some, find?_eq_some, ext.typeName lt]
  constructor
  · rintro ⟨here, -, before⟩
    exact ⟨here, lt, fun j below => ext.typeName (Nat.lt_trans below lt) ▸ before j below⟩
  · rintro ⟨here, -, before⟩
    refine ⟨here, by omega, fun j below => ?_⟩
    rw [ext.typeName (Nat.lt_trans below lt)]
    exact before j below

theorem find?_some {name : TypeName} {i : Nat} (found : m.find? name = some i) :
    m'.find? name = some i :=
  (ext.find?_of_lt (find?_eq_some.1 found).2.1).2 found

theorem find?_new (new : m.find? holder = none) (more : m'.types.size = m.types.size + 1)
    {methods : Array MethodDef}
    (last : m'.types[m.types.size]? = some (holderAt holder m.types.size methods)) :
    m'.find? holder = some m.types.size := by
  refine find?_eq_some.2 ⟨?_, by omega, fun j below => ?_⟩
  · rw [ModuleDef.typeName, path, last]
    rfl
  · rw [ext.typeName below]
    exact find?_eq_none.1 new j below

theorem method? {id : MethodId} {d : MethodDef} (found : m.method? id = some d) :
    ∃ d', m'.method? id = some d' ∧ R id d d' := by
  obtain ⟨t, row, here⟩ := Option.bind_eq_some_iff.1 found
  obtain ⟨t', row', -, methods, -⟩ := ext.types id.type t row
  obtain ⟨d', here', related⟩ := methods id.index d here
  refine ⟨d', ?_, related⟩
  change (m'.types[id.type]?).bind _ = _
  rw [row']
  exact here'

theorem origin : Extends holder (fun i d d' => m.method? i = some d ∧ R i d d') m m' := by
  refine ⟨ext.name, fun i t row => ?_, ext.added⟩
  obtain ⟨t', row', keeps, methods, size⟩ := ext.types i t row
  refine ⟨t', row', keeps, fun j d here => ?_, size⟩
  obtain ⟨d', here', related⟩ := methods j d here
  refine ⟨d', here', ?_, related⟩
  change (m.types[i]?).bind _ = _
  rw [row]
  exact here

theorem comp (ext' : Extends holder S m' m'')
    (both : ∀ i d d' d'', R i d d' → S i d' d'' → T i d d'') : Extends holder T m m'' := by
  refine ⟨ext'.name.trans ext.name, fun i t row => ?_, ?_⟩
  · obtain ⟨t', row', keeps, methods, size⟩ := ext.types i t row
    obtain ⟨t'', row'', keeps', methods', size'⟩ := ext'.types i t' row'
    refine ⟨t'', row'', ?_, fun j d here => ?_, ?_⟩
    · exact keeps.trans keeps'
    · obtain ⟨d', here', r⟩ := methods j d here
      obtain ⟨d'', here'', s⟩ := methods' j d' here'
      exact ⟨d'', here'', both _ d d' d'' r s⟩
    · rcases size with size | found
      · rcases size' with size' | found'
        · exact .inl (size'.trans size)
        · exact .inr ((ext.find?_of_lt (lt_size row)).1 found')
      · exact .inr found
  · rcases ext.added with same | ⟨more, new, methods, last⟩
    · rcases ext'.added with same' | ⟨more', new', methods', last'⟩
      · exact .inl (same'.trans same)
      · refine .inr ⟨by omega, ?_, methods', same ▸ last'⟩
        rw [find?_eq_none] at new' ⊢
        intro i lt
        rw [← ext.typeName lt]
        exact new' i (by omega)
    · rcases ext'.added with same' | ⟨-, new', -⟩
      · obtain ⟨t'', row'', keeps, -⟩ := ext'.types _ _ last
        refine .inr ⟨by omega, new, t''.methods, row''.trans (congrArg some ?_)⟩
        exact keeps
      · -- the holder cannot be new twice
        rw [ext.find?_new new more last] at new'
        cases new'

end Extends

/-! ## What extends a module -/

theorem Extends.refl (refl : ∀ i d, R i d d) (m : ModuleDef) : Extends holder R m m :=
  ⟨rfl, fun _ t row => ⟨t, row, rfl, fun _ d here => ⟨d, here, refl _ d⟩, .inl rfl⟩, .inl rfl⟩

theorem Extends.same (m : ModuleDef) : Extends holder (fun _ d d' => d' = d) m m :=
  .refl (R := fun _ d d' => d' = d) (fun _ _ => rfl) m

/-- What a new body for one method does to the methods. -/
def PutsBody (id : MethodId) (body : Option Body) (i : MethodId) (d d' : MethodDef) : Prop :=
  d' = if i = id then { d with body } else d

theorem extends_setBody (id : MethodId) (body : Option Body) :
    Extends holder (PutsBody id body) m (m.setBody id body) := by
  refine ⟨rfl, fun i t row => ?_, .inl Array.size_modify⟩
  unfold setBody modifyType
  by_cases here : id.type = i
  · refine ⟨{ t with methods := t.methods.modify id.index fun d => { d with body } },
      by rw [Array.getElem?_modify, if_pos here, row]; rfl, rfl, fun j d found => ?_, .inl ?_⟩
    · simp only [Array.getElem?_modify]
      by_cases there : id.index = j
      · refine ⟨{ d with body }, by rw [if_pos there, found]; rfl, ?_⟩
        subst here there
        rw [PutsBody, if_pos rfl]
      · refine ⟨d, by rw [if_neg there, found], ?_⟩
        rw [PutsBody, if_neg]
        rintro rfl
        exact there rfl
    · exact Array.size_modify
  · refine ⟨t, by rw [Array.getElem?_modify, if_neg here, row], rfl, fun j d found => ⟨d, found, ?_⟩,
      .inl rfl⟩
    rw [PutsBody, if_neg]
    rintro rfl
    exact here rfl

theorem row_withHolder : (m.withHolder holder).types[m.types.size]? =
    some (holderAt holder m.types.size #[]) := by
  rw [withHolder, Array.getElem?_push, if_pos rfl]

theorem extends_withHolder (new : m.find? holder = none) :
    Extends holder (fun _ d d' => d' = d) m (m.withHolder holder) := by
  refine ⟨rfl, fun i t row => ⟨t, ?_, rfl, fun _ d here => ⟨d, here, rfl⟩, .inl rfl⟩,
    .inr ⟨Array.size_push _, new, #[], row_withHolder⟩⟩
  rw [withHolder, Array.getElem?_push, if_neg (Nat.ne_of_lt (lt_size row)), row]

theorem find?_withHolder (new : m.find? holder = none) :
    (m.withHolder holder).find? holder = some m.types.size :=
  (extends_withHolder new).find?_new new (Array.size_push _) row_withHolder

theorem extends_addMethod {row : Nat} (found : m.find? holder = some row) (d : MethodDef)
    {id : MethodId} (done : m.addMethod row d = .ok (id, m')) :
    Extends holder (fun _ d d' => d' = d) m m' := by
  unfold addMethod at done
  split at done
  · cases done
  · cases done
    refine ⟨rfl, fun i t here => ?_, .inl Array.size_modify⟩
    simp only [modifyType, Array.getElem?_modify]
    by_cases same : row = i
    · subst same
      refine ⟨{ t with methods := t.methods.push { d with token := .method (m.methodRows + 1) } },
        by rw [if_pos rfl, here]; rfl, rfl, fun j d found => ⟨d, ?_, rfl⟩, .inr found⟩
      have lt : j < t.methods.size := (Array.getElem?_eq_some_iff.1 found).1
      rw [Array.getElem?_push, if_neg (Nat.ne_of_lt lt), found]
    · exact ⟨t, by rw [if_neg same, here], rfl, fun j d found => ⟨d, found, rfl⟩, .inl rfl⟩

theorem method?_setBody {id : MethodId} {d : MethodDef} (found : m.method? id = some d)
    (body : Option Body) : (m.setBody id body).method? id = some { d with body } := by
  obtain ⟨d', found', puts⟩ := Extends.method? (extends_setBody id body : Extends ⟨"", ""⟩ _ m _) found
  rw [PutsBody, if_pos rfl] at puts
  rw [found', puts]

theorem setBody_setBody {id : MethodId} {d : MethodDef} (found : m.method? id = some d) :
    (m.setBody id none).setBody id d.body = m := by
  obtain ⟨name, types, rows⟩ := m
  obtain ⟨t, row, here⟩ := Option.bind_eq_some_iff.1 found
  simp only [setBody, modifyType, ModuleDef.mk.injEq, true_and, and_true]
  refine Array.ext_getElem? fun i => ?_
  simp only [Array.getElem?_modify]
  split
  · rename_i same
    subst same
    change types[id.type]? = some t at row
    rw [row]
    simp only [Option.map_some, Option.some.injEq]
    have methods : (t.methods.modify id.index fun e => { e with body := none }).modify id.index
        (fun e => { e with body := d.body }) = t.methods := by
      refine Array.ext_getElem? fun j => ?_
      simp only [Array.getElem?_modify]
      split
      · rename_i same
        subst same
        change t.methods[id.index]? = some d at here
        rw [here]
        rfl
      · rfl
    rw [methods]
  · rfl

/-! ## The order of visits -/

section
variable (ext : Extends holder R m m')
include ext

theorem Extends.enclosing?_of_lt {i : Nat} (lt : i < m.types.size) : m'.enclosing? i = m.enclosing? i := by
  have row := Array.getElem?_eq_getElem lt
  obtain ⟨t', row', -, -, enclosing⟩ := ext.row row
  rw [enclosing?, enclosing?, row, row', Option.bind_some, Option.bind_some, enclosing]

/-- The types of the module, and the holder if it is new. -/
theorem Extends.roots : ∃ new, m'.roots = m.roots ++ new ∧
    ∀ i ∈ new, m'.nestedIn i = [] ∧ m'.typeName i = holder := by
  have old : m.ids.filter (fun id => (m'.enclosing? id).isNone) = m.roots :=
    List.filter_congr fun i mem => by rw [ext.enclosing?_of_lt (List.mem_range.1 mem)]
  rcases ext.added with same | ⟨more, free, methods, last⟩
  · refine ⟨[], ?_, nofun⟩
    rw [List.append_nil, ← old, ModuleDef.roots, ModuleDef.ids, ModuleDef.ids, same]
  · refine ⟨[m.types.size], ?_, fun i mem => ?_⟩
    · have top : m'.enclosing? m.types.size = none := by
        rw [enclosing?, last]
        rfl
      rw [ModuleDef.roots, ModuleDef.ids, more, List.range_succ, List.filter_append, ← old, ModuleDef.ids,
        List.filter_singleton, top]
      rfl
    · rw [List.mem_singleton.1 mem]
      refine ⟨?_, (find?_eq_some.1 (ext.find?_new free more last)).1⟩
      rw [nestedIn, last]
      rfl

theorem Extends.nestedIn : m'.nestedIn = m.nestedIn := by
  funext i
  unfold ModuleDef.nestedIn
  cases row : m.types[i]? with
  | some t =>
    obtain ⟨t', row', keeps, -⟩ := ext.types i t row
    rw [row', keeps]
    rfl
  | none =>
    have le : m.types.size ≤ i := Array.getElem?_eq_none_iff.1 row
    rcases ext.added with same | ⟨more, -, methods, last⟩
    · rw [Array.getElem?_eq_none (by omega)]
    · by_cases new : i = m.types.size
      · rw [new, last]
        rfl
      · rw [Array.getElem?_eq_none (by omega)]

/-- Old types are visited as before, and the holder after them. -/
theorem Extends.order? : ∃ new, m'.order? = m.order?.map (· ++ new) ∧ ∀ i ∈ new, m'.typeName i = holder := by
  obtain ⟨new, roots, fresh⟩ := ext.roots
  refine ⟨new, ?_, fun i mem => (fresh i mem).2⟩
  have more : m.types.size ≤ m'.types.size := by
    rcases ext.added with same | ⟨more, -⟩ <;> omega
  rw [ModuleDef.order?, ModuleDef.order?, roots, List.mapM_append,
    mapM_eq_some fun i mem => visit?_leaf (fresh i mem).1, visit?_congr ext.nestedIn more]
  cases m.roots.mapM m.visit? with
  | none => rfl
  | some parts => simp [← List.flatMap_def]

theorem Extends.order : ∃ new, m'.order = m.order ++ new ∧ ∀ i ∈ new, m'.typeName i = holder := by
  obtain ⟨new, order, fresh⟩ := ext.order?
  unfold ModuleDef.order
  rw [order]
  cases m.order? with
  | none => exact ⟨[], rfl, nofun⟩
  | some types => exact ⟨new, rfl, fresh⟩

end

end ModuleDef

end CilForge
