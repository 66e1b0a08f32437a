import CilForge.Proofs.CallSite.Shape
import CilForge.Proofs.Generate.Names
import CilForge.Proofs.Pipeline.Frame

/-!
# Generated methods that are there

A module provides an operation if its holder has a method that a request for the operation leads to.
Whatever has been asked for is provided from then on, in this session and in any other, and a request
for what is provided leaves the module as it is.
-/

namespace CilForge

open Generated

def MethodDef.Named (_ : MethodId) (d d' : MethodDef) : Prop := d'.name = d.name ∧ d'.sig = d.sig

namespace ModuleDef

variable {m m' : ModuleDef} {holder : TypeName} {R : MethodId → MethodDef → MethodDef → Prop}

def Provides (holder : TypeName) (m : ModuleDef) (op : Operation) (enum : TypeName) : Prop :=
  ∃ row t name index, m.find? holder = some row ∧ m.types[row]? = some t ∧
    chooseName t.methods (op.sig (.valueType enum)) (baseName op enum) = (name, some index)

theorem Extends.grown (ext : Extends holder MethodDef.Named m m') {i : Nat} {t : TypeDef}
    (row : m.types[i]? = some t) : ∃ t', m'.types[i]? = some t' ∧ Grown t.methods t'.methods := by
  obtain ⟨t', row', -, methods, -⟩ := ext.types i t row
  refine ⟨t', row', ?_, methods⟩
  refine Nat.le_of_not_lt fun lt => ?_
  obtain ⟨d', there, -⟩ := methods t'.methods.size _ (Array.getElem?_eq_getElem lt)
  exact Nat.lt_irrefl _ (Array.getElem?_eq_some_iff.1 there).1

theorem Extends.provides (ext : Extends holder MethodDef.Named m m') {op : Operation} {enum : TypeName}
    (provides : m.Provides holder op enum) : m'.Provides holder op enum := by
  obtain ⟨row, t, name, index, found, here, chosen⟩ := provides
  obtain ⟨t', here', grown⟩ := ext.grown here
  exact ⟨row, t', name, index, ext.find?_some found, here', grown.chooseName_eq chosen⟩

theorem Extends.named (ext : Extends holder R m m') (named : ∀ i d d', R i d d' → MethodDef.Named i d d') :
    Extends holder MethodDef.Named m m' :=
  ext.comp (.refl (R := MethodDef.Named) (fun _ _ => ⟨rfl, rfl⟩) m') fun i d d' _ first second =>
    ⟨second.1.trans (named i d d' first).1, second.2.trans (named i d d' first).2⟩

theorem row_addMethod {row : Nat} {t : TypeDef} {e : MethodDef} {id : MethodId}
    (here : m.types[row]? = some t) (added : m.addMethod row e = .ok (id, m')) :
    id = ⟨row, t.methods.size⟩ ∧ m'.types[row]? = some { t with
      methods := t.methods.push { e with token := .method (m.methodRows + 1) } } := by
  simp only [addMethod, here, Except.ok.injEq, Prod.mk.injEq] at added
  obtain ⟨rfl, rfl⟩ := added
  refine ⟨rfl, ?_⟩
  simp only [modifyType]
  rw [Array.getElem?_modify, if_pos rfl, here]
  rfl

end ModuleDef

/-! ## What is known of enums -/

/-- No enum of the platform has the name of the holder, unless the module has a type of that name. -/
def ModuleDef.Reserves (m : ModuleDef) (ctx : Context) : Prop :=
  (m.find? ctx.settings.holder).isSome = true ∨
    CallSite.known ctx m (.valueType ctx.settings.holder) = none

section
variable {ctx : Context} {m m' : ModuleDef} {R : MethodId → MethodDef → MethodDef → Prop}
  (ext : m.Extends ctx.settings.holder R m') {name : TypeName}
include ext

theorem ModuleDef.Extends.find?_fresh {id : Nat} (none : m.find? name = none)
    (some : m'.find? name = some id) : name = ctx.settings.holder ∧
      ∃ methods, m'.types[id]? = Option.some (holderAt name id methods) := by
  obtain ⟨named, lt, -⟩ := find?_eq_some.1 some
  have new : ¬ id < m.types.size := fun old => by
    rw [(ext.find?_of_lt old).1 some] at none
    cases none
  rcases ext.added with same | ⟨more, free, methods, last⟩
  · omega
  · obtain rfl : id = m.types.size := by omega
    have found := ext.find?_new free more last
    have named' := (find?_eq_some.1 found).1
    obtain rfl : ctx.settings.holder = name := named'.symm.trans named
    exact ⟨rfl, methods, last⟩

theorem known_of_find {id : Nat} (found : m.find? name = some id) :
    CallSite.known ctx m' (.valueType name) = CallSite.known ctx m (.valueType name) := by
  obtain ⟨-, lt, -⟩ := ModuleDef.find?_eq_some.1 found
  have row := Array.getElem?_eq_getElem lt
  obtain ⟨t', row', keeps, -⟩ := ext.types id _ row
  unfold CallSite.known EnumInfo.ofSig Library.resolve
  dsimp only
  rw [ext.find?_some found, found]
  simp only [Option.bind_some, row, row', Option.map_some]
  have same : EnumInfo.ofType name t' = EnumInfo.ofType name m.types[id] := by
    rw [keeps]
    rfl
  exact congrArg Except.toOption same

omit ext in
theorem known_of_none (free : m.find? name = none) (free' : m'.find? name = none) :
    CallSite.known ctx m' (.valueType name) = CallSite.known ctx m (.valueType name) := by
  unfold CallSite.known EnumInfo.ofSig Library.resolve
  dsimp only
  rw [free, free']
  rfl

theorem ModuleDef.Reserves.extends (reserves : m.Reserves ctx) : m'.Reserves ctx := by
  cases found' : m'.find? ctx.settings.holder with
  | some id => exact .inl (by rw [found']; rfl)
  | none =>
    cases found : m.find? ctx.settings.holder with
    | some id =>
      rw [ext.find?_some found] at found'
      cases found'
    | none =>
      refine .inr ((known_of_none found found').trans (reserves.resolve_left ?_))
      rw [found]
      nofun

theorem known_extends (reserves : m.Reserves ctx) : CallSite.known ctx m' = CallSite.known ctx m := by
  funext e
  cases e with
  | valueType name =>
    cases found : m.find? name with
    | some id => exact known_of_find ext found
    | none =>
      cases found' : m'.find? name with
      | none => exact known_of_none found found'
      | some id =>
        -- the holder is no enum
        obtain ⟨rfl, methods, row⟩ := ext.find?_fresh found found'
        rw [reserves.resolve_left (by rw [found]; nofun)]
        unfold CallSite.known EnumInfo.ofSig Library.resolve
        dsimp only
        rw [found']
        simp only [Option.bind_some, row, Option.map_some]
        rfl
  | _ => rfl

end

/-! ## Requests -/

namespace Session

structure Tended (ctx : Context) (s : Session) : Prop where
  knows : s.KnowsHolder ctx
  reserves : s.module.Reserves ctx
  /-- The methods that are known to be generated. -/
  cached : ∀ op enum ref, s.generated.helpers.lookup (op, enum) = some ref →
    Platform.isKnown ref = false ∧ ref.sig = op.sig (.valueType enum) ∧
      s.module.Provides ctx.settings.holder op enum

variable {ctx : Context} {s : Session}

theorem tended_fresh {m : ModuleDef} (reserves : m.Reserves ctx) : Tended ctx { module := m } where
  knows _ known := by cases known
  reserves := reserves
  cached _ _ _ noted := by cases noted

theorem Tended.move {s' : Session} {R : MethodId → MethodDef → MethodDef → Prop} (tended : s.Tended ctx)
    (ext : s.module.Extends ctx.settings.holder R s'.module)
    (named : ∀ i d d', R i d d' → MethodDef.Named i d d') (same : s'.generated.helpers = s.generated.helpers)
    (knows : s'.KnowsHolder ctx) : s'.Tended ctx := by
  refine ⟨knows, tended.reserves.extends ext, fun op enum ref found => ?_⟩
  rw [same] at found
  obtain ⟨unknown, sig, provides⟩ := tended.cached op enum ref found
  exact ⟨unknown, sig, (ext.named named).provides provides⟩

end Session

theorem underscore_mem_chooseName {methods : Array MethodDef} {sig : MethodSig} {op : Operation} {enum : TypeName}
    {name : String} {index : Option Nat} (chosen : chooseName methods sig (baseName op enum) = (name, index)) :
    '_' ∈ name.toList := by
  obtain ⟨n, -, settled, -⟩ := chooseName_spec methods sig (baseName op enum)
  rw [chosen] at settled
  obtain ⟨rfl, -⟩ := settle_eq_some settled
  exact underscore_mem_candidate (underscore_mem_baseName op enum) n

theorem keep_of_ref {op : Operation} {d : EnumInfo} {name : String} {id : MethodId} {s : Session}
    {ref : MethodRef} (there : s.module.methodRef? id = some ref) : Generated.keep op d name id s =
      (.ok ref, { s with generated :=
        { s.generated with helpers := ((op, d.name), ref) :: s.generated.helpers } }) := by
  unfold Generated.keep
  simp only [run_bind, Work.get, there]
  rfl

theorem holderRow_found {ctx : Context} {s : Session} (knows : s.KnowsHolder ctx) : ∃ row s₁ t,
    holderRow ctx.settings.holder s = (.ok row, s₁) ∧
      s₁.generated = { s.generated with holder := some row } ∧
      s₁.module.find? ctx.settings.holder = some row ∧ s₁.module.types[row]? = some t ∧
      s.module.Extends ctx.settings.holder (fun _ d d' => d' = d) s₁.module ∧
      (∀ id, s.module.find? ctx.settings.holder = some id → s₁.module = s.module) ∧
      (s.module.find? ctx.settings.holder = none → t.methods = #[]) := by
  obtain ⟨row, s₁, looked, generated, how⟩ := holderRow_cases ctx.settings.holder s
  have old (there : s.module.find? ctx.settings.holder = some row) (same : s₁.module = s.module) : ∃ t,
      s₁.module.find? ctx.settings.holder = some row ∧ s₁.module.types[row]? = some t ∧
      s.module.Extends ctx.settings.holder (fun _ d d' => d' = d) s₁.module ∧
      (∀ id, s.module.find? ctx.settings.holder = some id → s₁.module = s.module) ∧
      (s.module.find? ctx.settings.holder = none → t.methods = #[]) := by
    rw [same]
    refine ⟨_, there, Array.getElem?_eq_getElem (ModuleDef.find?_eq_some.1 there).2.1, .same _, fun _ _ => rfl, ?_⟩
    intro none
    cases there.symm.trans none
  refine ⟨row, s₁, ?_⟩
  rcases how with ⟨same, known⟩ | ⟨same, -, found⟩ | ⟨new, -, none, rfl⟩
  · obtain ⟨t, found⟩ := old (knows row known) same
    exact ⟨t, looked, generated, found⟩
  · obtain ⟨t, found⟩ := old found same
    exact ⟨t, looked, generated, found⟩
  · refine ⟨ModuleDef.holderAt ctx.settings.holder s.module.types.size #[], looked, generated, ?_, ?_, ?_,
      fun id some => ?_, fun _ => rfl⟩
    · rw [new, ModuleDef.find?_withHolder none]
    · rw [new, ModuleDef.row_withHolder]
    · rw [new]
      exact ModuleDef.extends_withHolder none
    · rw [none] at some
      cases some

/-- How a request for what has not been asked for is answered: `m` is the module with the holder, and
`id` the method of it, which may be new. -/
structure Answered (ctx : Context) (op : Operation) (d : EnumInfo) (s s' : Session) (m : ModuleDef)
    (t : TypeDef) (name : String) (id : MethodId) : Prop where
  extends' : s.module.Extends ctx.settings.holder (fun _ d d' => d' = d) m
  old : ∀ row, s.module.find? ctx.settings.holder = some row → m = s.module
  bare : s.module.find? ctx.settings.holder = none → t.methods = #[]
  found : m.find? ctx.settings.holder = some id.type
  row : m.types[id.type]? = some t
  holder : s'.generated.holder = some id.type
  helpers : s'.generated.helpers =
    ((op, d.name), ⟨ctx.settings.holder, name, op.sig d.sig⟩) :: s.generated.helpers
  method : chooseName t.methods (op.sig d.sig) (baseName op d.name) = (name, some id.index) ∧
      s'.module = m ∧ s'.generated.created = s.generated.created ∨
    chooseName t.methods (op.sig d.sig) (baseName op d.name) = (name, none) ∧
      s'.generated.created = s.generated.created.push id ∧
      ∃ e, e.name = name ∧ (e.sig = op.sig d.sig ∧ e.body = some (op.script d ctx.settings.density).body) ∧
        m.addMethod id.type e = .ok (id, s'.module)

/-- A request is answered by what is known already, or by a method of the holder. -/
theorem helper_cases {ctx : Context} {s : Session} (knows : s.KnowsHolder ctx) (op : Operation)
    (d : EnumInfo) :
    (∃ ref, s.generated.helpers.lookup (op, d.name) = some ref ∧ helper ctx op d s = (.ok ref, s)) ∨
    s.generated.helpers.lookup (op, d.name) = none ∧ ∃ s' m t name id,
      helper ctx op d s = (.ok ⟨ctx.settings.holder, name, op.sig d.sig⟩, s') ∧
      Answered ctx op d s s' m t name id := by
  unfold helper
  simp only [run_bind, Work.get]
  cases s.generated.helpers.lookup (op, d.name) with
  | some ref => exact .inl ⟨ref, rfl, rfl⟩
  | none =>
    refine .inr ⟨rfl, ?_⟩
    dsimp only
    rw [run_bind]
    obtain ⟨row, s₁, t, looked, generated, found, here, ext, old, bare⟩ := holderRow_found knows
    rw [looked]
    dsimp only
    have named := (ModuleDef.find?_eq_some.1 found).1
    unfold fetch
    simp only [run_bind, Work.get, here, Option.map_some, Option.getD_some]
    generalize chosen : chooseName t.methods (op.sig d.sig) (baseName op d.name) = choice
    obtain ⟨name, _ | index⟩ := choice
    · -- a new method
      dsimp only
      rw [run_bind]
      rcases create_cases ctx row name op d s₁ with
        ⟨e, -, gone⟩ | ⟨method, id, s₂, done, called, typed, added, generated₂⟩
      · rw [here] at gone
        cases gone
      rw [done]
      dsimp only
      have ext₂ := ModuleDef.extends_addMethod found method added
      obtain ⟨rfl, row₂⟩ := ModuleDef.row_addMethod here added
      have there : s₂.module.methodRef? ⟨row, t.methods.size⟩ =
          some ⟨ctx.settings.holder, name, op.sig d.sig⟩ := by
        have named₂ := (ModuleDef.find?_eq_some.1 (ext₂.find?_some found)).1
        simp [ModuleDef.methodRef?, ModuleDef.method?, row₂, called, typed.1, named₂]
      rw [keep_of_ref there]
      refine ⟨_, s₁.module, t, name, ⟨row, t.methods.size⟩, rfl, ext, old, bare, found, here, ?_, ?_,
        .inr ⟨chosen, ?_, method, called, typed, added⟩⟩
      all_goals simp [generated₂, generated]
    · -- a method that is there
      obtain ⟨n, -, settled, -⟩ := chooseName_spec t.methods (op.sig d.sig) (baseName op d.name)
      rw [chosen] at settled
      obtain ⟨called, ⟨none, -⟩ | ⟨j, some, first, typed⟩⟩ := settle_eq_some settled
      · cases none
      cases some
      obtain ⟨e, line, same, -⟩ := findIdx?_eq_some.1 first
      rw [line, Option.map_some, Option.some.injEq] at typed
      have same : e.name = name := (of_decide_eq_true same).trans called.symm
      have there : s₁.module.methodRef? ⟨row, index⟩ =
          some ⟨ctx.settings.holder, name, op.sig d.sig⟩ := by
        simp [ModuleDef.methodRef?, ModuleDef.method?, here, line, same, typed, named]
      dsimp only
      rw [keep_of_ref there]
      refine ⟨_, s₁.module, t, name, ⟨row, index⟩, rfl, ext, old, bare, found, here, ?_, ?_,
        .inl ⟨chosen, rfl, ?_⟩⟩
      all_goals simp [generated]

namespace Answered

variable {ctx : Context} {op : Operation} {d : EnumInfo} {s s' : Session} {m : ModuleDef} {t : TypeDef}
  {name : String} {id : MethodId} (answered : Answered ctx op d s s' m t name id)
include answered

theorem placed : ∃ t', s'.module.types[id.type]? = some t' ∧
    chooseName t'.methods (op.sig d.sig) (baseName op d.name) = (name, some id.index) := by
  rcases answered.method with ⟨chosen, same, -⟩ | ⟨chosen, -, e, called, typed, added⟩
  · rw [same]
    exact ⟨t, answered.row, chosen⟩
  · obtain ⟨place, row⟩ := ModuleDef.row_addMethod answered.row added
    refine ⟨_, row, ?_⟩
    rw [congrArg MethodId.index place]
    exact chooseName_push chosen called typed.1

theorem grows : s.module.Extends ctx.settings.holder (fun _ d d' => d' = d) s'.module := by
  rcases answered.method with ⟨-, same, -⟩ | ⟨-, -, e, -, -, added⟩
  · rw [same]
    exact answered.extends'
  · exact answered.extends'.comp (ModuleDef.extends_addMethod answered.found e added)
      fun _ _ _ _ eq eq' => eq'.trans eq

theorem found' : s'.module.find? ctx.settings.holder = some id.type := by
  rcases answered.method with ⟨-, same, -⟩ | ⟨-, -, e, -, -, added⟩
  · rw [same]
    exact answered.found
  · exact (ModuleDef.extends_addMethod answered.found e added).find?_some answered.found

theorem knows : s'.KnowsHolder ctx := by
  intro row known
  rw [answered.holder, Option.some.injEq] at known
  rw [← known]
  exact answered.found'

theorem provides : s'.module.Provides ctx.settings.holder op d.name := by
  obtain ⟨t', row, chosen⟩ := answered.placed
  exact ⟨_, t', name, id.index, answered.found', row, chosen⟩

theorem unknown : Platform.isKnown ⟨ctx.settings.holder, name, op.sig d.sig⟩ = false := by
  obtain ⟨t', -, chosen⟩ := answered.placed
  exact unknown_of_underscore (underscore_mem_chooseName chosen)

end Answered

/-- A request is answered by a method that is provided from then on; if it was provided before, the
module stays as it is. -/
theorem helper_provides {ctx : Context} {s : Session} (tended : s.Tended ctx) (op : Operation) (d : EnumInfo) :
    ∃ ref s', helper ctx op d s = (.ok ref, s') ∧ s'.Tended ctx ∧ Platform.isKnown ref = false ∧
      ref.sig = op.sig d.sig ∧ s'.module.Provides ctx.settings.holder op d.name ∧
      (s.module.Provides ctx.settings.holder op d.name →
        s'.module = s.module ∧ s'.generated.created = s.generated.created) := by
  rcases helper_cases tended.knows op d with ⟨ref, cached, done⟩ | ⟨-, s', m, t, name, id, done, answered⟩
  · obtain ⟨unknown, sig, provides⟩ := tended.cached op d.name ref cached
    exact ⟨ref, s, done, tended, unknown, sig, provides, fun _ => ⟨rfl, rfl⟩⟩
  have tended' : s'.Tended ctx := by
    refine ⟨answered.knows, tended.reserves.extends answered.grows, fun op' enum ref cached => ?_⟩
    rw [answered.helpers, List.lookup_cons] at cached
    split at cached
    · rename_i same
      obtain ⟨rfl, rfl⟩ := Prod.mk.inj (beq_iff_eq.1 same)
      cases cached
      exact ⟨answered.unknown, rfl, answered.provides⟩
    · obtain ⟨unknown, sig, provides⟩ := tended.cached op' enum ref cached
      exact ⟨unknown, sig, (answered.grows.named fun _ _ _ eq => by rw [eq]; exact ⟨rfl, rfl⟩).provides provides⟩
  refine ⟨_, s', done, tended', answered.unknown, rfl, answered.provides, fun before => ?_⟩
  obtain ⟨row, t', name', index, found, here, chosen⟩ := before
  have same := answered.old row found
  rcases answered.method with ⟨-, module, created⟩ | ⟨free, -⟩
  · exact ⟨module.trans same, created⟩
  · -- it would have been found
    rw [← same] at found here
    obtain rfl : row = id.type := Option.some.inj (found.symm.trans answered.found)
    obtain rfl : t' = t := Option.some.inj (here.symm.trans answered.row)
    cases free.symm.trans chosen

end CilForge
