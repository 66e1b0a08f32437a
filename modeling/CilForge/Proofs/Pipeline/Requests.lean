import CilForge.Proofs.Pipeline.Provides

/-!
# Requests for generated methods

In a session each pair of an operation and an enum has one generated method, and different pairs have
different ones, also where their names would be the same. A reference to such a method leads to it,
whatever else the holder has got since.
-/

namespace CilForge

open Generated

/-- The signature of a generated method tells the operation and the enum. -/
theorem Operation.sig_injective {op op' : Operation} {enum enum' : TypeName}
    (same : op.sig (.valueType enum) = op'.sig (.valueType enum')) : op = op' ∧ enum = enum' := by
  cases op <;> cases op' <;> simp_all [Operation.sig, Sig.string, Sig.bool]

/-! ## Looking up references -/

namespace ModuleDef

variable {m m' : ModuleDef} {ref ref' : MethodRef} {id id' : MethodId}

/-- The first method with the name and the signature of a reference, in the first type with its
name. -/
def Finds (m : ModuleDef) (ref : MethodRef) (id : MethodId) : Prop :=
  m.find? ref.declaring = some id.type ∧ ∃ t, m.types[id.type]? = some t ∧
    t.methods.findIdx? (fun d => d.name = ref.name && d.sig = ref.sig) = some id.index

theorem Finds.unique (finds : m.Finds ref id) (finds' : m.Finds ref id') : id = id' := by
  obtain ⟨type, t, row, first⟩ := finds
  obtain ⟨type', t', row', first'⟩ := finds'
  have types : id.type = id'.type := Option.some.inj (type.symm.trans type')
  rw [types, row', Option.some.injEq] at row
  subst row
  have indices : id.index = id'.index := Option.some.inj (first.symm.trans first')
  cases id
  cases id'
  cases types
  cases indices
  rfl

theorem Finds.lookup?_eq (finds : m.Finds ref id) : m.lookup? ref = m.method? id := by
  obtain ⟨found, t, row, first⟩ := finds
  obtain ⟨d, there, yes, before⟩ := findIdx?_eq_some.1 first
  unfold lookup? method?
  simp only [found, row, there, Option.bind_eq_bind, Option.bind_some]
  rw [Array.find?_eq_some_iff_getElem]
  obtain ⟨lt, rfl⟩ := Array.getElem?_eq_some_iff.1 there
  refine ⟨yes, id.index, lt, rfl, fun j below => ?_⟩
  rw [before j below _ (Array.getElem?_eq_getElem (Nat.lt_trans below lt))]
  rfl

theorem Finds.methodRef? (finds : m.Finds ref id) : m.methodRef? id = some ref := by
  obtain ⟨found, t, row, first⟩ := finds
  obtain ⟨d, there, yes, -⟩ := findIdx?_eq_some.1 first
  rw [Bool.and_eq_true, decide_eq_true_eq, decide_eq_true_eq] at yes
  have named := (find?_eq_some.1 found).1
  simp [ModuleDef.methodRef?, method?, row, there, yes, named]

theorem Extends.finds {holder : TypeName} (ext : m.Extends holder (fun _ d d' => d' = d) m')
    (finds : m.Finds ref id) : m'.Finds ref id := by
  obtain ⟨found, t, row, first⟩ := finds
  obtain ⟨t', row', -, methods, -⟩ := ext.types id.type t row
  obtain ⟨d, there, yes, before⟩ := findIdx?_eq_some.1 first
  refine ⟨ext.find?_some found, t', row', findIdx?_eq_some.2 ?_⟩
  obtain ⟨_, there', rfl⟩ := methods _ d there
  refine ⟨_, there', yes, fun j below e here => ?_⟩
  have lt : j < t.methods.size := Nat.lt_trans below (Array.getElem?_eq_some_iff.1 there).1
  obtain ⟨_, here', rfl⟩ := methods j _ (Array.getElem?_eq_getElem lt)
  rw [here', Option.some.injEq] at here
  rw [← here]
  exact before j below _ (Array.getElem?_eq_getElem lt)

end ModuleDef

theorem Answered.finds {ctx : Context} {op : Operation} {d : EnumInfo} {s s' : Session} {m : ModuleDef}
    {t : TypeDef} {name : String} {id : MethodId} (answered : Answered ctx op d s s' m t name id) :
    s'.module.Finds ⟨ctx.settings.holder, name, op.sig d.sig⟩ id := by
  obtain ⟨t', row, chosen⟩ := answered.placed
  obtain ⟨n, -, settled, -⟩ := chooseName_spec t'.methods (op.sig d.sig) (baseName op d.name)
  rw [chosen] at settled
  obtain ⟨called, ⟨none, -⟩ | ⟨j, some, first, typed⟩⟩ := settle_eq_some settled
  · cases none
  cases some
  obtain ⟨e, there, same, before⟩ := findIdx?_eq_some.1 first
  rw [there, Option.map_some, Option.some.injEq] at typed
  refine ⟨answered.found', t', row, findIdx?_eq_some.2 ⟨e, there, ?_, fun j below e' here => ?_⟩⟩
  · rw [Bool.and_eq_true, decide_eq_true_eq, decide_eq_true_eq]
    exact ⟨(of_decide_eq_true same).trans called.symm, typed⟩
  · -- no method before it has the name
    have other := before j below e' here
    rw [← called] at other
    rw [other, Bool.false_and]

/-! ## Sequences of requests -/

namespace Session

structure Keeps (ctx : Context) (m : ModuleDef) (s : Session) : Prop where
  knows : s.KnowsHolder ctx
  grows : m.Extends ctx.settings.holder (fun _ d d' => d' = d) s.module
  cached : ∀ op enum ref, s.generated.helpers.lookup (op, enum) = some ref →
    ref.declaring = ctx.settings.holder ∧ ref.sig = op.sig (.valueType enum) ∧
      ∃ id, s.module.Finds ref id
  created : ∀ id ∈ s.generated.created, m.method? id = none ∧ ∃ op enum ref,
    s.generated.helpers.lookup (op, enum) = some ref ∧ s.module.Finds ref id
  nodup : s.generated.created.toList.Nodup

def Remembers (s s' : Session) : Prop := ∀ key ref,
  s.generated.helpers.lookup key = some ref → s'.generated.helpers.lookup key = some ref

end Session

open Session

namespace Answered

variable {ctx : Context} {op : Operation} {d : EnumInfo} {s s' : Session} {m : ModuleDef} {t : TypeDef}
  {name : String} {id : MethodId} (answered : Answered ctx op d s s' m t name id)
include answered

theorem remembers (new : s.generated.helpers.lookup (op, d.name) = none) : s.Remembers s' := by
  intro key ref noted
  rw [answered.helpers, List.lookup_cons]
  split
  · rename_i same
    rw [beq_iff_eq.1 same, new] at noted
    cases noted
  · exact noted

theorem noted : s'.generated.helpers.lookup (op, d.name) = some ⟨ctx.settings.holder, name, op.sig d.sig⟩ := by
  rw [answered.helpers, List.lookup_cons_self]

theorem noted_only {key : Operation × TypeName} {ref : MethodRef}
    (there : s'.generated.helpers.lookup key = some ref) :
    s.generated.helpers.lookup key = some ref ∨ key = (op, d.name) := by
  rw [answered.helpers, List.lookup_cons] at there
  split at there
  · rename_i same
    exact .inr (beq_iff_eq.1 same)
  · exact .inl there

theorem unmade {e : MethodDef} (added : m.addMethod id.type e = .ok (id, s'.module)) :
    s.module.method? id = none := by
  refine Option.eq_none_iff_forall_ne_some.2 fun e' there => ?_
  obtain ⟨e₁, there₁, -⟩ := answered.extends'.method? there
  obtain ⟨place, -⟩ := ModuleDef.row_addMethod answered.row added
  have fresh : m.method? id = none := by
    simp [ModuleDef.method?, answered.row, congrArg MethodId.index place]
  rw [fresh] at there₁
  cases there₁

end Answered

theorem helper_keeps {ctx : Context} {m : ModuleDef} {s : Session} (keeps : s.Keeps ctx m)
    (op : Operation) (d : EnumInfo) : ∃ ref s', helper ctx op d s = (.ok ref, s') ∧ s'.Keeps ctx m ∧
      s.Remembers s' ∧ s'.generated.helpers.lookup (op, d.name) = some ref ∧
      ∀ key ref', s'.generated.helpers.lookup key = some ref' →
        s.generated.helpers.lookup key = some ref' ∨ key = (op, d.name) := by
  rcases helper_cases keeps.knows op d with
    ⟨ref, noted, done⟩ | ⟨new, s', m₁, t, name, id, done, answered⟩
  · exact ⟨ref, s, done, keeps, fun _ _ h => h, noted, fun _ _ h => .inl h⟩
  have remembers := answered.remembers new
  have grows : m.Extends ctx.settings.holder (fun _ d d' => d' = d) s'.module :=
    keeps.grows.comp answered.grows fun _ _ _ _ eq eq' => eq'.trans eq
  have cached (op' : Operation) (enum : TypeName) (ref : MethodRef)
      (there : s'.generated.helpers.lookup (op', enum) = some ref) :
      ref.declaring = ctx.settings.holder ∧ ref.sig = op'.sig (.valueType enum) ∧
        ∃ id, s'.module.Finds ref id := by
    rcases answered.noted_only there with old | same
    · obtain ⟨declaring, sig, id', finds⟩ := keeps.cached op' enum ref old
      exact ⟨declaring, sig, id', answered.grows.finds finds⟩
    · cases same
      rw [answered.noted, Option.some.injEq] at there
      subst there
      exact ⟨rfl, rfl, id, answered.finds⟩
  have old (id' : MethodId) (mem : id' ∈ s.generated.created) : m.method? id' = none ∧ ∃ op enum ref,
      s'.generated.helpers.lookup (op, enum) = some ref ∧ s'.module.Finds ref id' := by
    obtain ⟨none, op', enum, ref, there, finds⟩ := keeps.created id' mem
    exact ⟨none, op', enum, ref, remembers _ _ there, answered.grows.finds finds⟩
  refine ⟨_, s', done, ?_, remembers, answered.noted, fun _ _ => answered.noted_only⟩
  rcases answered.method with ⟨-, -, created⟩ | ⟨-, created, e, -, -, added⟩
  · exact ⟨answered.knows, grows, cached, by rw [created]; exact old, by rw [created]; exact keeps.nodup⟩
  · have unmade := answered.unmade added
    refine ⟨answered.knows, grows, cached, fun id' mem => ?_, ?_⟩
    · rw [created, Array.mem_push] at mem
      rcases mem with mem | rfl
      · exact old id' mem
      · refine ⟨Option.eq_none_iff_forall_ne_some.2 fun e' there => ?_, op, d.name, _, answered.noted,
          answered.finds⟩
        obtain ⟨e₁, there₁, -⟩ := keeps.grows.method? there
        rw [unmade] at there₁
        cases there₁
    · rw [created, Array.toList_push, List.nodup_append]
      refine ⟨keeps.nodup, List.pairwise_singleton _ _, fun id' mem id'' new => ?_⟩
      rw [List.mem_singleton] at new
      subst new
      rintro rfl
      obtain ⟨-, -, -, ref, -, finds⟩ := keeps.created _ (Array.mem_toList_iff.1 mem)
      obtain ⟨e', there, -⟩ := Option.map_eq_some_iff.1 finds.methodRef?
      rw [unmade] at there
      cases there

theorem helpers_keep {ctx : Context} {m : ModuleDef} : ∀ (asks : List (Operation × EnumInfo)) {s : Session},
    s.Keeps ctx m → ∃ refs s', asks.mapM (fun a => helper ctx a.1 a.2) s = (.ok refs, s') ∧
      s'.Keeps ctx m ∧ s.Remembers s' ∧
      List.Forall₂ (fun a ref => s'.generated.helpers.lookup (a.1, a.2.name) = some ref) asks refs ∧
      ∀ key ref, s'.generated.helpers.lookup key = some ref →
        s.generated.helpers.lookup key = some ref ∨ ∃ a ∈ asks, key = (a.1, a.2.name)
  | [], s, keeps => ⟨[], s, rfl, keeps, fun _ _ h => h, .nil, fun _ _ h => .inl h⟩
  | a :: asks, s, keeps => by
    obtain ⟨ref, s₁, done, keeps₁, remembers, noted, only⟩ := helper_keeps keeps a.1 a.2
    obtain ⟨refs, s', rest, keeps', remembers', all, only'⟩ := helpers_keep asks keeps₁
    refine ⟨ref :: refs, s', ?_, keeps', fun key ref h => remembers' key ref (remembers key ref h),
      .cons (remembers' _ _ noted) all, fun key ref' there => ?_⟩
    · rw [List.mapM_cons, run_bind, done]
      simp only [run_bind, rest]
      rfl
    · rcases only' key ref' there with old | ⟨a', mem, same⟩
      · rcases only key ref' old with older | same
        · exact .inl older
        · exact .inr ⟨a, List.mem_cons_self, same⟩
      · exact .inr ⟨a', List.mem_cons_of_mem _ mem, same⟩

theorem exists_forall₂ {α β : Type} {R : α → β → Prop} : ∀ {l : List α}, (∀ a ∈ l, ∃ b, R a b) →
    ∃ r, List.Forall₂ R l r
  | [], _ => ⟨[], .nil⟩
  | a :: l, each => by
    obtain ⟨b, first⟩ := each a List.mem_cons_self
    obtain ⟨r, rest⟩ := exists_forall₂ fun a mem => each a (List.mem_cons_of_mem _ mem)
    exact ⟨b :: r, .cons first rest⟩

theorem getElem?_of_forall₂ {α β : Type} {R : α → β → Prop} {l : List α} {r : List β}
    (h : List.Forall₂ R l r) {i : Nat} {a : α} (there : l[i]? = some a) : ∃ b, r[i]? = some b ∧ R a b := by
  induction h generalizing i with
  | nil => cases there
  | cons first _ ih =>
    cases i with
    | zero =>
      cases there
      exact ⟨_, rfl, first⟩
    | succ i => exact ih there

/-- However often and in whatever order generated methods are asked for: all requests are answered;
requests for the same operation and enum lead to the same method, and other ones to different
methods; no method is made that is not asked for, or made twice; the methods that were there stay as
they were; and looking up a reference leads to the method that it was given out for. -/
theorem helpers_unique (ctx : Context) (s : Session) (asks : List (Operation × EnumInfo)) :
    ∃ refs s', asks.mapM (fun a => helper ctx a.1 a.2) { s with generated := {} } = (.ok refs, s') ∧
      s.module.Extends ctx.settings.holder (fun _ d d' => d' = d) s'.module ∧
      s'.generated.created.toList.Nodup ∧ refs.length = asks.length ∧
      ∃ ids : List MethodId, ids.length = asks.length ∧
        (∀ id ∈ s'.generated.created, id ∈ ids ∧ s.module.method? id = none) ∧
        (∀ (i : Nat) a, asks[i]? = some a → ∃ ref id, refs[i]? = some ref ∧ ids[i]? = some id ∧
          ref.declaring = ctx.settings.holder ∧ ref.sig = a.1.sig a.2.sig ∧
          s'.module.Finds ref id ∧ s'.module.lookup? ref = s'.module.method? id) ∧
        ∀ (i j : Nat) a a', asks[i]? = some a → asks[j]? = some a' →
          (a.1 = a'.1 ∧ a.2.name = a'.2.name → refs[i]? = refs[j]? ∧ ids[i]? = ids[j]?) ∧
          (¬ (a.1 = a'.1 ∧ a.2.name = a'.2.name) → refs[i]? ≠ refs[j]? ∧ ids[i]? ≠ ids[j]?) := by
  have start : ({ s with generated := {} } : Session).Keeps ctx s.module :=
    ⟨nofun, .same _, nofun, nofun, List.nodup_nil⟩
  obtain ⟨refs, s', done, keeps, -, noted, only⟩ := helpers_keep asks start
  -- every answer is a note of the session, and what is noted leads to a method
  obtain ⟨ids, finds⟩ : ∃ ids, List.Forall₂ (fun ref id => s'.module.Finds ref id) refs ids := by
    refine exists_forall₂ fun ref mem => ?_
    obtain ⟨i, answer⟩ := List.mem_iff_getElem?.1 mem
    obtain ⟨a, -, there⟩ := getElem?_of_forall₂ noted.flip answer
    exact (keeps.cached a.1 a.2.name ref there).2.2
  have each (i : Nat) (a : Operation × EnumInfo) (ask : asks[i]? = some a) : ∃ ref id,
      refs[i]? = some ref ∧ ids[i]? = some id ∧
        s'.generated.helpers.lookup (a.1, a.2.name) = some ref ∧ s'.module.Finds ref id := by
    obtain ⟨ref, answer, there⟩ := getElem?_of_forall₂ noted ask
    obtain ⟨id, place, finds⟩ := getElem?_of_forall₂ finds answer
    exact ⟨ref, id, answer, place, there, finds⟩
  refine ⟨refs, s', done, keeps.grows, keeps.nodup, noted.length_eq.symm, ids,
    (noted.length_eq.trans finds.length_eq).symm, ?_, ?_, ?_⟩
  · intro id mem
    obtain ⟨none, op, enum, ref, there, here⟩ := keeps.created id mem
    rcases only _ _ there with old | ⟨a, ask, same⟩
    · cases old
    obtain ⟨i, ask⟩ := List.mem_iff_getElem?.1 ask
    obtain ⟨ref', id', -, place, there', here'⟩ := each i a ask
    rw [← same, there, Option.some.injEq] at there'
    subst there'
    rw [here.unique here']
    exact ⟨List.mem_of_getElem? place, here.unique here' ▸ none⟩
  · intro i a ask
    obtain ⟨ref, id, answer, place, there, here⟩ := each i a ask
    obtain ⟨declaring, sig, -⟩ := keeps.cached a.1 a.2.name ref there
    exact ⟨ref, id, answer, place, declaring, sig, here, here.lookup?_eq⟩
  · intro i j a a' ask ask'
    obtain ⟨ref, id, answer, place, there, here⟩ := each i a ask
    obtain ⟨ref', id', answer', place', there', here'⟩ := each j a' ask'
    rw [answer, answer', place, place']
    constructor
    · rintro ⟨op, enum⟩
      rw [op, enum, there', Option.some.injEq] at there
      subst there
      rw [here.unique here']
      exact ⟨rfl, rfl⟩
    · intro differ
      -- no two pairs of operation and enum have one signature
      have other : ref ≠ ref' := by
        rintro rfl
        refine differ (Operation.sig_injective ?_)
        exact (keeps.cached _ _ _ there).2.1.symm.trans (keeps.cached _ _ _ there').2.1
      refine ⟨fun same => other (Option.some.inj same), fun same => other ?_⟩
      cases same
      exact Option.some.inj (here.methodRef?.symm.trans here'.methodRef?)

end CilForge
