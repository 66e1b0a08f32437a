import CilForge.Proofs.Generate.Operations
import CilForge.Proofs.Module.Extends
import CilForge.Proofs.Pipeline.Serves

/-!
# What the pipeline leaves alone

All that the pipeline does to a module is to put bodies in the place of bodies and to add generated
methods to their holder: each part of a run leads to a session in which no more than that has
changed (`Session.Leads`).
-/

namespace CilForge

open Generated

/-! ## Methods stay -/

def ModuleDef.Retains (m m' : ModuleDef) : Prop :=
  ∀ id d, m.method? id = some d → m'.method? id = some d

theorem ModuleDef.Extends.retains {m m' : ModuleDef} {holder : TypeName}
    (ext : m.Extends holder (fun _ d d' => d' = d) m') : m.Retains m' := by
  intro id d found
  obtain ⟨d', found', rfl⟩ := ext.method? found
  exact found'

theorem ModuleDef.retains_addMethod {m m' : ModuleDef} {row : Nat} {d : MethodDef} {id : MethodId}
    (done : m.addMethod row d = .ok (id, m')) : m.Retains m' := by
  unfold addMethod at done
  split at done
  · cases done
  · cases done
    intro x d found
    obtain ⟨t, here, there⟩ := Option.bind_eq_some_iff.1 found
    change ((m.types.modify row _)[x.type]?).bind _ = _
    rw [Array.getElem?_modify]
    split
    · rw [here]
      change (t.methods.push _)[x.index]? = some d
      have lt : x.index < t.methods.size := (Array.getElem?_eq_some_iff.1 there).1
      rw [Array.getElem?_push, if_neg (Nat.ne_of_lt lt)]
      exact there
    · rw [here]
      exact there

/-! ## Generated methods -/

theorem holderRow_cases (name : TypeName) (s : Session) : ∃ id s₁,
    holderRow name s = (.ok id, s₁) ∧ s₁.generated = { s.generated with holder := some id } ∧
    (s₁.module = s.module ∧ s.generated.holder = some id ∨
      s₁.module = s.module ∧ s.generated.holder = none ∧ s.module.find? name = some id ∨
      s₁.module = s.module.withHolder name ∧ s.generated.holder = none ∧
        s.module.find? name = none ∧ id = s.module.types.size) := by
  cases known : s.generated.holder with
  | some id =>
    refine ⟨id, s, ?_, ?_, .inl ⟨rfl, rfl⟩⟩
    · simp only [holderRow, run_bind, Work.get, known]
      rfl
    · rw [← known]
  | none =>
    cases found : s.module.find? name with
    | some id =>
      refine ⟨id, { s with generated := { s.generated with holder := some id } }, ?_, rfl,
        .inr (.inl ⟨rfl, rfl, rfl⟩)⟩
      simp only [holderRow, run_bind, Work.get, known, found]
      rfl
    | none =>
      refine ⟨s.module.types.size, { s with
        module := s.module.withHolder name
        generated := { s.generated with holder := some s.module.types.size } }, ?_, rfl,
        .inr (.inr ⟨rfl, rfl, rfl, rfl⟩)⟩
      simp only [holderRow, run_bind, Work.get, known, found]
      rfl

theorem create_cases (ctx : Context) (holder : Nat) (name : String) (op : Operation) (d : EnumInfo)
    (s : Session) :
    (∃ e, create ctx holder name op d s = (.error e, s) ∧ s.module.types[holder]? = none) ∨
    ∃ method id s', create ctx holder name op d s = (.ok id, s') ∧ method.name = name ∧
      (method.sig = op.sig d.sig ∧ method.body = some (op.script d ctx.settings.density).body) ∧
      s.module.addMethod holder method = .ok (id, s'.module) ∧
      s'.generated = { s.generated with created := s.generated.created.push id } := by
  let method : MethodDef := {
    name
    flags := MethodFlags.isAssembly ||| MethodFlags.isStatic ||| MethodFlags.hideBySig
    sig := op.sig d.sig
    body := some (op.script d ctx.settings.density).body }
  have generated : (ExceptT.mk (pure (op.generate d ctx.settings.density)) : Work Body) s =
      (.ok (op.script d ctx.settings.density).body, s) := by
    rw [Operation.generate_eq]
    rfl
  unfold create
  rw [run_bind, generated]
  dsimp only
  rw [run_bind]
  cases added : s.module.addMethod holder method with
  | error e =>
    refine .inl ⟨e, by rw [Work.onModule, added], ?_⟩
    unfold ModuleDef.addMethod at added
    split at added
    · assumption
    · cases added
  | ok r =>
    refine .inr ⟨method, r.1, _, by rw [Work.onModule, added]; rfl, rfl, ⟨rfl, rfl⟩, ?_, rfl⟩
    exact added

theorem chooseName_empty (sig : MethodSig) (base : String) :
    chooseName #[] sig base = (base, none) := by
  simp [chooseName, settle, candidate, List.range_succ]

theorem keep_cases (op : Operation) (d : EnumInfo) (name : String) (id : MethodId) (s : Session) :
    let s' := (keep op d name id s).2
    s'.module = s.module ∧ s'.generated.holder = s.generated.holder ∧
      s'.generated.created = s.generated.created := by
  unfold keep
  simp only [run_bind, Work.get]
  cases s.module.methodRef? id with
  | none => exact ⟨rfl, rfl, rfl⟩
  | some ref => exact ⟨rfl, rfl, rfl⟩

theorem fetch_cases (ctx : Context) (op : Operation) (d : EnumInfo) (holder : Nat) (s : Session) :
    let s' := (fetch ctx op d holder s).2
    s'.generated.holder = s.generated.holder ∧
    (s'.module = s.module ∧ s'.generated.created = s.generated.created ∧
        (s.module.types[holder]?).map (·.methods) ≠ some #[] ∨
      ∃ method id, s.module.addMethod holder method = .ok (id, s'.module) ∧
        s'.generated.created = s.generated.created.push id) := by
  unfold fetch
  simp only [run_bind, Work.get]
  generalize chosen : chooseName (((s.module.types[holder]?).map (·.methods)).getD #[])
    (op.sig d.sig) (baseName op d.name) = choice
  obtain ⟨name, _ | index⟩ := choice
  rotate_left
  · obtain ⟨module, holds, created⟩ := keep_cases op d name ⟨holder, index⟩ s
    refine ⟨holds, .inl ⟨module, created, fun empty => ?_⟩⟩
    rw [empty] at chosen
    cases (chooseName_empty _ _).symm.trans chosen
  · dsimp only
    rw [run_bind]
    rcases create_cases ctx holder name op d s with
      ⟨e, failed, gone⟩ | ⟨method, id, s₁, done, -, -, added, generated⟩
    · rw [failed]
      exact ⟨rfl, .inl ⟨rfl, rfl, by simp [gone]⟩⟩
    · rw [done]
      obtain ⟨module, holds, created⟩ := keep_cases op d name id s₁
      refine ⟨holds.trans (by rw [generated]), .inr ⟨method, id, ?_, ?_⟩⟩
      · exact added.trans (by rw [← module])
      · exact created.trans (by rw [generated])

namespace Session

def KnowsHolder (ctx : Context) (s : Session) : Prop :=
  ∀ id, s.generated.holder = some id → s.module.find? ctx.settings.holder = some id

structure Leads (ctx : Context) (R : MethodId → MethodDef → MethodDef → Prop) (changed : Bool)
    (s s' : Session) : Prop where
  knows : s'.KnowsHolder ctx
  grows : s.module.Extends ctx.settings.holder R s'.module
  created : s.generated.created.size ≤ s'.generated.created.size
  /-- Without a new method all is as it was, but for what was said to be changed. -/
  quiet : changed = false → s'.generated.created.size = s.generated.created.size →
    s'.module = s.module

theorem Leads.trans {ctx : Context} {R S T : MethodId → MethodDef → MethodDef → Prop}
    {c c' : Bool} {s t u : Session} (first : Leads ctx R c s t) (second : Leads ctx S c' t u)
    (both : ∀ i d d' d'', R i d d' → S i d' d'' → T i d d'') : Leads ctx T (c || c') s u where
  knows := second.knows
  grows := first.grows.comp second.grows both
  created := Nat.le_trans first.created second.created
  quiet := by
    intro neither same
    obtain ⟨no, no'⟩ := Bool.or_eq_false_iff.1 neither
    have := first.created
    have := second.created
    exact (second.quiet no' (by omega)).trans (first.quiet no (by omega))

theorem Leads.refl {ctx : Context} {R : MethodId → MethodDef → MethodDef → Prop} {s : Session}
    (knows : s.KnowsHolder ctx) (refl : ∀ i d, R i d d) : Leads ctx R false s s :=
  ⟨knows, .refl refl _, Nat.le_refl _, fun _ _ => rfl⟩


theorem retains_helper (ctx : Context) (op : Operation) (d : EnumInfo) (s : Session) :
    s.module.Retains (helper ctx op d s).2.module := by
  unfold helper
  simp only [run_bind, Work.get]
  cases s.generated.helpers.lookup (op, d.name) with
  | some ref => exact fun _ _ found => found
  | none =>
    dsimp only
    rw [run_bind]
    obtain ⟨row, s₁, looked, -, how⟩ := holderRow_cases ctx.settings.holder s
    rw [looked]
    have first : s.module.Retains s₁.module := by
      rcases how with ⟨same, -⟩ | ⟨same, -⟩ | ⟨new, -, none, -⟩
      · rw [same]
        exact fun _ _ found => found
      · rw [same]
        exact fun _ _ found => found
      · rw [new]
        exact (ModuleDef.extends_withHolder none).retains
    refine fun id d' found => ?_
    rcases (fetch_cases ctx op d row s₁).2 with ⟨same, -⟩ | ⟨method, new, added, -⟩
    · dsimp only
      rw [same]
      exact first id d' found
    · exact ModuleDef.retains_addMethod added id d' (first id d' found)

theorem Serves.retains {ctx : Context} {s s' : Session} (serves : Serves ctx s s') :
    s.module.Retains s'.module := by
  induction serves with
  | refl => exact fun _ _ found => found
  | record e _ ih => exact ih
  | note level message _ ih => exact ih
  | helper op d _ ih => exact fun id e found => retains_helper ctx op d _ id e (ih id e found)

/-- A request for a generated method makes one, or leaves the module as it was. -/
theorem helper_leads {ctx : Context} {s : Session} (knows : s.KnowsHolder ctx) (op : Operation)
    (d : EnumInfo) : Leads ctx (fun _ d d' => d' = d) false s (helper ctx op d s).2 := by
  unfold helper
  simp only [run_bind, Work.get]
  cases s.generated.helpers.lookup (op, d.name) with
  | some ref => exact .refl knows fun _ _ => rfl
  | none =>
    dsimp only
    rw [run_bind]
    obtain ⟨row, s₁, looked, generated, how⟩ := holderRow_cases ctx.settings.holder s
    rw [looked]
    have holds₁ : s₁.generated.holder = some row := by rw [generated]
    have created₁ : s₁.generated.created = s.generated.created := by rw [generated]
    -- the module up to now, and what is known of the holder in it
    have found : s₁.module.find? ctx.settings.holder = some row ∧
        s.module.Extends ctx.settings.holder (fun _ d d' => d' = d) s₁.module ∧
        (s₁.module = s.module ∨ (s₁.module.types[row]?).map (·.methods) = some #[]) := by
      rcases how with ⟨same, known⟩ | ⟨same, -, found⟩ | ⟨new, -, none, rfl⟩
      · rw [same]
        exact ⟨knows row known, .same _, .inl rfl⟩
      · rw [same]
        exact ⟨found, .same _, .inl rfl⟩
      · rw [new]
        refine ⟨ModuleDef.find?_withHolder none, ModuleDef.extends_withHolder none, .inr ?_⟩
        rw [ModuleDef.row_withHolder]
        rfl
    obtain ⟨found, ext, empty⟩ := found
    obtain ⟨holds, outcome⟩ := fetch_cases ctx op d row s₁
    dsimp only
    rcases outcome with ⟨same, created, full⟩ | ⟨method, id, added, created⟩
    · have same₁ : s₁.module = s.module := empty.resolve_right full
      refine ⟨?_, same ▸ ext, Nat.le_of_eq (by rw [created, created₁]), fun _ _ => same.trans same₁⟩
      intro id known
      rw [holds, holds₁] at known
      cases known
      rw [same]
      exact found
    · have ext₁ := ModuleDef.extends_addMethod found method added
      refine ⟨?_, ext.comp ext₁ fun _ _ _ _ eq eq' => eq'.trans eq, ?_, fun _ none => ?_⟩
      · intro id known
        rw [holds, holds₁] at known
        cases known
        exact ext₁.find?_some found
      · rw [created, created₁, Array.size_push]
        omega
      · rw [created, created₁, Array.size_push] at none
        omega

theorem Serves.leads {ctx : Context} {s s' : Session} (serves : Serves ctx s s')
    (knows : s.KnowsHolder ctx) : Leads ctx (fun _ d d' => d' = d) false s s' := by
  induction serves with
  | refl => exact .refl knows fun _ _ => rfl
  | record e _ ih => exact ⟨ih.knows, ih.grows, ih.created, ih.quiet⟩
  | note level message _ ih => exact ⟨ih.knows, ih.grows, ih.created, ih.quiet⟩
  | helper op d _ ih =>
    exact ih.trans (helper_leads ih.knows op d) fun _ _ _ _ eq eq' => eq'.trans eq

end Session

/-! ## Methods -/

structure MethodDef.Keeps (d d' : MethodDef) : Prop where
  shell : d' = { d with body := d'.body }
  body : d'.body.isSome = d.body.isSome

theorem MethodDef.Keeps.refl (d : MethodDef) : d.Keeps d := ⟨rfl, rfl⟩

theorem MethodDef.Keeps.trans {d d' d'' : MethodDef} (first : d.Keeps d') (second : d'.Keeps d'') :
    d.Keeps d'' := by
  refine ⟨?_, second.body.trans first.body⟩
  rw [second.shell, first.shell]

namespace Pipeline

def said : Except Fault Bool → Bool
  | .ok changed => changed
  | .error _ => false

def kept (old : Body) (w : Workpiece) : Except Fault Bool → Body
  | .ok _ => w.body
  | .error _ => old

/-- What the log is told of a strategy that fails, and of which method. -/
def trouble (token : Token) : Except Fault Bool → List (EventKind × Option Token)
  | .ok _ => []
  | .error e => [(failureKind e, some token)]

section
variable {ctx : Context} {st : Strategy} {id : MethodId} {s : Session} {d : MethodDef} {body : Body}
  {r : Except Fault Bool} {w : Workpiece}

theorem onMethod_of_body (found : s.module.method? id = some d) (has : d.body = some body)
    (ran : processChecked ctx st d.token
      { session := { s with module := s.module.setBody id none }, body } = (r, w)) :
    ∃ s', onMethod ctx st id s = (.ok (said r), s') ∧ s'.generated = w.session.generated ∧
      s'.module = w.session.module.setBody id (some (kept body w r)) ∧
      ∃ told : List Event, s'.events.toList = w.session.events.toList ++ told ∧
        told.map (fun e => (e.kind, e.method)) = trouble d.token r := by
  have serves : Session.Serves ctx { s with module := s.module.setBody id none } w.session := by
    have := processChecked_serves ctx st d.token
      { session := { s with module := s.module.setBody id none }, body }
    rwa [ran] at this
  have there := serves.retains id _ (ModuleDef.method?_setBody found none)
  obtain ⟨token, name, flags, sig, _⟩ := d
  cases has
  unfold onMethod
  simp only [run_bind, Work.get, found, Work.update, attempt]
  rw [ran]
  cases r with
  | ok changed =>
    simp only [putBack, Work.onModule, there]
    exact ⟨_, rfl, rfl, rfl, [], (List.append_nil _).symm, rfl⟩
  | error e =>
    simp only [putBack, Work.onModule, Session.note, Session.record, there]
    exact ⟨_, rfl, rfl, rfl, [_], Array.toList_push, rfl⟩

theorem onMethod_of_none (none : (s.module.method? id).bind (·.body) = none) :
    onMethod ctx st id s = (.ok false, s) := by
  unfold onMethod
  simp only [run_bind, Work.get]
  cases found : s.module.method? id with
  | none => rfl
  | some d =>
    obtain ⟨token, name, flags, sig, body⟩ := d
    rw [found] at none
    cases none
    rfl

/-- A strategy that fails on a body, or makes one that does not pass the check, leaves the method
as it was. -/
theorem onMethod_of_error {e : Fault} (found : s.module.method? id = some d)
    (has : d.body = some body)
    (failed : processChecked ctx st d.token
      { session := { s with module := s.module.setBody id none }, body } = (.error e, w)) :
    (onMethod ctx st id s).2.module.method? id = some d := by
  obtain ⟨s', done, -, module, -⟩ := onMethod_of_body found has failed
  rw [done]
  have serves := processChecked_serves ctx st d.token
    { session := { s with module := s.module.setBody id none }, body }
  rw [failed] at serves
  have there := serves.retains id _ (ModuleDef.method?_setBody found none)
  dsimp only
  rw [module, ModuleDef.method?_setBody there]
  exact congrArg (fun body => some { d with body }) has.symm

end

theorem onMethod_puts (ctx : Context) (st : Strategy) {id : MethodId} {s : Session} {d : MethodDef}
    {body : Body} {r : Except Fault Bool} {w : Workpiece} (knows : s.KnowsHolder ctx)
    (found : s.module.method? id = some d) (has : d.body = some body)
    (ran : processChecked ctx st d.token
      { session := { s with module := s.module.setBody id none }, body } = (r, w)) :
    ∃ s', onMethod ctx st id s = (.ok (said r), s') ∧
      s.Leads ctx (ModuleDef.PutsBody id (some (kept body w r))) (said r) s' := by
  let s₀ : Session := { s with module := s.module.setBody id none }
  obtain ⟨s', done, generated, module, -⟩ := onMethod_of_body found has ran
  refine ⟨s', done, ?_⟩
  have taken : s.module.Extends ctx.settings.holder (ModuleDef.PutsBody id none) s₀.module :=
    ModuleDef.extends_setBody id none
  have serves : Session.Serves ctx s₀ w.session := by
    have := processChecked_serves ctx st d.token { session := s₀, body }
    rwa [show processChecked ctx st d.token { session := s₀, body } = (r, w) from ran] at this
  have leads := serves.leads fun row known => taken.find?_some (knows row known)
  have put : w.session.module.Extends ctx.settings.holder
      (ModuleDef.PutsBody id (some (kept body w r))) s'.module :=
    module ▸ ModuleDef.extends_setBody id (some (kept body w r))
  refine ⟨?_, ?_, ?_, fun no same => ?_⟩
  · intro row known
    rw [generated] at known
    exact put.find?_some (leads.knows row known)
  · refine (taken.comp leads.grows (T := ModuleDef.PutsBody id none) ?_).comp put ?_
    · rintro i d d' _ puts rfl
      exact puts
    · intro i d d' d'' puts puts'
      unfold ModuleDef.PutsBody at *
      split at puts' <;> simp_all
  · rw [generated]
    exact leads.created
  · -- no strategy has changed the body, so it is the one that was taken out
    rw [generated] at same
    have back : kept body w r = body := by
      cases r with
      | error e => rfl
      | ok changed =>
        cases no
        exact processChecked_false ran
    rw [module, leads.quiet rfl same, back, ← has]
    exact ModuleDef.setBody_setBody found

theorem onMethod_leads (ctx : Context) {s : Session} (knows : s.KnowsHolder ctx) (st : Strategy)
    (id : MethodId) : ∃ changed s', onMethod ctx st id s = (.ok changed, s') ∧
      s.Leads ctx (fun _ d d' => d.Keeps d') changed s' := by
  cases none : (s.module.method? id).bind (·.body) with
  | none => exact ⟨false, s, onMethod_of_none none, .refl knows fun _ => .refl⟩
  | some body =>
    obtain ⟨d, found, has⟩ := Option.bind_eq_some_iff.1 none
    obtain ⟨s', done, leads⟩ := onMethod_puts ctx st knows found has rfl
    refine ⟨_, s', done, leads.knows, ?_, leads.created, leads.quiet⟩
    refine (ModuleDef.Extends.same s.module).comp leads.grows.origin ?_
    rintro i e _ e'' rfl ⟨here, puts⟩
    unfold ModuleDef.PutsBody at puts
    split at puts
    · rename_i same
      subst same puts
      rw [found] at here
      cases here
      exact ⟨rfl, by rw [has]; rfl⟩
    · rw [puts]
      exact .refl _

/-! ## The whole run -/

theorem each_cons {α : Type} {f : α → Work Bool} {a : α} {l : List α} {s s₁ s' : Session} {here there : Bool}
    (first : f a s = (.ok here, s₁)) (rest : Work.each f l s₁ = (.ok there, s')) :
    Work.each f (a :: l) s = (.ok (here || there), s') := by
  rw [Work.each, run_bind, first]
  simp only [run_bind, rest]
  rfl

theorem each_leads {ctx : Context} {α : Type} {f : α → Work Bool}
    (one : ∀ a s, s.KnowsHolder ctx → ∃ changed s', f a s = (.ok changed, s') ∧
      s.Leads ctx (fun _ d d' => d.Keeps d') changed s') :
    ∀ (l : List α) (s : Session), s.KnowsHolder ctx → ∃ changed s',
      Work.each f l s = (.ok changed, s') ∧ s.Leads ctx (fun _ d d' => d.Keeps d') changed s'
  | [], s, knows => ⟨false, s, rfl, .refl knows fun _ => .refl⟩
  | a :: l, s, knows => by
    obtain ⟨here, s₁, first, leads⟩ := one a s knows
    obtain ⟨there, s₂, second, leads'⟩ := each_leads one l s₁ leads.knows
    exact ⟨here || there, s₂, each_cons first second, leads.trans leads' fun _ _ _ _ => .trans⟩

/-- A type that is visited is in the module, and is not the holder. -/
theorem visited_of_skips {st : Strategy} {settings : Settings} {m : ModuleDef} {type : Nat}
    (taken : ¬ st.skips settings m type = true) :
    (∃ t, m.types[type]? = some t) ∧ m.typeName type ≠ settings.holder := by
  unfold Strategy.skips at taken
  split at taken
  · simp at taken
  · rename_i t row
    refine ⟨⟨t, row⟩, fun named => ?_⟩
    simp [named] at taken

theorem onType_leads {ctx : Context} (st : Strategy) (type : Nat) (s : Session)
    (knows : s.KnowsHolder ctx) : ∃ changed s', onType ctx st type s = (.ok changed, s') ∧
      s.Leads ctx (fun _ d d' => d.Keeps d') changed s' := by
  unfold onType
  simp only [run_bind, Work.get]
  split
  · exact ⟨false, s, rfl, .refl knows fun _ => .refl⟩
  · exact each_leads (fun index _ knows => onMethod_leads ctx knows st ⟨type, index⟩) _ s knows

theorem runStage_of_none {ctx : Context} {strategies : List Strategy} {stage : Stage}
    (none : strategies.filter (·.stage = stage) = []) (s : Session) :
    runStage ctx strategies stage s = (.ok false, s) := by
  have visits (types : List Nat) : types.flatMap (fun type =>
      ([] : List Strategy).map (·, type)) = [] := by simp
  unfold runStage
  simp only [run_bind, Work.get, none, visits]
  rfl

theorem runStage_leads {ctx : Context} (strategies : List Strategy) (stage : Stage) (s : Session)
    (knows : s.KnowsHolder ctx) : ∃ changed s',
      runStage ctx strategies stage s = (.ok changed, s') ∧
      s.Leads ctx (fun _ d d' => d.Keeps d') changed s' := by
  unfold runStage
  simp only [run_bind, Work.get]
  exact each_leads (fun (st, type) => onType_leads st type) _ s knows

end Pipeline

end CilForge
