import CilForge.Proofs.Pipeline.Settled

/-!
# A second run changes nothing

A run leaves every strategy done with the methods it has visited, and what it adds is not visited at all.
So a second run of the same strategies changes no body and asks for no method that is not there
(`run_idempotent`).
-/

namespace CilForge

open CallSite

section
variable {ctx : Context} {desc : Sig → Option EnumInfo} {m m' : ModuleDef}
  {R : MethodId → MethodDef → MethodDef → Prop}

theorem Strategy.skips_extends (ext : m.Extends ctx.settings.holder R m') (st : Strategy) {type : Nat}
    (lt : type < m.types.size) : st.skips ctx.settings m' type = st.skips ctx.settings m type := by
  have row := Array.getElem?_eq_getElem lt
  obtain ⟨t', row', keeps, -⟩ := ext.types type _ row
  unfold skips
  rw [row, row', ext.typeName lt, keeps]
  rfl

theorem named_of_puts {id : MethodId} {body : Option Body} (i : MethodId) (d d' : MethodDef)
    (puts : ModuleDef.PutsBody id body i d d') : MethodDef.Named i d d' := by
  unfold ModuleDef.PutsBody at puts
  split at puts <;> rw [puts] <;> exact ⟨rfl, rfl⟩

namespace Pipeline

variable {st : Strategy} {id : MethodId} {s : Session} {d : MethodDef} {body : Body}

theorem onMethod_serviced (st : Strategy) (tended : s.Tended ctx) (known : CallSite.known ctx s.module = desc)
    (found : s.module.method? id = some d) (has : d.body = some body)
    (kempt : Kempt ctx desc s.module body) : ∃ changed s' body', onMethod ctx st id s = (.ok changed, s') ∧
      s.Leads ctx (ModuleDef.PutsBody id (some body')) changed s' ∧
      Serviced ctx desc st s s' body body' changed := by
  let s₀ : Session := { s with module := s.module.setBody id none }
  have taken : s.module.Extends ctx.settings.holder (ModuleDef.PutsBody id none) s₀.module :=
    ModuleDef.extends_setBody id none
  have more₀ : ∀ op enum, s.module.Provides ctx.settings.holder op enum →
      s₀.module.Provides ctx.settings.holder op enum :=
    fun _ _ provides => (taken.named named_of_puts).provides provides
  generalize ran : processChecked ctx st d.token { session := s₀, body } = out
  obtain ⟨r, w⟩ := out
  have going : Going ctx desc { session := s₀, body } :=
    ⟨tended.move taken named_of_puts rfl fun row holder => taken.find?_some (tended.knows row holder),
      (known_extends taken tended.reserves).trans known, kempt.valid.numbered, kempt.valid.linked⟩
  have serviced := processChecked_serviced going (kempt.mono more₀) ran
  obtain ⟨s', done, generated, module, -⟩ := onMethod_of_body found has ran
  obtain ⟨s'', done', leads⟩ := onMethod_puts ctx st tended.knows found has ran
  cases done.symm.trans done'
  have put : w.session.module.Extends ctx.settings.holder
      (ModuleDef.PutsBody id (some (kept body w r))) s'.module :=
    module ▸ ModuleDef.extends_setBody id (some (kept body w r))
  have more : ∀ op enum, w.session.module.Provides ctx.settings.holder op enum →
      s'.module.Provides ctx.settings.holder op enum :=
    fun _ _ provides => (put.named named_of_puts).provides provides
  refine ⟨said r, s', kept body w r, done, leads, ?_, serviced.kempt.mono more, serviced.done.mono more,
    fun st' le before => (serviced.keeps st' le (before.mono more₀)).mono more, fun before => ?_⟩
  · exact serviced.tended.move put named_of_puts (by rw [generated]) leads.knows
  · obtain ⟨unchanged, -, created⟩ := serviced.idle (before.mono more₀)
    have created : s'.generated.created = s.generated.created := by rw [generated, created]
    exact ⟨unchanged, leads.quiet unchanged (by rw [created]), created⟩

/-! ## The first run -/

/-- A session in a run that has come so far: strategies are done with the methods they have visited. -/
structure Progress (ctx : Context) (desc : Sig → Option EnumInfo) (visited : Strategy → MethodId → Prop)
    (s : Session) : Prop where
  tended : s.Tended ctx
  known : CallSite.known ctx s.module = desc
  bodies : ∀ id d body, s.module.typeName id.type ≠ ctx.settings.holder → s.module.method? id = some d →
    d.body = some body → Kempt ctx desc s.module body ∧ ∀ st, visited st id →
      st.skips ctx.settings s.module id.type = false → st.Done ctx desc s.module body

variable {visited : Strategy → MethodId → Prop}

theorem Progress.weaken {visited' : Strategy → MethodId → Prop} (progress : Progress ctx desc visited s)
    (fewer : ∀ st id, visited' st id → s.module.typeName id.type ≠ ctx.settings.holder →
      (s.module.method? id).isSome = true → st.skips ctx.settings s.module id.type = false → visited st id) :
    Progress ctx desc visited' s := by
  refine ⟨progress.tended, progress.known, fun id d body other found has => ?_⟩
  obtain ⟨kempt, done⟩ := progress.bodies id d body other found has
  exact ⟨kempt, fun st visit takes => done st (fewer st id visit other (by rw [found]; rfl) takes) takes⟩

theorem onMethod_progress (progress : Progress ctx desc visited s) (st : Strategy) (id : MethodId)
    (other : s.module.typeName id.type ≠ ctx.settings.holder)
    (earlier : ∀ st', visited st' id → st'.stage.ordinal ≤ st.stage.ordinal) :
    ∃ changed s', onMethod ctx st id s = (.ok changed, s') ∧
      s.module.Extends ctx.settings.holder (fun _ d d' => d.Keeps d') s'.module ∧
      Progress ctx desc (fun st' id' => visited st' id' ∨ st' = st ∧ id' = id) s' := by
  obtain ⟨changed, s', done, framed⟩ := onMethod_leads ctx progress.tended.knows st id
  refine ⟨changed, s', done, framed.grows, ?_⟩
  cases has : (s.module.method? id).bind (·.body) with
  | none =>
    cases done.symm.trans (onMethod_of_none has)
    refine ⟨progress.tended, progress.known, fun id' d body other' found has' => ?_⟩
    obtain ⟨kempt, before⟩ := progress.bodies id' d body other' found has'
    refine ⟨kempt, fun st' visit takes => ?_⟩
    rcases visit with visit | ⟨-, rfl⟩
    · exact before st' visit takes
    · rw [found, Option.bind_some, has'] at has
      cases has
  | some body =>
    obtain ⟨d, found, has⟩ := Option.bind_eq_some_iff.1 has
    obtain ⟨kempt, before⟩ := progress.bodies id d body other found has
    obtain ⟨_, _, body', done', leads, serviced⟩ :=
      onMethod_serviced st progress.tended progress.known found has kempt
    cases done.symm.trans done'
    -- the module only grows, so that other bodies stay as they should be
    have more : ∀ op enum, s.module.Provides ctx.settings.holder op enum →
        s'.module.Provides ctx.settings.holder op enum :=
      fun _ _ provides => (leads.grows.named named_of_puts).provides provides
    refine ⟨serviced.tended, (known_extends leads.grows progress.tended.reserves).trans progress.known,
      fun id' d' body'' other' found' has' => ?_⟩
    obtain ⟨other₀, d₀, found₀, puts⟩ := leads.grows.method_of_other other' found'
    have lt : id'.type < s.module.types.size := by
      obtain ⟨t, row, -⟩ := Option.bind_eq_some_iff.1 found₀
      exact ModuleDef.lt_size row
    have skips (st' : Strategy) := Strategy.skips_extends leads.grows st' lt
    unfold ModuleDef.PutsBody at puts
    split at puts
    · rename_i same
      subst same
      rw [puts, Option.some.injEq] at has'
      subst has'
      refine ⟨serviced.kempt, fun st' visit takes => ?_⟩
      rcases visit with visit | ⟨rfl, -⟩
      · exact serviced.keeps st' (earlier st' visit) (before st' visit (skips st' ▸ takes))
      · exact serviced.done
    · rename_i apart
      rw [puts] at has'
      obtain ⟨kempt', before'⟩ := progress.bodies id' d₀ body'' other₀ found₀ has'
      refine ⟨kempt'.mono more, fun st' visit takes => ?_⟩
      exact (before' st' (visit.resolve_right fun this => apart this.2) (skips st' ▸ takes)).mono more

theorem each_progress {α : Type} {f : α → Work Bool} {P : (α → Prop) → Session → Prop} :
    ∀ {l : List α}, (∀ a ∈ l, ∀ done s, P done s → ∃ changed s', f a s = (.ok changed, s') ∧
      P (fun x => done x ∨ x = a) s') → ∀ done s, P done s → ∃ changed s',
      Work.each f l s = (.ok changed, s') ∧ P (fun x => done x ∨ x ∈ l) s'
  | [], _, done, s, start => ⟨false, s, rfl, by simpa using start⟩
  | a :: l, one, done, s, start => by
    obtain ⟨here, s₁, first, next⟩ := one a List.mem_cons_self done s start
    obtain ⟨there, s₂, second, last⟩ :=
      each_progress (l := l) (fun b mem => one b (List.mem_cons_of_mem _ mem)) _ s₁ next
    exact ⟨here || there, s₂, each_cons first second, by simpa only [List.mem_cons, or_assoc] using last⟩

theorem onType_progress (progress : Progress ctx desc visited s) (st : Strategy) (type : Nat)
    (earlier : ∀ st' id, visited st' id → st'.stage.ordinal ≤ st.stage.ordinal) :
    ∃ changed s', onType ctx st type s = (.ok changed, s') ∧
      s.module.Extends ctx.settings.holder (fun _ d d' => d.Keeps d') s'.module ∧
      Progress ctx desc (fun st' id => visited st' id ∨ st' = st ∧ id.type = type) s' := by
  unfold onType
  simp only [run_bind, Work.get]
  split
  · rename_i skipped
    refine ⟨false, s, rfl, .refl (fun _ => .refl) _, progress.weaken fun st' id visit _ _ takes => ?_⟩
    rcases visit with visit | ⟨rfl, rfl⟩
    · exact visit
    · cases skipped.symm.trans takes
  · rename_i taken
    -- a type that is taken is there and is not the holder, and stays so while its methods are visited
    obtain ⟨⟨t, row⟩, other⟩ := visited_of_skips taken
    have lt := ModuleDef.lt_size row
    have step : ∀ index ∈ List.range t.methods.size, ∀ (done : Nat → Prop) (s₁ : Session),
        Progress ctx desc (fun st' id => visited st' id ∨ st' = st ∧ id.type = type ∧ done id.index) s₁ ∧
          s.module.Extends ctx.settings.holder (fun _ d d' => d.Keeps d') s₁.module →
        ∃ changed s₂, onMethod ctx st ⟨type, index⟩ s₁ = (.ok changed, s₂) ∧
          Progress ctx desc (fun st' id => visited st' id ∨
            st' = st ∧ id.type = type ∧ (done id.index ∨ id.index = index)) s₂ ∧
          s.module.Extends ctx.settings.holder (fun _ d d' => d.Keeps d') s₂.module := by
      rintro index - done s₁ ⟨progress₁, ext₁⟩
      obtain ⟨changed, s₂, ran, ext₂, progress₂⟩ := onMethod_progress progress₁ st ⟨type, index⟩
        (by rw [ext₁.typeName lt]; exact other) fun st' visit => by
          rcases visit with visit | ⟨rfl, -⟩
          · exact earlier st' _ visit
          · exact Nat.le_refl _
      refine ⟨changed, s₂, ran, progress₂.weaken fun st' id visit _ _ _ => ?_,
        ext₁.comp ext₂ fun _ _ _ _ => .trans⟩
      rcases visit with visit | ⟨rfl, rfl, visit | rfl⟩
      · exact .inl (.inl visit)
      · exact .inl (.inr ⟨rfl, rfl, visit⟩)
      · exact .inr ⟨rfl, rfl⟩
    rw [row]
    obtain ⟨changed, s', ran, progress', ext⟩ := each_progress step (fun _ => False) s
      ⟨progress.weaken fun _ _ visit _ _ _ => visit.resolve_right fun this => this.2.2,
        .refl (fun _ => .refl) _⟩
    refine ⟨changed, s', ran, ext, progress'.weaken fun st' id visit _ there _ => ?_⟩
    rcases visit with visit | ⟨rfl, rfl⟩
    · exact .inl visit
    · -- no method has come to the type meanwhile
      refine .inr ⟨rfl, rfl, .inr (List.mem_range.2 ?_)⟩
      obtain ⟨t', row', -, -, size⟩ := ext.types _ t row
      obtain ⟨d, found⟩ := Option.isSome_iff_exists.1 there
      obtain ⟨t'', row'', here⟩ := Option.bind_eq_some_iff.1 found
      cases row'.symm.trans row''
      rw [← size.resolve_right fun found => other (ModuleDef.find?_eq_some.1 found).1]
      exact (Array.getElem?_eq_some_iff.1 here).1

theorem runStage_progress (progress : Progress ctx desc visited s) (strategies : List Strategy) (stage : Stage)
    (earlier : ∀ st id, visited st id → st.stage.ordinal ≤ stage.ordinal) :
    ∃ changed s', runStage ctx strategies stage s = (.ok changed, s') ∧
      s.module.Extends ctx.settings.holder (fun _ d d' => d.Keeps d') s'.module ∧
      Progress ctx desc (fun st id => visited st id ∨
        (st ∈ strategies ∧ st.stage = stage) ∧ id.type ∈ s.module.order) s' := by
  unfold runStage
  simp only [run_bind, Work.get]
  generalize visits : (s.module.order.flatMap fun type =>
    (strategies.filter (·.stage = stage)).map (·, type)) = l
  have mem_visits (st : Strategy) (type : Nat) : (st, type) ∈ l ↔
      (st ∈ strategies ∧ st.stage = stage) ∧ type ∈ s.module.order := by
    rw [← visits]
    simp only [List.mem_flatMap, List.mem_map, List.mem_filter, Prod.mk.injEq, decide_eq_true_eq]
    constructor
    · rintro ⟨type, mem, st, active, rfl, rfl⟩
      exact ⟨active, mem⟩
    · rintro ⟨active, mem⟩
      exact ⟨type, mem, st, active, rfl, rfl⟩
  -- one visit adds its own strategy and type to what is done
  have step : ∀ visit ∈ l, ∀ (done : Strategy × Nat → Prop) (s₁ : Session),
      Progress ctx desc (fun st id => visited st id ∨ st.stage = stage ∧ done (st, id.type)) s₁ ∧
        s.module.Extends ctx.settings.holder (fun _ d d' => d.Keeps d') s₁.module →
      ∃ changed s₂, onType ctx visit.1 visit.2 s₁ = (.ok changed, s₂) ∧
        Progress ctx desc (fun st id => visited st id ∨
          st.stage = stage ∧ (done (st, id.type) ∨ (st, id.type) = visit)) s₂ ∧
        s.module.Extends ctx.settings.holder (fun _ d d' => d.Keeps d') s₂.module := by
    rintro ⟨st, type⟩ mem done s₁ ⟨progress₁, ext₁⟩
    obtain ⟨⟨-, rfl⟩, -⟩ := (mem_visits st type).1 mem
    obtain ⟨changed, s₂, ran, ext₂, progress₂⟩ := onType_progress progress₁ st type fun st' id visit => by
      rcases visit with visit | ⟨same, -⟩
      · exact earlier st' id visit
      · rw [same]
    refine ⟨changed, s₂, ran, progress₂.weaken fun st' id visit _ _ _ => ?_,
      ext₁.comp ext₂ fun _ _ _ _ => .trans⟩
    rcases visit with visit | ⟨same, visit | visit⟩
    · exact .inl (.inl visit)
    · exact .inl (.inr ⟨same, visit⟩)
    · obtain ⟨rfl, rfl⟩ := Prod.mk.inj visit
      exact .inr ⟨rfl, rfl⟩
  obtain ⟨changed, s', ran, progress', ext⟩ := each_progress step (fun _ => False) s
    ⟨progress.weaken fun _ _ visit _ _ _ => visit.resolve_right fun this => this.2,
      .refl (fun _ => .refl) _⟩
  refine ⟨changed, s', ran, ext, progress'.weaken fun st id visit _ _ _ => ?_⟩
  exact visit.imp_right fun here => ⟨here.1.2, .inr ((mem_visits st id.type).2 here)⟩

/-- After a run all strategies are done with all methods. -/
theorem run_progress (strategies : List Strategy) (start : Progress ctx desc (fun _ _ => False) s) :
    ∃ changed s', Pipeline.run ctx strategies s = (.ok changed, s') ∧
      s.module.Extends ctx.settings.holder (fun _ d d' => d.Keeps d') s'.module ∧
      Progress ctx desc (fun st id => st ∈ strategies ∧ id.type ∈ s.module.order) s' := by
  obtain ⟨c₁, s₁, first, ext₁, progress₁⟩ := runStage_progress start strategies .materialize nofun
  obtain ⟨c₂, s₂, second, ext₂, progress₂⟩ := runStage_progress progress₁ strategies .callSites
    fun st id visit => by
      rcases visit with none | ⟨⟨-, stage⟩, -⟩
      · cases none
      · rw [stage]
        decide
  obtain ⟨c₃, s₃, third, ext₃, progress₃⟩ := runStage_progress progress₂ strategies .flatten
    fun st id visit => by
      rcases visit with (none | ⟨⟨-, stage⟩, -⟩) | ⟨⟨-, stage⟩, -⟩
      · cases none
      · rw [stage]
        decide
      · rw [stage]
        decide
  have grows₂ := ext₁.comp (T := fun _ d d' => d.Keeps d') ext₂ fun _ _ _ _ => .trans
  refine ⟨c₁ || (c₂ || (c₃ || false)), s₃, ?_, grows₂.comp ext₃ fun _ _ _ _ => .trans,
    progress₃.weaken fun st id visit _ _ _ => ?_⟩
  · simp only [Pipeline.run, Stage.all, Work.each, run_bind, first, second, third]
    rfl
  · obtain ⟨active, mem⟩ := visit
    obtain ⟨new₁, order₁, -⟩ := ext₁.order
    obtain ⟨new₂, order₂, -⟩ := grows₂.order
    cases st with
    | materialize => exact .inl (.inl (.inr ⟨⟨active, rfl⟩, mem⟩))
    | callSites => exact .inl (.inr ⟨⟨active, rfl⟩, by rw [order₁]; exact List.mem_append_left _ mem⟩)
    | flatten => exact .inr ⟨⟨active, rfl⟩, by rw [order₂]; exact List.mem_append_left _ mem⟩

/-! ## The second run -/

theorem each_idle {α : Type} {f : α → Work Bool} {P : Session → Prop} :
    ∀ {l : List α}, (∀ a ∈ l, ∀ s, P s → ∃ s', f a s = (.ok false, s') ∧ P s') → ∀ s, P s →
      ∃ s', Work.each f l s = (.ok false, s') ∧ P s'
  | [], _, s, start => ⟨s, rfl, start⟩
  | a :: l, one, s, start => by
    obtain ⟨s₁, first, next⟩ := one a List.mem_cons_self s start
    obtain ⟨s₂, second, last⟩ := each_idle (l := l) (fun b mem => one b (List.mem_cons_of_mem _ mem)) s₁ next
    exact ⟨s₂, each_cons first second, last⟩

structure Idle (ctx : Context) (m : ModuleDef) (s : Session) : Prop where
  module : s.module = m
  created : s.generated.created = #[]
  tended : s.Tended ctx

theorem onMethod_idle {s₀ : Session} (progress : Progress ctx desc visited s₀) (idle : Idle ctx s₀.module s)
    (other : s₀.module.typeName id.type ≠ ctx.settings.holder) (visit : visited st id)
    (takes : st.skips ctx.settings s₀.module id.type = false) :
    ∃ s', onMethod ctx st id s = (.ok false, s') ∧ Idle ctx s₀.module s' := by
  obtain ⟨module, created, tended⟩ := idle
  cases has : (s.module.method? id).bind (·.body) with
  | none => exact ⟨s, onMethod_of_none has, module, created, tended⟩
  | some body =>
    obtain ⟨d, found, has⟩ := Option.bind_eq_some_iff.1 has
    obtain ⟨kempt, done⟩ := progress.bodies id d body other (module ▸ found) has
    have known : CallSite.known ctx s.module = desc := by rw [module, progress.known]
    obtain ⟨_, s', body', ran, -, serviced⟩ := onMethod_serviced st tended known found has
      (by rw [module]; exact kempt)
    obtain ⟨rfl, same, created'⟩ := serviced.idle (by rw [module]; exact done st visit takes)
    exact ⟨s', ran, same.trans module, created'.trans created, serviced.tended⟩

theorem onType_idle {s₀ : Session} (progress : Progress ctx desc visited s₀) (type : Nat)
    (idle : Idle ctx s₀.module s) (visits : s₀.module.typeName type ≠ ctx.settings.holder →
      ∀ index, visited st ⟨type, index⟩) :
    ∃ s', onType ctx st type s = (.ok false, s') ∧ Idle ctx s₀.module s' := by
  unfold onType
  simp only [run_bind, Work.get]
  rw [idle.module]
  split
  · exact ⟨s, rfl, idle⟩
  · rename_i taken
    obtain ⟨-, other⟩ := visited_of_skips taken
    exact each_idle (fun index _ s idle => onMethod_idle progress idle other (visits other index)
      (Bool.eq_false_iff.2 taken)) s idle

theorem run_idle {s₀ : Session} (strategies : List Strategy) (progress : Progress ctx desc visited s₀)
    (visits : ∀ st ∈ strategies, ∀ id : MethodId, id.type ∈ s₀.module.order →
      s₀.module.typeName id.type ≠ ctx.settings.holder → visited st id) (idle : Idle ctx s₀.module s) :
    ∃ s', Pipeline.run ctx strategies s = (.ok false, s') ∧ Idle ctx s₀.module s' := by
  refine each_idle (fun stage _ s idle => ?_) s idle
  unfold runStage
  simp only [run_bind, Work.get]
  rw [idle.module]
  refine each_idle (fun visit mem s idle => ?_) s idle
  rw [List.mem_flatMap] at mem
  obtain ⟨type', order, mem⟩ := mem
  obtain ⟨st', active, rfl⟩ := List.mem_map.1 mem
  exact onType_idle progress type' idle fun other index =>
    visits st' (List.mem_filter.1 active).1 ⟨type', index⟩ order other

end Pipeline

end

namespace Pipeline

/-- A run over a module that a run has been over changes no body, generates no method and leaves the module
as it is, if the bodies of the module at first pass the check and have an empty stack at their boundaries. -/
theorem run_idempotent (ctx : Context) (strategies : List Strategy) (m : ModuleDef) (reserves : m.Reserves ctx)
    (bodies : ∀ id d body, m.method? id = some d → d.body = some body → body.Reachable ∧
      body.check = .ok () ∧ Answering body ∧ (body.regions ≠ [] → ∃ depths, body.depths = .ok depths ∧
        ∀ h, body.isBoundary h = true → depths[h]? = some 0)) :
    ∃ changed s s', Pipeline.run ctx strategies { module := m } = (.ok changed, s) ∧
      Pipeline.run ctx strategies { module := s.module } = (.ok false, s') ∧
      s'.module = s.module ∧ s'.generated.created = #[] := by
  have start : Progress ctx (known ctx m) (fun _ _ => False) { module := m } := by
    refine ⟨Session.tended_fresh reserves, rfl, fun id d body _ found has => ⟨?_, fun _ visit => visit.elim⟩⟩
    obtain ⟨reachable, passes, answering, depths⟩ := bodies id d body found has
    refine ⟨reachable.valid passes, ?_, .inl answering⟩
    by_cases bare : body.regions = []
    · intro h boundary
      simp [Body.isBoundary, bare] at boundary
    · obtain ⟨depths, known, empty⟩ := depths bare
      exact leveled_of_depths reachable.numbered known empty
  obtain ⟨changed, s, first, ext, progress⟩ := run_progress strategies start
  have idle : Idle ctx s.module { module := s.module } :=
    ⟨rfl, rfl, Session.tended_fresh progress.tended.reserves⟩
  obtain ⟨s', second, done⟩ := run_idle strategies progress (fun st active id mem other => by
    refine ⟨active, ?_⟩
    -- what is new is the holder
    obtain ⟨new, order, fresh⟩ := ext.order
    rw [order] at mem
    exact (List.mem_append.1 mem).resolve_right fun last => other (fresh _ last)) idle
  exact ⟨changed, s, s', first, second, done.module, done.created⟩

theorem guarded_consistent : guarded.Consistent fun h => if h.index = 0 ∨ 4 ≤ h.index then 0 else 1 := by
  decide

/-- The stack is empty where the protected range starts, and where its handler starts and ends. -/
theorem depths_guarded : ∃ depths, guarded.depths = .ok depths ∧
    ∀ h, guarded.isBoundary h = true → depths[h]? = some 0 := by
  have num := guarded_reachable.numbered
  obtain ⟨depths, found, -⟩ := Body.depths_of_consistent num guarded_consistent
  have start : depths[(⟨0⟩ : Handle)]? = some 0 := Body.depths_first found rfl
  have handler : depths[(⟨5⟩ : Handle)]? = some 0 :=
    Body.depths_handler found (b := guarded) List.mem_cons_self rfl
  have onward {n d : Nat} {p : Handle × Instr} (lt : n < guarded.code.length) (line : guarded.code[n] = p)
      (known : depths[p.1]? = some d) : ∀ q ∈ Body.successors p.2 (guarded.code[n + 1]?.map (·.1))
        (Body.depthAfter p.2 d), depths[q.1]? = some q.2 := by
    have code : guarded.code = guarded.code.take n ++ (p.1, p.2) :: guarded.code.drop (n + 1) := by
      rw [← line, List.getElem_cons_drop, List.take_append_drop]
    have := (Body.depths_onward num found code known).2
    rwa [List.head?_drop] at this
  have token := onward (n := 0) (by decide) rfl start (⟨1⟩, 1) (by decide)
  have resolved := onward (n := 1) (by decide) rfl token (⟨2⟩, 1) (by decide)
  have values := onward (n := 2) (by decide) rfl resolved (⟨3⟩, 1) (by decide)
  have popped := onward (n := 3) (by decide) rfl values (⟨4⟩, 0) (by decide)
  have left := onward (n := 4) (by decide) rfl popped (⟨6⟩, 0) (by decide)
  refine ⟨depths, found, fun h boundary => ?_⟩
  have bounds : h = ⟨0⟩ ∨ ⟨5⟩ = h ∨ h = ⟨5⟩ ∨ ⟨6⟩ = h := by
    simp only [guarded, Body.isBoundary, Region.boundaries] at boundary
    simpa using boundary
  rcases bounds with rfl | rfl | rfl | rfl
  · exact start
  · exact handler
  · exact handler
  · exact left

theorem run_idempotent_guarded : guarded.check = .ok () ∧ Answering guarded ∧
    (∃ depths, guarded.depths = .ok depths ∧ ∀ h, guarded.isBoundary h = true → depths[h]? = some 0) ∧
    ∃ changed s s', Pipeline.run {} Strategy.all { module := guardedModule } = (.ok changed, s) ∧
      Pipeline.run {} Strategy.all { module := s.module } = (.ok false, s') ∧
      s'.module = s.module ∧ s'.generated.created = #[] := by
  have answering : Answering guarded := by decide
  have free : guardedModule.find? ⟨"", "<EnumHelpers>"⟩ = none := by
    refine ModuleDef.find?_eq_none.2 fun i lt => ?_
    have path : guardedModule.path i = ("Demo", [if i = 0 then "Color" else "Program"]) := by
      match i, lt with
      | 0, _ => rw [ModuleDef.path]; rfl
      | 1, _ => rw [ModuleDef.path]; rfl
    rw [ModuleDef.typeName, path]
    exact fun same => absurd (congrArg TypeName.ns same) (show "Demo" ≠ "" by decide)
  have reserves : guardedModule.Reserves {} := by
    refine .inr ?_
    unfold known EnumInfo.ofSig Library.resolve
    dsimp only
    rw [free]
    rfl
  refine ⟨check_guarded, answering, depths_guarded, run_idempotent {} Strategy.all guardedModule reserves ?_⟩
  intro id d body found has
  rw [body_guarded found has]
  exact ⟨guarded_reachable, check_guarded, answering, fun _ => depths_guarded⟩

end Pipeline

end CilForge
