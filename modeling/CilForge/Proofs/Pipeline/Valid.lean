import CilForge.Proofs.CallSite.Flatten
import CilForge.Proofs.Generate.Lookup

/-!
# Bodies stay valid

What a strategy makes of a body that passes the check passes it again. So the check of the bodies that
strategies have made finds nothing, and a run is the same with and without it (`run_verify`).
-/

namespace CilForge

open CallSite

/-- A body that passes the check, and whose handles are in order. -/
structure Body.Valid (b : Body) : Prop where
  numbered : b.Numbered
  linked : b.Linked
  fit : b.Fit

theorem Body.Valid.check {b : Body} (valid : b.Valid) : b.check = .ok () :=
  (valid.linked.check_eq_ok valid.numbered.nodup).2 valid.fit

theorem Body.Reachable.valid {b : Body} (reachable : b.Reachable) (passes : b.check = .ok ()) :
    b.Valid :=
  ⟨reachable.numbered, reachable.linked,
    (reachable.linked.check_eq_ok reachable.numbered.nodup).1 passes⟩

/-! ## Call sites -/

namespace CallSite

variable {ctx : Context} {method : Token} {h : Handle} {w w' : Workpiece} {site : Site}

theorem edit_of_apply (applied : site.apply ctx w = (.ok (), w')) :
    ∃ ref, site.change.edit site.info ref w.body = (.ok (), w'.body) := by
  have edits {e : Edit Unit} {v : Workpiece} (done : Pass.edit e v = (.ok (), w')) :
      e v.body = (.ok (), w'.body) := by
    obtain ⟨result, rfl⟩ := Prod.mk.inj done
    exact Prod.ext result rfl
  have works {α : Type} {k : Work α} {a : α} {v : Workpiece} (done : Pass.work k w = (.ok a, v)) :
      v.body = w.body := by
    rw [← (Prod.mk.inj done).2]
  obtain ⟨pattern, info, change⟩ := site
  cases change with
  | fold | underlying | hasFlag => exact ⟨default, edits applied⟩
  | redirect scaffolding call op =>
    obtain ⟨ref, v, asked, done⟩ := Edit.bind_eq_ok.1 applied
    exact ⟨ref, works asked ▸ edits done⟩
  | constrained marker call =>
    obtain ⟨ref, v, asked, done⟩ := Edit.bind_eq_ok.1 applied
    exact ⟨ref, works asked ▸ edits done⟩

theorem standsAt_of_matchAt {m : ModuleDef} {b : Body} (nodup : b.handles.Nodup)
    (found : matchAt ctx m b h = .ok (some site)) :
    ∃ pre a post, b.code = pre ++ (h, a) :: post ∧ StandsAt (known ctx m) b pre ((h, a) :: post) site := by
  have live : h ∈ b.handles := by
    rw [← Body.contains_iff, Body.contains]
    cases there : b.get? h with
    | none =>
      rw [matchAt, there] at found
      cases found
    | some i => rfl
  obtain ⟨pre, a, post, code⟩ := Body.exists_split live
  refine ⟨pre, a, post, code, search_some nodup code ?_⟩
  rw [matchAt_eq nodup code] at found
  split at found
  · cases found
  · exact found

theorem visit_valid {changed : Bool} (valid : w.body.Valid)
    (ran : visit ctx method h w = (.ok changed, w')) : w'.body.Valid := by
  cases visit_cases ran with
  | nothing => exact valid
  | skipped => exact valid
  | done _ _ _ found applied =>
    obtain ⟨num, linked, fit⟩ := valid
    obtain ⟨pre, a, post, code, r, front, operand, back, post', stands, lines, rfl⟩ :=
      standsAt_of_matchAt num.nodup found
    obtain ⟨A, a', rest, rfl⟩ := stands.exists_head
    obtain ⟨ref, edited⟩ := edit_of_apply applied
    rcases stands.turn num linked rfl ref with ⟨-, -, refused⟩ | ⟨F, B, f, b', done, turned⟩
    · cases edited.symm.trans refused
    · have same : b' = _ := congrArg Prod.snd (done.symm.trans edited)
      subst same
      exact ⟨turned.numbered, turned.linked num stands rfl linked, turned.fit num stands rfl fit⟩

theorem visitAll_valid : ∀ {hs : List Handle} {w w' : Workpiece} {changed : Bool}, w.body.Valid →
    visitAll ctx method hs w = (.ok changed, w') → w'.body.Valid
  | [], w, w', changed, valid, ran => by
    obtain ⟨-, rfl⟩ := Edit.pure_eq_ok.1 ran
    exact valid
  | h :: hs, w, w', changed, valid, ran => by
    obtain ⟨here, w₁, first, rest⟩ := Edit.bind_eq_ok.1 ran
    obtain ⟨there, w₂, second, last⟩ := Edit.bind_eq_ok.1 rest
    obtain ⟨-, rfl⟩ := Edit.pure_eq_ok.1 last
    exact visitAll_valid (visit_valid valid first) second

end CallSite

/-! ## Flattening -/

namespace Finally

variable {b b' : Body} {p : Layout} {vars : StateVars} {σ : Handle → Handle}
  {E : Handle × Instr → List (Handle × Instr)} {regions : List Ranges} {depths : Body.Depths}

theorem Flattened.declared (flat : Flattened b p vars σ E b') (reads : Reads b regions depths p)
    {l : Leave} (mem : l ∈ p.leaves) {n : Nat} (exit : n ∈ l.exits) : vars.ofNode n < b'.locals.size := by
  obtain ⟨s, slot⟩ := reads.lookup_slots mem exit
  obtain ⟨more, locals, size⟩ := flat.locals
  rw [flat.vars n s slot, locals, Array.size_append, size]
  have := Layout.lt_slotCount slot
  omega

theorem Flattened.new_formed (flat : Flattened b p vars σ E b') (reads : Reads b regions depths p)
    {i : Instr} (written : p.Written vars i) :
    i.wellFormed = true ∧ ∀ index, i.operand = .localVar index → index < b'.locals.size := by
  cases written with
  | store leave exit =>
    refine ⟨rfl, ?_⟩
    rintro _ ⟨⟩
    exact flat.declared reads leave exit
  | load some =>
    refine ⟨rfl, ?_⟩
    rintro _ ⟨⟩
    obtain ⟨l, leave, exit⟩ := Layout.exists_exit some
    exact flat.declared reads leave exit
  | state | enter | select | go | missing | throw => exact ⟨rfl, nofun⟩

theorem Flattened.fit (flat : Flattened b p vars σ E b') (reads : Reads b regions depths p)
    (fit : b.Fit) (bare : b'.regions = []) : b'.Fit := by
  have lines : ∀ q ∈ b'.code, q.2.wellFormed = true ∧
      ∀ index, q.2.operand = .localVar index → index < b'.locals.size := by
    intro q line
    rcases flat.line_cases line with ⟨q₀, old, eq⟩ | ⟨i, written, eq⟩
    · rw [eq, wellFormed_mapTargets]
      refine ⟨fit.formed q₀ old, fun index operand => ?_⟩
      obtain ⟨more, locals, -⟩ := flat.locals
      have := fit.declared q₀ old index (operand_mapTargets operand)
      rw [locals, Array.size_append]
      omega
    · obtain ⟨formed, declared⟩ := flat.new_formed reads written
      rw [eq, wellFormed_mapTargets]
      exact ⟨formed, fun index operand => declared index (operand_mapTargets operand)⟩
  exact ⟨fun q line => (lines q line).1, fun q line => (lines q line).2,
    by rw [bare]; exact fun r mem => absurd mem List.not_mem_nil⟩

theorem run_valid {method : Token} {w w' : Workpiece} (valid : w.body.Valid)
    (done : Finally.run method w = (.ok true, w')) : w'.body.Valid := by
  obtain ⟨num, linked, fit⟩ := valid
  obtain ⟨layout, laid, applied⟩ := apply_of_run done
  obtain ⟨regions, depths, -, reads⟩ := reads_of_ofBody laid
  obtain ⟨vars, σ, E, flat⟩ := flattened_of_reads reads num applied
  have bare := regions_of_apply applied
  exact ⟨flat.numbered, flat.linked reads linked bare, flat.fit reads fit bare⟩

end Finally

theorem Strategy.process_valid {ctx : Context} {st : Strategy} {method : Token} {w w' : Workpiece}
    {changed : Bool} (valid : w.body.Valid) (ran : st.process ctx method w = (.ok changed, w')) :
    w'.body.Valid := by
  cases changed with
  | false =>
    rw [process_false ran]
    exact valid
  | true =>
    cases st with
    | materialize =>
      obtain ⟨b, w₁, -, rest⟩ := Edit.bind_eq_ok.1 ran
      obtain ⟨_, w₂, -, last⟩ := Edit.bind_eq_ok.1 rest
      obtain ⟨no, -⟩ := Edit.pure_eq_ok.1 last
      cases no
    | callSites =>
      obtain ⟨b, w₁, read, rest⟩ := Edit.bind_eq_ok.1 ran
      cases read
      exact visitAll_valid valid rest
    | flatten => exact Finally.run_valid valid ran

/-! ## Runs with and without the check -/

def Context.verifying (ctx : Context) (verify : Bool) : Context :=
  { ctx with settings := { ctx.settings with verify } }

section
variable (ctx : Context) (v : Bool)

theorem CallSite.visitAll_verifying (method : Token) : ∀ hs : List Handle,
    visitAll (ctx.verifying v) method hs = visitAll ctx method hs
  | [] => rfl
  | h :: hs => by
    rw [visitAll, visitAll, visitAll_verifying method hs]
    rfl

theorem Strategy.process_verifying (st : Strategy) (method : Token) :
    st.process (ctx.verifying v) method = st.process ctx method := by
  cases st with
  | materialize => rfl
  | callSites =>
    unfold process CallSite.run
    simp only [visitAll_verifying]
  | flatten => rfl

end

namespace Pipeline

variable {ctx : Context}

/-- On a valid body the check changes nothing. -/
theorem processChecked_valid {st : Strategy} {method : Token} {w : Workpiece} (valid : w.body.Valid)
    (v : Bool) : processChecked (ctx.verifying v) st method w = st.process ctx method w := by
  unfold processChecked
  rw [run_bind, Strategy.process_verifying]
  generalize ran : st.process ctx method w = out
  obtain ⟨r, w'⟩ := out
  cases r with
  | error e => rfl
  | ok changed =>
    have passes := (Strategy.process_valid valid ran).check
    dsimp only
    split
    · simp only [run_bind, Pass.body]
      rw [passes]
      rfl
    · rfl

end Pipeline

/-- All bodies but those of generated methods are valid. -/
def ModuleDef.Sound (holder : TypeName) (m : ModuleDef) : Prop :=
  ∀ id d body, m.typeName id.type ≠ holder → m.method? id = some d → d.body = some body → body.Valid

/-- What is not in the holder was there before. -/
theorem ModuleDef.Extends.method_of_other {holder : TypeName} {R : MethodId → MethodDef → MethodDef → Prop}
    {m m' : ModuleDef} (ext : m.Extends holder R m') {id : MethodId} {d' : MethodDef}
    (other : m'.typeName id.type ≠ holder) (there : m'.method? id = some d') :
    m.typeName id.type ≠ holder ∧ ∃ d, m.method? id = some d ∧ R id d d' := by
  obtain ⟨t', row', here'⟩ := Option.bind_eq_some_iff.1 there
  have old : id.type < m.types.size := by
    refine Nat.lt_of_not_le fun le => other ?_
    have lt := lt_size row'
    rcases ext.added with same | ⟨more, free, methods, last⟩
    · omega
    · have found := ext.find?_new free more last
      rw [show m.types.size = id.type by omega] at found
      exact (find?_eq_some.1 found).1
  rw [ext.typeName old] at other
  refine ⟨other, ?_⟩
  have row := Array.getElem?_eq_getElem old
  obtain ⟨t, row₁, -, methods, size⟩ := ext.types id.type _ row
  cases row₁.symm.trans row'
  have size := size.resolve_right fun found => other (find?_eq_some.1 found).1
  have lt : id.index < m.types[id.type].methods.size := by
    rw [← size]
    exact (Array.getElem?_eq_some_iff.1 here').1
  obtain ⟨d, here, related⟩ := methods id.index _ (Array.getElem?_eq_getElem lt)
  cases here.symm.trans here'
  refine ⟨_, ?_, related⟩
  change (m.types[id.type]?).bind (·.methods[id.index]?) = _
  rw [row]
  exact Array.getElem?_eq_getElem lt

namespace Pipeline

variable {ctx : Context}

structure Sound (ctx : Context) (s : Session) : Prop where
  knows : s.KnowsHolder ctx
  bodies : s.module.Sound ctx.settings.holder

theorem onMethod_verifying {s : Session} (sound : Sound ctx s) (st : Strategy) (id : MethodId)
    (other : s.module.typeName id.type ≠ ctx.settings.holder) :
    onMethod (ctx.verifying true) st id s = onMethod (ctx.verifying false) st id s ∧
      Sound ctx (onMethod (ctx.verifying true) st id s).2 := by
  cases has : (s.module.method? id).bind (·.body) with
  | none =>
    rw [onMethod_of_none has, onMethod_of_none has]
    exact ⟨rfl, sound⟩
  | some body =>
    obtain ⟨d, found, has⟩ := Option.bind_eq_some_iff.1 has
    have valid := sound.bodies id d body other found has
    let w : Workpiece := { session := { s with module := s.module.setBody id none }, body }
    have same (v : Bool) : processChecked (ctx.verifying v) st d.token w = st.process ctx d.token w :=
      processChecked_valid valid v
    constructor
    · obtain ⟨token, name, flags, sig, _⟩ := d
      cases has
      unfold onMethod
      simp only [run_bind, Work.get, found, Work.update, attempt]
      rw [same true, same false]
    · generalize ran : st.process ctx d.token w = out
      obtain ⟨r, w'⟩ := out
      obtain ⟨s', done, leads⟩ := onMethod_puts (ctx.verifying true) st sound.knows found has
        ((same true).trans ran)
      rw [done]
      refine ⟨leads.knows, fun i e body' other there some => ?_⟩
      obtain ⟨other, e₀, there₀, puts⟩ := leads.grows.method_of_other other there
      unfold ModuleDef.PutsBody at puts
      split at puts
      · rw [puts, Option.some.injEq] at some
        rw [← some]
        cases r with
        | error e => exact valid
        | ok changed => exact Strategy.process_valid valid ran
      · rw [puts] at some
        exact sound.bodies i e₀ body' other there₀ some

theorem each_agrees {P : Session → Prop} {α : Type} {f g : α → Work Bool}
    (one : ∀ a s, P s → f a s = g a s ∧ P (f a s).2) : ∀ (l : List α) (s : Session), P s →
      Work.each f l s = Work.each g l s ∧ P (Work.each f l s).2
  | [], s, start => ⟨rfl, start⟩
  | a :: l, s, start => by
    obtain ⟨same, next⟩ := one a s start
    simp only [Work.each, run_bind, ← same]
    generalize f a s = out at next
    obtain ⟨r, s₁⟩ := out
    cases r with
    | error e => exact ⟨rfl, next⟩
    | ok here =>
      obtain ⟨rest, last⟩ := each_agrees one l s₁ next
      dsimp only at last ⊢
      rw [← rest]
      generalize Work.each f l s₁ = out at last
      obtain ⟨r, s₂⟩ := out
      cases r with
      | error e => exact ⟨rfl, last⟩
      | ok there => exact ⟨rfl, last⟩

theorem onType_verifying (st : Strategy) (type : Nat) (s : Session) (sound : Sound ctx s) :
    onType (ctx.verifying true) st type s = onType (ctx.verifying false) st type s ∧
      Sound ctx (onType (ctx.verifying true) st type s).2 := by
  unfold onType
  simp only [run_bind, Work.get]
  have skips (v : Bool) : st.skips (ctx.verifying v).settings s.module type =
      st.skips ctx.settings s.module type := by
    cases st <;> rfl
  rw [skips true, skips false]
  split
  · exact ⟨rfl, sound⟩
  rename_i taken
  -- the type has a row, and is not the holder, from here on
  have there : type < s.module.types.size ∧ s.module.typeName type ≠ ctx.settings.holder := by
    obtain ⟨⟨t, row⟩, other⟩ := visited_of_skips taken
    exact ⟨ModuleDef.lt_size row, other⟩
  obtain ⟨same, sound', -⟩ := each_agrees
    (P := fun s => Sound ctx s ∧ type < s.module.types.size ∧ s.module.typeName type ≠ ctx.settings.holder)
    (f := fun index => onMethod (ctx.verifying true) st ⟨type, index⟩)
    (g := fun index => onMethod (ctx.verifying false) st ⟨type, index⟩) (fun index s hyp => by
      obtain ⟨sound, lt, other⟩ := hyp
      obtain ⟨same, sound'⟩ := onMethod_verifying sound st ⟨type, index⟩ other
      obtain ⟨_, s', done, leads⟩ := onMethod_leads (ctx.verifying true) sound.knows st ⟨type, index⟩
      refine ⟨same, sound', ?_⟩
      rw [done]
      refine ⟨Nat.lt_of_lt_of_le lt leads.grows.size_le, ?_⟩
      rw [leads.grows.typeName lt]
      exact other) (List.range (((s.module.types[type]?).map (·.methods.size)).getD 0)) s ⟨sound, there⟩
  exact ⟨same, sound'⟩

theorem runStage_verifying (strategies : List Strategy) (stage : Stage) (s : Session) (sound : Sound ctx s) :
    runStage (ctx.verifying true) strategies stage s = runStage (ctx.verifying false) strategies stage s ∧
      Sound ctx (runStage (ctx.verifying true) strategies stage s).2 := by
  unfold runStage
  simp only [run_bind, Work.get]
  exact each_agrees (fun visit => onType_verifying visit.1 visit.2) _ s sound

/-- If the bodies of a module pass the check, so do all bodies that strategies make of them: a run
that checks them is the same as one that does not, and what a strategy says to have changed passes. -/
theorem run_verify (ctx : Context) (strategies : List Strategy) (m : ModuleDef)
    (valid : ∀ id d body, m.method? id = some d → d.body = some body →
      body.Reachable ∧ body.check = .ok ()) :
    Pipeline.run (ctx.verifying true) strategies { module := m } =
      Pipeline.run (ctx.verifying false) strategies { module := m } ∧
    ∀ (st : Strategy) (method : Token) (w w' : Workpiece), w.body.Reachable → w.body.check = .ok () →
      st.process ctx method w = (.ok true, w') → w'.body.check = .ok () := by
  have sound : Sound ctx { module := m } := by
    refine ⟨nofun, fun id d body _ found has => ?_⟩
    obtain ⟨reachable, passes⟩ := valid id d body found has
    exact reachable.valid passes
  refine ⟨(each_agrees (fun stage => runStage_verifying strategies stage) Stage.all _ sound).1, ?_⟩
  intro st method w w' reachable passes ran
  exact (Strategy.process_valid (reachable.valid passes) ran).check

/-! ## A call site at the start of a protected range -/

/-- The values of an enum are asked for where a protected range starts. -/
def guarded : Body where
  code := [(⟨0⟩, .typed .ldtoken (.valueType ⟨"Demo", "Color"⟩)), (⟨1⟩, .call .call Platform.getTypeFromHandle),
    (⟨2⟩, .call .call Platform.enumGetValues), (⟨3⟩, ⟨.pop, .none⟩), (⟨4⟩, .branch .leave ⟨6⟩),
    (⟨5⟩, ⟨.endfinally, .none⟩), (⟨6⟩, ⟨.ret, .none⟩)]
  nextIndex := 7
  regions := [{ tryStart := ⟨0⟩, tryEnd := some ⟨5⟩, handlerStart := ⟨5⟩, handlerEnd := some ⟨6⟩ }]

def guardedEdits : List Edit.Op := [
  .push (.typed .ldtoken (.valueType ⟨"Demo", "Color"⟩)), .push (.call .call Platform.getTypeFromHandle),
  .push (.call .call Platform.enumGetValues), .push ⟨.pop, .none⟩, .push ⟨.leave, .none⟩,
  .push ⟨.endfinally, .none⟩, .push ⟨.ret, .none⟩, .setOperand ⟨4⟩ (.target ⟨6⟩),
  .addRegion { tryStart := ⟨0⟩, tryEnd := some ⟨5⟩, handlerStart := ⟨5⟩, handlerEnd := some ⟨6⟩ }]

theorem guarded_reachable : guarded.Reachable := .of_edits guardedEdits rfl

theorem check_guarded : guarded.check = .ok () := by
  rw [guarded_reachable.linked.check_eq_ok guarded_reachable.numbered.nodup]
  refine ⟨by decide, fun p mem index operand => ?_, fun r mem => ?_⟩
  · simp only [guarded, List.mem_cons, List.not_mem_nil, or_false] at mem
    rcases mem with rfl | rfl | rfl | rfl | rfl | rfl | rfl <;> cases operand
  obtain rfl := List.mem_singleton.1 mem
  exact ⟨⟨[], _, _, rfl, by decide⟩, ⟨guarded.code.take 5, _, _, rfl, by decide⟩⟩

def guardedModule : ModuleDef where
  name := "Demo"
  types := #[colorType, {
    ns := "Demo"
    name := "Program"
    flags := TypeFlags.isPublic
    methods := #[{ name := "Main", flags := MethodFlags.isStatic, sig := {}, body := some guarded }] }]
  methodRows := 1

theorem body_guarded {id : MethodId} {d : MethodDef} {body : Body}
    (found : guardedModule.method? id = some d) (has : d.body = some body) : body = guarded := by
  obtain ⟨t, row, here⟩ := Option.bind_eq_some_iff.1 found
  obtain ⟨type, index⟩ := id
  match type, index with
  | 0, index =>
    cases row
    cases here
  | 1, 0 =>
    cases row
    cases here
    exact (Option.some.inj has).symm
  | 1, index + 1 =>
    cases row
    cases here
  | type + 2, index => cases row

theorem run_verify_guarded : guarded.Reachable ∧ guarded.check = .ok () ∧
    Pipeline.run (Context.verifying {} true) Strategy.all { module := guardedModule } =
      Pipeline.run (Context.verifying {} false) Strategy.all { module := guardedModule } := by
  refine ⟨guarded_reachable, check_guarded, (run_verify {} Strategy.all guardedModule ?_).1⟩
  intro id d body found has
  rw [body_guarded found has]
  exact ⟨guarded_reachable, check_guarded⟩

end Pipeline

end CilForge
