import CilForge.Proofs.CallSite.Align
import CilForge.Proofs.CallSite.Upkeep
import CilForge.Proofs.Pipeline.Provides
import Mathlib.Data.List.Induction

/-!
# Visits

What a visit to an instruction does, and a run over a body, in terms of its cells.
-/

namespace CilForge.CallSite

open Body

/-! ## Faults of a search -/

def Local {α : Type} (x : Except Fault α) : Prop := ∀ e, x = .error e → e.isLocal = true

section
variable {α β : Type}

theorem Local.bind {x : Except Fault α} {k : α → Except Fault β} (hx : Local x) (hk : ∀ a, Local (k a)) :
    Local (x >>= k) := by
  cases x with
  | error e => exact fun e' eq => hx e' (by cases eq; rfl)
  | ok a => exact hk a

theorem local_ok (a : α) : Local (.ok a) := fun _ eq => by cases eq

theorem local_mapM {f : α → Except Fault β} (hf : ∀ a, Local (f a)) : ∀ l : List α, Local (l.mapM f)
  | [] => by
    rw [List.mapM_nil]
    exact local_ok []
  | a :: l => by
    rw [List.mapM_cons]
    exact (hf a).bind fun _ => (local_mapM hf l).bind fun _ => local_ok _

theorem local_guard {c : Prop} [Decidable c] {e : Fault} {k : α → Except Fault β} {y : Except Fault β}
    (here : e.isLocal = true) (hy : Local y) : Local (if c then throw e >>= k else y) := by
  split
  · exact fun e' eq => by cases eq; exact here
  · exact hy

theorem local_search_bind {x : Search α} {k : α → Search β} (hx : Local x.run)
    (hk : ∀ a, Local (k a).run) : Local (x >>= k).run := by
  rw [OptionT.run_bind]
  refine hx.bind fun o => ?_
  cases o with
  | none => exact local_ok _
  | some a => exact hk a

theorem local_ofOption (o : Option α) : Local (Search.ofOption o).run := local_ok o

theorem local_ofExcept {e : Except Fault α} (he : Local e) : Local (Search.ofExcept e).run := by
  rw [Search.ofExcept, OptionT.run_lift]
  exact he.bind fun a => local_ok (some a)

theorem local_pure (a : α) : Local (pure a : Search α).run := local_ok _

theorem local_failure : Local (failure : Search α).run := local_ok _

theorem local_ite {c : Prop} [Decidable c] {x y : Search α} (hx : Local x.run) (hy : Local y.run) :
    Local (if c then x else y).run := by
  split
  · exact hx
  · exact hy

theorem local_unless {c : Prop} [Decidable c] {x : Search PUnit} {k : PUnit → Search α}
    (hx : Local x.run) (hk : ∀ u, Local (k u).run) : Local (if c then x >>= k else k ⟨⟩).run :=
  local_ite (local_search_bind hx hk) (hk ⟨⟩)

theorem local_refuse (cause : Unsupported) : Local (Search.refuse cause : Search α).run :=
  local_ofExcept fun _ eq => by cases eq; rfl

end

variable {ctx : Context} {m : ModuleDef} {b : Body} 

theorem local_resolve (lib : Library) (m : ModuleDef) (name : TypeName) : Local (lib.resolve m name) := by
  unfold Library.resolve
  split
  · exact local_ok _
  · split
    · exact local_ok _
    · exact fun _ eq => by cases eq; rfl

theorem local_ofSig (lib : Library) (m : ModuleDef) (sig : Sig) : Local (EnumInfo.ofSig lib m sig) := by
  have unsupported {α : Type} (cause : Unsupported) : Local (.error (.unsupported cause) : Except Fault α) :=
    fun _ eq => by cases eq; rfl
  unfold EnumInfo.ofSig
  split
  · refine (local_resolve lib m _).bind fun t => ?_
    unfold EnumInfo.ofType
    refine local_guard rfl (local_guard rfl ?_)
    split
    · exact unsupported _
    · split
      · exact unsupported _
      · refine (local_mapM (fun f => ?_) _).bind fun _ => local_ok _
        unfold EnumInfo.readConstant
        split
        · exact local_ok _
        · exact unsupported _
  · exact unsupported _

theorem describe_local (e : Sig) : Local (describe ctx m e).run := local_ofExcept (local_ofSig _ _ _)

theorem matchIsDefined_local (A R T : Handle) (e : Sig) : Local (matchIsDefined ctx m b A R T e).run := by
  unfold matchIsDefined
  refine local_search_bind (local_ofOption _) fun _ => local_search_bind (local_ofOption _) fun _ =>
    local_search_bind (local_ofOption _) fun _ => local_search_bind (describe_local e) fun d => ?_
  dsimp only
  split
  · exact local_unless (local_refuse _) fun _ => local_pure _
  · refine local_unless (local_refuse _) fun _ => local_unless (local_refuse _) fun _ => ?_
    split <;> exact local_pure _

theorem matchToken_local (A : Handle) : Local (matchToken ctx m b A).run := by
  unfold matchToken
  refine local_search_bind (local_ofOption _) fun _ => local_search_bind (local_ofOption _) fun e =>
    local_search_bind (local_ofOption _) fun _ => local_unless local_failure fun _ =>
    local_search_bind (local_ofOption _) fun _ => local_ite ?_ (local_ite ?_ ?_)
  · exact local_search_bind (describe_local e) fun _ => local_pure _
  · exact local_search_bind (describe_local e) fun _ => local_pure _
  · exact matchIsDefined_local _ _ _ _

theorem matchLiteral_local (A : Handle) : Local (matchLiteral ctx m b A).run := by
  unfold matchLiteral
  refine local_search_bind (local_ofOption _) fun _ => local_search_bind (local_ofOption _) fun _ =>
    local_unless local_failure fun _ => local_search_bind (local_ofOption _) fun e =>
    local_search_bind (local_ofOption _) fun _ => local_ite ?_ ?_
  · exact local_search_bind (describe_local e) fun _ => local_pure _
  · exact local_search_bind (local_ofOption _) fun _ => local_search_bind (local_ofOption _) fun _ =>
      local_unless local_failure fun _ => local_search_bind (local_ofOption _) fun _ =>
      local_search_bind (local_ofOption _) fun _ => local_search_bind (describe_local e) fun _ =>
      local_pure _

theorem matchBox_local (A : Handle) : Local (matchBox ctx m b A).run := by
  unfold matchBox
  refine local_search_bind (local_ofOption _) fun _ => local_search_bind (local_ofOption _) fun e =>
    local_search_bind (local_ofOption _) fun _ => local_ite ?_ ?_
  · exact local_search_bind (describe_local e) fun _ => local_pure _
  · refine local_search_bind (local_ofOption _) fun _ => local_search_bind (local_ofOption _) fun _ =>
      local_search_bind (local_ofOption _) fun _ => local_search_bind (local_ofOption _) fun _ =>
      local_search_bind (describe_local e) fun _ => ?_
    exact local_ite (local_pure _) (local_pure _)

theorem matchConstrained_local (A : Handle) : Local (matchConstrained ctx m b A).run := by
  unfold matchConstrained
  exact local_search_bind (local_ofOption _) fun e => local_search_bind (local_ofOption _) fun _ =>
    local_unless local_failure fun _ => local_search_bind (describe_local e) fun _ => local_pure _

theorem matchAt_local (h : Handle) : Local (matchAt ctx m b h) := by
  unfold matchAt
  split
  · exact local_ok _
  · split
    · exact matchToken_local h
    · exact matchLiteral_local h
    · exact matchLiteral_local h
    · split
      · exact local_ok _
      · exact matchBox_local h
    · exact matchConstrained_local h
    · exact local_ok _

/-! ## What is found -/

section
variable {A : Handle} {a : Instr} {pre post : Lines}

def cellAt (b : Body) (p : Handle × Instr) : Cell := ⟨p.2.seen, isJoin b p.1⟩

theorem constant_of_matchLiteral {P : Handle} {p : Instr} {s : Site} (there : b.get? P = some p)
    (found : (matchLiteral ctx m b P).run = .ok (some s)) : (constant? p).isSome = true := by
  rw [matchLiteral, run_search_bind] at found
  obtain ⟨w, first, -⟩ := found
  rw [run_ofOption, there, Option.bind_some] at first
  rw [first]
  rfl

variable (nodup : b.handles.Nodup) (code : b.code = pre ++ (A, a) :: post)
include nodup code

theorem literalBefore_iff : literalBefore ctx m b A = true ↔ ∃ k rest,
    (cellsOf b pre).reverse = k :: rest ∧ (constant? k.instr).isSome = true ∧
      Starts (known ctx m) (k :: cellsOf b ((A, a) :: post)) := by
  unfold literalBefore
  rw [prev?_of_append nodup code]
  rcases List.eq_nil_or_concat pre with rfl | ⟨pre, ⟨P, p⟩, rfl⟩
  · simp [cellsOf]
  have code' : b.code = pre ++ (P, p) :: (A, a) :: post := by simpa using code
  have there := get?_of_append nodup code'
  have cells : (cellsOf b (pre ++ [(P, p)])).reverse = cellAt b (P, p) :: (cellsOf b pre).reverse := by
    simp [cellsOf, cellAt]
  simp only [List.concat_eq_append, List.getLast?_concat, Option.map_some, cells, List.cons.injEq]
  constructor
  · intro found
    split at found
    · rename_i s eq
      have constant := constant_of_matchLiteral there eq
      obtain ⟨w, hw⟩ := Option.isSome_iff_exists.1 constant
      refine ⟨_, _, ⟨rfl, rfl⟩, by simpa [cellAt] using constant, ?_⟩
      exact (starts_iff nodup code').2 ⟨s, by rw [search_literal nodup code' hw, eq]⟩
    · cases found
  · rintro ⟨k, rest, ⟨rfl, rfl⟩, constant, starts⟩
    obtain ⟨s, found⟩ := (starts_iff nodup code').1 starts
    obtain ⟨w, hw⟩ := Option.isSome_iff_exists.1 constant
    rw [search_literal nodup code' (by simpa [cellAt] using hw)] at found
    rw [found]

theorem matchAt_eq : matchAt ctx m b A =
    if a.opcode = .box ∧ literalBefore ctx m b A = true then .ok none else search ctx m b A := by
  rw [search_of_get nodup code, matchAt, get?_of_append nodup code]
  dsimp only
  split <;> rename_i opcode <;> simp [opcode]

theorem found_iff : Found (known ctx m) (cellsOf b pre).reverse (cellAt b (A, a)) (cellsOf b post) ↔
    ∃ s, matchAt ctx m b A = .ok (some s) := by
  have starts : Starts (known ctx m) (cellsOf b ((A, a) :: post)) ↔ _ := starts_iff nodup code
  have covered : literalBefore ctx m b A = true ↔ _ := literalBefore_iff nodup code
  rw [matchAt_eq nodup code]
  constructor
  · rintro ⟨here, bare⟩
    have bare : ¬ literalBefore ctx m b A = true := fun yes => bare (covered.1 yes)
    simpa [bare] using starts.1 here
  · rintro ⟨s, found⟩
    split at found
    · cases found
    · rename_i bare
      refine ⟨starts.2 ⟨s, found⟩, fun before => bare ⟨?_, covered.2 before⟩⟩
      obtain ⟨k, rest, -, constant, larger⟩ := before
      exact larger.box_behind constant

/-- The site that is found has the shape that the cells have. -/
theorem Found.matchAt {r : Recipe} {F V B : List Instr} {join : Bool} {rest : List Cell}
    (found : Found (known ctx m) (cellsOf b pre).reverse (cellAt b (A, a)) (cellsOf b post))
    (shape : Shape (known ctx m) r F V B)
    (cells : cellsOf b ((A, a) :: post) = stretch join (F ++ V ++ B) ++ rest) :
    ∃ front operand back post', (A, a) :: post = front ++ operand ++ back ++ post' ∧
      Stands (known ctx m) b r pre front operand back post' ∧ front.head?.map (·.1) = some A ∧
      sight operand = V ∧ cellsOf b post' = rest ∧
      CallSite.matchAt ctx m b A = .ok (some (r.site (front.map (·.1)) (back.map (·.1)))) := by
  obtain ⟨front, operand, back, post', split, stands, -, operands, -, last⟩ :=
    stands_of_cells code shape cells
  obtain ⟨A', a', rest', rfl⟩ := stands.exists_head
  have head : A' = A := congrArg (fun l => ((l.head?).map (·.1)).getD A) split.symm
  subst head
  refine ⟨_, operand, back, post', split, stands, rfl, operands, last, ?_⟩
  have bare : ¬ (a.opcode = .box ∧ literalBefore ctx m b A' = true) := fun yes =>
    found.2 ((literalBefore_iff nodup code).1 yes.2)
  rw [matchAt_eq nodup code, if_neg bare]
  exact search_of_stands nodup stands rfl

end

/-! ## Requests of a visit -/

structure Asked (ctx : Context) (asks : List (Operation × EnumInfo)) (s s' : Session) : Prop where
  tended : s'.Tended ctx
  grows : s.module.Extends ctx.settings.holder (fun _ d d' => d' = d) s'.module
  provides : ∀ ask ∈ asks, s'.module.Provides ctx.settings.holder ask.1 ask.2.name
  /-- What was provided needs nothing new. -/
  quiet : (∀ ask ∈ asks, s.module.Provides ctx.settings.holder ask.1 ask.2.name) →
    s'.module = s.module ∧ s'.generated.created = s.generated.created

section
variable {s s' s'' : Session} {asks asks' : List (Operation × EnumInfo)}

theorem asked_same (tended : s.Tended ctx) (module : s'.module = s.module)
    (generated : s'.generated = s.generated) : Asked ctx [] s s' := by
  refine ⟨?_, by rw [module]; exact .same _, nofun, fun _ => ⟨module, by rw [generated]⟩⟩
  obtain ⟨knows, reserves, cached⟩ := tended
  refine ⟨?_, by rw [module]; exact reserves, ?_⟩
  · unfold Session.KnowsHolder
    rw [module, generated]
    exact knows
  · rw [module, generated]
    exact cached

theorem named_of_eq : ∀ (i : MethodId) (d d' : MethodDef), d' = d → MethodDef.Named i d d' :=
  fun _ _ _ eq => ⟨congrArg _ eq, congrArg _ eq⟩

theorem Asked.trans (first : Asked ctx asks s s') (second : Asked ctx asks' s' s'') :
    Asked ctx (asks ++ asks') s s'' := by
  refine ⟨second.tended, first.grows.comp second.grows fun _ _ _ _ eq eq' => eq'.trans eq,
    fun ask mem => ?_, fun all => ?_⟩
  · rcases List.mem_append.1 mem with mem | mem
    · exact (second.grows.named named_of_eq).provides (first.provides ask mem)
    · exact second.provides ask mem
  · obtain ⟨module, created⟩ := first.quiet fun ask mem => all ask (List.mem_append_left _ mem)
    obtain ⟨module', created'⟩ := second.quiet fun ask mem => by
      rw [module]
      exact all ask (List.mem_append_right _ mem)
    exact ⟨module'.trans module, created'.trans created⟩

theorem asked_helper (tended : s.Tended ctx) (op : Operation) (d : EnumInfo) :
    ∃ ref s', helper ctx op d s = (.ok ref, s') ∧ Asked ctx [(op, d)] s s' ∧
      Platform.isKnown ref = false ∧ ref.sig = op.sig d.sig := by
  obtain ⟨ref, s', done, tended', unknown, sig, provides, quiet⟩ := helper_provides tended op d
  have grows := (Session.helper_leads tended.knows op d).grows
  rw [done] at grows
  refine ⟨ref, s', done, ⟨tended', grows, by simpa using provides, fun all => ?_⟩, unknown, sig⟩
  exact quiet (all (op, d) (List.mem_singleton_self _))

theorem Asked.known (asked : Asked ctx asks s s') (tended : s.Tended ctx) :
    known ctx s'.module = known ctx s.module :=
  known_extends asked.grows tended.reserves

end

theorem apply_site {w : Workpiece} (tended : w.session.Tended ctx) (r : Recipe) (hs hs' : List Handle) :
    ∃ ref s', r.Fits ref ∧ Asked ctx r.requests w.session s' ∧ (r.site hs hs').apply ctx w =
      (((r.plan.change hs hs').edit r.info ref w.body).1,
        ⟨s', ((r.plan.change hs hs').edit r.info ref w.body).2⟩) := by
  have edits (e : Edit Unit) (v : Workpiece) : Pass.edit e v = ((e v.body).1, ⟨v.session, (e v.body).2⟩) := rfl
  have alone (none : r.operation? = none) : Asked ctx r.requests w.session w.session := by
    rw [Recipe.requests, none]
    exact asked_same tended rfl rfl
  have fitting (none : r.operation? = none) : r.Fits default := by
    intro op some
    rw [none] at some
    cases some
  have asks (op : Operation) (some : r.operation? = some op) : ∃ ref s', r.Fits ref ∧
      Asked ctx r.requests w.session s' ∧
      Pass.work (helper ctx op r.info) w = (.ok ref, { w with session := s' }) := by
    obtain ⟨ref, s', done, asked, unknown, sig⟩ := asked_helper tended op r.info
    refine ⟨ref, s', ?_, ?_, ?_⟩
    · intro op' same
      rw [some] at same
      cases same
      exact ⟨unknown, sig⟩
    · rw [Recipe.requests, some]
      exact asked
    · unfold Pass.work
      rw [done]
  unfold Site.apply
  unfold Recipe.operation? at alone fitting asks
  cases plan : r.plan with
  | fold | underlying | hasFlag =>
    refine ⟨default, _, fitting (by rw [plan]), alone (by rw [plan]), ?_⟩
    simp [Recipe.site, plan, Plan.change, Change.edit, edits]
  | redirect op =>
    obtain ⟨ref, s', fits, asked, done⟩ := asks op (by rw [plan])
    refine ⟨ref, s', fits, asked, ?_⟩
    simp [Recipe.site, plan, Plan.change, Change.edit, run_bind, done, edits]
  | constrained =>
    obtain ⟨ref, s', fits, asked, done⟩ := asks .toString (by rw [plan])
    refine ⟨ref, s', fits, asked, ?_⟩
    simp [Recipe.site, plan, Plan.change, Change.edit, run_bind, done, edits]

/-! ## Visits and runs -/

structure Going (ctx : Context) (desc : Sig → Option EnumInfo) (w : Workpiece) : Prop where
  tended : w.session.Tended ctx
  known : CallSite.known ctx w.session.module = desc
  numbered : w.body.Numbered
  linked : w.body.Linked

structure Carried (b b' : Body) : Prop where
  fit : b.Fit → b'.Fit
  leveled : Leveled b → Leveled b'

theorem Carried.refl (b : Body) : Carried b b := ⟨id, id⟩

theorem Carried.trans {b b' b'' : Body} (first : Carried b b') (second : Carried b' b'') : Carried b b'' :=
  ⟨second.fit ∘ first.fit, second.leveled ∘ first.leveled⟩

/-- A visit to a site takes notes of the change, and nothing more. -/
theorem visit_of_site (method : Token) {h : Handle} {w w₁ : Workpiece} {site : Site} {r : Except Fault Unit}
    (found : matchAt ctx w.session.module w.body h = .ok (some site))
    (applied : site.apply ctx w = (r, w₁)) : ∃ w', visit ctx method h w = (r.map fun _ => true, w') ∧
      w'.body = w₁.body ∧ w'.session.module = w₁.session.module ∧
      w'.session.generated = w₁.session.generated := by
  generalize ran : visit ctx method h w = result
  obtain ⟨outcome, w'⟩ := result
  cases visit_cases ran with
  | nothing none => cases found.symm.trans none
  | skipped _ _ _ failed => cases found.symm.trans failed
  | refused failed => cases found.symm.trans failed
  | done _ _ _ found' applied' =>
    cases found.symm.trans found'
    cases applied.symm.trans applied'
    exact ⟨_, rfl, rfl, rfl, rfl⟩
  | failed found' applied' =>
    cases found.symm.trans found'
    cases applied.symm.trans applied'
    exact ⟨_, rfl, rfl, rfl, rfl⟩

theorem room_of_hasFlag {firstBox secondBox call : Handle} {k : IntKind} {b' : Body}
    (done : hasFlagEdit firstBox secondBox call k b = (.ok (), b')) : b.locals.size < room := by
  obtain ⟨temp, b₁, added, -⟩ := Edit.bind_eq_ok.1 done
  unfold Edit.addLocal at added
  split at added
  · assumption
  · cases added

section
variable {desc : Sig → Option EnumInfo} {w : Workpiece} (method : Token) {A : Handle} {a : Instr}
  {pre post : Lines} (going : Going ctx desc w) (code : w.body.code = pre ++ (A, a) :: post)
include going code

theorem visit_pass (none : ¬ Found desc (cellsOf w.body pre).reverse (cellAt w.body (A, a)) (cellsOf w.body post)) :
    ∃ w', visit ctx method A w = (.ok false, w') ∧ w'.body = w.body ∧ Going ctx desc w' ∧
      Asked ctx [] w.session w'.session := by
  have unfound : ∀ s, matchAt ctx w.session.module w.body A ≠ .ok (some s) := by
    intro s found
    refine none ?_
    rw [← going.known]
    exact (found_iff going.numbered.nodup code).2 ⟨s, found⟩
  generalize ran : visit ctx method A w = result
  obtain ⟨outcome, w'⟩ := result
  have done : outcome = .ok false := by
    cases visit_cases ran with
    | nothing => rfl
    | skipped => rfl
    | done _ _ _ found => exact absurd found (unfound _)
    | failed found => exact absurd found (unfound _)
    | refused failed far =>
      rw [matchAt_local A _ failed] at far
      cases far
  subst done
  obtain ⟨body, module, generated⟩ := visit_false ran
  have asked := asked_same going.tended module generated
  refine ⟨w', rfl, body, ⟨asked.tended, ?_, ?_, ?_⟩, asked⟩
  · rw [module]
    exact going.known
  · rw [body]
    exact going.numbered
  · rw [body]
    exact going.linked

/-- The site of a shape is changed, or there is no room for its local. -/
theorem visit_turn {r : Recipe} {F V B : List Instr} {join : Bool} {rest : List Cell}
    (found : Found desc (cellsOf w.body pre).reverse (cellAt w.body (A, a)) (cellsOf w.body post))
    (shape : Shape desc r F V B) (cells : cellsOf w.body ((A, a) :: post) = stretch join (F ++ V ++ B) ++ rest) :
    (r.plan = .hasFlag ∧ room ≤ w.body.locals.size ∧ ∃ e w', visit ctx method A w = (.error e, w') ∧
      Asked ctx [] w.session w'.session) ∨
    ∃ w' pre' post', visit ctx method A w = (.ok true, w') ∧ Going ctx desc w' ∧
      Asked ctx r.requests w.session w'.session ∧ Carried w.body w'.body ∧
      w'.body.code = pre' ++ post' ∧ pre'.map (·.1) = pre.map (·.1) ∧
      cellsOf w'.body pre' = cellsOf w.body pre ∧
      cellsOf w'.body post' = stretch join (r.newFront ++ V ++ r.newBack) ++ rest ∧
      w'.body.locals.size = w.body.locals.size + r.plan.locals ∧
      (r.plan = .hasFlag → w.body.locals.size < room) := by
  obtain ⟨tended, rfl, num, linked⟩ := going
  obtain ⟨front, operand, back, post', split, stands, head, rfl, rfl, site⟩ :=
    found.matchAt num.nodup code shape cells
  obtain ⟨ref, s', fits, asked, applied⟩ := apply_site tended r (front.map (·.1)) (back.map (·.1))
  -- the first cell of the stretch is that of the line the site starts at
  have joined : join = isJoin w.body A := by
    obtain ⟨x, F, rfl, -⟩ := shape.opens
    have := congrArg (fun l => (l.head?).map (·.join)) cells
    simp [cellsOf, stretch] at this
    exact this.symm
  rcases stands.turn num linked head ref with ⟨flag, full, refused⟩ | ⟨F', B', f, b', done, turned⟩
  · rw [refused] at applied
    obtain ⟨w', ran, -, module, generated⟩ := visit_of_site method site applied
    refine .inl ⟨flag, full, _, w', ran, ?_⟩
    have none : r.requests = [] := by
      rw [Recipe.requests, Recipe.operation?, flag]
      rfl
    rw [none] at asked
    exact asked.trans (asked_same asked.tended module generated)
  · rw [done] at applied
    obtain ⟨w', ran, body, module, generated⟩ := visit_of_site method site applied
    obtain ⟨pre', new, code', handles, before, behind⟩ := turned.cells stands num linked head
    have body : w'.body = b' := body
    subst body
    have asked' := asked.trans (asked_same asked.tended module generated)
    rw [List.append_nil] at asked'
    have going' : Going ctx (known ctx w.session.module) w' :=
      ⟨asked'.tended, asked'.known tended, turned.numbered, turned.linked num stands head linked⟩
    refine .inr ⟨w', pre', new, ran, going', asked',
      ⟨fun fit => turned.fit num stands head fit,
        fun leveled => turned.leveled num stands head leveled fits linked⟩,
      code', handles, before, ?_, turned.locals, fun flag => ?_⟩
    · rw [behind, Recipe.back_seen fits, joined]
      rfl
    · rw [flag] at done
      exact room_of_hasFlag done

end

theorem exists_last {c : Cell} {before : List Cell} {pre : Lines}
    (cells : c :: before = (cellsOf b pre).reverse) :
    ∃ pre₀ p, pre = pre₀ ++ [p] ∧ c = cellAt b p ∧ before = (cellsOf b pre₀).reverse := by
  rcases List.eq_nil_or_concat pre with rfl | ⟨pre₀, p, rfl⟩
  · cases cells
  · simp only [cellsOf, List.concat_eq_append, List.map_append, List.map_cons, List.map_nil,
      List.reverse_append, List.reverse_cons, List.reverse_nil, List.nil_append, List.cons_append,
      List.cons.injEq] at cells
    exact ⟨pre₀, p, List.concat_eq_append .., cells.1, cells.2⟩

/-- How a run ends: with a fault where there is no room, else with the given cells. -/
def Reached (ctx : Context) (desc : Sig → Option EnumInfo) (b : Body) (result : Except Fault Bool)
    (w : Workpiece) : Option (List Cell) → Prop
  | none => ∃ e, result = .error e
  | some cs => Going ctx desc w ∧ Carried b w.body ∧ cellsOf w.body w.body.code = cs ∧
    ∃ changed, result = .ok changed

theorem Reached.later {desc : Sig → Option EnumInfo} {b b' : Body} {result : Except Fault Bool}
    {w : Workpiece} {out : Option (List Cell)} (carried : Carried b b') (here : Bool)
    (reached : Reached ctx desc b' result w out) : Reached ctx desc b (result.map (here || ·)) w out := by
  cases out with
  | none =>
    obtain ⟨e, rfl⟩ := reached
    exact ⟨e, rfl⟩
  | some cs =>
    obtain ⟨going', carried', cells, changed, rfl⟩ := reached
    exact ⟨going', carried.trans carried', cells, _, rfl⟩

/-- A run over the lines before some point does what a sweep over their cells does. -/
theorem visitAll_of_sweeps {desc : Sig → Option EnumInfo} (method : Token) {before cells : List Cell} {n : Nat}
    {asks : List (Operation × EnumInfo)} {out : Option (List Cell)}
    (sweeps : Sweeps desc before cells n asks out) {w : Workpiece} {pre post : Lines}
    (going : Going ctx desc w) (code : w.body.code = pre ++ post)
    (first : before = (cellsOf w.body pre).reverse) (second : cells = cellsOf w.body post)
    (locals : n = w.body.locals.size) :
    ∃ result w', visitAll ctx method (pre.map (·.1)).reverse w = (result, w') ∧
      Asked ctx asks w.session w'.session ∧ Reached ctx desc w.body result w' out := by
  -- on the sweep: what a visit leaves behind the line is what the sweep has there
  induction sweeps generalizing w pre post with
  | done =>
    have none : pre = [] := by
      rw [eq_comm, List.reverse_eq_nil_iff] at first
      exact List.map_eq_nil_iff.1 first
    subst none
    refine ⟨.ok false, w, rfl, asked_same going.tended rfl rfl, going, .refl _, ?_, false, rfl⟩
    rw [second, code, List.nil_append]
  | @pass before cells c n asks out none sweeps ih =>
    subst second
    obtain ⟨pre, ⟨A, a⟩, rfl, rfl, rfl⟩ := exists_last first
    have code' : w.body.code = pre ++ (A, a) :: post := by simpa using code
    obtain ⟨w₁, ran, body, going₁, asked₁⟩ := visit_pass method going code' none
    obtain ⟨result, w', rest, asked, outcome⟩ := ih (w := w₁) going₁
      (body.symm ▸ code' : w₁.body.code = pre ++ (A, a) :: post)
      (by rw [body]) (by rw [body]; rfl) (by rw [body]; exact locals)
    rw [body] at outcome
    refine ⟨result.map (false || ·), w', ?_, asked₁.trans asked, outcome.later (.refl _) _⟩
    rw [List.map_append, List.reverse_append]
    exact visitAll_cons ran rest
  | @turn before cells rest c n asks out r F V B join found shape eq enough sweeps ih =>
    subst second
    obtain ⟨pre, ⟨A, a⟩, rfl, rfl, rfl⟩ := exists_last first
    have code' : w.body.code = pre ++ (A, a) :: post := by simpa using code
    rcases visit_turn method going code' found shape eq with ⟨flag, full, -⟩ |
      ⟨w₁, pre₁, post₁, ran, going₁, asked₁, carried₁, code₁, handles, before₁, behind₁, locals₁, -⟩
    · have := enough flag
      omega
    obtain ⟨result, w', rest, asked, outcome⟩ := ih (w := w₁) going₁ code₁
      (by rw [before₁]) behind₁.symm (by rw [locals₁, locals])
    refine ⟨result.map (true || ·), w', ?_, asked₁.trans asked, outcome.later carried₁ _⟩
    rw [List.map_append, List.reverse_append]
    rw [handles] at rest
    exact visitAll_cons ran rest
  | @full before cells rest c n r F V B join found shape eq flag many =>
    subst second
    obtain ⟨pre, ⟨A, a⟩, rfl, rfl, rfl⟩ := exists_last first
    have code' : w.body.code = pre ++ (A, a) :: post := by simpa using code
    rcases visit_turn method going code' found shape eq with ⟨-, -, e, w', ran, asked⟩ |
      ⟨-, -, -, -, -, -, -, -, -, -, -, -, some⟩
    · refine ⟨.error e, w', ?_, asked, e, rfl⟩
      rw [List.map_append, List.reverse_append]
      change visitAll ctx method (A :: (pre.map (·.1)).reverse) w = _
      rw [visitAll, run_bind, ran]
    · have := some flag
      omega

theorem visitAll_silent {desc : Sig → Option EnumInfo} (method : Token) (pre : Lines) {post : Lines}
    {w : Workpiece} (silent : Silent desc (cellsOf w.body w.body.code)) (going : Going ctx desc w)
    (code : w.body.code = pre ++ post) :
    ∃ w', visitAll ctx method (pre.map (·.1)).reverse w = (.ok false, w') ∧ w'.body = w.body ∧
      Asked ctx [] w.session w'.session := by
  induction pre using List.reverseRecOn generalizing post w with
  | nil => exact ⟨w, rfl, rfl, asked_same going.tended rfl rfl⟩
  | append_singleton pre p ih =>
    obtain ⟨A, a⟩ := p
    have code' : w.body.code = pre ++ (A, a) :: post := by simpa using code
    have none : ¬ Found desc (cellsOf w.body pre).reverse (cellAt w.body (A, a)) (cellsOf w.body post) := by
      intro found
      refine silent (cellsOf w.body pre) (cellsOf w.body ((A, a) :: post)) ?_ found.1
      rw [code', cellsOf, List.map_append]
      rfl
    obtain ⟨w₁, ran, body, going₁, asked₁⟩ := visit_pass method going code' none
    obtain ⟨w', rest, body', asked⟩ := ih (w := w₁) (by rw [body]; exact silent) going₁ (by rw [body]; exact code')
    refine ⟨w', ?_, body'.trans body, asked₁.trans asked⟩
    rw [List.map_append, List.reverse_append]
    exact visitAll_cons ran rest

/-! ## Preparations -/

theorem operation?_site (r : Recipe) (hs hs' : List Handle) : (r.site hs hs').operation? = r.operation? := by
  unfold Recipe.site Site.operation? Recipe.operation?
  cases r.plan <;> rfl

/-- What is done for the site at an instruction ahead of its change. -/
def prepareAt (ctx : Context) (method : Token) (b : Body) (h : Handle) : Work Unit := do
  match matchAt ctx (← Work.get).module b h with
  | .ok none => pure ()
  | .ok (some site) =>
    match site.operation? with
    | some op => let _ ← helper ctx op site.info
    | none => pure ()
  | .error e =>
    if !e.isLocal then throw e
    Work.update (·.note .trace s!"{method.text}: no helper for site at {h.text} - {e.text}")

section
variable {desc : Sig → Option EnumInfo} {s : Session} {A : Handle} {a : Instr} {pre post : Lines}
  (tended : s.Tended ctx) (known : known ctx s.module = desc) (nodup : b.handles.Nodup)
include tended known nodup

theorem prepareAt_asked (method : Token) (code : b.code = pre ++ (A, a) :: post) :
    ∃ asks s', prepareAt ctx method b A s = (.ok (), s') ∧ Asked ctx asks s s' ∧ ∀ ask, ask ∈ asks ↔
      WantsAt desc (cellsOf b pre).reverse (cellAt b (A, a)) (cellsOf b post) ask := by
  subst known
  unfold prepareAt
  simp only [run_bind, Work.get]
  by_cases found : Found (known ctx s.module) (cellsOf b pre).reverse (cellAt b (A, a)) (cellsOf b post)
  · -- whatever shape the site is given, it is the site that the search finds
    have shaped {r : Recipe} {F V B : List Instr} {join : Bool} {rest : List Cell}
        (shape : Shape (known ctx s.module) r F V B)
        (cells : cellsOf b ((A, a) :: post) = stretch join (F ++ V ++ B) ++ rest) :
        ∃ hs hs', matchAt ctx s.module b A = .ok (some (r.site hs hs')) := by
      obtain ⟨front, -, back, -, -, -, -, -, -, site⟩ := found.matchAt nodup code shape cells
      exact ⟨_, _, site⟩
    obtain ⟨r, F, V, B, join, rest, shape, cells⟩ := found.1
    obtain ⟨hs, hs', site⟩ := shaped shape cells
    have only : ∀ ask, ask ∈ r.requests ↔
        WantsAt (known ctx s.module) (cellsOf b pre).reverse (cellAt b (A, a)) (cellsOf b post) ask := by
      intro ask
      refine ⟨fun mem => ⟨found, r, F, V, B, join, rest, shape, cells, mem⟩, ?_⟩
      rintro ⟨-, r', F', V', B', join', rest', shape', cells', mem⟩
      obtain ⟨ks, ks', site'⟩ := shaped shape' cells'
      rw [site, Except.ok.injEq, Option.some.injEq] at site'
      have same : r.requests = r'.requests := by
        unfold Recipe.requests
        rw [← operation?_site r hs hs', ← operation?_site r' ks ks', site',
          show r.info = r'.info from congrArg Site.info site']
      rwa [same]
    rw [site]
    dsimp only
    rw [operation?_site]
    cases op : r.operation? with
    | none =>
      refine ⟨r.requests, s, rfl, ?_, only⟩
      rw [Recipe.requests, op]
      exact asked_same tended rfl rfl
    | some op' =>
      obtain ⟨ref, s', done, asked, -⟩ := asked_helper tended op' r.info
      refine ⟨r.requests, s', ?_, ?_, only⟩
      · dsimp only
        rw [run_bind]
        rw [show (r.site hs hs').info = r.info from rfl, done]
        rfl
      · rw [Recipe.requests, op]
        exact asked
  · have none : ∀ ask, ask ∈ ([] : List (Operation × EnumInfo)) ↔
        WantsAt (CallSite.known ctx s.module) (cellsOf b pre).reverse (cellAt b (A, a)) (cellsOf b post) ask :=
      fun ask => ⟨fun mem => absurd mem List.not_mem_nil, fun wants => absurd wants.1 found⟩
    cases matched : matchAt ctx s.module b A with
    | ok o =>
      cases o with
      | none => exact ⟨[], s, rfl, asked_same tended rfl rfl, none⟩
      | some site => exact absurd ((found_iff nodup code).2 ⟨site, matched⟩) found
    | error e =>
      have here := matchAt_local A e matched
      simp only [here]
      exact ⟨[], _, rfl, asked_same tended rfl rfl, none⟩

/-- What the sites of a body ask for is provided, ahead of their changes. -/
theorem prepare_asked (method : Token) : ∃ asks s', prepare ctx method b s = (.ok (), s') ∧
    Asked ctx asks s s' ∧ ∀ ask, ask ∈ asks ↔ Wants desc (cellsOf b b.code) ask := by
  -- from the last line back, as the visits go: what is asked for is known of every start of the code
  suffices part : ∀ pre post : Lines, b.code = pre ++ post → ∀ {s : Session}, s.Tended ctx →
      CallSite.known ctx s.module = desc → ∃ asks s',
      ((pre.map (·.1)).reverse.forM (prepareAt ctx method b)) s = (.ok (), s') ∧ Asked ctx asks s s' ∧
      ∀ ask, ask ∈ asks ↔ ∃ u p v, pre = u ++ p :: v ∧
        WantsAt desc (cellsOf b u).reverse (cellAt b p) (cellsOf b (v ++ post)) ask by
    obtain ⟨asks, s', done, asked, only⟩ := part b.code [] (by simp) tended known
    refine ⟨asks, s', done, asked, fun ask => (only ask).trans ?_⟩
    constructor
    · rintro ⟨u, p, v, code, wants⟩
      exact ⟨cellsOf b u, cellAt b p, cellsOf b v, by rw [code]; simp [cellsOf, cellAt], by simpa using wants⟩
    · rintro ⟨u, c, v, eq, wants⟩
      obtain ⟨u, rest, code, rfl, last⟩ := List.map_eq_append_iff.1 eq
      obtain ⟨p, v, rfl, rfl, rfl⟩ := List.map_eq_cons_iff.1 last
      refine ⟨u, p, v, code, ?_⟩
      rw [List.append_nil]
      exact wants
  intro pre
  induction pre using List.reverseRecOn with
  | nil =>
    intro post _ s tended _
    exact ⟨[], s, rfl, asked_same tended rfl rfl, by simp⟩
  | append_singleton pre p ih =>
    intro post code s tended known
    obtain ⟨A, a⟩ := p
    have code' : b.code = pre ++ (A, a) :: post := by simpa using code
    obtain ⟨asks, s₁, first, asked, only⟩ := prepareAt_asked tended known nodup method code'
    obtain ⟨asks', s', rest, asked', only'⟩ := ih ((A, a) :: post) code' asked.tended
      ((asked.known tended).trans known)
    refine ⟨asks ++ asks', s', ?_, asked.trans asked', fun ask => ?_⟩
    · rw [List.map_append, List.reverse_append]
      change (prepareAt ctx method b A >>= fun _ => (pre.map (·.1)).reverse.forM (prepareAt ctx method b)) s = _
      rw [run_bind, first]
      exact rest
    · rw [List.mem_append, only, only']
      constructor
      · rintro (wants | ⟨u, p, v, rfl, wants⟩)
        · exact ⟨pre, (A, a), [], rfl, wants⟩
        · exact ⟨u, p, v ++ [(A, a)], by simp, by simpa using wants⟩
      · rintro ⟨u, p, v, eq, wants⟩
        rcases List.eq_nil_or_concat v with rfl | ⟨v, q, rfl⟩
        · obtain ⟨rfl, same⟩ := List.append_inj' eq rfl
          cases same
          exact .inl wants
        · rw [List.concat_eq_append, ← List.cons_append, ← List.append_assoc] at eq
          obtain ⟨rfl, same⟩ := List.append_inj' eq rfl
          cases same
          exact .inr ⟨u, p, v, rfl, by simpa using wants⟩

end

end CilForge.CallSite
