import CilForge.Proofs.Generate.Lookup
import CilForge.Proofs.Pipeline.Frame
import Mathlib

/-!
# What the log tells of changed call sites

A change to a call site is noted when it is done. If the visit to the method fails later on, or if the
new body does not pass the check, the method gets its old body back and the note stays. So the log
tells of what was done, visit by visit, and not of what there is in the module (`run_recorded`): the
two differ by the sites of the visits that were taken back.
-/

namespace CilForge

/-! ## Work without a changed call site -/

/-- There is no word of another changed call site. -/
def Session.Quiet (s s' : Session) : Prop := s'.events.rewrites = s.events.rewrites

namespace Session.Quiet

theorem refl (s : Session) : Quiet s s := rfl

theorem trans (s t u : Session) (first : Quiet s t) (second : Quiet t u) : Quiet s u :=
  Eq.trans second first

theorem record (s : Session) (e : Event) (other : e.kind.isRewrite = false) :
    Quiet s (s.record e) := by
  unfold Quiet Session.record
  rw [EventLog.rewrites_push, other]
  exact List.append_nil _

theorem bind {α β : Type} {x : Work α} {k : α → Work β} (hx : Moves Quiet x)
    (hk : ∀ a, Moves Quiet (k a)) : Moves Quiet (x >>= k) :=
  Moves.bind trans hx hk

theorem pure {α : Type} (a : α) : Moves Quiet (Pure.pure a : Work α) := refl

theorem onModule {α : Type} (f : ModuleDef → Except Fault (α × ModuleDef)) :
    Moves Quiet (Work.onModule f) := by
  intro s
  unfold Work.onModule
  cases f s.module <;> exact refl s

theorem holderRow (name : TypeName) : Moves Quiet (Generated.holderRow name) := by
  refine bind refl fun s => ?_
  split
  · exact pure _
  · have done (row : Nat) : Moves Quiet (do
        Work.update fun s => { s with generated := { s.generated with holder := some row } }
        return row) := bind (fun _ => rfl) fun _ => pure _
    split
    · exact bind (pure _) done
    · exact bind (onModule _) done

theorem create (ctx : Context) (holder : Nat) (name : String) (op : Operation) (d : EnumInfo) :
    Moves Quiet (Generated.create ctx holder name op d) := by
  refine bind refl fun body => bind (onModule _) fun id => bind (fun _ => rfl) fun _ => ?_
  exact bind (fun s => record s _ rfl) fun _ => pure _

theorem keep (op : Operation) (d : EnumInfo) (name : String) (id : MethodId) :
    Moves Quiet (Generated.keep op d name id) := by
  refine bind refl fun s => ?_
  split
  · exact refl
  · exact bind (fun _ => rfl) fun _ => pure _

theorem helper (ctx : Context) (op : Operation) (d : EnumInfo) :
    Moves Quiet (CilForge.helper ctx op d) := by
  refine bind refl fun s => ?_
  split
  · exact pure _
  refine bind (holderRow _) fun row => bind refl fun s => ?_
  dsimp only
  split
  · exact keep _ _ _ _
  · exact bind (create _ _ _ _ _) fun id => keep _ _ _ _

end Session.Quiet

theorem Session.quiet_bears (ctx : Context) : Session.Bears ctx Session.Quiet where
  refl := Quiet.refl
  trans := Quiet.trans
  note _ _ _ := rfl
  record := Quiet.record
  helper := Quiet.helper ctx

/-- Only the strategy for call sites tells of changed call sites. -/
theorem Strategy.process_quiet (ctx : Context) {st : Strategy} (other : st ≠ .callSites)
    (method : Token) : Pass.Moves Session.Quiet (st.process ctx method) := by
  have bears := Session.quiet_bears ctx
  cases st with
  | materialize =>
    refine bears.bind bears.body fun b => ?_
    exact bears.bind (Session.Bears.work (bears.prepare method b)) fun _ => bears.pure false
  | callSites => exact absurd rfl other
  | flatten => exact bears.flatten method

/-! ## A pass over a body -/

namespace CallSite

def Site.kind (site : Site) : EventKind :=
  if site.isFold then .constantFolded else .siteRedirected

def Site.event (site : Site) (method : Token) : Event where
  kind := site.kind
  method := method
  pass := passName
  message := s!"{site.pattern.text} on {site.info.name.text}"

theorem Site.event_isRewrite (site : Site) (method : Token) :
    (site.event method).kind.isRewrite = true := by
  unfold event kind
  cases site.isFold <;> rfl

variable {ctx : Context} {method : Token}

/-- The sites that visits to instructions change, one after the other, and what comes of it. -/
inductive Turns (ctx : Context) (method : Token) :
    List Handle → Workpiece → List Site → Except Fault Bool → Workpiece → Prop where
  | done {w : Workpiece} : Turns ctx method [] w [] (.ok false) w
  | pass {h : Handle} {hs : List Handle} {w w₁ w' : Workpiece} {sites : List Site}
    {r : Except Fault Bool} :
    visit ctx method h w = (.ok false, w₁) → w₁.body = w.body → Turns ctx method hs w₁ sites r w' →
    Turns ctx method (h :: hs) w sites r w'
  | turn {h : Handle} {hs : List Handle} {w w₁ w₂ w' : Workpiece} {site : Site} {sites : List Site}
    {r : Except Fault Bool} :
    matchAt ctx w.session.module w.body h = .ok (some site) → site.apply ctx w = (.ok (), w₁) →
    visit ctx method h w = (.ok true, w₂) → w₂.body = w₁.body → Turns ctx method hs w₂ sites r w' →
    Turns ctx method (h :: hs) w (site :: sites) (r.map fun _ => true) w'
  | halt {h : Handle} {hs : List Handle} {w w' : Workpiece} {e : Fault} :
    visit ctx method h w = (.error e, w') → Turns ctx method (h :: hs) w [] (.error e) w'

theorem Turns.visitAll_eq {hs : List Handle} {w w' : Workpiece} {sites : List Site}
    {r : Except Fault Bool} (turns : Turns ctx method hs w sites r w') :
    visitAll ctx method hs w = (r, w') := by
  induction turns with
  | done => rfl
  | halt failed => rw [visitAll, run_bind, failed]
  | @pass _ _ _ _ _ _ r here _ _ ih =>
    have same : r.map (false || ·) = r := by cases r <;> rfl
    rw [visitAll_cons here ih, same]
  | turn _ _ here _ _ ih => exact visitAll_cons here ih

theorem Turns.changed {hs : List Handle} {w w' : Workpiece} {sites : List Site}
    {r : Except Fault Bool} (turns : Turns ctx method hs w sites r w') {changed : Bool}
    (ok : r = .ok changed) : changed = !sites.isEmpty := by
  induction turns generalizing changed with
  | done => cases ok; rfl
  | halt failed => cases ok
  | pass _ _ _ ih => exact ih ok
  | @turn _ _ _ _ _ _ _ _ r _ _ _ _ _ _ => cases r <;> cases ok; rfl

/-- A visit changes no site, or changes one and notes that, or fails. -/
theorem visit_notes (ctx : Context) (method : Token) (h : Handle) (w : Workpiece) :
    (∃ w₁, visit ctx method h w = (.ok false, w₁) ∧ w₁.body = w.body ∧
      Session.Quiet w.session w₁.session) ∨
    (∃ site w₁ w₂, matchAt ctx w.session.module w.body h = .ok (some site) ∧
      site.apply ctx w = (.ok (), w₁) ∧ visit ctx method h w = (.ok true, w₂) ∧ w₂.body = w₁.body ∧
      w₂.session.events.rewrites = w.session.events.rewrites ++ [site.event method]) ∨
    ∃ e w₁, visit ctx method h w = (.error e, w₁) ∧ Session.Quiet w.session w₁.session := by
  have bears := Session.quiet_bears ctx
  cases found : matchAt ctx w.session.module w.body h with
  | error f =>
    have skips := Session.Quiet.record (w.session.note .debug
      s!"{method.text}: skipped site at {h.text} - {f.text}")
      { kind := .siteSkipped, method := method, pass := passName, message := f.text } rfl
    unfold visit
    simp only [run_bind, Pass.module, Pass.body, found]
    cases f.isLocal with
    | true => exact .inl ⟨_, rfl, rfl, skips⟩
    | false => exact .inr (.inr ⟨f, w, rfl, rfl⟩)
  | ok site? =>
    cases site? with
    | none =>
      unfold visit
      simp only [run_bind, Pass.module, Pass.body, found]
      exact .inl ⟨w, rfl, rfl, rfl⟩
    | some site =>
      have quiet := bears.apply site w
      generalize applied : site.apply ctx w = out at quiet
      obtain ⟨outcome, w₁⟩ := out
      unfold visit
      simp only [run_bind, Pass.module, Pass.body, found, applied]
      cases outcome with
      | error e => exact .inr (.inr ⟨e, w₁, rfl, quiet⟩)
      | ok _ =>
        refine .inr (.inl ⟨site, w₁, _, rfl, applied, rfl, rfl, ?_⟩)
        change EventLog.rewrites (w₁.session.events.push (site.event method)) = _
        rw [EventLog.rewrites_push, site.event_isRewrite, quiet]
        rfl

/-- The notes of a pass are those on the sites that it has changed. -/
theorem exists_turns (ctx : Context) (method : Token) : ∀ (hs : List Handle) (w : Workpiece),
    ∃ sites r w', Turns ctx method hs w sites r w' ∧ w'.session.events.rewrites =
      w.session.events.rewrites ++ sites.map (·.event method)
  | [], w => ⟨[], .ok false, w, .done, (List.append_nil _).symm⟩
  | h :: hs, w => by
    rcases visit_notes ctx method h w with
      ⟨w₁, ran, body, quiet⟩ | ⟨site, w₁, w₂, found, applied, ran, body, noted⟩ | ⟨e, w₁, ran, quiet⟩
    · obtain ⟨sites, r, w', turns, notes⟩ := exists_turns ctx method hs w₁
      refine ⟨sites, r, w', .pass ran body turns, ?_⟩
      rw [notes, quiet]
    · obtain ⟨sites, r, w', turns, notes⟩ := exists_turns ctx method hs w₂
      refine ⟨site :: sites, _, w', .turn found applied ran body turns, ?_⟩
      rw [notes, noted, List.append_assoc]
      rfl
    · exact ⟨[], .error e, w₁, .halt ran, Eq.trans quiet (List.append_nil _).symm⟩

end CallSite

def Strategy.Turns (st : Strategy) (ctx : Context) (method : Token) (w : Workpiece)
    (sites : List CallSite.Site) (r : Except Fault Bool) (w' : Workpiece) : Prop :=
  match st with
  | .callSites => CallSite.Turns ctx method w.body.handles.reverse w sites r w'
  | _ => sites = []

theorem Strategy.exists_turns (st : Strategy) (ctx : Context) (method : Token) (w : Workpiece) :
    ∃ sites r w', st.process ctx method w = (r, w') ∧ st.Turns ctx method w sites r w' ∧
      w'.session.events.rewrites = w.session.events.rewrites ++ sites.map (·.event method) := by
  by_cases same : st = .callSites
  · subst same
    obtain ⟨sites, r, w', turns, notes⟩ :=
      CallSite.exists_turns ctx method w.body.handles.reverse w
    exact ⟨sites, r, w', turns.visitAll_eq, turns, notes⟩
  · have quiet := process_quiet ctx same method w
    refine ⟨[], _, _, rfl, ?_, Eq.trans quiet (List.append_nil _).symm⟩
    cases st with
    | callSites => exact absurd rfl same
    | materialize => rfl
    | flatten => rfl

/-! ## The record of a run -/

namespace Pipeline

def checked (ctx : Context) (r : Except Fault Bool) (b : Body) : Except Fault Bool :=
  match r with
  | .ok true => if ctx.settings.verify then b.check.map fun _ => true else .ok true
  | r => r

theorem processChecked_eq (ctx : Context) (st : Strategy) (method : Token) (w : Workpiece) :
    processChecked ctx st method w =
      (checked ctx (st.process ctx method w).1 (st.process ctx method w).2.body,
        (st.process ctx method w).2) := by
  unfold processChecked
  rw [run_bind]
  generalize st.process ctx method w = out
  obtain ⟨r, w'⟩ := out
  cases r with
  | error e => rfl
  | ok changed =>
    cases changed with
    | false => rfl
    | true =>
      dsimp only [checked]
      cases ctx.settings.verify with
      | false => rfl
      | true =>
        simp only [Bool.and_self, if_true, run_bind, Pass.body]
        cases w'.body.check <;> rfl

/-- What a strategy has done to a method. -/
structure Entry where
  strategy : Strategy
  id : MethodId
  /-- The method as it was. -/
  method : MethodDef
  body : Body
  /-- The call sites that were changed, in order. -/
  sites : List CallSite.Site
  /-- What the strategy says of itself. -/
  result : Except Fault Bool
  /-- What the strategy has made of the body. -/
  reached : Workpiece

namespace Entry

def outcome (ctx : Context) (e : Entry) : Except Fault Bool := checked ctx e.result e.reached.body

def takenBack (ctx : Context) (e : Entry) : Bool :=
  match e.outcome ctx with
  | .ok _ => false
  | .error _ => true

def changed (ctx : Context) (e : Entry) : Bool := said (e.outcome ctx)

def rewrites (e : Entry) : List Event := e.sites.map (·.event e.method.token)

def apply (ctx : Context) (id : MethodId) (d : MethodDef) (e : Entry) : MethodDef :=
  if id = e.id then { d with body := some (kept e.body e.reached (e.outcome ctx)) } else d

def start (s : Session) (e : Entry) : Workpiece :=
  { session := { s with module := s.module.setBody e.id none }, body := e.body }

/-- The entry says what happens to a method between two sessions. -/
structure Tells (ctx : Context) (s : Session) (e : Entry) (s' : Session) : Prop where
  found : s.module.method? e.id = some e.method
  has : e.method.body = some e.body
  ran : e.strategy.process ctx e.method.token (e.start s) = (e.result, e.reached)
  step : onMethod ctx e.strategy e.id s = (.ok (e.changed ctx), s')
  turns : e.strategy.Turns ctx e.method.token (e.start s) e.sites e.result e.reached
  methods : ∀ id d, s.module.method? id = some d → s'.module.method? id = some (e.apply ctx id d)
  notes : s'.events.rewrites = s.events.rewrites ++ e.rewrites
  /-- What failed is told last. -/
  ends : ∃ before told : List Event, s'.events.toList = before ++ told ∧
    told.map (fun x => (x.kind, x.method)) = trouble e.method.token (e.outcome ctx)

/-- What is taken back without a changed site did not come as far as the check. -/
theorem Tells.fails {ctx : Context} {s s' : Session} {e : Entry} (tells : e.Tells ctx s s')
    (strategy : e.strategy = .callSites) (back : e.takenBack ctx = true) (none : e.sites = []) :
    ∃ f, e.result = .error f := by
  have turns := tells.turns
  rw [strategy, none] at turns
  cases result : e.result with
  | error f => exact ⟨f, rfl⟩
  | ok changed =>
    -- a strategy that says it has changed nothing is not checked
    have no : changed = false := CallSite.Turns.changed turns result
    unfold takenBack outcome at back
    rw [result, no] at back
    cases back

end Entry

/-- A run from one session to another by what it does to one method after the other. -/
inductive Course (ctx : Context) : Session → List Entry → Session → Prop where
  | stay {s : Session} : Course ctx s [] s
  | step {s s₁ s' : Session} {e : Entry} {es : List Entry} :
    e.Tells ctx s s₁ → Course ctx s₁ es s' → Course ctx s (e :: es) s'

namespace Course

variable {ctx : Context} {s t u : Session} {es fs : List Entry}

theorem trans (first : Course ctx s es t) (second : Course ctx t fs u) :
    Course ctx s (es ++ fs) u := by
  induction first with
  | stay => exact second
  | step tells _ ih => exact .step tells (ih second)

theorem methods (course : Course ctx s es t) {id : MethodId} {d : MethodDef}
    (found : s.module.method? id = some d) :
    t.module.method? id = some (es.foldl (Entry.apply ctx id) d) := by
  induction course generalizing d with
  | stay => exact found
  | step tells _ ih => exact ih (tells.methods id d found)

theorem tells (course : Course ctx s es t) {e : Entry} (mem : e ∈ es) :
    ∃ s₁ s₂, e.Tells ctx s₁ s₂ := by
  induction course with
  | stay => cases mem
  | step here _ ih =>
    rcases List.mem_cons.1 mem with rfl | later
    · exact ⟨_, _, here⟩
    · exact ih later

theorem notes (course : Course ctx s es t) :
    t.events.rewrites = s.events.rewrites ++ es.flatMap Entry.rewrites := by
  induction course with
  | stay => exact (List.append_nil _).symm
  | step tells _ ih => rw [ih, tells.notes, List.append_assoc, List.flatMap_cons]

end Course

theorem quiet_of_trouble {s s' : Session} {told : List Event} {token : Token} {r : Except Fault Bool}
    (events : s'.events.toList = s.events.toList ++ told)
    (kinds : told.map (fun e => (e.kind, e.method)) = trouble token r) : Session.Quiet s s' := by
  have none : told.filter (·.kind.isRewrite) = [] := by
    rw [List.filter_eq_nil_iff]
    intro e mem
    have kind : (e.kind, e.method) ∈ trouble token r := kinds ▸ List.mem_map_of_mem mem
    cases r with
    | ok _ => cases kind
    | error f =>
      obtain ⟨kind, -⟩ := Prod.mk.inj (List.mem_singleton.1 kind)
      rw [kind]
      cases f <;> exact Bool.false_ne_true
  unfold Session.Quiet EventLog.rewrites
  rw [events, List.filter_append, none, List.append_nil]

section
variable (ctx : Context)

theorem method?_of_serves {id : MethodId} {s s' : Session} {w w' : Workpiece} {body : Body}
    (taken : w.session.module = s.module.setBody id none)
    (serves : Session.Serves ctx w.session w'.session)
    (put : s'.module = w'.session.module.setBody id (some body)) (i : MethodId) (d : MethodDef)
    (found : s.module.method? i = some d) :
    s'.module.method? i = some (if i = id then { d with body := some body } else d) := by
  have first : s.module.Extends ctx.settings.holder (ModuleDef.PutsBody id none) w.session.module :=
    taken ▸ ModuleDef.extends_setBody id none
  have last : w'.session.module.Extends ctx.settings.holder (ModuleDef.PutsBody id (some body))
      s'.module :=
    put ▸ ModuleDef.extends_setBody id (some body)
  -- between taking the body out and putting one back, methods are added and none is touched
  obtain ⟨d₁, found₁, puts₁⟩ := first.method? found
  obtain ⟨d₂, found₂, puts₂⟩ := last.method? (serves.retains i d₁ found₁)
  rw [found₂, puts₂, puts₁]
  by_cases same : i = id
  · simp only [if_pos same]
  · simp only [if_neg same]

theorem exists_entry (st : Strategy) {id : MethodId} {s : Session} {d : MethodDef} {body : Body}
    (found : s.module.method? id = some d) (has : d.body = some body) :
    ∃ e s', e.strategy = st ∧ e.id = id ∧ Entry.Tells ctx s e s' := by
  let w : Workpiece := { session := { s with module := s.module.setBody id none }, body }
  obtain ⟨sites, r, reached, ran, turns, notes⟩ := st.exists_turns ctx d.token w
  have did : processChecked ctx st d.token w = (checked ctx r reached.body, reached) := by
    rw [processChecked_eq, ran]
  obtain ⟨s', done, -, module, told, events, kinds⟩ := onMethod_of_body found has did
  have after : Session.Quiet reached.session s' := quiet_of_trouble events kinds
  have serves : Session.Serves ctx w.session reached.session := by
    have := processChecked_serves ctx st d.token w
    rwa [did] at this
  exact ⟨⟨st, id, d, body, sites, r, reached⟩, s', rfl, rfl, found, has, ran, done, turns,
    method?_of_serves ctx rfl serves module, Eq.trans after notes, _, told, events, kinds⟩

/-- Work whose course can be told, and which says whether a body has changed. -/
def Told (x : Work Bool) : Prop :=
  ∀ s, ∃ es s', x s = (.ok (es.any (Entry.changed ctx)), s') ∧ Course ctx s es s'

theorem onMethod_told (st : Strategy) (id : MethodId) : Told ctx (onMethod ctx st id) := by
  intro s
  cases none : (s.module.method? id).bind (·.body) with
  | none => exact ⟨[], s, onMethod_of_none none, .stay⟩
  | some body =>
    obtain ⟨d, found, has⟩ := Option.bind_eq_some_iff.1 none
    obtain ⟨e, s', rfl, rfl, tells⟩ := exists_entry ctx st found has
    refine ⟨[e], s', ?_, .step tells .stay⟩
    rw [tells.step, List.any_cons, List.any_nil, Bool.or_false]

theorem each_told {α : Type} {f : α → Work Bool} (one : ∀ a, Told ctx (f a)) :
    ∀ l : List α, Told ctx (Work.each f l)
  | [], s => ⟨[], s, rfl, .stay⟩
  | a :: l, s => by
    obtain ⟨es, s₁, first, course⟩ := one a s
    obtain ⟨fs, s₂, second, course'⟩ := each_told one l s₁
    refine ⟨es ++ fs, s₂, ?_, course.trans course'⟩
    rw [List.any_append]
    exact each_cons first second

theorem onType_told (st : Strategy) (type : Nat) : Told ctx (onType ctx st type) := by
  intro s
  unfold onType
  simp only [run_bind, Work.get]
  split
  · exact ⟨[], s, rfl, .stay⟩
  · exact each_told ctx (fun index => onMethod_told ctx st ⟨type, index⟩) _ s

theorem runStage_told (strategies : List Strategy) (stage : Stage) :
    Told ctx (runStage ctx strategies stage) := by
  intro s
  unfold runStage
  simp only [run_bind, Work.get]
  exact each_told ctx (fun visit : Strategy × Nat => onType_told ctx visit.1 visit.2) _ s

end

/-! ## Counts -/

def lasting (ctx : Context) (es : List Entry) : List CallSite.Site :=
  (es.filter fun e => !e.takenBack ctx).flatMap Entry.sites

def undone (ctx : Context) (es : List Entry) : List CallSite.Site :=
  (es.filter (Entry.takenBack ctx)).flatMap Entry.sites

theorem countP_rewrites (ctx : Context) (kind : EventKind) (es : List Entry) :
    (es.flatMap Entry.rewrites).countP (·.kind = kind) =
      (lasting ctx es).countP (·.kind = kind) + (undone ctx es).countP (·.kind = kind) := by
  induction es with
  | nil => rfl
  | cons e es ih =>
    have here : e.rewrites.countP (·.kind = kind) = e.sites.countP (·.kind = kind) := List.countP_map
    unfold lasting undone at *
    rw [List.flatMap_cons, List.countP_append, ih, here]
    cases back : e.takenBack ctx <;> simp [back, List.countP_append] <;> omega

theorem countKind_eq (log : EventLog) {kind : EventKind} (rewrite : kind.isRewrite = true) :
    log.countKind kind = log.rewrites.countP (·.kind = kind) := by
  unfold EventLog.countKind EventLog.rewrites
  rw [← Array.countP_toList, List.countP_filter]
  refine List.countP_congr fun e _ => ?_
  by_cases same : e.kind = kind <;> simp [same, rewrite]

/-- Every run is a course of visits to methods, and of changed call sites its log tells just what the
visits have done, one after the other. It counts the sites that last and those that were undone; it has
notes on a method if some visit to it has changed a site, and whether the visit was taken back makes no
difference; and a visit that was taken back without a note has failed before it had changed a site. -/
theorem run_recorded (ctx : Context) (strategies : List Strategy) (m : ModuleDef) : ∃ es s',
    Pipeline.run ctx strategies { module := m } = (.ok (es.any (Entry.changed ctx)), s') ∧
    Course ctx { module := m } es s' ∧
    (∀ id d, m.method? id = some d → s'.module.method? id = some (es.foldl (Entry.apply ctx id) d)) ∧
    s'.events.rewrites = es.flatMap Entry.rewrites ∧
    (∀ kind, kind.isRewrite = true → s'.events.countKind kind =
      (lasting ctx es).countP (·.kind = kind) + (undone ctx es).countP (·.kind = kind)) ∧
    (∀ token, (∃ x ∈ s'.events.rewrites, x.method = some token) ↔
      ∃ e ∈ es, e.method.token = token ∧ e.sites ≠ []) ∧
    ∀ e ∈ es, e.strategy = .callSites → e.takenBack ctx = true → e.sites = [] →
      ∃ f, e.result = .error f := by
  obtain ⟨es, s', done, course⟩ := each_told ctx (runStage_told ctx strategies) Stage.all { module := m }
  have notes : s'.events.rewrites = es.flatMap Entry.rewrites := course.notes
  refine ⟨es, s', done, course, fun _ _ => course.methods, notes, fun kind rewrite => ?_,
    fun token => ?_, fun e mem strategy back none => ?_⟩
  · rw [countKind_eq _ rewrite, notes, countP_rewrites]
  · rw [notes]
    constructor
    · rintro ⟨x, mem, of⟩
      obtain ⟨e, there, here⟩ := List.mem_flatMap.1 mem
      obtain ⟨site, change, rfl⟩ := List.mem_map.1 here
      exact ⟨e, there, Option.some.inj of, List.ne_nil_of_mem change⟩
    · rintro ⟨e, there, rfl, some⟩
      obtain ⟨site, change⟩ := List.exists_mem_of_ne_nil _ some
      exact ⟨_, List.mem_flatMap.2 ⟨e, there, List.mem_map_of_mem change⟩, rfl⟩
  · obtain ⟨s₁, s₂, tells⟩ := course.tells mem
    exact tells.fails strategy back none

/-! ## A body that does not pass -/

/-- The name of a value is asked for, and a local is read that there is not. -/
def wanting : Body where
  code := [(⟨0⟩, .ldcI4 1), (⟨1⟩, .typed .box (.valueType ⟨"Demo", "Color"⟩)),
    (⟨2⟩, .call .callvirt Platform.objectToString), (⟨3⟩, .ldloc 0), (⟨4⟩, ⟨.pop, .none⟩), (⟨5⟩, ⟨.ret, .none⟩)]
  nextIndex := 6

def wantingFolded : Body where
  code := [(⟨6⟩, .ldstr "Red"), (⟨3⟩, .ldloc 0), (⟨4⟩, ⟨.pop, .none⟩), (⟨5⟩, ⟨.ret, .none⟩)]
  nextIndex := 7

def wantingMain : MethodDef where
  token := .method 1
  name := "Main"
  flags := MethodFlags.isStatic
  sig := {}
  body := some wanting

def wantingModule : ModuleDef where
  name := "Demo"
  types := #[colorType, {
    ns := "Demo"
    name := "Program"
    flags := TypeFlags.isPublic
    methods := #[wantingMain] }]
  methodRows := 1

theorem check_wantingFolded :
    wantingFolded.check = .error (.invariant (.undeclaredLocal 0 ⟨3⟩)) := by
  unfold Body.check
  generalize wantingFolded.places = places
  rfl

/-- The strategy goes through, and what it has made does not pass the check. -/
theorem processChecked_wanting : ∃ w', processChecked {} .callSites (.method 1)
      { session := { module := wantingModule.setBody ⟨1, 0⟩ none }, body := wanting } =
        (.error (.invariant (.undeclaredLocal 0 ⟨3⟩)), w') ∧
    w'.session.module = wantingModule.setBody ⟨1, 0⟩ none ∧
    w'.session.events.toList.map (fun e => (e.kind, e.method)) =
      [(.constantFolded, some (.method 1))] := by
  let w : Workpiece :=
    { session := { module := wantingModule.setBody ⟨1, 0⟩ none }, body := wanting }
  have worked : (match CallSite.run {} (.method 1) w with
      | (r, w') => (r, w'.body, w'.session.module,
          w'.session.events.toList.map fun e => (e.kind, e.method))) =
      (.ok true, wantingFolded, w.session.module, [(.constantFolded, some (.method 1))]) := by
    cbv
  generalize ran : CallSite.run {} (.method 1) w = out at worked
  obtain ⟨r, w'⟩ := out
  obtain ⟨rfl, body, module, notes⟩ := by simpa only [Prod.mk.injEq] using worked
  refine ⟨w', ?_, module, notes⟩
  have processed : Strategy.process .callSites {} (.method 1) w = (.ok true, w') := ran
  rw [processChecked_eq, processed]
  simp only [checked, body, check_wantingFolded]
  rfl

/-- What the strategy makes does not pass, the module is in the end as it was, and the log tells of a
call site that was changed. -/
theorem run_wanting : ∃ s', wantingModule.method? ⟨1, 0⟩ = some wantingMain ∧
    (processChecked {} .callSites wantingMain.token
      { session := { module := wantingModule.setBody ⟨1, 0⟩ none }, body := wanting }).1 =
        .error (.invariant (.undeclaredLocal 0 ⟨3⟩)) ∧
    Pipeline.run {} [.callSites] { module := wantingModule } = (.ok false, s') ∧
    s'.module = wantingModule ∧
    s'.events.toList.map (fun e => (e.kind, e.method)) =
      [(.constantFolded, some wantingMain.token), (.methodRestored, some wantingMain.token)] := by
  let s : Session := { module := wantingModule }
  have found : s.module.method? ⟨1, 0⟩ = some wantingMain := rfl
  obtain ⟨w', failed, module, notes⟩ := processChecked_wanting
  obtain ⟨s', done, -, module', told, events, kinds⟩ := onMethod_of_body found rfl failed
  have first : onType {} .callSites 0 s = (.ok false, s) := by
    have taken : Strategy.skips .callSites {} wantingModule 0 = false := by cbv
    unfold onType
    simp only [run_bind, Work.get, s, taken]
    rfl
  have second : onType {} .callSites 1 s = (.ok false, s') := by
    have taken : Strategy.skips .callSites {} wantingModule 1 = false := by cbv
    unfold onType
    simp only [run_bind, Work.get, s, taken]
    exact each_cons (l := []) done rfl
  have stage : runStage {} [.callSites] .callSites s = (.ok false, s') := by
    have visits : wantingModule.order = [0, 1] := ModuleDef.order_of_leaves (by decide)
    unfold runStage
    simp only [run_bind, Work.get, s, visits]
    exact each_cons first (each_cons (l := []) second rfl)
  refine ⟨s', found, congrArg Prod.fst failed, ?_, ?_, ?_⟩
  · have last : Work.each (runStage {} [.callSites]) [.flatten] s' = (.ok false, s') :=
      each_cons (runStage_of_none rfl s') rfl
    exact each_cons (runStage_of_none rfl s) (each_cons stage last)
  · rw [module', module]
    exact ModuleDef.setBody_setBody found
  · rw [events, List.map_append, notes, kinds]
    rfl

end Pipeline

end CilForge
