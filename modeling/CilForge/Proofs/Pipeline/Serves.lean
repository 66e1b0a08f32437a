import CilForge.Pipeline
import CilForge.Proofs.Body.Expand

/-!
# What a pass does

A pass changes its session in two ways only: it takes notes, and it asks for generated methods.
`Strategy.process_serves` says so of every strategy, so that a property of sessions has to be proved
for these two steps and not for each pass. A relation that holds across these steps but for the notes
on changed call sites (`Session.Bears`) holds across all but the visits to call sites. A pass that
says that it has changed nothing has left the body as it was.
-/

namespace CilForge

/-! ## Computations that lead to related states -/

/-- Whatever comes of it, the computation leads to a related state. -/
def Moves {S α : Type} (R : S → S → Prop) (x : ExceptT Fault (StateM S) α) : Prop :=
  ∀ s, R s (x s).2

namespace Moves

variable {S α β : Type} {R : S → S → Prop}

theorem pure (refl : ∀ s, R s s) (a : α) : Moves R (Pure.pure a : ExceptT Fault (StateM S) α) :=
  refl

theorem throw (refl : ∀ s, R s s) (e : Fault) :
    Moves R (MonadExcept.throw e : ExceptT Fault (StateM S) α) :=
  refl

theorem bind (trans : ∀ s t u, R s t → R t u → R s u) {x : ExceptT Fault (StateM S) α}
    {k : α → ExceptT Fault (StateM S) β} (hx : Moves R x) (hk : ∀ a, Moves R (k a)) :
    Moves R (x >>= k) := by
  intro s
  change R s (ExceptT.bindCont k (x s).1 (x s).2).2
  cases (x s).1 with
  | error e => exact hx s
  | ok a => exact trans _ _ _ (hx s) (hk a _)

theorem forM (refl : ∀ s, R s s) (trans : ∀ s t u, R s t → R t u → R s u)
    {f : α → ExceptT Fault (StateM S) Unit} (hf : ∀ a, Moves R (f a)) :
    ∀ l : List α, Moves R (l.forM f)
  | [] => pure refl ()
  | a :: l => bind trans (hf a) fun _ => forM refl trans hf l

end Moves

/-! ## Sessions -/

namespace Session

inductive Serves (ctx : Context) (s : Session) : Session → Prop where
  | refl : Serves ctx s s
  | record {s' : Session} (e : Event) : Serves ctx s s' → Serves ctx s (s'.record e)
  | note {s' : Session} (level : LogLevel) (message : String) :
    Serves ctx s s' → Serves ctx s (s'.note level message)
  | helper {s' : Session} (op : Operation) (d : EnumInfo) :
    Serves ctx s s' → Serves ctx s (CilForge.helper ctx op d s').2

theorem Serves.trans {ctx : Context} {s t u : Session} (first : Serves ctx s t)
    (second : Serves ctx t u) : Serves ctx s u := by
  induction second with
  | refl => exact first
  | record e _ ih => exact ih.record e
  | note level message _ ih => exact ih.note level message
  | helper op d _ ih => exact ih.helper op d

end Session

/-- Whether an event tells of a call site that was changed. -/
def EventKind.isRewrite : EventKind → Bool
  | siteRedirected | constantFolded => true
  | _ => false

def EventLog.rewrites (log : EventLog) : List Event := log.toList.filter (·.kind.isRewrite)

theorem EventLog.rewrites_push (log : EventLog) (e : Event) :
    EventLog.rewrites (log.push e) = log.rewrites ++ if e.kind.isRewrite then [e] else [] := by
  unfold rewrites
  rw [Array.toList_push, List.filter_append, List.filter_singleton, Bool.cond_eq_ite]

/-- What relates two sessions when work leads from one to the other and does not tell of a change to
a call site. -/
structure Session.Bears (ctx : Context) (R : Session → Session → Prop) : Prop where
  refl (s : Session) : R s s
  trans (s t u : Session) : R s t → R t u → R s u
  note (s : Session) (level : LogLevel) (message : String) : R s (s.note level message)
  record (s : Session) (e : Event) : e.kind.isRewrite = false → R s (s.record e)
  helper (op : Operation) (d : EnumInfo) : Moves R (CilForge.helper ctx op d)

abbrev Pass.Moves {α : Type} (R : Session → Session → Prop) (x : Pass α) : Prop :=
  CilForge.Moves (fun w w' => R w.session w'.session) x

namespace Session.Bears

variable {ctx : Context} {R : Session → Session → Prop} (bears : Bears ctx R)
include bears

theorem bind {α β : Type} {x : Pass α} {k : α → Pass β} (hx : Pass.Moves R x)
    (hk : ∀ a, Pass.Moves R (k a)) : Pass.Moves R (x >>= k) :=
  Moves.bind (R := fun w w' : Workpiece => R w.session w'.session)
    (fun _ _ _ => bears.trans _ _ _) hx hk

theorem pure {α : Type} (a : α) : Pass.Moves R (Pure.pure a : Pass α) := fun _ => bears.refl _

theorem body : Pass.Moves R Pass.body := fun _ => bears.refl _

theorem edit {α : Type} (e : Edit α) : Pass.Moves R (Pass.edit e) := fun _ => bears.refl _

omit bears in
theorem work {α : Type} {x : Work α} (hx : Moves R x) : Pass.Moves R (Pass.work x) :=
  fun w => hx w.session

theorem take_note (level : LogLevel) (message : String) : Pass.Moves R (Pass.note level message) :=
  work fun s => bears.note s level message

theorem apply (site : CallSite.Site) : Pass.Moves R (site.apply ctx) := by
  unfold CallSite.Site.apply
  split
  · exact bears.edit _
  · exact bears.bind (work (bears.helper _ _)) fun _ => bears.edit _
  · exact bears.edit _
  · exact bears.edit _
  · exact bears.bind (work (bears.helper _ _)) fun _ => bears.edit _

theorem prepare (method : Token) (b : Body) : Moves R (CallSite.prepare ctx method b) := by
  refine Moves.forM bears.refl bears.trans (fun h => ?_) _
  refine Moves.bind bears.trans (fun _ => bears.refl _) fun s => ?_
  split
  · exact fun _ => bears.refl _
  · split
    · exact Moves.bind bears.trans (bears.helper _ _) fun _ => fun _ => bears.refl _
    · exact fun _ => bears.refl _
  · rename_i e _
    have skip : Moves R
        (Work.update (·.note .trace s!"{method.text}: no helper for site at {h.text} - {e.text}")) :=
      fun s => bears.note s _ _
    dsimp only
    split
    · exact Moves.bind bears.trans (Moves.throw bears.refl _) fun _ => skip
    · exact skip

theorem flatten (method : Token) : Pass.Moves R (Finally.run method) := by
  refine bears.bind bears.body fun b => ?_
  dsimp only
  split
  · exact bears.pure false
  · refine bears.bind (fun _ => bears.refl _) fun layout => ?_
    exact bears.bind (bears.edit _) fun _ => bears.bind (bears.take_note _ _) fun _ =>
      bears.bind (work fun s => bears.record s _ rfl) fun _ => bears.pure true

end Session.Bears

section
variable (ctx : Context)

abbrev Pass.Serves {α : Type} (x : Pass α) : Prop := Pass.Moves (Session.Serves ctx) x

theorem Session.serves_bears : Session.Bears ctx (Session.Serves ctx) where
  refl _ := .refl
  trans _ _ _ := .trans
  note _ level message := .note level message .refl
  record _ e _ := .record e .refl
  helper op d _ := .helper op d .refl

/-! ## Strategies -/

theorem CallSite.visit_serves (method : Token) (h : Handle) :
    Pass.Serves ctx (CallSite.visit ctx method h) := by
  have bears := Session.serves_bears ctx
  have records (e : Event) : Pass.Serves ctx (Pass.record e) := fun _ => .record e .refl
  refine bears.bind (fun _ => .refl) fun m => bears.bind bears.body fun b => ?_
  split
  · exact bears.pure false
  · exact bears.bind (bears.apply _) fun _ => bears.bind (bears.take_note _ _) fun _ =>
      bears.bind (records _) fun _ => bears.pure true
  · rename_i e _
    have skip : Pass.Serves ctx (do
        Pass.note .debug s!"{method.text}: skipped site at {h.text} - {e.text}"
        Pass.record {
          kind := .siteSkipped, method := method, pass := CallSite.passName, message := e.text }
        return false) :=
      bears.bind (bears.take_note _ _) fun _ => bears.bind (records _) fun _ => bears.pure false
    dsimp only
    split
    · exact bears.bind (fun _ => .refl) fun _ => skip
    · exact skip

theorem CallSite.visitAll_serves (method : Token) : ∀ hs : List Handle,
    Pass.Serves ctx (CallSite.visitAll ctx method hs)
  | [] => fun _ => .refl
  | h :: hs => by
    have bears := Session.serves_bears ctx
    exact bears.bind (visit_serves ctx method h) fun _ =>
      bears.bind (visitAll_serves method hs) fun _ => bears.pure _

theorem Strategy.process_serves (st : Strategy) (method : Token) :
    Pass.Serves ctx (st.process ctx method) := by
  have bears := Session.serves_bears ctx
  cases st with
  | materialize =>
    refine bears.bind bears.body fun b => ?_
    exact bears.bind (Session.Bears.work (bears.prepare method b)) fun _ => bears.pure false
  | callSites =>
    exact bears.bind bears.body fun b => CallSite.visitAll_serves ctx method b.handles.reverse
  | flatten => exact bears.flatten method

theorem Pipeline.processChecked_serves (st : Strategy) (method : Token) :
    Pass.Serves ctx (Pipeline.processChecked ctx st method) := by
  have bears := Session.serves_bears ctx
  refine bears.bind (Strategy.process_serves ctx st method) fun changed => ?_
  dsimp only
  split
  · exact bears.bind bears.body fun b => bears.bind (fun _ => .refl) fun _ => bears.pure changed
  · exact bears.pure changed

/-! ## One visit -/

namespace CallSite

/-- What can come of a visit to an instruction. -/
inductive Visit (h : Handle) (w : Workpiece) : Except Fault Bool → Workpiece → Prop where
  | nothing : matchAt ctx w.session.module w.body h = .ok none → Visit h w (.ok false) w
  | done {site : Site} {w₁ : Workpiece} (level : LogLevel) (message : String) (e : Event) :
    matchAt ctx w.session.module w.body h = .ok (some site) → site.apply ctx w = (.ok (), w₁) →
    Visit h w (.ok true) { w₁ with session := (w₁.session.note level message).record e }
  | failed {site : Site} {w₁ : Workpiece} {e : Fault} :
    matchAt ctx w.session.module w.body h = .ok (some site) → site.apply ctx w = (.error e, w₁) →
    Visit h w (.error e) w₁
  | skipped {f : Fault} (level : LogLevel) (message : String) (e : Event) :
    matchAt ctx w.session.module w.body h = .error f → f.isLocal = true →
    Visit h w (.ok false) { w with session := (w.session.note level message).record e }
  | refused {f : Fault} : matchAt ctx w.session.module w.body h = .error f → f.isLocal = false →
    Visit h w (.error f) w

theorem visit_cases {ctx : Context} {method : Token} {h : Handle} {w w' : Workpiece}
    {r : Except Fault Bool} (run : visit ctx method h w = (r, w')) : Visit ctx h w r w' := by
  unfold visit at run
  cases found : matchAt ctx w.session.module w.body h with
  | ok site? =>
    simp only [run_bind, Pass.module, Pass.body, found] at run
    cases site? with
    | none =>
      cases run
      exact .nothing found
    | some site =>
      dsimp only at run
      rw [run_bind] at run
      generalize applied : site.apply ctx w = out at run
      obtain ⟨outcome, w₁⟩ := out
      cases outcome with
      | error e =>
        cases run
        exact .failed found applied
      | ok _ =>
        cases run
        exact .done _ _ _ found applied
  | error f =>
    simp only [run_bind, Pass.module, Pass.body, found] at run
    cases here : f.isLocal with
    | true =>
      rw [here] at run
      cases run
      exact .skipped _ _ _ found here
    | false =>
      rw [here] at run
      cases run
      exact .refused found here

theorem visit_false {ctx : Context} {method : Token} {h : Handle} {w w' : Workpiece}
    (run : visit ctx method h w = (.ok false, w')) : w'.body = w.body ∧
      w'.session.module = w.session.module ∧ w'.session.generated = w.session.generated := by
  cases visit_cases run with
  | nothing _ => exact ⟨rfl, rfl, rfl⟩
  | skipped _ _ _ _ _ => exact ⟨rfl, rfl, rfl⟩

theorem visitAll_cons {ctx : Context} {method : Token} {h : Handle} {hs : List Handle}
    {w w₁ w' : Workpiece} {here : Bool} {result : Except Fault Bool}
    (first : visit ctx method h w = (.ok here, w₁))
    (rest : visitAll ctx method hs w₁ = (result, w')) :
    visitAll ctx method (h :: hs) w = (result.map (here || ·), w') := by
  rw [visitAll, run_bind, first]
  dsimp only
  rw [run_bind, rest]
  cases result <;> rfl

theorem visitAll_false {ctx : Context} {method : Token} : ∀ {hs : List Handle} {w w' : Workpiece},
    visitAll ctx method hs w = (.ok false, w') → w'.body = w.body ∧
      w'.session.module = w.session.module ∧ w'.session.generated = w.session.generated
  | [], w, w', run => by
    obtain ⟨-, rfl⟩ := Edit.pure_eq_ok.1 run
    exact ⟨rfl, rfl, rfl⟩
  | h :: hs, w, w', run => by
    obtain ⟨here, w₁, first, rest⟩ := Edit.bind_eq_ok.1 run
    obtain ⟨there, w₂, second, last⟩ := Edit.bind_eq_ok.1 rest
    obtain ⟨neither, rfl⟩ := Edit.pure_eq_ok.1 last
    obtain ⟨rfl, rfl⟩ : here = false ∧ there = false := Bool.or_eq_false_iff.1 neither.symm
    obtain ⟨body₁, module₁, generated₁⟩ := visit_false first
    obtain ⟨body₂, module₂, generated₂⟩ := visitAll_false second
    exact ⟨body₂.trans body₁, module₂.trans module₁, generated₂.trans generated₁⟩

end CallSite

/-- A strategy that says that it has changed nothing has left the body as it was. -/
theorem Strategy.process_false {ctx : Context} {st : Strategy} {method : Token} {w w' : Workpiece}
    (run : st.process ctx method w = (.ok false, w')) : w'.body = w.body := by
  cases st with
  | materialize =>
    obtain ⟨b, w₁, first, rest⟩ := Edit.bind_eq_ok.1 run
    cases first
    obtain ⟨_, w₂, second, last⟩ := Edit.bind_eq_ok.1 rest
    obtain ⟨-, rfl⟩ := Edit.pure_eq_ok.1 last
    exact congrArg (·.2.body) second.symm
  | callSites =>
    obtain ⟨b, w₁, first, rest⟩ := Edit.bind_eq_ok.1 run
    cases first
    exact (CallSite.visitAll_false rest).1
  | flatten =>
    obtain ⟨b, w₁, first, rest⟩ := Edit.bind_eq_ok.1 run
    cases first
    dsimp only at rest
    split at rest
    · obtain ⟨-, rfl⟩ := Edit.pure_eq_ok.1 rest
      rfl
    · obtain ⟨layout, w₁, -, rest⟩ := Edit.bind_eq_ok.1 rest
      obtain ⟨_, w₂, -, rest⟩ := Edit.bind_eq_ok.1 rest
      obtain ⟨_, w₃, -, rest⟩ := Edit.bind_eq_ok.1 rest
      obtain ⟨_, w₄, -, rest⟩ := Edit.bind_eq_ok.1 rest
      obtain ⟨yes, -⟩ := Edit.pure_eq_ok.1 rest
      cases yes

/-- What passes the check is what the strategy has made. -/
theorem Pipeline.process_of_checked {ctx : Context} {st : Strategy} {method : Token} {w w' : Workpiece}
    {changed : Bool} (run : processChecked ctx st method w = (.ok changed, w')) :
    st.process ctx method w = (.ok changed, w') := by
  obtain ⟨said, w₁, first, rest⟩ := Edit.bind_eq_ok.1 run
  dsimp only at rest
  split at rest
  · obtain ⟨b, w₂, read, rest⟩ := Edit.bind_eq_ok.1 rest
    obtain ⟨_, w₃, looked, rest⟩ := Edit.bind_eq_ok.1 rest
    obtain ⟨rfl, rfl⟩ := Edit.pure_eq_ok.1 rest
    cases read
    have same : w₁ = w' := congrArg Prod.snd looked
    exact same ▸ first
  · obtain ⟨rfl, rfl⟩ := Edit.pure_eq_ok.1 rest
    exact first

theorem Pipeline.processChecked_false {ctx : Context} {st : Strategy} {method : Token}
    {w w' : Workpiece} (run : processChecked ctx st method w = (.ok false, w')) : w'.body = w.body :=
  Strategy.process_false (process_of_checked run)

end

end CilForge
