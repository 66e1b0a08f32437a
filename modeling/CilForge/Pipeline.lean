import CilForge.Body.Check
import CilForge.CallSite.Apply
import CilForge.Finally.Flatten

/-!
# The pipeline

Strategies run over all methods of a module, stage by stage. A method on which a strategy fails,
or whose new body does not pass the check, keeps the body it had, and the work goes on.
-/

namespace CilForge

inductive Stage where
  | materialize | callSites | flatten
deriving DecidableEq

namespace Stage

def all : List Stage := [materialize, callSites, flatten]

def text : Stage → String
  | materialize => "Materialize" | callSites => "CallSites" | flatten => "Flatten"

def ordinal : Stage → Nat
  | materialize => 0 | callSites => 1 | flatten => 2

end Stage

/-- A transformation of method bodies. -/
inductive Strategy where
  | materialize | callSites | flatten
deriving DecidableEq

namespace Strategy

def all : List Strategy := [materialize, callSites, flatten]

def ofSettings (s : Settings) : List Strategy :=
  (if s.callSites then [materialize, callSites] else []) ++
    if s.flattening then [flatten] else []

def stage : Strategy → Stage
  | materialize => .materialize
  | callSites => .callSites
  | flatten => .flatten

def name : Strategy → String
  | materialize => "materialize"
  | callSites => CallSite.passName
  | flatten => Finally.passName

/-- Whether a strategy leaves a type alone. -/
def skips (st : Strategy) (settings : Settings) (m : ModuleDef) (type : Nat) : Bool :=
  match m.types[type]? with
  | none => true
  | some t =>
    if m.typeName type = settings.holder then true
    else
      match st with
      | materialize | callSites => !settings.callSites
      | flatten =>
        !settings.flattening ||
          match settings.marker with
          | some marker => !t.hasAttribute (.parse marker)
          | none => false

/-- Whether a strategy has no end on a body. -/
def endless : Strategy → Body → Bool
  | materialize, _ | callSites, _ => false
  | flatten, b => Finally.endless b

/-- Runs a strategy on a body; tells whether the body was changed. -/
def process (st : Strategy) (ctx : Context) (method : Token) : Pass Bool :=
  match st with
  | materialize => do
    Pass.work (CallSite.prepare ctx method (← Pass.body))
    return false
  | callSites => CallSite.run ctx method
  | flatten => Finally.run method

end Strategy

namespace Pipeline

variable (ctx : Context)

/-- Runs a strategy on a body and checks what it has made. -/
def processChecked (st : Strategy) (method : Token) : Pass Bool := do
  let changed ← st.process ctx method
  if changed && ctx.settings.verify then
    ExceptT.mk (pure (← Pass.body).check)
  return changed

def failureKind : Fault → EventKind
  | .invariant _ => .methodRestored
  | _ => .methodSkipped

/-- Runs a strategy on a body that is out of its method for the time being; gives the body to put
back, which is the old one if the strategy fails, and tells whether it has changed. -/
def attempt (st : Strategy) (id : MethodId) (token : Token) (body : Body) :
    Work (Body × Bool) := fun s =>
  match processChecked ctx st token { session := s, body } with
  | (.ok changed, w) => (.ok (w.body, changed), w.session)
  | (.error e, w) =>
    let name :=
      match w.session.module.methodRef? id with
      | some ref => s!"{ref.declaring.text}::{ref.name}"
      | none => ""
    let noted := w.session.note .warn s!"{name} left unchanged by {st.name}: {e.text}"
    (.ok (body, false), noted.record {
      kind := failureKind e
      method := token
      pass := st.name
      message := s!"{name}: {e.text}" })

def putBack (id : MethodId) (body : Body) : Work Unit :=
  Work.onModule fun m =>
    match m.method? id with
    | some _ => .ok ((), m.setBody id (some body))
    | none => .error (.invariant (.methodGone id.type id.index))

/-- Runs a strategy on a method, if it has a body; tells whether the body has changed. -/
def onMethod (st : Strategy) (id : MethodId) : Work Bool := do
  match (← Work.get).module.method? id with
  | some { token, body := some body, .. } =>
    Work.update fun s => { s with module := s.module.setBody id none }
    let (body, changed) ← attempt ctx st id token body
    putBack id body
    return changed
  | _ => return false

/-- Runs a strategy on the methods that a type has by now. -/
def onType (st : Strategy) (type : Nat) : Work Bool := do
  let m := (← Work.get).module
  if st.skips ctx.settings m type then return false
  let count := ((m.types[type]?).map (·.methods.size)).getD 0
  Work.each (fun index => onMethod ctx st ⟨type, index⟩) (List.range count)

/-- Runs the strategies of a stage on all types that there are when it starts. -/
def runStage (strategies : List Strategy) (stage : Stage) : Work Bool := do
  let active := strategies.filter (·.stage = stage)
  let visits := (← Work.get).module.order.flatMap fun type => active.map (·, type)
  Work.each (fun (st, type) => onType ctx st type) visits

/-- What a run comes to if it has an end: runs all stages in order; tells whether a body was changed. -/
def run (strategies : List Strategy) : Work Bool :=
  Work.each (runStage ctx strategies) Stage.all

/-! ## Runs that may have no end -/

/-- Runs a strategy on a method, if that has an end. -/
def onMethod? (st : Strategy) (id : MethodId) : Work? Bool := fun s =>
  if ((s.module.method? id).bind (·.body)).any st.endless then none else some (onMethod ctx st id s)

def onType? (st : Strategy) (type : Nat) : Work? Bool := do
  let m := (← get).module
  if st.skips ctx.settings m type then return false
  let count := ((m.types[type]?).map (·.methods.size)).getD 0
  Work?.each (fun index => onMethod? ctx st ⟨type, index⟩) (List.range count)

/-- Runs the strategies of a stage on all types, if there is an order to visit them in. -/
def runStage? (strategies : List Strategy) (stage : Stage) : Work? Bool := do
  let active := strategies.filter (·.stage = stage)
  if active.isEmpty then return false
  let order ← Work?.ofOption (← get).module.order?
  Work?.each (fun (st, type) => onType? ctx st type) (order.flatMap fun type => active.map (·, type))

def run? (strategies : List Strategy) : Work? Bool :=
  Work?.each (runStage? ctx strategies) Stage.all

end Pipeline

end CilForge
