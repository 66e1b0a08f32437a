import CilForge.Body.Edit
import CilForge.Session

/-!
# Passes

A pass works on one body within a session. It may fail half way; what it has changed by then can
be seen.
-/

namespace CilForge

structure Workpiece where
  session : Session
  body : Body

abbrev Pass := ExceptT Fault (StateM Workpiece)

namespace Pass

def edit {α : Type} (e : Edit α) : Pass α := fun w =>
  match e w.body with
  | (r, body) => (r, { w with body })

def work {α : Type} (k : Work α) : Pass α := fun w =>
  match k w.session with
  | (r, session) => (r, { w with session })

def body : Pass Body := fun w => (.ok w.body, w)

def module : Pass ModuleDef := fun w => (.ok w.session.module, w)

def record (e : Event) : Pass Unit := work (Work.update (·.record e))

def note (level : LogLevel) (message : String) : Pass Unit :=
  work (Work.update (·.note level message))

end Pass

end CilForge
