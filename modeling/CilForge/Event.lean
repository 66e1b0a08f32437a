import CilForge.Token

/-!
# Events

What was done to a module and what was left alone, in order, and the lines of the log.
-/

namespace CilForge

inductive EventKind where
  | helperGenerated | siteRedirected | constantFolded | handlersFlattened
  | siteSkipped | methodSkipped | methodRestored | moduleTransformed
  | info | warning | error
deriving DecidableEq

namespace EventKind

def all : List EventKind :=
  [helperGenerated, siteRedirected, constantFolded, handlersFlattened, siteSkipped, methodSkipped,
    methodRestored, moduleTransformed, info, warning, error]

def name : EventKind → String
  | helperGenerated => "HelperGenerated" | siteRedirected => "CallSiteRewritten"
  | constantFolded => "ConstantFolded" | handlersFlattened => "HandlersFlattened"
  | siteSkipped => "SiteSkipped" | methodSkipped => "MethodSkipped"
  | methodRestored => "MethodRestored" | moduleTransformed => "ModuleRewritten"
  | info => "Info" | warning => "Warning" | error => "Error"

/-- What a count of such events counts. -/
def text : EventKind → String
  | helperGenerated => "helpers generated" | siteRedirected => "call sites rewritten"
  | constantFolded => "constants folded" | handlersFlattened => "methods flattened"
  | siteSkipped => "sites skipped" | methodSkipped => "methods skipped"
  | methodRestored => "methods restored" | moduleTransformed => "modules rewritten"
  | info => "info" | warning => "warning" | error => "error"

def isTransformation : EventKind → Bool
  | helperGenerated | siteRedirected | constantFolded | handlersFlattened => true
  | _ => false

def isDiagnostic : EventKind → Bool
  | info | warning | error | siteSkipped | methodSkipped | methodRestored => true
  | _ => false

end EventKind

structure Event where
  kind : EventKind
  method : Option Token := none
  location : Option Nat := none
  message : String := kind.text
  pass : Option String := none

def Event.text (e : Event) : String :=
  match e.method with
  | some token => s!"[{e.kind.text}] {token.text}: {e.message}"
  | none => s!"[{e.kind.text}] {e.message}"

abbrev EventLog := Array Event

namespace EventLog

def countKind (log : EventLog) (kind : EventKind) : Nat := log.countP (·.kind = kind)

def ofKind (log : EventLog) (kind : EventKind) : List Event :=
  log.toList.filter (·.kind = kind)

def ofMethod (log : EventLog) (token : Token) : List Event :=
  log.toList.filter (·.method = some token)

def transformationCount (log : EventLog) : Nat := log.countP (·.kind.isTransformation)

/-- The transformations by kind, as sorted texts; without any, the number of events. -/
def summary (log : EventLog) : String :=
  if log.isEmpty then "no events"
  else
    let parts := EventKind.all.filterMap fun kind =>
      if kind.isTransformation && 0 < log.countKind kind then
        some s!"{log.countKind kind} {kind.text}"
      else none
    if parts.isEmpty then s!"{log.size} events"
    else String.intercalate ", " (parts.mergeSort fun a b => a ≤ b)

end EventLog

inductive LogLevel where
  | trace | debug | info | warn

def LogLevel.text : LogLevel → String
  | trace => "TRACE" | debug => "DEBUG" | info => "INFO" | warn => "WARN"

structure LogLine where
  level : LogLevel
  message : String

def LogLine.text (l : LogLine) : String := s!"{l.level.text} {l.message}"

end CilForge
