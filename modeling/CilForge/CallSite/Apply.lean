import CilForge.CallSite.Match
import CilForge.Workpiece

/-!
# Changing call sites

Goes through a body from its end to its start and changes every site it finds. Instructions in
front of a site keep their handles, so that the way back is known from the start.
-/

namespace CilForge.CallSite

def passName : String := "call-sites"

/-- The instructions behind `first` up to and including `last`. -/
def upTo (b : Body) (first last : Handle) : Except Fault (List Handle) :=
  let behind := (b.handles.dropWhile (· ≠ first)).drop 1
  if behind.contains last then .ok (behind.takeWhile (· ≠ last) ++ [last])
  else .error (.invariant (.notBehind last first))

def removeAll (hs : List Handle) : Edit Unit := hs.forM Edit.remove

/-- A sequence becomes one instruction. -/
def foldEdit (first last : Handle) (result : Instr) : Edit Unit := do
  let doomed ← ExceptT.mk (pure (upTo (← get) first last))
  let _ ← Edit.replace first result
  removeAll doomed

def redirectEdit (scaffolding : List Handle) (call : Handle) (ref : MethodRef) : Edit Unit := do
  removeAll scaffolding
  let _ ← Edit.replace call (.call .call ref)

def underlyingEdit (token call : Handle) (primitive : Sig) : Edit Unit := do
  let _ ← Edit.replace token (.typed .ldtoken primitive)
  Edit.remove call

/-- The flag is kept in a new local, since the test needs it twice. -/
def hasFlagEdit (firstBox secondBox call : Handle) (k : IntKind) : Edit Unit := do
  let temp ← Edit.addLocal k.sig
  Edit.remove firstBox
  let _ ← Edit.expand secondBox (.stloc temp) [.ldloc temp, ⟨.and, .none⟩, .ldloc temp]
  let _ ← Edit.replace call ⟨.ceq, .none⟩

def constrainedEdit (marker call : Handle) (enum : Sig) (ref : MethodRef) : Edit Unit := do
  let _ ← Edit.replace marker (.typed .ldobj enum)
  let _ ← Edit.replace call (.call .call ref)

/-- Makes the change of a site; a generated method it needs is there before the body changes. -/
def Site.apply (ctx : Context) (s : Site) : Pass Unit :=
  match s.change with
  | .fold first last result => Pass.edit (foldEdit first last result)
  | .redirect scaffolding call op => do
    let ref ← Pass.work (helper ctx op s.info)
    Pass.edit (redirectEdit scaffolding call ref)
  | .underlying token call primitive => Pass.edit (underlyingEdit token call primitive)
  | .hasFlag firstBox secondBox call =>
    Pass.edit (hasFlagEdit firstBox secondBox call s.info.kind)
  | .constrained marker call => do
    let ref ← Pass.work (helper ctx .toString s.info)
    Pass.edit (constrainedEdit marker call s.info.sig ref)

/-- Changes the site at an instruction, if there is one. A site that cannot be changed is
reported and left. -/
def visit (ctx : Context) (method : Token) (h : Handle) : Pass Bool := do
  match matchAt ctx (← Pass.module) (← Pass.body) h with
  | .ok none => return false
  | .ok (some site) =>
    let message := s!"{site.pattern.text} on {site.info.name.text}"
    site.apply ctx
    Pass.note .debug s!"{method.text}: rewrote {message}"
    Pass.record {
      kind := if site.isFold then .constantFolded else .siteRedirected
      method := method
      pass := passName
      message }
    return true
  | .error e =>
    if !e.isLocal then throw e
    Pass.note .debug s!"{method.text}: skipped site at {h.text} - {e.text}"
    Pass.record { kind := .siteSkipped, method := method, pass := passName, message := e.text }
    return false

/-- Changes the sites at the given instructions, in order; tells whether there were any. -/
def visitAll (ctx : Context) (method : Token) : List Handle → Pass Bool
  | [] => return false
  | h :: rest => do
    let here ← visit ctx method h
    let there ← visitAll ctx method rest
    return here || there

def run (ctx : Context) (method : Token) : Pass Bool := do
  visitAll ctx method (← Pass.body).handles.reverse

/-- Generates the methods that the sites of a body need, without changing the body. -/
def prepare (ctx : Context) (method : Token) (b : Body) : Work Unit :=
  b.handles.reverse.forM fun h => do
    match matchAt ctx (← Work.get).module b h with
    | .ok none => pure ()
    | .ok (some site) =>
      match site.operation? with
      | some op => let _ ← helper ctx op site.info
      | none => pure ()
    | .error e =>
      if !e.isLocal then throw e
      Work.update (·.note .trace s!"{method.text}: no helper for site at {h.text} - {e.text}")

end CilForge.CallSite
