import CilForge.Machine.Frame
import CilForge.Machine.Intrinsic

/-!
# Running methods

A run goes through the instructions of a frame one by one. A call is answered by a method of the
module, by the machine's own knowledge of the platform, or by the host, in this order. Two limits
bound every run: how many instructions are executed in all, and how many frames are open.
-/

namespace CilForge

structure Limits where
  maxInstructions : Nat := 1000000
  maxCallDepth : Nat := 64

/-- A call that the host has answered. -/
structure HostCall where
  method : MethodRef
  args : List Value

def HostCall.text? (heap : Heap) (c : HostCall) : Option String := do
  let args ← c.args.mapM heap.text?
  return s!"{c.method.declaring.text}::{c.method.name}(" ++ String.intercalate ", " args ++ ")"

/-- The outside world: it answers the calls that nothing else answers, and may look at the calls
it has answered before and at the heap. -/
structure Host where
  answer : Array HostCall → Heap → MethodRef → List Value →
    Except MachineFault (Option Value × Heap)

namespace Host

def silent : Host where
  answer _ _ m _ := .error (.noHostBinding m)

def recording : Host where
  answer _ heap m _ :=
    if 0 < m.sig.pushCount then .error (.noHostResult m) else .ok (none, heap)

end Host

/-- How a method ends. -/
inductive Outcome where
  | returned (value : Option Value)
  | threw (value : Value)

/-- What outlives a method: the count of instructions, the heap and the host calls. -/
structure World where
  executed : Nat := 0
  heap : Heap := #[]
  trace : Array HostCall := #[]
deriving Inhabited

namespace World

def alloc (w : World) (element : Sig) (count : Nat) : Value × World :=
  let (ref, heap) := w.heap.alloc element (Array.replicate count (.default element))
  (ref, { w with heap })

def store (w : World) (ref index : Nat) (v : Value) : World :=
  { w with heap := w.heap.store ref index v }

end World

structure Machine where
  scope : Scope
  host : Host := .silent
  limits : Limits := {}

/-- The result of a computation that may fail, and the world after it. -/
abbrev Answer (α : Type) := Except MachineFault α × World

/-- How a method body is carried out. -/
abbrev Executor := Body → List Value → World → Answer Outcome

namespace Machine

/-- The body of a method that the module defines. -/
def body? (m : Machine) (ref : MethodRef) : Except MachineFault (Option Body) :=
  match m.scope.module.lookup? ref with
  | none => .ok none
  | some d =>
    match d.body with
    | some body => .ok (some body)
    | none => .error (.noBody ref)

/-- Answers a call, `callee` standing for the methods of the module. -/
def dispatch (m : Machine) (callee : Executor) (ref : MethodRef) (args : List Value) (w : World) :
    Answer (Option Value) :=
  match m.body? ref with
  | .error e => (.error e, w)
  | .ok (some body) =>
    match callee body args w with
    | (.ok (.returned v), w) => (.ok v, w)
    | (.ok (.threw v), w) => (.error (w.heap.fault (.calleeThrew ref) v), w)
    | (.error e, w) => (.error e, w)
  | .ok none =>
    match Intrinsic.invoke? m.scope w.heap ref args with
    | some (.ok (v, heap)) => (.ok (some v), { w with heap })
    | some (.error e) => (.error e, w)
    | none =>
      match m.host.answer w.trace w.heap ref args with
      | .ok (v, heap) => (.ok v, { w with heap, trace := w.trace.push ⟨ref, args⟩ })
      | .error e => (.error e, w)

/-- The frame behind a call: there is a result exactly if the signature has one. -/
def afterCall (f : Frame) (ref : MethodRef) (result : Option Value) : Except MachineFault Frame :=
  match result with
  | some v => if ref.sig.pushCount = 1 then .ok (f.push v) else .error (.unexpectedValue ref)
  | none => if ref.sig.pushCount = 0 then .ok f else .error (.noValue ref)

/-- The frame behind the making of an object. -/
def afterNew (f : Frame) (ref : MethodRef) (result : Option Value) : Except MachineFault Frame :=
  match result with
  | some v => .ok (f.push v)
  | none => .error (.noObject ref)

/-- One instruction of a frame that stands behind it already: the frame to go on with, or the end
of the method. -/
def step (m : Machine) (callee : Executor) (f : Frame) (h : Handle) (i : Instr) (w : World) :
    Answer (Frame ⊕ Outcome) :=
  match f.act w.heap h i with
  | .error e => (.error e, w)
  | .ok (f, action) =>
    match action with
    | .next => (.ok (.inl f), w)
    | .jump goal => ((f.goTo goal).map .inl, w)
    | .alloc element count =>
      let (ref, w) := w.alloc element count
      (.ok (.inl (f.push ref)), w)
    | .store ref index v => (.ok (.inl f), w.store ref index v)
    | .ret v => (.ok (.inr (.returned v)), w)
    | .throw v => (.ok (.inr (.threw v)), w)
    | .call ref args =>
      match m.dispatch callee ref args w with
      | (.error e, w) => (.error e, w)
      | (.ok result, w) => ((afterCall f ref result).map .inl, w)
    | .new ref args =>
      match m.dispatch callee ref args w with
      | (.error e, w) => (.error e, w)
      | (.ok result, w) => ((afterNew f ref result).map .inl, w)

/-- Runs a frame to its end. Every step counts against the limit, so that `fuel` above the limit
is never used up. -/
def runFrame (m : Machine) (callee : Executor) : Nat → Frame → World → Answer Outcome
  | 0, _, w => (.error .instructionLimit, w)
  | fuel + 1, f, w =>
    match f.ahead with
    | [] => (.error .fellOffEnd, w)
    | (h, i) :: behind =>
      let w := { w with executed := w.executed + 1 }
      if m.limits.maxInstructions < w.executed then (.error .instructionLimit, w)
      else
        match m.step callee { f with ahead := behind } h i w with
        | (.error e, w) => (.error e, w)
        | (.ok (.inr outcome), w) => (.ok outcome, w)
        | (.ok (.inl f), w) => m.runFrame callee fuel f w

/-- Carries out a body with room for `depth` more frames. -/
def executeWithin (m : Machine) : Nat → Executor
  | 0 => fun _ _ w => (.error .callDepthLimit, w)
  | depth + 1 => fun body args w =>
    m.runFrame (m.executeWithin depth) (m.limits.maxInstructions + 1) (.start body args) w

def execute (m : Machine) : Executor := m.executeWithin m.limits.maxCallDepth

def invoke (m : Machine) (ref : MethodRef) (args : List Value) (w : World) : Answer Outcome :=
  match m.body? ref with
  | .error e => (.error e, w)
  | .ok none => (.error (.undefinedMethod ref m.scope.module.name), w)
  | .ok (some body) => m.execute body args w

end Machine

def Action.callee? : Action → Option (MethodRef × List Value)
  | .call ref args | .new ref args => some (ref, args)
  | _ => none

/-- The frame behind a call that has given a result. -/
def Action.resume (a : Action) (f : Frame) (ref : MethodRef) (result : Option Value) :
    Except MachineFault Frame :=
  match a with
  | .new _ _ => Machine.afterNew f ref result
  | _ => Machine.afterCall f ref result

namespace Outcome

/-- The value a method has to have returned. -/
def value (heap : Heap) : Outcome → Except MachineFault Value
  | returned (some v) => .ok v
  | returned none => .error .returnedVoid
  | threw v => .error (heap.fault .threw v)

end Outcome

end CilForge
