import CilForge.Machine.Run

/-!
# The interpreter

A machine on its way, one instruction after the other: the methods that wait for one they have called are kept
on a list. The interpreter counts the methods that are open, and with 64 bits the instructions it has executed;
where it makes a text that has no end it is stuck.
-/

namespace CilForge

/-- A frame that waits for a method, and what it has asked for. -/
structure Caller where
  frame : Frame
  action : Action
  method : MethodRef

def Caller.resume (c : Caller) (heap : Heap) : Except MachineFault Outcome → Except MachineFault (Frame ⊕ Outcome)
  | .ok (.returned v) => (c.action.resume c.frame c.method v).map .inl
  | .ok (.threw v) => .error (heap.fault (.calleeThrew c.method) v)
  | .error e => .error e

/-- What an interpreter is about to do. -/
inductive Control where
  | enter (body : Body) (args : List Value)
  | run (frame : Frame)
  /-- The frame of a method is given up. -/
  | leave (result : Except MachineFault Outcome)
  /-- The result goes to the caller, if there is one. -/
  | back (result : Except MachineFault Outcome)
  | stuck

def Control.after : Except MachineFault (Frame ⊕ Outcome) → Control
  | .ok (.inl f) => run f
  | .ok (.inr o) => leave (.ok o)
  | .error .endless => stuck
  | .error e => leave (.error e)

structure Interpreter where
  control : Control
  /-- From the innermost outwards. -/
  callers : List Caller := []
  depth : Nat := 0
  executed : BitVec 64 := 0
  heap : Heap := #[]
  trace : Array HostCall := #[]

namespace Interpreter

def world (s : Interpreter) : World := { executed := s.executed.toNat, heap := s.heap, trace := s.trace }

/-- Whether the outermost body has come to its end. -/
def isDone (s : Interpreter) : Bool :=
  match s.control, s.callers with
  | .back _, [] => true
  | _, _ => false

def traceText? (s : Interpreter) : Option (List String) := s.trace.toList.mapM (·.text? s.heap)

end Interpreter

namespace Machine

/-- The method of the module that an instruction calls, and who calls it. -/
def calls? (m : Machine) (f : Frame) (heap : Heap) (h : Handle) (i : Instr) : Option (Caller × Body × List Value) := do
  let (f, a) ← (f.act heap h i).toOption
  let (ref, args) ← a.callee?
  let body ← (m.body? ref).toOption.join
  return (⟨f, a, ref⟩, body, args)

/-- One move of an interpreter. Where the outermost body has ended it stays. -/
def advance (m : Machine) (s : Interpreter) : Interpreter :=
  match s.control with
  | .enter body args =>
    if m.limits.maxCallDepth ≤ s.depth then { s with control := .back (.error .callDepthLimit) }
    else { s with control := .run (.start body args), depth := s.depth + 1 }
  | .run f =>
    match f.ahead with
    | [] => { s with control := .leave (.error .fellOffEnd) }
    | (h, i) :: behind =>
      let f := { f with ahead := behind }
      let s := { s with executed := s.executed + 1 }
      if m.limits.maxInstructions < s.executed.toNat then { s with control := .leave (.error .instructionLimit) }
      else
        match m.calls? f s.heap h i with
        | some (c, body, args) => { s with control := .enter body args, callers := c :: s.callers }
        | none =>
          -- no method of the module is called, so that nothing is asked to carry one out
          let (r, w) := m.step (m.executeWithin 0) f h i s.world
          { s with control := .after r, heap := w.heap, trace := w.trace }
  | .leave r => { s with control := .back r, depth := s.depth - 1 }
  | .back r =>
    match s.callers with
    | [] => s
    | c :: callers => { s with control := .after (c.resume s.heap r), callers }
  | .stuck => s

/-- Moves on until the outermost body has ended, if it does so in less than `n` moves. -/
def run? (m : Machine) : Nat → Interpreter → Option Interpreter
  | 0, _ => none
  | n + 1, s => if s.isDone then some s else m.run? n (m.advance s)

/-- Carries out a body, or a method of the module, on an interpreter that has nothing else to do, if that takes less
than `n` moves. -/
def execute? (m : Machine) (n : Nat) (body : Body) (args : List Value) (s : Interpreter) :
    Option (Except MachineFault Outcome × Interpreter) := do
  let s ← m.run? n { s with control := .enter body args }
  match s.control with
  | .back r => return (r, s)
  | _ => none

def invoke? (m : Machine) (n : Nat) (ref : MethodRef) (args : List Value) (s : Interpreter) :
    Option (Except MachineFault Outcome × Interpreter) :=
  match m.body? ref with
  | .error e => some (.error e, s)
  | .ok none => some (.error (.undefinedMethod ref m.scope.module.name), s)
  | .ok (some body) => m.execute? n body args s

end Machine

end CilForge
