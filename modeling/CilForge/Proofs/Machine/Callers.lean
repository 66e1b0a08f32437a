import CilForge.Proofs.Machine.Texts
import Mathlib.Data.Option.Basic
import Mathlib.Logic.Function.Iterate

/-!
# Runs with their callers

What a machine comes to in one go, its interpreter comes to one move after the other: every body that is entered
comes back with its result to the callers and to the count that were there before (`returns`), unless the
interpreter is held up by a text without end (`held_iterate`).
-/

namespace CilForge

namespace Control

def frames : Control → Nat
  | run _ | leave _ | stuck => 1
  | enter _ _ | back _ => 0

/-- The instructions that may have been counted beyond the limit. -/
def excess : Control → Nat
  | leave (.error _) | back (.error _) => 1
  | _ => 0

/-- Whether a fault that is never seen has got out of its instruction. -/
def Told : Control → Prop
  | leave r | back r => r ≠ .error .endless
  | _ => True

theorem after_error {e : MachineFault} (told : e ≠ .endless) : after (.error e) = leave (.error e) := by
  cases e with
  | endless => exact absurd rfl told
  | _ => rfl

theorem after_eq_stuck {r : Except MachineFault (Frame ⊕ Outcome)} : after r = stuck ↔ r = .error .endless := by
  constructor
  · intro held
    obtain e | f | o := r
    · by_contra told
      rw [after_error fun eq => told (congrArg _ eq)] at held
      cases held
    · cases held
    · cases held
  · rintro rfl
    rfl

theorem frames_after (r : Except MachineFault (Frame ⊕ Outcome)) : (after r).frames = 1 := by
  obtain e | f | o := r
  · cases e <;> rfl
  · rfl
  · rfl

theorem told_after (r : Except MachineFault (Frame ⊕ Outcome)) : (after r).Told := by
  obtain e | f | o := r
  · by_cases told : e = .endless
    · rw [told]
      trivial
    · rw [after_error told]
      exact fun eq => told (Except.error.inj eq)
  · trivial
  · exact nofun

end Control

namespace Interpreter

def frames (s : Interpreter) : Nat := s.callers.length + s.control.frames

/-- The same callers, with another thing to do and another world. -/
def reach (s : Interpreter) (control : Control) (w : World) : Interpreter :=
  { s with control, executed := .ofNat 64 w.executed, heap := w.heap, trace := w.trace }

variable {s : Interpreter}

theorem reach_world (control : Control) : s.reach control s.world = { s with control } := by
  simp [reach, world]

theorem world_reach {control : Control} {w : World} (narrow : w.executed < 2 ^ 64) : (s.reach control w).world = w := by
  rw [world, reach, BitVec.toNat_ofNat, Nat.mod_eq_of_lt narrow]

theorem reach_later (control : Control) : s.reach control (s.world.later 1 s.world.memory) =
    { s with control, executed := s.executed + 1 } := by
  have next : BitVec.ofNat 64 (s.executed.toNat + 1) = s.executed + 1 := by
    rw [BitVec.ofNat_add, BitVec.ofNat_toNat, BitVec.setWidth_eq]
    rfl
  simp [reach, world, World.later, World.memory, next]

theorem toNat_executed_succ (narrow : s.executed.toNat < 2 ^ 64 - 1) :
    (s.executed + 1).toNat = s.executed.toNat + 1 := by
  rw [BitVec.toNat_add]
  exact Nat.mod_eq_of_lt (by simp; omega)

end Interpreter

namespace Machine

def turn (m : Machine) (callee : Executor) (f : Frame) (w : World) : Answer (Frame ⊕ Outcome) :=
  match f.ahead with
  | [] => (.error .fellOffEnd, w)
  | (h, i) :: behind =>
    let w := w.later 1 w.memory
    if m.limits.maxInstructions < w.executed then (.error .instructionLimit, w)
    else m.step callee { f with ahead := behind } h i w

/-- Instructions of a run one after the other, so many of them if the method does not end before. -/
def turns (m : Machine) (callee : Executor) : Nat → Frame → World → Answer (Frame ⊕ Outcome)
  | 0, f, w => (.ok (.inl f), w)
  | n + 1, f, w =>
    match m.turn callee f w with
    | (.ok (.inl f), w) => m.turns callee n f w
    | answer => answer

/-! ## One instruction -/

section
variable {m : Machine} {callee : Executor} {f : Frame} {w : World} {h : Handle} {i : Instr}
  {behind : List (Handle × Instr)}

theorem turn_nil (ahead : f.ahead = []) : m.turn callee f w = (.error .fellOffEnd, w) := by
  simp only [turn, ahead]

theorem turn_limit (ahead : f.ahead = (h, i) :: behind) (full : m.limits.maxInstructions ≤ w.executed) :
    m.turn callee f w = (.error .instructionLimit, w.later 1 w.memory) := by
  simp only [turn, ahead]
  exact if_pos (Nat.lt_succ_of_le full)

theorem turn_step (ahead : f.ahead = (h, i) :: behind) (room : w.executed < m.limits.maxInstructions) :
    m.turn callee f w = m.step callee { f with ahead := behind } h i (w.later 1 w.memory) := by
  simp only [turn, ahead]
  exact if_neg (Nat.not_lt.2 room)

theorem runFrame_turn (fuel : Nat) : m.runFrame callee (fuel + 1) f w =
    match m.turn callee f w with
    | (.ok (.inl f), w) => m.runFrame callee fuel f w
    | (.ok (.inr o), w) => (.ok o, w)
    | (.error e, w) => (.error e, w) := by
  cases ahead : f.ahead with
  | nil =>
    rw [turn_nil ahead, runFrame]
    simp only [ahead]
  | cons line behind =>
    by_cases room : w.executed < m.limits.maxInstructions
    · rw [turn_step ahead room, runFrame_succ ahead room]
      generalize m.step callee _ _ _ _ = answer
      obtain ⟨e | f' | o, w'⟩ := answer <;> rfl
    · rw [turn_limit ahead (Nat.not_lt.1 room), runFrame]
      simp only [ahead]
      exact if_pos (Nat.lt_succ_of_le (Nat.not_lt.1 room))

theorem runFrame_turns (n fuel : Nat) : m.runFrame callee (n + fuel) f w =
    match m.turns callee n f w with
    | (.ok (.inl f), w) => m.runFrame callee fuel f w
    | (.ok (.inr o), w) => (.ok o, w)
    | (.error e, w) => (.error e, w) := by
  induction n generalizing f w with
  | zero => rw [Nat.zero_add, turns]
  | succ n ih =>
    rw [Nat.succ_add, runFrame_turn, turns]
    obtain ⟨e | g | o, w'⟩ := m.turn callee f w
    · rfl
    · exact ih
    · rfl

/-- A step calls a method, or it has no use for machine and methods and counts no instructions. -/
theorem step_calls_or_alone (f : Frame) (h : Handle) (i : Instr) (w : World) :
    (∃ g a ref args, f.act w.heap h i = .ok (g, a) ∧ a.callee? = some (ref, args)) ∨
    ∃ r w', w'.executed = w.executed ∧ ∀ (m : Machine) (callee : Executor), m.step callee f h i w = (r, w') := by
  cases act : f.act w.heap h i with
  | error e => exact .inr ⟨_, w, rfl, fun m callee => by simp only [step, act]; rfl⟩
  | ok p =>
    obtain ⟨g, a⟩ := p
    cases a with
    | call ref args | new ref args => exact .inl ⟨g, _, ref, args, rfl, rfl⟩
    | _ =>
      refine .inr ⟨_, _, ?_, fun m callee => by simp only [step, act]; rfl⟩
      rfl

theorem dispatch_congr {ref : MethodRef} {args : List Value} (other : (m.body? ref).toOption.join = none)
    (callee' : Executor) : m.dispatch callee ref args w = m.dispatch callee' ref args w := by
  match own : m.body? ref, other with
  | .error e, _ => simp only [dispatch, own]
  | .ok none, _ => simp only [dispatch, own]

theorem toOption_eq_some {α : Type} {x : Except MachineFault α} {a : α} : x.toOption = some a ↔ x = .ok a := by
  cases x <;> simp [Except.toOption]

theorem join_toOption_eq_some {α : Type} {x : Except MachineFault (Option α)} {a : α} :
    x.toOption.join = some a ↔ x = .ok (some a) := by
  rw [Option.join_eq_some_iff, toOption_eq_some]

theorem calls?_eq_some {heap : Heap} {c : Caller} {body : Body} {args : List Value} :
    m.calls? f heap h i = some (c, body, args) ↔ f.act heap h i = .ok (c.frame, c.action) ∧
      c.action.callee? = some (c.method, args) ∧ m.body? c.method = .ok (some body) := by
  simp only [calls?, Option.bind_eq_bind, Option.bind_eq_some_iff, toOption_eq_some, join_toOption_eq_some]
  constructor
  · rintro ⟨⟨g, a⟩, act, ⟨ref, args'⟩, target, body', own, eq⟩
    cases eq
    exact ⟨act, target, own⟩
  · rintro ⟨act, target, own⟩
    exact ⟨_, act, _, target, _, own, rfl⟩

/-- An instruction that calls a method of the module leaves the rest to it, and its caller goes on with
the result. -/
theorem step_of_calls? {c : Caller} {body : Body} {args : List Value}
    (calls : m.calls? f w.heap h i = some (c, body, args)) : m.step callee f h i w =
      match callee body args w with
      | (r, w) => (c.resume w.heap r, w) := by
  obtain ⟨act, target, own⟩ := calls?_eq_some.1 calls
  rw [step_of_callee? act target]
  simp only [dispatch, own]
  generalize callee body args w = answer
  obtain ⟨e | o, w'⟩ := answer
  · rfl
  · cases o <;> rfl

/-- All other instructions have no use for the methods of the module. -/
theorem step_congr (calls : m.calls? f w.heap h i = none) (callee' : Executor) :
    m.step callee f h i w = m.step callee' f h i w := by
  rcases step_calls_or_alone f h i w with ⟨g, a, ref, args, act, target⟩ | ⟨r, w', -, alone⟩
  · have other : (m.body? ref).toOption.join = none := by
      by_contra found
      obtain ⟨body, own⟩ := Option.ne_none_iff_exists'.1 found
      have calls' : m.calls? f w.heap h i = some (⟨g, a, ref⟩, body, args) :=
        calls?_eq_some.2 ⟨act, target, join_toOption_eq_some.1 own⟩
      rw [calls] at calls'
      cases calls'
    rw [step_of_callee? act target, step_of_callee? act target, dispatch_congr other callee']
  · rw [alone, alone]

end

/-! ## What a move keeps -/

/-- The count of frames is right and within its limit, and that of instructions is too, but for the
instruction at which the run is given up. -/
structure Sound (m : Machine) (s : Interpreter) : Prop where
  depth : s.depth = s.frames
  room : s.depth ≤ m.limits.maxCallDepth
  count : s.executed.toNat ≤ m.limits.maxInstructions + s.control.excess
  told : s.control.Told

section
variable {m : Machine} {f : Frame} {w : World} {s : Interpreter}

/-- A machine that carries out no methods counts no instructions in them. -/
theorem executed_step (h : Handle) (i : Instr) :
    (m.step (m.executeWithin 0) f h i w).2.executed = w.executed := by
  have called (ref : MethodRef) (args : List Value) :
      (m.dispatch (m.executeWithin 0) ref args w).2.executed = w.executed := by
    match own : m.body? ref with
    | .error e => simp only [dispatch, own]
    | .ok (some body) => simp only [dispatch, own, executeWithin]
    | .ok none =>
      simp only [dispatch, own]
      split
      · rfl
      · rfl
      · split <;> rfl
  rcases step_calls_or_alone f h i w with ⟨g, a, ref, args, act, target⟩ | ⟨r, w', same, alone⟩
  · rw [step_of_callee? act target, ← called ref args]
    generalize m.dispatch (m.executeWithin 0) ref args w = answer
    obtain ⟨e | v, w'⟩ := answer <;> rfl
  · rw [alone]
    exact same

/-- What a move from inside a method leads to. -/
inductive Proceeds (m : Machine) (s : Interpreter) (f : Frame) : Interpreter → Prop where
  | fallen : f.ahead = [] → Proceeds m s f { s with control := .leave (.error .fellOffEnd) }
  | full {h i behind} : f.ahead = (h, i) :: behind → m.limits.maxInstructions ≤ s.executed.toNat →
    Proceeds m s f { s with control := .leave (.error .instructionLimit), executed := s.executed + 1 }
  | call {h i behind c body args} : f.ahead = (h, i) :: behind → s.executed.toNat < m.limits.maxInstructions →
    m.calls? { f with ahead := behind } s.heap h i = some (c, body, args) →
    Proceeds m s f { s with control := .enter body args, callers := c :: s.callers, executed := s.executed + 1 }
  | alone {h i behind r w} : f.ahead = (h, i) :: behind → s.executed.toNat < m.limits.maxInstructions →
    m.calls? { f with ahead := behind } s.heap h i = none →
    m.step (m.executeWithin 0) { f with ahead := behind } h i (s.world.later 1 s.world.memory) = (r, w) →
    Proceeds m s f (s.reach (.after r) w)

theorem proceeds (narrow : s.executed.toNat < 2 ^ 64 - 1) (control : s.control = .run f) :
    m.Proceeds s f (m.advance s) := by
  have counted := s.toNat_executed_succ narrow
  unfold advance
  simp only [control]
  cases ahead : f.ahead with
  | nil => exact .fallen ahead
  | cons line behind =>
    obtain ⟨h, i⟩ := line
    dsimp only
    rw [counted]
    split
    · rename_i full
      exact .full ahead (Nat.le_of_lt_succ full)
    · rename_i room
      have room : s.executed.toNat < m.limits.maxInstructions := Nat.not_lt.1 room
      cases calls : m.calls? { f with ahead := behind } s.heap h i with
      | some x =>
        obtain ⟨c, body, args⟩ := x
        exact .call ahead room calls
      | none =>
        dsimp only
        have world : Interpreter.world { s with control := .run f, executed := s.executed + 1 } =
            s.world.later 1 s.world.memory := by
          rw [Interpreter.world, counted]
          rfl
        rw [world]
        obtain ⟨r, w, stepped⟩ : ∃ r w, m.step (m.executeWithin 0) { f with ahead := behind } h i
          (s.world.later 1 s.world.memory) = (r, w) := ⟨_, _, rfl⟩
        rw [stepped]
        have same : w.executed = s.executed.toNat + 1 := by
          have := executed_step (m := m) (f := { f with ahead := behind }) (w := s.world.later 1 s.world.memory) h i
          rwa [stepped] at this
        have reached := Proceeds.alone ahead room calls stepped
        rw [Interpreter.reach, same, ← counted, BitVec.ofNat_toNat, BitVec.setWidth_eq] at reached
        exact reached

theorem sound_advance (narrow : m.limits.maxInstructions < 2 ^ 64 - 1) (sound : m.Sound s) :
    m.Sound (m.advance s) := by
  obtain ⟨depth, room, count, told⟩ := sound
  obtain ⟨control, callers, d, n, heap, trace⟩ := s
  simp only [Interpreter.frames] at depth room count told
  cases control with
  | enter body args =>
    simp only [advance]
    split
    · exact ⟨depth, room, Nat.le_succ_of_le count, nofun⟩
    · rename_i more
      exact ⟨congrArg (· + 1) depth, Nat.not_le.1 more, count, trivial⟩
  | run f =>
    have small : n.toNat < 2 ^ 64 - 1 := Nat.lt_of_le_of_lt count narrow
    have moves := m.proceeds (s := ⟨.run f, callers, d, n, heap, trace⟩) small rfl
    have counted := Interpreter.toNat_executed_succ (s := ⟨.run f, callers, d, n, heap, trace⟩) small
    generalize m.advance _ = s' at moves ⊢
    cases moves with
    | fallen => exact ⟨depth, room, Nat.le_succ_of_le count, nofun⟩
    | full => exact ⟨depth, room, Nat.le_trans (Nat.le_of_eq counted) (Nat.succ_le_succ count), nofun⟩
    | call _ free => exact ⟨depth, room, Nat.le_trans (Nat.le_of_eq counted) free, trivial⟩
    | @alone h i behind r w _ free _ stepped =>
      refine ⟨?_, room, ?_, Control.told_after r⟩
      · simp only [Interpreter.frames, Interpreter.reach, Control.frames_after]
        exact depth
      · have same : w.executed = n.toNat + 1 := (congrArg (·.2.executed) stepped).symm.trans (executed_step h i)
        change (BitVec.ofNat 64 w.executed).toNat ≤ _
        rw [BitVec.toNat_ofNat, Nat.mod_eq_of_lt (by omega), same]
        exact Nat.le_trans free (Nat.le_add_right ..)
  | leave r =>
    refine ⟨Nat.sub_eq_of_eq_add depth, Nat.le_trans (Nat.sub_le ..) room, ?_, told⟩
    cases r <;> exact count
  | back r =>
    cases callers with
    | nil => exact ⟨depth, room, count, told⟩
    | cons c callers =>
      refine ⟨?_, room, ?_, Control.told_after _⟩
      · simp only [Interpreter.frames, advance, Control.frames_after]
        exact depth
      · cases r with
        | error e =>
          have told : e ≠ .endless := fun eq => told (congrArg _ eq)
          simp only [advance, Caller.resume, Control.after_error told]
          exact count
        | ok o => exact Nat.le_trans count (Nat.le_add_right ..)
  | stuck => exact ⟨depth, room, count, told⟩

theorem sound_iterate (narrow : m.limits.maxInstructions < 2 ^ 64 - 1) (sound : m.Sound s) (n : Nat) :
    m.Sound (m.advance^[n] s) :=
  Function.Iterate.rec _ sound (fun _ => sound_advance narrow) n

theorem executed_advance (narrow : m.limits.maxInstructions < 2 ^ 64 - 1) (sound : m.Sound s) :
    s.executed.toNat ≤ (m.advance s).executed.toNat := by
  have count := sound.count
  obtain ⟨control, callers, d, n, heap, trace⟩ := s
  cases control with
  | enter body args =>
    simp only [advance]
    split <;> exact Nat.le_refl _
  | run f =>
    have small : n.toNat < 2 ^ 64 - 1 := Nat.lt_of_le_of_lt count narrow
    have moves := m.proceeds (s := ⟨.run f, callers, d, n, heap, trace⟩) small rfl
    have counted := Interpreter.toNat_executed_succ (s := ⟨.run f, callers, d, n, heap, trace⟩) small
    generalize m.advance _ = s' at moves ⊢
    cases moves with
    | fallen => exact Nat.le_refl _
    | full | call => exact Nat.le_trans (Nat.le_succ _) (Nat.le_of_eq counted.symm)
    | @alone h i behind r w _ free _ stepped =>
      have same : w.executed = n.toNat + 1 := (congrArg (·.2.executed) stepped).symm.trans (executed_step h i)
      change n.toNat ≤ (BitVec.ofNat 64 w.executed).toNat
      rw [BitVec.toNat_ofNat, Nat.mod_eq_of_lt (by omega), same]
      exact Nat.le_succ _
  | leave r => exact Nat.le_refl _
  | back r => cases callers <;> exact Nat.le_refl _
  | stuck => exact Nat.le_refl _

/-- A move is held up only by a value whose text has no end. -/
theorem held_advance (answers : m.Answers) (narrow : m.limits.maxInstructions < 2 ^ 64 - 1) (sound : m.Sound s)
    (moving : s.control ≠ .stuck) (held : (m.advance s).control = .stuck) :
    ∃ v, ¬ (m.advance s).heap.Ends v := by
  obtain ⟨-, -, count, told⟩ := sound
  obtain ⟨control, callers, d, n, heap, trace⟩ := s
  cases control with
  | enter body args =>
    simp only [advance] at held
    split at held <;> cases held
  | run f =>
    have small : n.toNat < 2 ^ 64 - 1 := Nat.lt_of_le_of_lt count narrow
    have moves := m.proceeds (s := ⟨.run f, callers, d, n, heap, trace⟩) small rfl
    generalize m.advance _ = s' at moves held ⊢
    cases moves with
    | fallen | full | call => cases held
    | @alone h i behind r w _ free _ stepped =>
      have fair := step_fair answers ((congrArg Prod.fst stepped).trans (Control.after_eq_stuck.1 held))
      rw [stepped] at fair
      obtain ⟨same, v, circle⟩ := fair
      have same : w = _ := same
      exact ⟨v, same ▸ circle⟩
  | leave r => cases held
  | back r =>
    cases callers with
    | nil => cases held
    | cons c callers =>
      have held : c.resume heap r = _ := Control.after_eq_stuck.1 held
      obtain e | ⟨v⟩ | v := r
      · exact absurd (congrArg _ (Except.error.inj held)) told
      · cases resumed : c.action.resume c.frame c.method v with
        | error e =>
          rw [Caller.resume, resumed] at held
          exact absurd (resumed.trans (congrArg _ (Except.error.inj held))) (resume_ne_endless _ _ _ _)
        | ok f =>
          rw [Caller.resume, resumed] at held
          cases held
      · exact Heap.fair_fault (by simp) v held
  | stuck => exact absurd rfl moving

theorem held_iterate (answers : m.Answers) (narrow : m.limits.maxInstructions < 2 ^ 64 - 1) (sound : m.Sound s)
    (moving : s.control ≠ .stuck) (n : Nat) (held : (m.advance^[n] s).control = .stuck) :
    ∃ v, ¬ (m.advance^[n] s).heap.Ends v := by
  induction n with
  | zero => exact absurd held moving
  | succ n ih =>
    rw [Function.iterate_succ_apply'] at held ⊢
    by_cases before : (m.advance^[n] s).control = .stuck
    · have same : m.advance (m.advance^[n] s) = m.advance^[n] s := by simp only [advance, before]
      rw [same]
      exact ih before
    · exact held_advance answers narrow (sound_iterate narrow sound n) before held

end

/-! ## From entering to coming back -/

def Leads (m : Machine) (s s' : Interpreter) : Prop := ∃ n, m.advance^[n] s = s'

/-- The answer is given back to what `control` says, unless it is held up. -/
def Gives (m : Machine) (s : Interpreter) (control : Except MachineFault Outcome → Control)
    (out : Answer Outcome) : Prop :=
  (out.1 = .error .endless ∧ ∃ s', m.Leads s s' ∧ s'.control = .stuck) ∨
    (out.1 ≠ .error .endless ∧ m.Leads s (s.reach (control out.1) out.2) ∧
      out.2.executed ≤ m.limits.maxInstructions + 1)

section
variable {m : Machine} {s s' s'' : Interpreter}

theorem Leads.trans (first : m.Leads s s') (second : m.Leads s' s'') : m.Leads s s'' := by
  obtain ⟨n, rfl⟩ := first
  obtain ⟨k, rfl⟩ := second
  exact ⟨k + n, Function.iterate_add_apply ..⟩

theorem Leads.move (eq : m.advance s = s') : m.Leads s s' := ⟨1, eq⟩

variable (narrow : m.limits.maxInstructions < 2 ^ 64 - 1)
include narrow

theorem Leads.sound (leads : m.Leads s s') (sound : m.Sound s) : m.Sound s' := by
  obtain ⟨n, rfl⟩ := leads
  exact sound_iterate narrow sound n

theorem Leads.executed (leads : m.Leads s s') (sound : m.Sound s) : s.executed.toNat ≤ s'.executed.toNat := by
  obtain ⟨n, rfl⟩ := leads
  induction n generalizing s with
  | zero => exact Nat.le_refl _
  | succ n ih => exact Nat.le_trans (executed_advance narrow sound) (ih (sound_advance narrow sound))

omit narrow in
/-- Bodies that are entered with room for `k` more frames come back, and with what they come to. -/
def Returns (m : Machine) (k : Nat) : Prop := ∀ (s : Interpreter) body args, m.Sound s →
  s.control = .enter body args → s.depth + k = m.limits.maxCallDepth →
    m.Gives s .back (m.executeWithin k body args s.world)

/-- What one instruction comes to, with a method that it calls, or where it is held up. -/
theorem leads_turn {k : Nat} (returns : m.Returns k) {f : Frame} (sound : m.Sound s) (control : s.control = .run f)
    (depth : s.depth + k = m.limits.maxCallDepth) {r : Except MachineFault (Frame ⊕ Outcome)} {w : World}
    (turn : m.turn (m.executeWithin k) f s.world = (r, w)) :
    (r = .error .endless ∧ ∃ s', m.Leads s s' ∧ s'.control = .stuck) ∨
      (r ≠ .error .endless ∧ m.Leads s (s.reach (.after r) w) ∧ w.executed ≤ m.limits.maxInstructions + 1 ∧
        ∀ x, r = .ok x → s.executed.toNat < w.executed) := by
  have count : s.executed.toNat ≤ m.limits.maxInstructions := by
    have := sound.count
    rwa [control] at this
  have small := Nat.lt_of_le_of_lt count narrow
  -- it is enough to come to what is to be done after the instruction
  suffices reached : (r = .error .endless ∧ ∃ s', m.Leads s s' ∧ s'.control = .stuck) ∨
      m.Leads s (s.reach (.after r) w) ∧ w.executed ≤ m.limits.maxInstructions + 1 ∧
        ∀ x, r = .ok x → s.executed.toNat < w.executed by
    rcases reached with held | ⟨leads, bound, more⟩
    · exact .inl held
    · by_cases held : r = .error .endless
      · exact .inl ⟨held, _, leads, Control.after_eq_stuck.2 held⟩
      · exact .inr ⟨held, leads, bound, more⟩
  have moves := m.proceeds small control
  have move : m.Leads s (m.advance s) := .move rfl
  generalize m.advance s = s₁ at moves move
  cases moves with
  | fallen ahead =>
    rw [turn_nil ahead] at turn
    cases turn
    rw [Interpreter.reach_world]
    exact .inr ⟨move, Nat.le_succ_of_le count, nofun⟩
  | full ahead full =>
    rw [turn_limit ahead full] at turn
    cases turn
    rw [Interpreter.reach_later]
    exact .inr ⟨move, Nat.succ_le_succ count, nofun⟩
  | @alone h i behind r' w' ahead free calls stepped =>
    have alone : m.step (m.executeWithin k) _ h i _ = m.step _ _ h i _ :=
      step_congr (w := s.world.later 1 s.world.memory) calls (m.executeWithin 0)
    have same : w'.executed = s.executed.toNat + 1 :=
      (congrArg (·.2.executed) stepped).symm.trans (executed_step h i)
    rw [turn_step ahead free, alone, stepped] at turn
    obtain ⟨rfl, rfl⟩ := Prod.mk.inj turn
    exact .inr ⟨move, by omega, fun _ _ => by omega⟩
  | @call h i behind c body args ahead free calls =>
    have inside := move.sound narrow sound
    have given := returns _ body args inside rfl depth
    have counted := s.toNat_executed_succ small
    have world : Interpreter.world { s with
        control := .enter body args, callers := c :: s.callers, executed := s.executed + 1 } =
          s.world.later 1 s.world.memory := by
      rw [Interpreter.world, counted]
      rfl
    rw [world] at given
    rw [turn_step ahead free, step_of_calls? (w := s.world.later 1 s.world.memory) calls] at turn
    generalize m.executeWithin k body args (s.world.later 1 s.world.memory) = out at given turn
    obtain ⟨o, w'⟩ := out
    obtain ⟨rfl, rfl⟩ := Prod.mk.inj turn
    rcases given with ⟨rfl, s', leads, held⟩ | ⟨-, leads, bound⟩
    · exact .inl ⟨rfl, s', move.trans leads, held⟩
    · have more := leads.executed narrow inside
      rw [counted, Interpreter.reach, BitVec.toNat_ofNat, Nat.mod_eq_of_lt (by omega)] at more
      exact .inr ⟨(move.trans leads).trans (.move rfl), bound, fun _ _ => more⟩

omit narrow in
theorem Gives.trans {control : Except MachineFault Outcome → Control} {w : World} {c : Control} {out : Answer Outcome}
    (first : m.Leads s (s.reach c w)) (given : m.Gives (s.reach c w) control out) : m.Gives s control out := by
  rcases given with ⟨held, s', leads, stuck⟩ | ⟨told, leads, bound⟩
  · exact .inl ⟨held, s', first.trans leads, stuck⟩
  · exact .inr ⟨told, first.trans leads, bound⟩

/-- A frame is left with what it comes to. Each instruction is counted, so that the fuel of the run does
not end before the limit does. -/
theorem leads_runFrame {k : Nat} (returns : m.Returns k) (fuel : Nat) {f : Frame} (sound : m.Sound s)
    (control : s.control = .run f) (depth : s.depth + k = m.limits.maxCallDepth)
    (enough : m.limits.maxInstructions < fuel + s.executed.toNat) :
    m.Gives s .leave (m.runFrame (m.executeWithin k) fuel f s.world) := by
  induction fuel generalizing s f with
  | zero =>
    have count := sound.count
    rw [control] at count
    exact absurd count (Nat.not_le.2 (Nat.lt_of_lt_of_eq enough (Nat.zero_add _)))
  | succ fuel ih =>
    rw [runFrame_turn]
    obtain ⟨⟨r, w⟩, turn⟩ : ∃ answer, m.turn (m.executeWithin k) f s.world = answer := ⟨_, rfl⟩
    rw [turn]
    rcases leads_turn narrow returns sound control depth turn with ⟨rfl, held⟩ | ⟨told, leads, bound, more⟩
    · exact .inl ⟨rfl, held⟩
    · obtain e | f' | o := r
      · have told : e ≠ .endless := fun eq => told (congrArg _ eq)
        rw [Control.after_error told] at leads
        exact .inr ⟨fun eq => told (Except.error.inj eq), leads, bound⟩
      · change m.Leads s (s.reach (.run f') w) at leads
        have world : (s.reach (.run f') w).world = w := s.world_reach (by omega)
        have count : (s.reach (.run f') w).executed.toNat = w.executed := congrArg World.executed world
        have := more _ rfl
        have given := ih (leads.sound narrow sound) rfl depth (by omega)
        rw [world] at given
        exact given.trans leads
      · exact .inr ⟨nofun, leads, bound⟩

theorem returns (k : Nat) : m.Returns k := by
  induction k with
  | zero =>
    intro s body args sound control depth
    have move : m.Leads s (s.reach (.back (.error .callDepthLimit)) s.world) := .move <| by
      rw [Interpreter.reach_world]
      simp only [advance, control]
      exact if_pos (Nat.le_of_eq depth.symm)
    have count := sound.count
    rw [control] at count
    exact .inr ⟨by simp [executeWithin], move, Nat.le_succ_of_le count⟩
  | succ k ih =>
    intro s body args sound control depth
    have move : m.Leads s { s with control := .run (.start body args), depth := s.depth + 1 } := .move <| by
      simp only [advance, control]
      exact if_neg (by omega)
    have given := leads_runFrame narrow ih (m.limits.maxInstructions + 1) (f := .start body args)
      (move.sound narrow sound) rfl (by simp only; omega) (by omega)
    rw [executeWithin]
    rcases given with ⟨held, s', leads, stuck⟩ | ⟨told, leads, bound⟩
    · exact .inl ⟨held, s', move.trans leads, stuck⟩
    · exact .inr ⟨told, (move.trans leads).trans (.move rfl), bound⟩

end

end Machine

end CilForge
