import CilForge.Proofs.Body.Expand
import CilForge.Proofs.Machine.Ends
import CilForge.Proofs.Machine.Shape

/-!
# Frames in another setting

An instruction looks at few parts of its frame. If the frame is put into another body, with more
locals behind its own and more values below its stack, the instruction does the same.
-/

namespace CilForge

/-- If the first computation gives a result, the second gives its image. -/
def MapsTo {α β : Type} (φ : α → β) (x : Except MachineFault α) (y : Except MachineFault β) : Prop :=
  ∀ a, x = .ok a → y = .ok (φ a)

namespace MapsTo

variable {α β γ δ : Type} {φ : α → β} {ψ : γ → δ}

theorem ok {a : α} : MapsTo φ (.ok a) (.ok (φ a)) := by
  intro a h
  cases h
  rfl

theorem same (x : Except MachineFault α) : MapsTo (fun a => a) x x := fun _ h => h

theorem error {e : MachineFault} {y : Except MachineFault β} : MapsTo φ (.error e) y := nofun

theorem bind {x : Except MachineFault α} {y : Except MachineFault β} {k : α → Except MachineFault γ}
    {k' : β → Except MachineFault δ} (h : MapsTo φ x y) (hk : ∀ a, MapsTo ψ (k a) (k' (φ a))) :
    MapsTo ψ (x >>= k) (y >>= k') := by
  intro c hc
  cases x with
  | error e => cases hc
  | ok a => rw [h a rfl]; exact hk a c hc

theorem ite {p : Prop} [Decidable p] {x y : Except MachineFault α} {x' y' : Except MachineFault β}
    (yes : MapsTo φ x x') (no : MapsTo φ y y') :
    MapsTo φ (if p then x else y) (if p then x' else y') := by
  split
  · exact yes
  · exact no

end MapsTo

/-- What is around the part of a frame that instructions look at. -/
structure Setting where
  body : Body
  ahead : List (Handle × Instr)
  leaves : List Departure
  extra : Array Value
  below : List Value

namespace Frame

def placed (f : Frame) (s : Setting) : Frame :=
  { f with
    body := s.body, ahead := s.ahead, leaves := s.leaves
    stack := f.stack ++ s.below, locals := f.locals ++ s.extra }

variable (f : Frame) (s : Setting)

theorem pop_placed : MapsTo (fun x => (x.1, x.2.placed s)) f.pop (f.placed s).pop := by
  unfold pop placed
  cases f.stack with
  | nil => exact .error
  | cons v rest => exact .ok

theorem popArgs_placed (n : Nat) :
    MapsTo (fun x => (x.1, x.2.placed s)) (f.popArgs n) ((f.placed s).popArgs n) := by
  unfold popArgs placed
  by_cases short : f.stack.length < n
  · rw [if_pos short]
    exact .error
  · simp only
    rw [if_neg short, if_neg (by rw [List.length_append]; omega),
      List.take_append_of_le_length (by omega), List.drop_append_of_le_length (by omega)]
    exact .ok

theorem getLocal_placed (n : Nat) :
    MapsTo (fun v => v) (f.getLocal n) ((f.placed s).getLocal n) := by
  unfold getLocal placed
  cases h : f.locals[n]? with
  | none => exact .error
  | some v =>
    obtain ⟨lt, -⟩ := Array.getElem?_eq_some_iff.1 h
    simp only [Array.getElem?_append_left lt, h]
    exact .ok

theorem setLocal_placed (n : Nat) (v : Value) :
    MapsTo (·.placed s) (f.setLocal n v) ((f.placed s).setLocal n v) := by
  unfold setLocal placed
  by_cases lt : n < f.locals.size
  · simp only [Array.size_append]
    rw [if_pos lt, if_pos (by omega), Array.setIfInBounds_append_left lt]
    exact .ok
  · rw [if_neg lt]
    exact .error

theorem getArg_placed (n : Nat) : MapsTo (fun v => v) (f.getArg n) ((f.placed s).getArg n) :=
  .same _

theorem setArg_placed (n : Nat) (v : Value) :
    MapsTo (·.placed s) (f.setArg n v) ((f.placed s).setArg n v) := by
  unfold setArg placed
  simp only
  split
  · exact .ok
  · exact .error

theorem load_placed (heap : Heap) (a : Value) :
    MapsTo (fun v => v) (f.load heap a) ((f.placed s).load heap a) := by
  cases a with
  | localAddress n => exact f.getLocal_placed s n
  | argumentAddress n => exact f.getArg_placed s n
  | _ => exact .error

theorem store_placed (heap : Heap) (a v : Value) :
    MapsTo (·.placed s) (f.store heap a v) ((f.placed s).store heap a v) := by
  cases a with
  | localAddress n => exact f.setLocal_placed s n v
  | argumentAddress n => exact f.setArg_placed s n v
  | _ => exact .error

theorem receiver_placed (heap : Heap) (sig : Sig) (a : Value) :
    MapsTo (fun v => v) (f.receiver heap sig a) ((f.placed s).receiver heap sig a) :=
  (f.load_placed s heap a).bind fun _ => .same _

theorem callArgs_placed (heap : Heap) (c : Option Sig) (m : MethodRef) (args : List Value) :
    MapsTo (fun v => v) (f.callArgs heap c m args) ((f.placed s).callArgs heap c m args) := by
  unfold callArgs
  split
  · exact (f.receiver_placed s heap _ _).bind fun _ => .same _
  · exact .same _

end Frame

def Action.mapTargets (σ : Handle → Handle) : Action → Action
  | .jump goal => .jump (σ goal)
  | a => a

section
variable (σ : Handle → Handle) (i : Instr)

@[simp] theorem Instr.opcode_mapTargets : (i.mapTargets σ).opcode = i.opcode := rfl

theorem Instr.needIndex_mapTargets :
    MapsTo (fun n => n) i.needIndex (i.mapTargets σ).needIndex := by
  unfold Instr.needIndex Instr.mapTargets Operand.mapTargets
  cases i.operand <;> first | exact .ok | exact .error

theorem Instr.needType_mapTargets : MapsTo (fun n => n) i.needType (i.mapTargets σ).needType := by
  unfold Instr.needType Instr.type? Instr.mapTargets Operand.mapTargets
  cases i.operand <;> first | exact .ok | exact .error

theorem Instr.needMethod_mapTargets :
    MapsTo (fun n => n) i.needMethod (i.mapTargets σ).needMethod := by
  unfold Instr.needMethod Instr.method? Instr.mapTargets Operand.mapTargets
  cases i.operand <;> first | exact .ok | exact .error

theorem Instr.needTarget_mapTargets : MapsTo σ i.needTarget (i.mapTargets σ).needTarget := by
  unfold Instr.needTarget Instr.target? Instr.mapTargets Operand.mapTargets
  cases i.operand <;> first | exact .ok | exact .error

end

open Instr in
/-- An instruction without leaves does the same in another setting, its destinations renamed. -/
theorem Frame.act_placed (f : Frame) (s : Setting) (σ : Handle → Handle) (heap : Heap) (h h' : Handle)
    (i : Instr) (flow : i.opcode.isPlain = true) :
    MapsTo (fun x => (x.1.placed s, x.2.mapTargets σ)) (f.act heap h i)
      ((f.placed s).act heap h' (i.mapTargets σ)) := by
  obtain ⟨o, operand⟩ := i
  have pop (f : Frame) := f.pop_placed s
  cases o
  case nop | ldnull => exact .ok
  case ldarg =>
    exact .bind (needIndex_mapTargets σ _) fun n => .bind (getArg_placed _ s n) fun v => .ok
  case ldloc =>
    exact .bind (needIndex_mapTargets σ _) fun n => .bind (getLocal_placed _ s n) fun v => .ok
  case ldarga | ldloca => exact .bind (needIndex_mapTargets σ _) fun n => .ok
  case starg =>
    exact .bind (pop _) fun x => .bind (needIndex_mapTargets σ _) fun n =>
      .bind (setArg_placed _ s n _) fun g => .ok
  case stloc =>
    exact .bind (pop _) fun x => .bind (needIndex_mapTargets σ _) fun n =>
      .bind (setLocal_placed _ s n _) fun g => .ok
  case ldcI4 | ldcI8 | ldstr => cases operand <;> first | exact .ok | exact .error
  case dup | pop => exact .bind (pop _) fun x => .ok
  case call | callvirt =>
    exact .bind (needMethod_mapTargets σ _) fun m => .bind (popArgs_placed _ s _) fun x =>
      .bind (callArgs_placed _ s heap _ m _) fun args => .ok
  case newobj =>
    exact .bind (needMethod_mapTargets σ _) fun m => .bind (popArgs_placed _ s _) fun x => .ok
  case br => exact .bind (needTarget_mapTargets σ _) fun t => .ok
  case brfalse | brtrue => 
    exact .bind (pop _) fun x => .ite (.bind (needTarget_mapTargets σ _) fun t => .ok) .ok
  case beq | bge | bgt | ble | blt | bneUn | bgeUn | bgtUn | bleUn | bltUn =>
    exact .bind (pop _) fun x => .bind (pop _) fun y => .bind (.same _) fun c =>
      .ite (.bind (needTarget_mapTargets σ _) fun t => .ok) .ok
  case switch => 
    refine .bind (pop _) fun x => .bind (.same _) fun index => ?_
    rw [targets_mapTargets, List.getElem?_map]
    cases (Instr.targets ⟨.switch, operand⟩)[index.toNat]? with
    | some target => exact .ok
    | none => exact .ok
  case leave | endfinally | ret => cases flow
  case throw => exact .bind (pop _) fun x => .ok
  case add | sub | mul | div | rem | and | or | xor | shl | shr | shrUn =>
    exact .bind (pop _) fun x => .bind (pop _) fun y => .bind (.same _) fun v => .ok
  case neg | not => exact .bind (pop _) fun x => .bind (.same _) fun v => .ok
  case ceq | cgt | cgtUn | clt | cltUn =>
    exact .bind (pop _) fun x => .bind (pop _) fun y => .bind (.same _) fun v => .ok
  case convI1 | convI2 | convI4 | convI8 | convU1 | convU2 | convU4 | convU8 =>
    exact .bind (pop _) fun x => .bind (.same _) fun v => .ok
  case box =>
    exact .bind (needType_mapTargets σ _) fun sig => .bind (pop _) fun x => .ok
  case unboxAny =>
    refine .bind (needType_mapTargets σ _) fun sig => .bind (pop _) fun ⟨v, g⟩ => ?_
    cases v <;> first | exact .ok | exact .ite .ok .error
  case ldobj =>
    exact .bind (pop _) fun x => .bind (load_placed _ s heap _) fun v => .ok
  case stobj =>
    exact .bind (pop _) fun x => .bind (pop _) fun y => .bind (store_placed _ s heap _ _) fun g => .ok
  case initobj =>
    exact .bind (needType_mapTargets σ _) fun sig => .bind (pop _) fun x =>
      .bind (store_placed _ s heap _ _) fun g => .ok
  case ldtoken => exact .bind (needType_mapTargets σ _) fun sig => .ok
  case newarr =>
    exact .bind (needType_mapTargets σ _) fun sig => .bind (pop _) fun x => .bind (.same _) fun n =>
      .ite .error .ok
  case ldlen => exact .bind (pop _) fun x => .bind (.same _) fun a => .ok
  case ldelem =>
    refine .bind (pop _) fun x => .bind (.same _) fun index => .bind (pop _) fun y => .bind (.same _) fun a => ?_
    dsimp only
    split
    · exact .ok
    · exact .error
  case stelem =>
    exact .bind (pop _) fun x => .bind (pop _) fun y => .bind (.same _) fun index =>
      .bind (pop _) fun z => .bind (.same _) fun a => .ite .ok .error
  case constrained => exact .bind (needType_mapTargets σ _) fun sig => .ok
  all_goals exact .error

/-! ## Steps -/

theorem Frame.place_of_act {f g : Frame} {heap : Heap} {h : Handle} {i : Instr} {a : Action}
    (plain : i.opcode.isPlain = true) (act : f.act heap h i = .ok (g, a)) :
    g.body = f.body ∧ g.ahead = f.ahead ∧ g.leaves = f.leaves := by
  have self : f.placed ⟨f.body, f.ahead, f.leaves, #[], []⟩ = f := by simp [placed]
  have id : i.mapTargets (fun h => h) = i := by
    obtain ⟨o, operand⟩ := i
    cases operand <;> simp [Instr.mapTargets, Operand.mapTargets]
  have again := f.act_placed ⟨f.body, f.ahead, f.leaves, #[], []⟩ (fun h => h) heap h h i plain _ act
  rw [self, id, act, Except.ok.injEq, Prod.mk.injEq] at again
  rw [again.1]
  exact ⟨rfl, rfl, rfl⟩

theorem Action.resume_cases {a : Action} {f g : Frame} {ref : MethodRef} {args : List Value}
    {v : Option Value} (callee : a.callee? = some (ref, args)) (h : a.resume f ref v = .ok g) :
    (g = f ∧ a.rise = 0) ∨ ∃ x, g = f.push x ∧ a.rise = 1 := by
  cases a with
  | call method as =>
    cases callee
    cases v with
    | none =>
      simp only [resume, Machine.afterCall] at h
      split at h
      · cases h; exact .inl ⟨rfl, ‹_›⟩
      · cases h
    | some x =>
      simp only [resume, Machine.afterCall] at h
      split at h
      · cases h; exact .inr ⟨x, rfl, ‹_›⟩
      · cases h
  | new method as =>
    cases v with
    | none => cases h
    | some x => cases h; exact .inr ⟨x, rfl, rfl⟩
  | _ => cases callee

theorem Action.resume_placed {a : Action} {f g : Frame} {ref : MethodRef} {v : Option Value}
    (s : Setting) (h : a.resume f ref v = .ok g) : a.resume (f.placed s) ref v = .ok (g.placed s) := by
  have new {f g : Frame} (h : Machine.afterNew f ref v = .ok g) :
      Machine.afterNew (f.placed s) ref v = .ok (g.placed s) := by
    cases v with
    | none => cases h
    | some x => cases h; rfl
  have call {f g : Frame} (h : Machine.afterCall f ref v = .ok g) :
      Machine.afterCall (f.placed s) ref v = .ok (g.placed s) := by
    cases v with
    | none =>
      simp only [Machine.afterCall] at h ⊢
      split at h
      · rename_i count; cases h; exact if_pos count
      · cases h
    | some x =>
      simp only [Machine.afterCall] at h ⊢
      split at h
      · rename_i count; cases h; exact if_pos count
      · cases h
  cases a <;> first | exact new h | exact call h

def Body.onward (b : Body) (behind : List (Handle × Instr)) : Option Handle → List (Handle × Instr)
  | none => behind
  | some goal => b.codeFrom goal

theorem Frame.goTo_eq_ok {f g : Frame} {h : Handle} :
    f.goTo h = .ok g ↔ f.body.codeFrom h ≠ [] ∧ g = { f with ahead := f.body.codeFrom h } := by
  unfold goTo
  cases hc : f.body.codeFrom h with
  | nil => simp
  | cons line code => simp [eq_comm]

theorem Frame.perform_jump {f g : Frame} {mem mem' : Memory} {goal : Handle} :
    f.perform mem (.jump goal) = some (g, mem') ↔
      f.body.codeFrom goal ≠ [] ∧ g = { f with ahead := f.body.codeFrom goal } ∧ mem' = mem := by
  simp only [perform]
  constructor
  · intro h
    cases hg : f.goTo goal with
    | error e => rw [hg] at h; cases h
    | ok f' =>
      obtain ⟨ne, rfl⟩ := goTo_eq_ok.1 hg
      rw [hg] at h
      cases h
      exact ⟨ne, rfl, rfl⟩
  · rintro ⟨ne, rfl, rfl⟩
    rw [goTo_eq_ok.2 ⟨ne, rfl⟩]
    rfl

namespace Frame

variable {f : Frame}

theorem act_stloc {heap : Heap} {h : Handle} {k : Nat} {v : Value} {stack : List Value}
    (top : f.stack = v :: stack) (lt : k < f.locals.size) : f.act heap h (.stloc k) =
      .ok ({ f with stack, locals := f.locals.setIfInBounds k v, constrained := none }, .next) := by
  have unfolded : f.act heap h (.stloc k) = (({ f with constrained := none } : Frame).pop >>= fun x =>
      x.2.setLocal k x.1 >>= fun g => .ok (g, .next)) := rfl
  rw [unfolded]
  simp [pop, top, setLocal, lt, bind, Except.bind]

theorem act_ldloc {heap : Heap} {h : Handle} {k : Nat} {v : Value} (there : f.locals[k]? = some v) :
    f.act heap h (.ldloc k) =
      .ok ({ f with stack := v :: f.stack, constrained := none }, .next) := by
  have unfolded : f.act heap h (.ldloc k) = (({ f with constrained := none } : Frame).getLocal k >>=
      fun v => .ok (({ f with constrained := none } : Frame).push v, .next)) := rfl
  rw [unfolded]
  simp [getLocal, there, push, bind, Except.bind]

end Frame

structure Lands (f : Frame) (i : Instr) (behind : List (Handle × Instr)) (way : Option Handle)
    (f' : Frame) : Prop where
  body : f'.body = f.body
  leaves : f'.leaves = f.leaves
  locals : f'.locals.size = f.locals.size
  pops : i.counts.1 ≤ f.stack.length
  stack : f'.stack.length = f.stack.length - i.counts.1 + i.counts.2
  ahead : f'.ahead = f.body.onward behind way
  straight : way = none → i.opcode.isTerminal = false
  jump : ∀ goal, way = some goal → i.JumpsTo goal ∧ i.opcode.isBranch = true ∧ f'.ahead ≠ []

namespace Machine

variable {m : Machine} {R : Carries} {f f' : Frame} {mem mem' : Memory} {k : Nat} {h : Handle}
  {i : Instr} {behind : List (Handle × Instr)}

theorem Acts.eq {g : Frame} {a : Action} (acts : Acts f mem g a) (ahead : f.ahead = (h, i) :: behind) :
    Frame.act { f with ahead := behind } mem.heap h i = .ok (g, a) := by
  obtain ⟨h', i', behind', ahead', act⟩ := acts
  rw [ahead] at ahead'
  cases ahead'
  exact act

theorem Step.plain (step : Step m R f mem k f' mem') (ahead : f.ahead = (h, i) :: behind)
    (plain : i.opcode.isPlain = true) :
    ∃ way, Lands f i behind way f' ∧ ∀ (s : Setting) (h' : Handle) (σ : Handle → Handle),
      (way ≠ none → s.body.onward s.ahead (way.map σ) ≠ []) →
      Step m R (f.placed { s with ahead := (h', i.mapTargets σ) :: s.ahead }) mem k
        (f'.placed { s with ahead := s.body.onward s.ahead (way.map σ) }) mem' := by
  have read {g : Frame} {a : Action} (acts : Acts f mem g a) := acts.eq ahead
  -- the action is the same in every setting, up to its target
  have elsewhere {g : Frame} {a : Action} (acts : Acts f mem g a) (s : Setting) (h' : Handle)
      (σ : Handle → Handle) : Acts (f.placed { s with ahead := (h', i.mapTargets σ) :: s.ahead }) mem
        (g.placed s) (a.mapTargets σ) :=
    ⟨h', i.mapTargets σ, s.ahead, rfl, Frame.act_placed _ s σ mem.heap h h' i plain _ (read acts)⟩
  -- a call comes back to the line behind it, with its result if it has one
  have land {g : Frame} {a : Action} {ref : MethodRef} {args : List Value} {v : Option Value}
      (acts : Acts f mem g a) (callee : a.callee? = some (ref, args)) (resume : a.resume g ref v = .ok f') :
      Lands f i behind none f' ∧ ∀ σ, a.mapTargets σ = a := by
    obtain ⟨pops, stack, locals, goes⟩ := act_profile _ _ _ _ plain _ (read acts)
    obtain ⟨body, same, leaves⟩ := Frame.place_of_act plain (read acts)
    have calls : i.opcode.isTerminal = false ∧ ∀ σ, a.mapTargets σ = a := by
      cases a <;> first | exact ⟨goes, fun _ => rfl⟩ | cases callee
    refine ⟨?_, calls.2⟩
    rcases Action.resume_cases callee resume with ⟨rfl, rise⟩ | ⟨x, rfl, rise⟩
    · rw [rise] at stack
      exact ⟨body, leaves, locals, pops, stack, same, fun _ => calls.1, nofun⟩
    · rw [rise] at stack
      exact ⟨body, leaves, locals, pops, stack, same, fun _ => calls.1, nofun⟩
  cases step with
  | @move g a _ _ acts done =>
    obtain ⟨pops, stack, locals, goes⟩ := act_profile _ _ _ _ plain _ (read acts)
    obtain ⟨body, same, leaves⟩ := Frame.place_of_act plain (read acts)
    cases a with
    | next =>
      cases done
      exact ⟨none, ⟨body, leaves, locals, pops, stack, same, fun _ => goes, nofun⟩,
        fun s h' σ _ => .move (elsewhere acts s h' σ) rfl⟩
    | jump goal =>
      obtain ⟨ne, rfl, rfl⟩ := Frame.perform_jump.1 done
      have way : g.body.codeFrom goal = f.body.onward behind (some goal) := by rw [body]; rfl
      refine ⟨some goal, ⟨body, leaves, locals, pops, stack, way, nofun, ?_⟩, fun s h' σ there => ?_⟩
      · rintro _ ⟨⟩
        exact ⟨goes.1, goes.2, ne⟩
      · exact .move (elsewhere acts s h' σ) (Frame.perform_jump.2 ⟨there (by simp), rfl, rfl⟩)
    | alloc element count =>
      cases done
      exact ⟨none, ⟨body, leaves, locals, pops, stack, same, fun _ => goes, nofun⟩,
        fun s h' σ _ => .move (elsewhere acts s h' σ) rfl⟩
    | store ref index v =>
      cases done
      exact ⟨none, ⟨body, leaves, locals, pops, stack, same, fun _ => goes, nofun⟩,
        fun s h' σ _ => .move (elsewhere acts s h' σ) rfl⟩
    | _ => cases done
  | @call g a ref args code k v _ _ acts callee hb run resume =>
    obtain ⟨lands, same⟩ := land acts callee resume
    refine ⟨none, lands, fun s h' σ _ => ?_⟩
    have there := elsewhere acts s h' σ
    rw [same σ] at there
    exact .call there callee hb run (a.resume_placed s resume)
  | @ask g a ref args v _ _ acts callee hb answer resume =>
    obtain ⟨lands, same⟩ := land acts callee resume
    refine ⟨none, lands, fun s h' σ _ => ?_⟩
    have there := elsewhere acts s h' σ
    rw [same σ] at there
    exact .ask there callee hb answer (a.resume_placed s resume)

/-! ## One instruction in front of an end -/

section
variable {g : Frame} {n : Nat} {o : Outcome} (ahead : f.ahead = (h, i) :: behind)
include ahead

theorem Ends.of_next (act : Frame.act { f with ahead := behind } mem.heap h i = .ok (g, .next))
    (ends : Ends m R g mem n o mem') : Ends m R f mem (1 + n) o mem' :=
  .step (.move ⟨h, i, behind, ahead, act⟩ rfl) ends

theorem Ends.of_jump {goal : Handle}
    (act : Frame.act { f with ahead := behind } mem.heap h i = .ok (g, .jump goal))
    (there : g.body.codeFrom goal ≠ [])
    (ends : Ends m R { g with ahead := g.body.codeFrom goal } mem n o mem') :
    Ends m R f mem (1 + n) o mem' :=
  .step (.move ⟨h, i, behind, ahead, act⟩ (Frame.perform_jump.2 ⟨there, rfl, rfl⟩)) ends

/-- A type that is left over for a constrained call means nothing to other instructions. -/
theorem Ends.of_unconstrained (other : i.opcode ≠ .callvirt)
    (ends : Ends m R { f with constrained := none } mem n o mem') : Ends m R f mem n o mem' := by
  have same : ∀ {f : Frame} {heap : Heap},
      Frame.act { f with constrained := none } heap h i = f.act heap h i := by
    intro f heap
    obtain ⟨o, operand⟩ := i
    cases o <;> first | exact absurd rfl other | rfl
  have acts {g : Frame} {a : Action} (acts : Acts { f with constrained := none } mem g a) :
      Acts f mem g a := by
    obtain ⟨h', i', behind', ahead', act⟩ := acts
    rw [show f.ahead = (h', i') :: behind' from ahead'] at ahead
    cases ahead
    exact ⟨h, i, behind, ahead', same ▸ act⟩
  cases ends with
  | stop a out => exact .stop (acts a) out
  | step s ends =>
    cases s with
    | move a done => exact .step (.move (acts a) done) ends
    | call a callee body run resume => exact .step (.call (acts a) callee body run resume) ends
    | ask a callee body answer resume => exact .step (.ask (acts a) callee body answer resume) ends

end

theorem Step.acts (step : Step m R f mem k f' mem') : ∃ g a, Acts f mem g a ∧ a.outcome? = none := by
  cases step with
  | @move g a _ _ acts done =>
    refine ⟨g, a, acts, ?_⟩
    cases a <;> first | rfl | cases done
  | @call g a _ _ _ _ _ _ _ acts callee _ _ _ =>
    refine ⟨g, a, acts, ?_⟩
    cases a <;> first | rfl | cases callee
  | @ask g a _ _ _ _ _ acts callee _ _ _ =>
    refine ⟨g, a, acts, ?_⟩
    cases a <;> first | rfl | cases callee

theorem Ends.ahead_ne {n : Nat} {o : Outcome} (ends : Ends m R f mem n o mem') : f.ahead ≠ [] := by
  have acts {g : Frame} {a : Action} (acts : Acts f mem g a) : f.ahead ≠ [] := by
    obtain ⟨_, _, _, ahead, -⟩ := acts
    rw [ahead]
    exact List.cons_ne_nil _ _
  cases ends with
  | stop a _ => exact acts a
  | step s _ =>
    obtain ⟨_, _, a, -⟩ := s.acts
    exact acts a

end Machine

end CilForge
