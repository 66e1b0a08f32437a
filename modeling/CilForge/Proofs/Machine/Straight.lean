import CilForge.Proofs.CallSite.Sight
import CilForge.Proofs.Machine.Faithful

/-!
# Straight code on any stack

A run that ends passes through straight lines one after the other. If these leave the lowest values of
the stack alone, they do the same with other values below (`Passes.elsewhere`).
-/

namespace CilForge

open CallSite (Runs)

/-! ## Less stack -/

/-- If the second computation gives a result, it is the image of one that the first gives. -/
def Reflects {α β : Type} (φ : α → β) (x : Except MachineFault α) (y : Except MachineFault β) : Prop :=
  ∀ b, y = .ok b → ∃ a, x = .ok a ∧ b = φ a

namespace Reflects

variable {α β γ δ : Type} {φ : α → β} {ψ : γ → δ}

theorem ok {a : α} : Reflects φ (.ok a) (.ok (φ a)) := by
  rintro _ ⟨⟩
  exact ⟨a, rfl, rfl⟩

theorem same (x : Except MachineFault α) : Reflects (fun a => a) x x := fun a h => ⟨a, h, rfl⟩

theorem error {x : Except MachineFault α} {e : MachineFault} : Reflects φ x (.error e) := nofun

theorem map (x : Except MachineFault α) : Reflects φ x (x.map φ) := by
  cases x with
  | error e => exact .error
  | ok a => exact .ok

theorem bind {x : Except MachineFault α} {y : Except MachineFault β} {k : α → Except MachineFault γ}
    {k' : β → Except MachineFault δ} (h : Reflects φ x y)
    (hk : ∀ a, x = .ok a → Reflects ψ (k a) (k' (φ a))) : Reflects ψ (x >>= k) (y >>= k') := by
  intro c hc
  cases y with
  | error e => cases hc
  | ok b =>
    obtain ⟨a, rfl, rfl⟩ := h b rfl
    exact hk a rfl c hc

theorem ite {p : Prop} [Decidable p] {x y : Except MachineFault α} {x' y' : Except MachineFault β}
    (yes : Reflects φ x x') (no : Reflects φ y y') :
    Reflects φ (if p then x else y) (if p then x' else y') := by
  split
  · exact yes
  · exact no

end Reflects

namespace Frame

def above (f : Frame) (below : List Value) : Frame := { f with stack := f.stack ++ below }

variable (f : Frame) (below : List Value)

theorem pop_above {n : Nat} (enough : n + 1 ≤ f.stack.length) :
    Reflects (fun x => (x.1, x.2.above below)) f.pop (f.above below).pop := by
  unfold pop above
  cases stack : f.stack with
  | nil =>
    rw [stack] at enough
    cases enough
  | cons v rest => exact .ok

theorem popArgs_above {n : Nat} (enough : n ≤ f.stack.length) :
    Reflects (fun x => (x.1, x.2.above below)) (f.popArgs n) ((f.above below).popArgs n) := by
  unfold popArgs above
  simp only
  rw [if_neg (by omega), if_neg (by rw [List.length_append]; omega),
    List.take_append_of_le_length enough, List.drop_append_of_le_length enough]
  exact .ok

theorem setLocal_above (n : Nat) (v : Value) :
    Reflects (·.above below) (f.setLocal n v) ((f.above below).setLocal n v) := by
  unfold setLocal
  exact .ite .ok .error

theorem setArg_above (n : Nat) (v : Value) :
    Reflects (·.above below) (f.setArg n v) ((f.above below).setArg n v) := by
  unfold setArg
  exact .ite .ok .error

theorem load_above (heap : Heap) (a : Value) : (f.above below).load heap a = f.load heap a := by
  cases a <;> rfl

theorem store_above (heap : Heap) (a v : Value) :
    Reflects (·.above below) (f.store heap a v) ((f.above below).store heap a v) := by
  cases a with
  | localAddress n => exact f.setLocal_above below n v
  | argumentAddress n => exact f.setArg_above below n v
  | _ => exact .error

theorem callArgs_above (heap : Heap) (c : Option Sig) (m : MethodRef) (args : List Value) :
    (f.above below).callArgs heap c m args = f.callArgs heap c m args := by
  unfold callArgs receiver
  simp only [load_above]

theorem enough_of_pop {f : Frame} {x : Value × Frame} {n : Nat} (popped : f.pop = .ok x)
    (enough : n + 1 ≤ f.stack.length) : n ≤ x.2.stack.length := by
  have := (gives_pop f x popped).1
  omega

open Instr in
/-- An instruction that finds its operands needs nothing of what is below them. -/
theorem act_above (heap : Heap) (h : Handle) (i : Instr) (plain : i.opcode.isPlain = true)
    (enough : i.counts.1 ≤ f.stack.length) :
    Reflects (fun x => (x.1.above below, x.2)) (f.act heap h i) ((f.above below).act heap h i) := by
  obtain ⟨o, operand⟩ := i
  have pop (f : Frame) {n : Nat} := f.pop_above (n := n) below
  cases o
  case nop | ldnull => exact .ok
  case ldarg | ldloc => exact .bind (.same _) fun n _ => .bind (.same _) fun v _ => .ok
  case ldarga | ldloca | ldtoken => exact .bind (.same _) fun n _ => .ok
  case starg =>
    exact .bind (pop _ enough) fun x _ => .bind (.same _) fun n _ =>
      .bind (setArg_above _ below n _) fun g _ => .ok
  case stloc =>
    exact .bind (pop _ enough) fun x _ => .bind (.same _) fun n _ =>
      .bind (setLocal_above _ below n _) fun g _ => .ok
  case ldcI4 | ldcI8 | ldstr => cases operand <;> first | exact .ok | exact .error
  case dup | pop => exact .bind (pop _ enough) fun x _ => .ok
  case call | callvirt =>
    refine .bind (.same _) fun m hm => ?_
    have method := gives_needMethod _ m hm
    refine .bind (popArgs_above _ below ?_) fun x _ => ?_
    · simpa [counts, Opcode.counts?, method] using enough
    · dsimp only
      rw [callArgs_above]
      exact .bind (.same _) fun args _ => .ok
  case newobj =>
    refine .bind (.same _) fun m hm => ?_
    have method := gives_needMethod _ m hm
    refine .bind (popArgs_above _ below ?_) fun x _ => .ok
    simpa [counts, Opcode.counts?, method] using enough
  case br => exact .bind (.same _) fun t _ => .ok
  case brfalse | brtrue =>
    exact .bind (pop _ enough) fun x _ => .ite (.bind (.same _) fun t _ => .ok) .ok
  case beq | bge | bgt | ble | blt | bneUn | bgeUn | bgtUn | bleUn | bltUn =>
    exact .bind (pop _ enough) fun x hx => .bind (pop _ (enough_of_pop hx enough)) fun y _ =>
      .bind (.same _) fun c _ => .ite (.bind (.same _) fun t _ => .ok) .ok
  case switch =>
    refine .bind (pop _ enough) fun x _ => .bind (.same _) fun index _ => ?_
    cases (targets ⟨.switch, operand⟩)[index.toNat]? <;> exact .ok
  case leave | endfinally | ret => cases plain
  case throw => exact .bind (pop _ enough) fun x _ => .ok
  case add | sub | mul | div | rem | and | or | xor | shl | shr | shrUn | ceq | cgt | cgtUn | clt
      | cltUn =>
    exact .bind (pop _ enough) fun x hx => .bind (pop _ (enough_of_pop hx enough)) fun y _ =>
      .bind (.same _) fun v _ => .ok
  case neg | not | convI1 | convI2 | convI4 | convI8 | convU1 | convU2 | convU4 | convU8 | ldlen =>
    exact .bind (pop _ enough) fun x _ => .bind (.same _) fun v _ => .ok
  case box => exact .bind (.same _) fun sig _ => .bind (pop _ enough) fun x _ => .ok
  case unboxAny =>
    refine .bind (.same _) fun sig _ => .bind (pop _ enough) fun x _ => ?_
    obtain ⟨v, g⟩ := x
    cases v <;> first | exact .ok | exact .ite .ok .error
  case ldobj =>
    refine .bind (pop _ enough) fun x _ => ?_
    dsimp only
    rw [load_above]
    exact .bind (.same _) fun v _ => .ok
  case stobj =>
    exact .bind (pop _ enough) fun x hx => .bind (pop _ (enough_of_pop hx enough)) fun y _ =>
      .bind (store_above _ below heap _ _) fun g _ => .ok
  case initobj =>
    exact .bind (.same _) fun sig _ => .bind (pop _ enough) fun x _ =>
      .bind (store_above _ below heap _ _) fun g _ => .ok
  case newarr =>
    exact .bind (.same _) fun sig _ => .bind (pop _ enough) fun x _ => .bind (.same _) fun n _ =>
      .ite .error .ok
  case ldelem =>
    refine .bind (pop _ enough) fun x hx => .bind (.same _) fun index _ =>
      .bind (pop _ (enough_of_pop hx enough)) fun y _ => .bind (.same _) fun a _ => ?_
    dsimp only
    split
    · exact .ok
    · exact .error
  case stelem =>
    exact .bind (pop _ enough) fun x hx => .bind (pop _ (enough_of_pop hx enough)) fun y hy =>
      .bind (.same _) fun index _ =>
        .bind (pop _ (enough_of_pop hy (enough_of_pop hx enough))) fun z _ =>
          .bind (.same _) fun a _ => .ite .ok .error
  case constrained => exact .bind (.same _) fun sig _ => .ok
  all_goals exact .error

end Frame

/-! ## Passing through lines -/

theorem Instr.plain_of_straight {i : Instr} (straight : i.straight = true) : i.opcode.isPlain = true := by
  rw [Instr.straight, Bool.or_eq_true, decide_eq_true_eq, decide_eq_true_eq] at straight
  simp only [Opcode.isPlain, Bool.and_eq_true, decide_eq_true_eq]
  refine ⟨⟨?_, ?_⟩, ?_⟩ <;>
  · intro opcode
    rw [opcode] at straight
    rcases straight with flow | flow <;> cases flow

theorem Lands.way_eq {f f' : Frame} {i : Instr} {behind : List (Handle × Instr)} {way : Option Handle}
    (lands : Lands f i behind way f') (straight : i.straight = true) : way = none := by
  cases way with
  | none => rfl
  | some goal =>
    have branch := (lands.jump goal rfl).2.1
    rw [Instr.straight, Bool.or_eq_true, decide_eq_true_eq, decide_eq_true_eq] at straight
    rw [Opcode.isBranch] at branch
    rcases straight with flow | flow <;> rw [flow] at branch <;> cases branch

namespace Machine

/-- A run through the given lines, up to what is behind them, with a property that holds of every
frame on the way. -/
inductive Passes (m : Machine) (R : Carries) (P : Frame → Memory → Prop)
    (rest : List (Handle × Instr)) : List (Handle × Instr) → Frame → Memory → Frame → Memory → Prop where
  | done {f mem} : f.ahead = rest → Passes m R P rest [] f mem f mem
  | line {p lines f mem k f' mem' f'' mem''} : f.ahead = p :: (lines ++ rest) → P f mem →
      Step m R f mem k f' mem' → Passes m R P rest lines f' mem' f'' mem'' →
      Passes m R P rest (p :: lines) f mem f'' mem''

variable {m : Machine} {R : Carries} {P : Frame → Memory → Prop} {f f' : Frame} {mem mem' mem'' : Memory}
  {k n : Nat} {o : Outcome} {h : Handle} {i : Instr} {lines behind rest : List (Handle × Instr)}

/-- What a straight instruction leaves alone. -/
structure Keeps (f f' : Frame) : Prop where
  body : f'.body = f.body
  leaves : f'.leaves = f.leaves
  locals : f'.locals.size = f.locals.size

theorem Keeps.trans {f₁ f₂ f₃ : Frame} (first : Keeps f₁ f₂) (second : Keeps f₂ f₃) : Keeps f₁ f₃ :=
  ⟨second.body.trans first.body, second.leaves.trans first.leaves, second.locals.trans first.locals⟩

theorem Step.straight (step : Step m R f mem k f' mem') (ahead : f.ahead = (h, i) :: behind)
    (straight : i.straight = true) : f'.ahead = behind ∧ Keeps f f' ∧ i.counts.1 ≤ f.stack.length ∧
      f'.stack.length = f.stack.length - i.counts.1 + i.counts.2 := by
  obtain ⟨way, lands, -⟩ := step.plain ahead (Instr.plain_of_straight straight)
  cases lands.way_eq straight
  exact ⟨lands.ahead, ⟨lands.body, lands.leaves, lands.locals⟩, lands.pops, lands.stack⟩

theorem Acts.goes_on {g : Frame} {a : Action} (acts : Acts f mem g a) (ahead : f.ahead = (h, i) :: behind)
    (straight : i.straight = true) : a.outcome? = none := by
  have goes := (act_profile _ _ h i (Instr.plain_of_straight straight) _ (acts.eq ahead)).goes
  cases a with
  | ret v => exact goes.elim
  | throw v =>
    have flow : i.opcode.flow = .throw := goes
    rw [Instr.straight, flow] at straight
    cases straight
  | _ => rfl

theorem Passes.ahead (passes : Passes m R P rest lines f mem f' mem') : f.ahead = lines ++ rest := by
  cases passes with
  | done ahead => exact ahead
  | line ahead => exact ahead

theorem Upholds.through (upholds : Upholds m R P f mem n o mem'') (ahead : f.ahead = lines ++ rest)
    (straight : ∀ p ∈ lines, p.2.straight = true) : ∃ f' mem' n',
      Passes m R P rest lines f mem f' mem' ∧ Upholds m R P f' mem' n' o mem'' ∧
        n = n' + lines.length := by
  induction lines generalizing f mem n with
  | nil => exact ⟨f, mem, n, .done ahead, upholds, rfl⟩
  | cons p lines ih =>
    obtain ⟨h, i⟩ := p
    have plain := straight (h, i) List.mem_cons_self
    cases upholds with
    | @stop _ _ f₁ a _ holds acts out =>
      rw [acts.goes_on ahead plain] at out
      cases out
    | @step _ _ k f₁ mem₁ n₁ _ _ holds step upholds =>
      obtain ⟨next, -⟩ := step.straight ahead plain
      obtain ⟨f', mem', n', passes, last, count⟩ := ih upholds next
        fun p mem => straight p (List.mem_cons_of_mem _ mem)
      refine ⟨f', mem', n', .line ahead holds step passes, last, ?_⟩
      rw [List.length_cons]
      omega

theorem Passes.upholds (passes : Passes m R P rest lines f mem f' mem')
    (upholds : Upholds m R P f' mem' n o mem'') : ∃ n', Upholds m R P f mem n' o mem'' := by
  induction passes with
  | done => exact ⟨n, upholds⟩
  | line _ holds step _ ih =>
    obtain ⟨n', rest⟩ := ih upholds
    exact ⟨n' + 1, .step holds step rest⟩

theorem Passes.split {front back : List (Handle × Instr)} (passes : Passes m R P rest (front ++ back) f mem f' mem') :
    ∃ g mem₁, Passes m R P (back ++ rest) front f mem g mem₁ ∧ Passes m R P rest back g mem₁ f' mem' := by
  induction front generalizing f mem with
  | nil => exact ⟨f, mem, .done passes.ahead, passes⟩
  | cons p front ih =>
    cases passes with
    | line ahead holds step passes =>
      obtain ⟨g, mem₁, first, second⟩ := ih passes
      exact ⟨g, mem₁, .line (by simpa using ahead) holds step first, second⟩

theorem Passes.append {front back : List (Handle × Instr)} {g : Frame} {mem₁ : Memory}
    (first : Passes m R P (back ++ rest) front f mem g mem₁) (second : Passes m R P rest back g mem₁ f' mem') :
    Passes m R P rest (front ++ back) f mem f' mem' := by
  induction first with
  | done => exact second
  | line ahead holds step _ ih => exact .line (by simpa using ahead) holds step (ih second)

theorem Passes.keeps (passes : Passes m R P rest lines f mem f' mem')
    (straight : ∀ p ∈ lines, p.2.straight = true) : f'.ahead = rest ∧ Keeps f f' := by
  induction passes with
  | done ahead => exact ⟨ahead, rfl, rfl, rfl⟩
  | line ahead _ step _ ih =>
    obtain ⟨-, keeps, -⟩ := step.straight ahead (straight _ List.mem_cons_self)
    obtain ⟨last, keeps'⟩ := ih fun p mem => straight p (List.mem_cons_of_mem _ mem)
    exact ⟨last, keeps.trans keeps'⟩

/-! ## Other values below -/

theorem afterCall_above {below : List Value} (ref : MethodRef) (v : Option Value) :
    afterCall (f.above below) ref v = (afterCall f ref v).map (·.above below) := by
  cases v <;> (unfold afterCall; dsimp only; split <;> rfl)

theorem afterNew_above {below : List Value} (ref : MethodRef) (v : Option Value) :
    afterNew (f.above below) ref v = (afterNew f ref v).map (·.above below) := by
  cases v <;> rfl

theorem Acts.above {g : Frame} {a : Action} {below : List Value} (acts : Acts (f.above below) mem g a)
    (ahead : f.ahead = (h, i) :: behind) (plain : i.opcode.isPlain = true)
    (enough : i.counts.1 ≤ f.stack.length) : ∃ g₁, Acts f mem g₁ a ∧ g = g₁.above below := by
  have act := acts.eq (show (f.above below).ahead = _ from ahead)
  obtain ⟨⟨g₁, a₁⟩, act₁, eq⟩ := Frame.act_above { f with ahead := behind } below mem.heap h i plain enough _ act
  cases eq
  exact ⟨g₁, ⟨h, i, behind, ahead, act₁⟩, rfl⟩

theorem Step.above {below : List Value} (step : Step m R (f.above below) mem k f' mem')
    (ahead : f.ahead = (h, i) :: behind) (plain : i.opcode.isPlain = true)
    (enough : i.counts.1 ≤ f.stack.length) :
    ∃ g, Step m R f mem k g mem' ∧ f' = g.above below := by
  have back {g : Frame} {a : Action} {ref : MethodRef} {args : List Value} {v : Option Value}
      (callee : a.callee? = some (ref, args)) (resume : a.resume (g.above below) ref v = .ok f') :
      ∃ g', a.resume g ref v = .ok g' ∧ f' = g'.above below := by
    cases a with
    | call _ _ => exact Reflects.map _ f' ((afterCall_above ref v).symm.trans resume)
    | new _ _ => exact Reflects.map _ f' ((afterNew_above ref v).symm.trans resume)
    | _ => cases callee
  cases step with
  | @move g a _ _ acts done =>
    obtain ⟨g₁, acts₁, rfl⟩ := acts.above ahead plain enough
    cases a with
    | next =>
      cases done
      exact ⟨g₁, .move acts₁ rfl, rfl⟩
    | jump goal =>
      obtain ⟨ne, rfl, rfl⟩ := Frame.perform_jump.1 done
      exact ⟨_, .move acts₁ (Frame.perform_jump.2 ⟨ne, rfl, rfl⟩), rfl⟩
    | alloc element count =>
      cases done
      exact ⟨_, .move acts₁ rfl, rfl⟩
    | store ref index v =>
      cases done
      exact ⟨_, .move acts₁ rfl, rfl⟩
    | _ => cases done
  | @call g a ref args code k v _ _ acts callee body run resume =>
    obtain ⟨g₁, acts₁, rfl⟩ := acts.above ahead plain enough
    obtain ⟨g', resume', rfl⟩ := back callee resume
    exact ⟨g', .call acts₁ callee body run resume', rfl⟩
  | @ask g a ref args v _ _ acts callee body answer resume =>
    obtain ⟨g₁, acts₁, rfl⟩ := acts.above ahead plain enough
    obtain ⟨g', resume', rfl⟩ := back callee resume
    exact ⟨g', .ask acts₁ callee body answer resume', rfl⟩

abbrev faithful (m : Machine) (f : Frame) (mem : Memory) : Prop := f.Faithful m.scope mem.heap

/-- Straight lines that leave the lowest values of the stack alone do the same on another stack and in
another setting. -/
theorem Passes.elsewhere {below : List Value} {d d' : Nat}
    (passes : Passes m R m.faithful rest lines (f.above below) mem f' mem')
    (runs : Runs 0 d (lines.map (·.2)) d') (narrow : ∀ p ∈ lines, p.2.counts.1 ≤ 255)
    (depth : f.stack.length = d) : ∃ g : Frame, f' = g.above below ∧ g.stack.length = d' ∧
      ∀ (s : Setting) (σ : Handle → Handle), Passes m R m.faithful s.ahead (lines.map (relabel σ))
        (f.placed { s with ahead := lines.map (relabel σ) ++ s.ahead }) mem (g.placed s) mem' := by
  generalize whole : f.above below = top at passes
  induction passes generalizing f d with
  | done ahead =>
    subst whole
    exact ⟨f, rfl, depth.trans runs, fun _ _ => .done rfl⟩
  | @line p lines _ mem k top₁ mem₁ _ mem₂ ahead holds step _ ih =>
    obtain ⟨h, i⟩ := p
    subst whole
    obtain ⟨straight, pops, runs⟩ := runs
    have ahead : f.ahead = (h, i) :: (lines ++ rest) := ahead
    obtain ⟨count, after⟩ := Body.depthAfter_eq (narrow (h, i) List.mem_cons_self) d
    have enough : i.counts.1 ≤ f.stack.length := by
      rw [depth, ← count]
      exact pops
    have plain := Instr.plain_of_straight straight
    obtain ⟨f₁, step₁, rfl⟩ := step.above ahead plain enough
    obtain ⟨next, keeps, -, stack⟩ := step₁.straight ahead straight
    have deep : f₁.stack.length = Body.depthAfter i d := by rw [stack, depth, after]
    obtain ⟨g, rfl, depth', passes⟩ := ih runs (fun p mem => narrow p (List.mem_cons_of_mem _ mem)) deep rfl
    obtain ⟨way, lands, elsewhere⟩ := step₁.plain ahead plain
    cases lands.way_eq straight
    refine ⟨g, rfl, depth', fun s σ => ?_⟩
    have there := elsewhere { s with ahead := lines.map (relabel σ) ++ s.ahead } h σ (fun some => absurd rfl some)
    obtain ⟨g₁, a, acts, -⟩ := step₁.acts
    refine .line rfl ?_ there (passes s σ)
    exact holds.placed ahead (acts.eq ahead) rfl

/-! ## Types left over -/

open CilForge.Frame in
/-- A type that is left over for a constrained call means nothing to a line that takes no value. -/
theorem Frame.act_pending (c : Option Sig) {heap : Heap} (alone : i.counts.1 = 0) :
    Frame.act { f with constrained := c } heap h i = Frame.act { f with constrained := none } heap h i := by
  obtain ⟨o, operand⟩ := i
  cases o
  case callvirt =>
    cases method : (⟨.callvirt, operand⟩ : Instr).method? with
    | none => simp only [act, Instr.needMethod, method, bind, Except.bind]
    | some ref =>
      have count : ref.sig.popCount = 0 := by simpa [Instr.counts, Opcode.counts?, method] using alone
      have static : ref.sig.hasThis = false := by
        rw [MethodSig.popCount] at count
        cases this : ref.sig.hasThis with
        | false => rfl
        | true =>
          rw [this] at count
          simp at count
      simp [act, needMethod_eq method, popArgs, count, callArgs, static, bind, Except.bind]
  all_goals rfl

theorem Passes.pending {p : Handle × Instr} (passes : Passes m R m.faithful rest (p :: lines) f mem f' mem')
    (free : f.constrained = none) (alone : p.2.counts.1 = 0) (c : Option Sig) :
    Passes m R m.faithful rest (p :: lines) { f with constrained := c } mem f' mem' := by
  obtain ⟨h, i⟩ := p
  cases passes with
  | @line _ _ _ _ k g mem₁ _ _ ahead holds step passes =>
    have same : ({ f with constrained := none } : Frame) = f := by rw [← free]
    have acts {g : Frame} {a : Action} (acts : Acts f mem g a) : Acts { f with constrained := c } mem g a := by
      refine ⟨h, i, _, ahead, ?_⟩
      have act := acts.eq ahead
      rw [← same] at act
      rw [← act]
      exact Frame.act_pending (f := { f with ahead := lines ++ rest }) c alone
    have moved : Step m R { f with constrained := c } mem k g mem₁ := by
      cases step with
      | move a done => exact .move (acts a) done
      | call a callee body run resume => exact .call (acts a) callee body run resume
      | ask a callee body answer resume => exact .ask (acts a) callee body answer resume
    refine .line ahead ⟨?_, ?_⟩ moved passes
    · intro h₁ i₁ behind₁ sig k v rest ahead₁ opcode
      rw [show f.ahead = _ from ahead₁] at ahead
      cases ahead
      rw [Instr.counts, show i.opcode = .box from opcode] at alone
      cases alone
    · intro h₁ i₁ behind₁ ref sig d address v ahead₁ opcode method this
      rw [show f.ahead = _ from ahead₁] at ahead
      cases ahead
      simp [Instr.counts, Opcode.counts?, show i.opcode = .callvirt from opcode, method, MethodSig.popCount,
        this] at alone

end Machine

end CilForge
