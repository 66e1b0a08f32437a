import CilForge.Proofs.Machine.Setting

/-!
# Runs that box faithfully

A value of an integer kind has one form on the stack. A run is faithful if what it boxes as an enum or
an integer, and what it reads for a constrained call on an enum, has the form of its kind.
-/

namespace CilForge

def Value.IsOf (k : IntKind) (v : Value) : Prop := ∃ x : EnumValue k, v = .ofEnum x

def Scope.kind? (s : Scope) (sig : Sig) : Option IntKind :=
  match IntKind.ofSig? sig with
  | some k => some k
  | none => (s.enumInfo? sig).map (·.kind)

/-- What the next instruction of a frame boxes has the form of its kind. -/
structure Frame.Faithful (s : Scope) (f : Frame) (heap : Heap) : Prop where
  boxes : ∀ h i behind sig k v rest, f.ahead = (h, i) :: behind → i.opcode = .box →
    i.type? = some sig → s.kind? sig = some k → f.stack = v :: rest → v.IsOf k
  /-- The receiver of a constrained call on an enum lies below the other arguments. -/
  reads : ∀ h i behind ref sig d address v, f.ahead = (h, i) :: behind → i.opcode = .callvirt →
    i.method? = some ref → ref.sig.hasThis = true → f.constrained = some sig →
    s.enumInfo? sig = some d → f.stack[ref.sig.params.length]? = some address →
    f.load heap address = .ok v → v.IsOf d.kind

/-! ## Calls -/

namespace Frame

variable {f g : Frame} {heap : Heap} {h : Handle} {i : Instr} {ref : MethodRef} {a : Action}

theorem needMethod_eq (method : i.method? = some ref) : i.needMethod = .ok ref := by
  rw [Instr.needMethod, method]

theorem act_call (opcode : i.opcode = .call) (method : i.method? = some ref)
    (act : f.act heap h i = .ok (g, a)) : ref.sig.popCount ≤ f.stack.length ∧
      g = { f with stack := f.stack.drop ref.sig.popCount, constrained := none } ∧
      a = .call ref (f.stack.take ref.sig.popCount).reverse := by
  obtain ⟨o, operand⟩ := i
  cases opcode
  by_cases short : f.stack.length < ref.sig.popCount
  · simp [Frame.act, needMethod_eq method, popArgs, short, bind, Except.bind] at act
  · simp only [Frame.act, needMethod_eq method, popArgs, short, bind, Except.bind, callArgs,
      reduceCtorEq, if_false, pure, Except.pure, Except.ok.injEq, Prod.mk.injEq] at act
    exact ⟨by omega, act.1.symm, act.2.symm⟩

theorem act_callvirt (opcode : i.opcode = .callvirt) (method : i.method? = some ref)
    (act : f.act heap h i = .ok (g, a)) : ref.sig.popCount ≤ f.stack.length ∧ ∃ args,
      f.callArgs heap f.constrained ref (f.stack.take ref.sig.popCount).reverse = .ok args ∧
      g = { f with stack := f.stack.drop ref.sig.popCount, constrained := none } ∧
      a = .call ref args := by
  obtain ⟨o, operand⟩ := i
  cases opcode
  by_cases short : f.stack.length < ref.sig.popCount
  · simp [Frame.act, needMethod_eq method, popArgs, short, bind, Except.bind] at act
  · refine ⟨by omega, ?_⟩
    simp only [Frame.act, needMethod_eq method, popArgs, short, bind, Except.bind, if_true, if_false,
      pure, Except.pure] at act
    cases adjusted : f.callArgs heap f.constrained ref (f.stack.take ref.sig.popCount).reverse with
    | error e =>
      have other : ({ f with stack := f.stack.drop ref.sig.popCount } : Frame).callArgs heap f.constrained
        ref (f.stack.take ref.sig.popCount).reverse = .error e := adjusted
      rw [other] at act
      cases act
    | ok args =>
      have other : ({ f with stack := f.stack.drop ref.sig.popCount } : Frame).callArgs heap f.constrained
        ref (f.stack.take ref.sig.popCount).reverse = .ok args := adjusted
      rw [other] at act
      cases act
      exact ⟨args, rfl, rfl, rfl⟩

theorem receiver_of_take {stack : List Value} (this : ref.sig.hasThis = true)
    (enough : ref.sig.popCount ≤ stack.length) : ∃ address rest,
      (stack.take ref.sig.popCount).reverse = address :: rest ∧
      stack[ref.sig.params.length]? = some address := by
  have count : ref.sig.popCount = ref.sig.params.length + 1 := by simp [MethodSig.popCount, this]
  rw [count] at enough ⊢
  have lt : ref.sig.params.length < stack.length := enough
  refine ⟨stack[ref.sig.params.length], (stack.take ref.sig.params.length).reverse, ?_,
    List.getElem?_eq_getElem lt⟩
  rw [List.take_succ_eq_append_getElem lt, List.reverse_append]
  rfl

theorem callArgs_constrained {sig : Sig} {address : Value} {rest : List Value} (this : ref.sig.hasThis = true) :
    f.callArgs heap (some sig) ref (address :: rest) = (f.receiver heap sig address).map (· :: rest) := by
  unfold callArgs
  rw [this]
  change (f.receiver heap sig address >>= fun v => pure (v :: rest)) = _
  cases f.receiver heap sig address <;> rfl

theorem load_of_callvirt (opcode : i.opcode = .callvirt) (method : i.method? = some ref)
    (this : ref.sig.hasThis = true) {sig : Sig} (constrained : f.constrained = some sig)
    (act : f.act heap h i = .ok (g, a)) : ∃ address v, f.stack[ref.sig.params.length]? = some address ∧
      f.load heap address = .ok v := by
  obtain ⟨enough, args, adjusted, -⟩ := act_callvirt opcode method act
  obtain ⟨address, rest, split, there⟩ := receiver_of_take this enough
  rw [split, constrained, callArgs_constrained this] at adjusted
  cases loaded : f.load heap address with
  | error e => simp [receiver, loaded, bind, Except.bind, Except.map] at adjusted
  | ok v => exact ⟨address, v, there, loaded⟩

end Frame

theorem Instr.type?_mapTargets (i : Instr) (σ : Handle → Handle) : (i.mapTargets σ).type? = i.type? := by
  obtain ⟨o, operand⟩ := i
  cases operand <;> rfl

theorem Instr.method?_mapTargets (i : Instr) (σ : Handle → Handle) :
    (i.mapTargets σ).method? = i.method? := by
  obtain ⟨o, operand⟩ := i
  cases operand <;> rfl

theorem Frame.Faithful.placed {s : Scope} {f g : Frame} {heap : Heap} {h h' : Handle} {i : Instr}
    {behind behind' : List (Handle × Instr)} {a : Action} {σ : Handle → Handle} {t : Setting}
    {below : List Value} (faithful : Faithful s { f with stack := f.stack ++ below } heap)
    (ahead : f.ahead = (h, i) :: behind) (act : Frame.act { f with ahead := behind } heap h i = .ok (g, a))
    (there : t.ahead = (h', i.mapTargets σ) :: behind') : Faithful s (f.placed t) heap := by
  constructor
  · intro h₁ i₁ behind₁ sig k v rest ahead₁ opcode type kind stack
    rw [show (f.placed t).ahead = t.ahead from rfl, there] at ahead₁
    cases ahead₁
    rw [Instr.type?_mapTargets] at type
    have enough := (act_profile _ heap h i (by
      rw [Opcode.isPlain, show i.opcode = .box from opcode]; rfl) _ act).pops
    have count : i.counts.1 = 1 := by
      rw [Instr.counts, show i.opcode = .box from opcode]
      rfl
    rw [count] at enough
    obtain ⟨w, own, top⟩ : ∃ w own, f.stack = w :: own := List.exists_cons_of_length_pos enough
    have stack : f.stack ++ t.below = v :: rest := stack
    rw [top, List.cons_append, List.cons.injEq] at stack
    refine faithful.boxes h i behind sig k v (own ++ below) ahead opcode type kind ?_
    rw [← stack.1]
    change f.stack ++ below = _
    rw [top]
    rfl
  · intro h₁ i₁ behind₁ ref sig d address v ahead₁ opcode method this constrained info place loaded
    rw [show (f.placed t).ahead = t.ahead from rfl, there] at ahead₁
    cases ahead₁
    rw [Instr.method?_mapTargets] at method
    have constrained : f.constrained = some sig := constrained
    have opcode : i.opcode = .callvirt := opcode
    obtain ⟨address', v', place', loaded'⟩ :=
      load_of_callvirt (f := { f with ahead := behind }) opcode method this constrained act
    have loaded' : f.load heap address' = .ok v' := by
      cases address' <;> exact loaded'
    have lt := (List.getElem?_eq_some_iff.1 place').1
    have same : (f.stack ++ t.below)[ref.sig.params.length]? = some address' := by
      rw [List.getElem?_append_left lt]
      exact place'
    have place : (f.stack ++ t.below)[ref.sig.params.length]? = some address := place
    rw [same, Option.some.injEq] at place
    subst place
    rw [f.load_placed t heap address' v' loaded', Except.ok.injEq] at loaded
    subst loaded
    refine faithful.reads h i behind ref sig d address' v' ahead opcode method this constrained info ?_ ?_
    · change (f.stack ++ below)[ref.sig.params.length]? = _
      rw [List.getElem?_append_left lt]
      exact place'
    · cases address' <;> exact loaded'

/-! ## Runs with a property -/

namespace Machine

/-- The way of a frame to the end of its method, with a property that holds of every frame on it; `n`
counts its instructions. -/
inductive Upholds (m : Machine) (R : Carries) (P : Frame → Memory → Prop) :
    Frame → Memory → Nat → Outcome → Memory → Prop where
  | stop {f mem f₁ a o} : P f mem → Acts f mem f₁ a → a.outcome? = some o → Upholds m R P f mem 1 o mem
  | step {f mem k f' mem' n o mem''} : P f mem → Step m R f mem k f' mem' →
      Upholds m R P f' mem' n o mem'' → Upholds m R P f mem (n + 1) o mem''

variable {m : Machine} {R : Carries} {P : Frame → Memory → Prop} {f : Frame} {mem mem' : Memory}
  {n : Nat} {o : Outcome}

theorem Upholds.ends (upholds : Upholds m R P f mem n o mem') : ∃ n', Ends m R f mem n' o mem' := by
  induction upholds with
  | stop _ acts out => exact ⟨1, .stop acts out⟩
  | step _ s _ ih =>
    obtain ⟨n', ends⟩ := ih
    exact ⟨_, .step s ends⟩

end Machine

end CilForge
