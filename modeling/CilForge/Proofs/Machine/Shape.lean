import CilForge.Machine.Frame

/-!
# The shape of instructions

What an instruction does to the depth of the stack and to control, read off its opcode and operand.
-/

namespace CilForge

def Gives {α : Type} (P : α → Prop) (x : Except MachineFault α) : Prop := ∀ a, x = .ok a → P a

namespace Gives

variable {α β : Type} {P : α → Prop} {Q : β → Prop}

theorem ok {a : α} (h : P a) : Gives P (.ok a) := by
  intro a h
  cases h
  assumption

theorem error {e : MachineFault} : Gives P (.error e) := nofun

theorem bind {x : Except MachineFault α} {k : α → Except MachineFault β} (h : Gives P x)
    (hk : ∀ a, P a → Gives Q (k a)) : Gives Q (x >>= k) := by
  intro c hc
  cases x with
  | error e => cases hc
  | ok a => exact hk a (h a rfl) c hc

theorem skip {x : Except MachineFault α} {k : α → Except MachineFault β} (hk : ∀ a, Gives Q (k a)) :
    Gives Q (x >>= k) :=
  bind (fun _ _ => trivial) fun a _ => hk a

theorem ite {p : Prop} [Decidable p] {x y : Except MachineFault α} (yes : Gives P x) (no : Gives P y) :
    Gives P (if p then x else y) := by
  split
  · exact yes
  · exact no

end Gives

def Opcode.isPlain (o : Opcode) : Bool := o ≠ .leave && o ≠ .endfinally && o ≠ .ret

def Action.rise : Action → Nat
  | .alloc _ _ | .new _ _ => 1
  | .call ref _ => ref.sig.pushCount
  | _ => 0

def Instr.JumpsTo (i : Instr) (goal : Handle) : Prop :=
  i.target? = some goal ∨ i.opcode = .switch ∧ goal ∈ i.targets

theorem Instr.JumpsTo.mem {i : Instr} {goal : Handle} (h : i.JumpsTo goal) : goal ∈ i.targets := by
  rcases h with one | many
  · unfold target? at one
    unfold targets Operand.targets
    split at one
    · rename_i goal' eq
      cases one
      rw [eq]
      exact List.mem_singleton_self _
    · cases one
  · exact many.2

/-- Where an action goes on, as its instruction says. -/
def Action.Follows (i : Instr) : Action → Prop
  | .jump goal => i.JumpsTo goal ∧ i.opcode.isBranch = true
  | .ret _ => False
  | .throw _ => i.opcode.flow = .throw
  | _ => i.opcode.isTerminal = false

/-- The effect of an instruction on the depth of the stack and on control. -/
structure Profile (f : Frame) (i : Instr) (r : Frame × Action) : Prop where
  pops : i.counts.1 ≤ f.stack.length
  stack : r.1.stack.length + r.2.rise = f.stack.length - i.counts.1 + i.counts.2
  locals : r.1.locals.size = f.locals.size
  goes : r.2.Follows i

/-- With `n` values left below, an instruction takes `p` values and puts `q`. -/
theorem Profile.intro {f g : Frame} {i : Instr} {a : Action} {n p q : Nat} (counts : i.counts = (p, q))
    (before : f.stack.length = n + p ∧ f.locals.size = g.locals.size)
    (after : g.stack.length + a.rise = n + q) (goes : a.Follows i) : Profile f i (g, a) := by
  refine ⟨?_, ?_, before.2.symm, goes⟩
  · rw [counts]
    omega
  · rw [counts]
    simp only
    omega

namespace Frame

theorem gives_pop (f : Frame) : Gives
    (fun x => f.stack.length = x.2.stack.length + 1 ∧ f.locals.size = x.2.locals.size) f.pop := by
  unfold pop
  cases f.stack with
  | nil => exact .error
  | cons v rest => exact .ok ⟨rfl, rfl⟩

theorem gives_popArgs (f : Frame) (n : Nat) : Gives
    (fun x => f.stack.length = x.2.stack.length + n ∧ f.locals.size = x.2.locals.size)
    (f.popArgs n) := by
  unfold popArgs
  split
  · exact .error
  · refine .ok ⟨?_, rfl⟩
    rw [List.length_drop]
    omega

def SameSize (f g : Frame) : Prop :=
  g.stack.length = f.stack.length ∧ f.locals.size = g.locals.size

theorem gives_setLocal (f : Frame) (n : Nat) (v : Value) : Gives f.SameSize (f.setLocal n v) := by
  unfold setLocal
  split
  · exact .ok ⟨rfl, Array.size_setIfInBounds.symm⟩
  · exact .error

theorem gives_setArg (f : Frame) (n : Nat) (v : Value) : Gives f.SameSize (f.setArg n v) := by
  unfold setArg
  split
  · exact .ok ⟨rfl, rfl⟩
  · exact .error

theorem gives_store (f : Frame) (heap : Heap) (a v : Value) :
    Gives f.SameSize (f.store heap a v) := by
  cases a with
  | localAddress n => exact f.gives_setLocal n v
  | argumentAddress n => exact f.gives_setArg n v
  | _ => exact .error

end Frame

theorem Instr.gives_needTarget (i : Instr) : Gives i.JumpsTo i.needTarget := by
  unfold needTarget
  cases h : i.target? with
  | some goal => exact .ok (.inl h)
  | none => exact .error

theorem Instr.gives_needMethod (i : Instr) : Gives (fun m => i.method? = some m) i.needMethod := by
  unfold needMethod
  cases i.method? with
  | some m => exact .ok rfl
  | none => exact .error

open CilForge.Frame Instr in
/-- The effect of an instruction is the one that its opcode and operand tell. -/
theorem act_profile (f : Frame) (heap : Heap) (h : Handle) (i : Instr)
    (flow : i.opcode.isPlain = true) : Gives (Profile f i) (f.act heap h i) := by
  obtain ⟨o, operand⟩ := i
  have two {n k l x y z : Nat} (hx : n = k + 1 ∧ x = y) (hy : k = l + 1 ∧ y = z) :
      n = l + 2 ∧ x = z := by omega
  have three {n k l x y z : Nat} (hx : n = k + 1 ∧ x = y) (hy : k = l + 2 ∧ y = z) :
      n = l + 3 ∧ x = z := by omega
  cases o
  case nop => exact .ok (.intro rfl ⟨rfl, rfl⟩ rfl rfl)
  case ldnull => exact .ok (.intro rfl ⟨rfl, rfl⟩ rfl rfl)
  case ldarg | ldloc => exact .skip fun n => .skip fun v => .ok (.intro rfl ⟨rfl, rfl⟩ rfl rfl)
  case ldarga | ldloca | ldtoken => exact .skip fun n => .ok (.intro rfl ⟨rfl, rfl⟩ rfl rfl)
  case starg =>
    exact .bind (gives_pop _) fun x hx => .skip fun n => .bind (gives_setArg _ n _) fun g hg =>
      .ok (.intro rfl ⟨hx.1, hx.2.trans hg.2⟩ hg.1 rfl)
  case stloc =>
    exact .bind (gives_pop _) fun x hx => .skip fun n => .bind (gives_setLocal _ n _) fun g hg =>
      .ok (.intro rfl ⟨hx.1, hx.2.trans hg.2⟩ hg.1 rfl)
  case ldcI4 | ldcI8 | ldstr =>
    cases operand <;> first | exact .error | exact .ok (.intro rfl ⟨rfl, rfl⟩ rfl rfl)
  case dup | pop => exact .bind (gives_pop _) fun x hx => .ok (.intro rfl hx rfl rfl)
  case call | callvirt =>
    refine .bind (gives_needMethod _) fun m hm => .bind (gives_popArgs _ _) fun x hx =>
      .skip fun args => .ok (.intro ?_ hx rfl rfl)
    simp only [counts, Opcode.counts?, hm]
    rfl
  case newobj =>
    refine .bind (gives_needMethod _) fun m hm => .bind (gives_popArgs _ _) fun x hx =>
      .ok (.intro ?_ hx rfl rfl)
    simp only [counts, Opcode.counts?, hm]
    rfl
  case br => exact .bind (gives_needTarget _) fun t ht => .ok (.intro rfl ⟨rfl, rfl⟩ rfl ⟨ht, rfl⟩)
  case brfalse | brtrue =>
    exact .bind (gives_pop _) fun x hx => .ite
      (.bind (gives_needTarget _) fun t ht => .ok (.intro rfl hx rfl ⟨ht, rfl⟩))
      (.ok (.intro rfl hx rfl rfl))
  case beq | bge | bgt | ble | blt | bneUn | bgeUn | bgtUn | bleUn | bltUn =>
    exact .bind (gives_pop _) fun x hx => .bind (gives_pop _) fun y hy => .skip fun c => .ite
      (.bind (gives_needTarget _) fun t ht => .ok (.intro rfl (two hx hy) rfl ⟨ht, rfl⟩))
      (.ok (.intro rfl (two hx hy) rfl rfl))
  case switch =>
    refine .bind (gives_pop _) fun x hx => .skip fun index => ?_
    cases ht : (targets ⟨.switch, operand⟩)[index.toNat]? with
    | some t => exact .ok (.intro rfl hx rfl ⟨.inr ⟨rfl, List.mem_of_getElem? ht⟩, rfl⟩)
    | none => exact .ok (.intro rfl hx rfl rfl)
  case leave | endfinally | ret => cases flow
  case throw => exact .bind (gives_pop _) fun x hx => .ok (.intro rfl hx rfl rfl)
  case add | sub | mul | div | rem | and | or | xor | shl | shr | shrUn | ceq | cgt | cgtUn | clt
      | cltUn =>
    exact .bind (gives_pop _) fun x hx => .bind (gives_pop _) fun y hy => .skip fun c =>
      .ok (.intro rfl (two hx hy) rfl rfl)
  case neg | not | convI1 | convI2 | convI4 | convI8 | convU1 | convU2 | convU4 | convU8 | ldobj
      | ldlen =>
    exact .bind (gives_pop _) fun x hx => .skip fun c => .ok (.intro rfl hx rfl rfl)
  case box =>
    exact .skip fun sig => .bind (gives_pop _) fun x hx => .ok (.intro rfl hx rfl rfl)
  case unboxAny =>
    refine .skip fun sig => .bind (gives_pop _) fun ⟨v, g⟩ hx => ?_
    cases v <;> first
      | exact .ok (.intro rfl hx rfl rfl) | exact .ite (.ok (.intro rfl hx rfl rfl)) .error
  case stobj =>
    exact .bind (gives_pop _) fun x hx => .bind (gives_pop _) fun y hy =>
      .bind (gives_store _ heap _ _) fun g hg =>
        .ok (.intro rfl ⟨(two hx hy).1, (two hx hy).2.trans hg.2⟩ hg.1 rfl)
  case initobj =>
    exact .skip fun sig => .bind (gives_pop _) fun x hx => .bind (gives_store _ heap _ _) fun g hg =>
      .ok (.intro rfl ⟨hx.1, hx.2.trans hg.2⟩ hg.1 rfl)
  case newarr =>
    exact .skip fun sig => .bind (gives_pop _) fun x hx => .skip fun n =>
      .ite .error (.ok (.intro rfl hx rfl rfl))
  case ldelem =>
    refine .bind (gives_pop _) fun x hx => .skip fun index => .bind (gives_pop _) fun y hy =>
      .skip fun a => ?_
    dsimp only
    split
    · exact .ok (.intro rfl (two hx hy) rfl rfl)
    · exact .error
  case stelem =>
    exact .bind (gives_pop _) fun x hx => .bind (gives_pop _) fun y hy => .skip fun index =>
      .bind (gives_pop _) fun z hz => .skip fun a => .ite
        (.ok (.intro rfl (three hx (two hy hz)) rfl rfl)) .error
  case constrained => exact .skip fun sig => .ok (.intro rfl ⟨rfl, rfl⟩ rfl rfl)
  all_goals exact .error

end CilForge
