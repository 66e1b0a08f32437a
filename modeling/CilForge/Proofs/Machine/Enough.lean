import CilForge.Machine.Frame

/-!
# Enough values

An instruction with as many values on the stack as it takes does not fail for want of one.
-/

namespace CilForge

/-- What holds of the result; a fault is not about a missing value. -/
def Spares {α : Type} (P : α → Prop) : Except MachineFault α → Prop
  | .ok a => P a
  | .error e => e ≠ .stackUnderflow

namespace Spares

variable {α β : Type} {P : α → Prop} {Q : β → Prop}

theorem done {a : α} (h : P a) : Spares P (.ok a) := h

theorem fault {e : MachineFault} (h : e ≠ .stackUnderflow) : Spares P (.error e) := h

theorem told {heap : Heap} {kind : String → MachineFault} (h : ∀ text, kind text ≠ .stackUnderflow) (v : Value) :
    Spares P (.error (heap.fault kind v)) := by
  unfold Heap.fault
  split
  · exact h _
  · exact nofun

theorem told₂ {heap : Heap} {kind : String → String → MachineFault} (h : ∀ s t, kind s t ≠ .stackUnderflow)
    (v w : Value) : Spares P (.error (heap.fault₂ kind v w)) := by
  unfold Heap.fault₂
  split
  · exact h _ _
  · exact nofun

theorem bind {x : Except MachineFault α} {k : α → Except MachineFault β} (h : Spares P x)
    (hk : ∀ a, P a → Spares Q (k a)) : Spares Q (x >>= k) := by
  cases x with
  | error e => exact h
  | ok a => exact hk a h

theorem skip {x : Except MachineFault α} {k : α → Except MachineFault β} (h : Spares (fun _ => True) x)
    (hk : ∀ a, Spares Q (k a)) : Spares Q (x >>= k) :=
  h.bind fun a _ => hk a

theorem ite {p : Prop} [Decidable p] {x y : Except MachineFault α} (yes : Spares P x) (no : Spares P y) :
    Spares P (if p then x else y) := by
  split
  · exact yes
  · exact no

theorem ne {x : Except MachineFault α} (h : Spares P x) : x ≠ .error .stackUnderflow := by
  rintro rfl
  exact h rfl

end Spares

/-- A computation that never looks for a value on the stack. -/
abbrev Quietly {α : Type} (x : Except MachineFault α) : Prop := Spares (fun _ => True) x

namespace Frame

variable (f : Frame) (heap : Heap)

theorem spares_pop {n : Nat} (enough : n + 1 ≤ f.stack.length) :
    Spares (fun x => n ≤ x.2.stack.length) f.pop := by
  unfold pop
  cases hs : f.stack with
  | nil => simp [hs] at enough
  | cons v rest =>
    rw [hs, List.length_cons] at enough
    exact Nat.le_of_succ_le_succ enough

theorem spares_popArgs {n : Nat} (enough : n ≤ f.stack.length) : Quietly (f.popArgs n) := by
  unfold popArgs
  rw [if_neg (Nat.not_lt.2 enough)]
  trivial

theorem quietly_getLocal (n : Nat) : Quietly (f.getLocal n) := by
  unfold getLocal
  split
  · trivial
  · exact nofun

theorem quietly_getArg (n : Nat) : Quietly (f.getArg n) := by
  unfold getArg
  split
  · trivial
  · exact nofun

theorem quietly_setLocal (n : Nat) (v : Value) : Quietly (f.setLocal n v) :=
  .ite trivial nofun

theorem quietly_setArg (n : Nat) (v : Value) : Quietly (f.setArg n v) :=
  .ite trivial nofun

theorem quietly_load (v : Value) : Quietly (f.load heap v) := by
  cases v with
  | localAddress n => exact f.quietly_getLocal n
  | argumentAddress n => exact f.quietly_getArg n
  | _ => exact .told (by simp) _

theorem quietly_store (a v : Value) : Quietly (f.store heap a v) := by
  cases a with
  | localAddress n => exact f.quietly_setLocal n v
  | argumentAddress n => exact f.quietly_setArg n v
  | _ => exact .told (by simp) _

theorem quietly_goTo (h : Handle) : Quietly (f.goTo h) := by
  unfold goTo
  split
  · exact nofun
  · trivial

theorem quietly_position (h : Handle) : Quietly (f.position h) := by
  unfold position
  cases f.body.position? h with
  | some p => trivial
  | none => exact Spares.fault (by simp)

theorem quietly_endPosition (h : Option Handle) : Quietly (f.endPosition h) := by
  cases h with
  | none => trivial
  | some h => exact f.quietly_position h

theorem quietly_leftHandlers (source target : Handle) : Quietly (f.leftHandlers source target) := by
  have each (p q : Nat) (regions : List Region) : Quietly (regions.mapM (f.left? p q)) := by
    induction regions with
    | nil => trivial
    | cons r regions ih =>
      rw [List.mapM_cons]
      refine .skip ?_ fun _ => ih.skip fun _ => trivial
      exact (f.quietly_position _).skip fun _ => (f.quietly_endPosition _).skip fun _ => trivial
  exact (f.quietly_position _).skip fun p => (f.quietly_position _).skip fun q =>
    (each p q _).skip fun _ => trivial

theorem quietly_callArgs (sig : Option Sig) (m : MethodRef) (args : List Value) :
    Quietly (f.callArgs heap sig m args) := by
  unfold callArgs
  split
  · exact .skip ((f.quietly_load heap _).skip fun _ => trivial) fun _ => trivial
  · trivial

end Frame

namespace Instr

variable (i : Instr)

theorem quietly_needType : Quietly i.needType := by
  unfold needType
  split
  · trivial
  · exact nofun

theorem quietly_needMethod : Spares (fun m => i.method? = some m) i.needMethod := by
  unfold needMethod
  cases i.method? with
  | some m => rfl
  | none => exact nofun

theorem quietly_needIndex : Quietly i.needIndex := by
  unfold needIndex
  split
  · trivial
  · trivial
  · exact nofun

theorem quietly_needTarget : Quietly i.needTarget := by
  unfold needTarget
  split
  · trivial
  · exact nofun

end Instr

namespace Heap

variable (heap : Heap) (o : Opcode)

theorem quietly_int32 (v : Value) : Quietly (heap.int32 v) := by
  cases v <;> first | trivial | exact .told (by simp) _

theorem quietly_get (v : Value) : Quietly (heap.get v) := by
  cases v <;> first | trivial | exact .told (by simp) _

theorem quietly_binary (left right : Value) : Quietly (heap.binary o left right) := by
  unfold binary
  split
  · refine (heap.quietly_int32 right).skip fun amount => ?_
    cases left <;> first | trivial | exact .told (by simp) _
  · split
    case h_3 => exact .told₂ (by simp) _ _
    all_goals
      repeat' split
      all_goals first | trivial | exact nofun

theorem quietly_unary (v : Value) : Quietly (heap.unary o v) := by
  unfold unary
  split <;> first | trivial | exact .told (by simp) _

theorem quietly_convert (v : Value) : Quietly (heap.convert o v) := by
  have words (narrow : BitVec 32) (signed unsigned : BitVec 64) :
      Quietly (convertWords o narrow signed unsigned) := by
    unfold convertWords
    split <;> first | trivial | exact nofun
  cases v <;> first | exact words .. | exact .told (by simp) _

theorem quietly_compare (left right : Value) : Quietly (heap.compare o left right) := by
  have equal : Quietly (heap.equal left right) := by
    unfold Heap.equal
    split <;> first | trivial | exact .told₂ (by simp) _ _
  have order (unsigned : Bool) : Quietly (heap.order unsigned left right) := by
    unfold Heap.order
    split <;> first | trivial | exact .told₂ (by simp) _ _
  unfold compare
  split
  · exact equal
  · exact equal.skip fun _ => trivial
  · exact (order _).skip fun _ => trivial
  · exact (order _).skip fun _ => nofun

end Heap

open CilForge.Frame Instr Spares in
/-- With as many values as it takes, no instruction looks for one more. -/
theorem act_spares (f : Frame) (heap : Heap) (h : Handle) (i : Instr)
    (enough : i.counts.1 ≤ f.stack.length) : Quietly (f.act heap h i) := by
  obtain ⟨o, operand⟩ := i
  cases o
  case nop | ldnull | ret => exact done trivial
  case ldarg => exact skip (quietly_needIndex _) fun n => skip (quietly_getArg _ n) fun v => done trivial
  case ldloc => exact skip (quietly_needIndex _) fun n => skip (quietly_getLocal _ n) fun v => done trivial
  case ldarga | ldloca => exact skip (quietly_needIndex _) fun n => done trivial
  case ldtoken | constrained => exact skip (quietly_needType _) fun sig => done trivial
  case starg =>
    exact bind (spares_pop _ enough) fun x _ => skip (quietly_needIndex _) fun n =>
      skip (quietly_setArg _ n _) fun g => done trivial
  case stloc =>
    exact bind (spares_pop _ enough) fun x _ => skip (quietly_needIndex _) fun n =>
      skip (quietly_setLocal _ n _) fun g => done trivial
  case ldcI4 | ldcI8 | ldstr => cases operand <;> first | exact done trivial | exact fault nofun
  case dup | pop | throw => exact bind (spares_pop _ enough) fun x _ => done trivial
  case call | callvirt =>
    refine bind (quietly_needMethod _) fun m hm => skip (spares_popArgs _ ?_) fun x =>
      skip (quietly_callArgs _ heap _ m _) fun args => done trivial
    simp only [counts, Opcode.counts?, hm] at enough
    exact enough
  case newobj =>
    refine bind (quietly_needMethod _) fun m hm => skip (spares_popArgs _ ?_) fun x => done trivial
    simp only [counts, Opcode.counts?, hm] at enough
    exact enough
  case br => exact skip (quietly_needTarget _) fun t => done trivial
  case brfalse | brtrue =>
    exact bind (spares_pop _ enough) fun x _ => ite
      (skip (quietly_needTarget _) fun t => done trivial) (done trivial)
  case beq | bge | bgt | ble | blt | bneUn | bgeUn | bgtUn | bleUn | bltUn =>
    exact bind (spares_pop _ enough) fun x hx => bind (spares_pop _ hx) fun y _ =>
      skip (heap.quietly_compare _ _ _) fun c => ite
        (skip (quietly_needTarget _) fun t => done trivial) (done trivial)
  case switch =>
    refine bind (spares_pop _ enough) fun x _ => skip (heap.quietly_int32 _) fun index => ?_
    split <;> exact done trivial
  case leave =>
    refine skip (quietly_needTarget _) fun t => skip (quietly_leftHandlers _ h t) fun handlers => ?_
    cases handlers <;> exact done trivial
  case endfinally =>
    obtain ⟨-, -, -, -, -, leaves, -⟩ := f
    cases leaves with
    | nil => exact fault nofun
    | cons d outer =>
      obtain ⟨handlers, target⟩ := d
      cases handlers <;> exact done trivial
  case add | sub | mul | div | rem | and | or | xor | shl | shr | shrUn =>
    exact bind (spares_pop _ enough) fun x hx => bind (spares_pop _ hx) fun y _ =>
      skip (heap.quietly_binary _ _ _) fun v => done trivial
  case ceq | cgt | cgtUn | clt | cltUn =>
    exact bind (spares_pop _ enough) fun x hx => bind (spares_pop _ hx) fun y _ =>
      skip (heap.quietly_compare _ _ _) fun v => done trivial
  case neg | not =>
    exact bind (spares_pop _ enough) fun x _ => skip (heap.quietly_unary _ _) fun v => done trivial
  case convI1 | convI2 | convI4 | convI8 | convU1 | convU2 | convU4 | convU8 =>
    exact bind (spares_pop _ enough) fun x _ => skip (heap.quietly_convert _ _) fun v => done trivial
  case box =>
    exact skip (quietly_needType _) fun sig => bind (spares_pop _ enough) fun x _ => done trivial
  case unboxAny =>
    refine skip (quietly_needType _) fun sig => bind (spares_pop _ enough) fun ⟨v, g⟩ _ => ?_
    cases v <;> first | exact done trivial | exact ite (done trivial) (told (by simp) _)
  case ldobj =>
    exact bind (spares_pop _ enough) fun x _ => skip (quietly_load _ heap _) fun v => done trivial
  case stobj =>
    exact bind (spares_pop _ enough) fun x hx => bind (spares_pop _ hx) fun y _ =>
      skip (quietly_store _ heap _ _) fun g => done trivial
  case initobj =>
    exact skip (quietly_needType _) fun sig => bind (spares_pop _ enough) fun x _ =>
      skip (quietly_store _ heap _ _) fun g => done trivial
  case newarr =>
    exact skip (quietly_needType _) fun sig => bind (spares_pop _ enough) fun x _ =>
      skip (heap.quietly_int32 _) fun n => ite (fault nofun) (done trivial)
  case ldlen =>
    exact bind (spares_pop _ enough) fun x _ => skip (heap.quietly_get _) fun a => done trivial
  case ldelem =>
    refine bind (spares_pop _ enough) fun x hx => skip (heap.quietly_int32 _) fun index =>
      bind (spares_pop _ hx) fun y _ => skip (heap.quietly_get _) fun a => ?_
    dsimp only
    split
    · exact done trivial
    · exact fault nofun
  case stelem =>
    exact bind (spares_pop _ enough) fun x hx => bind (spares_pop _ hx) fun y hy =>
      skip (heap.quietly_int32 _) fun index => bind (spares_pop _ hy) fun z _ =>
        skip (heap.quietly_get _) fun a => ite (done trivial) (fault nofun)
  all_goals exact fault nofun

end CilForge
