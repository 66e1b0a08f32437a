import CilForge.Proofs.Enum.Number
import CilForge.Proofs.Machine.Depth
import CilForge.Proofs.Machine.Straight

/-!
# The frames that a run comes to

A property of all the frames that a run comes to holds along the way to its end (`Comes.upholds`), and a
bounded run can be tested for it (`Comes.check`). In this way a run can be seen to box faithfully
(`Frame.isFaithful`).
-/

namespace CilForge

namespace Machine

variable {m : Machine} {R : Carries} {f f' : Frame} {o : Outcome}

/-- A property of all the frames that a run comes to is one along the way to its end. -/
theorem Comes.upholds {callee : Executor} {P : Frame → Memory → Prop} {w w' : World}
    (finds : Finds callee R) (all : ∀ g w₁, Comes m callee f w g w₁ → P g w₁.memory) {fuel : Nat} {g : Frame}
    {w₁ : World} (comes : Comes m callee f w g w₁) (run : m.runFrame callee fuel g w₁ = (.ok o, w')) :
    ∃ n, Upholds m R P g w₁.memory n o w'.memory := by
  induction fuel generalizing g w₁ with
  | zero => cases run
  | succ fuel ih =>
    have holds := all g w₁ comes
    obtain ⟨h, i, behind, ahead, room, ⟨g', w₂, next, rest⟩ | last⟩ := runFrame_cases run
    · obtain ⟨k, mem', step, rfl⟩ := step_of_finds ahead finds next
      obtain ⟨n, upholds⟩ := ih (comes.step ahead room next) rest
      exact ⟨n + 1, .step holds step upholds⟩
    · obtain ⟨rfl, g₁, a, acts, out⟩ := acts_of_stop ahead last
      exact ⟨1, .stop holds acts out⟩

def checkAll (m : Machine) (callee : Executor) (check : Frame → World → Bool) : Nat → Frame → World → Bool
  | 0, _, _ => false
  | fuel + 1, f, w =>
    check f w &&
      match f.ahead with
      | [] => true
      | (h, i) :: behind =>
        match m.step callee { f with ahead := behind } h i (w.later 1 w.memory) with
        | (.ok (.inl f'), w') => m.checkAll callee check fuel f' w'
        | _ => true

theorem Comes.check {callee : Executor} {check : Frame → World → Bool} {w w₁ : World} {g : Frame} {fuel : Nat}
    (comes : Comes m callee f w g w₁) (all : m.checkAll callee check fuel f w = true) : check g w₁ = true := by
  have passed {fuel : Nat} {g : Frame} {w₁ : World} (all : m.checkAll callee check fuel g w₁ = true) :
      ∃ rest, fuel = rest + 1 ∧ check g w₁ = true := by
    cases fuel with
    | zero => cases all
    | succ rest => exact ⟨rest, rfl, (Bool.and_eq_true_iff.1 all).1⟩
  suffices ∃ left, m.checkAll callee check left g w₁ = true by
    obtain ⟨left, all⟩ := this
    obtain ⟨-, -, holds⟩ := passed all
    exact holds
  induction comes with
  | here => exact ⟨fuel, all⟩
  | step _ ahead _ done ih =>
    obtain ⟨left, all⟩ := ih
    obtain ⟨rest, rfl, -⟩ := passed all
    refine ⟨rest, ?_⟩
    rw [checkAll, Bool.and_eq_true] at all
    simp only [ahead, done] at all
    exact all.2

end Machine

/-! ## Deciding whether a frame boxes faithfully -/

/-- The value has the form of its kind: its low bits tell the rest. -/
def Value.hasForm (k : IntKind) : Value → Bool
  | .i32 b => !k.isWide && decide ((EnumValue.ofWord k (b.signExtend 64)).stack32 = b)
  | .i64 b => k.isWide && decide ((EnumValue.ofWord k b).stack64 = b)
  | _ => false

theorem Value.isOf_of_hasForm {k : IntKind} {v : Value} (yes : v.hasForm k = true) : v.IsOf k := by
  cases v with
  | i32 b =>
    rw [hasForm, Bool.and_eq_true, Bool.not_eq_true', decide_eq_true_eq] at yes
    exact ⟨_, by rw [ofEnum_narrow yes.1, yes.2]⟩
  | i64 b =>
    rw [hasForm, Bool.and_eq_true, decide_eq_true_eq] at yes
    exact ⟨_, by rw [ofEnum_wide yes.1, yes.2]⟩
  | _ => cases yes

namespace Frame

variable {s : Scope} {f : Frame} {heap : Heap}

def boxesWell (s : Scope) (f : Frame) (i : Instr) : Bool :=
  match i.type?.bind s.kind?, f.stack with
  | some k, v :: _ => v.hasForm k
  | _, _ => true

def readsWell (s : Scope) (f : Frame) (heap : Heap) (i : Instr) : Bool :=
  match i.method?, f.constrained.bind s.enumInfo? with
  | some ref, some d =>
    match f.stack[ref.sig.params.length]? with
    | some address =>
      match f.load heap address with
      | .ok v => v.hasForm d.kind
      | .error _ => true
    | none => true
  | _, _ => true

def isFaithful (s : Scope) (f : Frame) (heap : Heap) : Bool :=
  match f.ahead with
  | [] => true
  | (_, i) :: _ =>
    match i.opcode with
    | .box => f.boxesWell s i
    | .callvirt => f.readsWell s heap i
    | _ => true

theorem faithful_of_isFaithful (yes : f.isFaithful s heap = true) : f.Faithful s heap := by
  constructor
  · intro h i behind sig k v rest ahead opcode type kind stack
    simp only [isFaithful, ahead, opcode, boxesWell, type, Option.bind_some, kind, stack] at yes
    exact Value.isOf_of_hasForm yes
  · intro h i behind ref sig d address v ahead opcode method _ constrained info there loaded
    simp only [isFaithful, ahead, opcode, readsWell, method, constrained, Option.bind_some, info, there, loaded] at yes
    exact Value.isOf_of_hasForm yes

end Frame

end CilForge
