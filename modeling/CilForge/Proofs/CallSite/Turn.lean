import CilForge.Proofs.Body.Splice
import CilForge.Proofs.CallSite.Shape
import CilForge.Proofs.Pipeline.Serves

/-!
# What becomes of a site

The edits of a site put new lines in the place of its preparations and of its call, and leave the
operand expression between them as it is.
-/

namespace CilForge.CallSite

open Edit

/-! ## Lines of a site -/

theorem straight_of_called {i : Instr} {m : MethodRef} (call : called? i = some m) :
    i.straight = true := by
  simp only [called?, isCall, Option.ite_none_right_eq_some, Bool.or_eq_true, decide_eq_true_eq] at call
  rcases call.1 with opcode | opcode <;> simp [Instr.straight, opcode, Opcode.flow]

theorem straight_of_any {i : Instr} {test : MethodRef → Bool} (yes : (called? i).any test = true) :
    i.straight = true := by
  obtain ⟨m, called, -⟩ := (Option.any_eq_true ..).1 yes
  exact straight_of_called called

theorem straight_of_calls {i : Instr} {opcode : Opcode} {test : MethodRef → Bool}
    (yes : calls i opcode test = true) (call : opcode = .call ∨ opcode = .callvirt) :
    i.straight = true := by
  obtain ⟨rfl, -⟩ := calls_iff.1 yes
  rcases call with opcode | opcode <;> simp [Instr.straight, opcode, Opcode.flow]

theorem straight_of_pair {i : Instr} {p : Pattern} (yes : pairPattern? i = some p) :
    i.straight = true := by
  cases call : called? i with
  | none => simp [pairPattern?, call] at yes
  | some m => exact straight_of_called call

theorem straight_of_constant {i : Instr} {w : BitVec 64} (constant : constant? i = some w) :
    i.straight = true := by
  rcases opcode_of_constant constant with opcode | opcode <;>
    simp [Instr.straight, opcode, Opcode.flow]

theorem straight_of_opcode {i : Instr} {o : Opcode} (opcode : i.opcode = o)
    (flow : o.flow = .sequential) : i.straight = true := by
  simp [Instr.straight, opcode, flow]

theorem Shape.straight {desc : Sig → Option EnumInfo} {r : Recipe} {F V B : List Instr}
    (shape : Shape desc r F V B) : ∀ i ∈ F ++ V ++ B, i.straight = true := by
  cases shape with
  | getValues token _ resolves values _ =>
    simp [straight_of_opcode token rfl, straight_of_calls resolves, straight_of_any values]
  | underlying token _ resolves _ underlying _ =>
    simp [straight_of_opcode token rfl, straight_of_calls resolves, straight_of_any underlying]
  | definedName token _ resolves name _ test _ =>
    simp [straight_of_opcode token rfl, straight_of_calls resolves, straight_of_opcode name rfl,
      straight_of_calls test]
  | definedConstant token _ resolves constant boxes _ test _ =>
    simp [straight_of_opcode token rfl, straight_of_calls resolves, straight_of_constant constant,
      straight_of_opcode boxes rfl, straight_of_calls test]
  | defined token _ resolves runs _ _ _ boxes _ test _ =>
    rw [List.forall_mem_append, List.forall_mem_append]
    refine ⟨⟨?_, runs.straight⟩, ?_⟩
    · simp [straight_of_opcode token rfl, straight_of_calls resolves]
    · simp [straight_of_opcode boxes rfl, straight_of_calls test]
  | literalText constant boxes _ text _ =>
    simp [straight_of_constant constant, straight_of_opcode boxes rfl, straight_of_calls text]
  | literalPair constant boxes _ constant' boxes' pattern _ =>
    simp [Instr.isTyped] at boxes'
    simp [straight_of_constant constant, straight_of_opcode boxes rfl, straight_of_constant constant',
      straight_of_opcode boxes'.1 rfl, straight_of_pair pattern]
  | boxText boxes _ text _ => simp [straight_of_opcode boxes rfl, straight_of_calls text]
  | pair boxes _ runs _ _ boxes' pattern _ =>
    simp [Instr.isTyped] at boxes'
    rw [List.forall_mem_append, List.forall_mem_append]
    refine ⟨⟨by simp [straight_of_opcode boxes rfl], runs.straight⟩, ?_⟩
    simp [straight_of_opcode boxes'.1 rfl, straight_of_pair pattern]
  | constrained opcode _ text _ => simp [straight_of_opcode opcode rfl, straight_of_calls text]

/-! ## Edits -/

section
variable {J : Handle → Prop} {guards : List Region} {A f g : Handle} {P Q M : Lines} {c : Body}

theorem removeAll_inner : ∀ {M : Lines} {c : Body}, Edited J guards A f (P ++ M ++ Q) c →
    (∀ p ∈ M, p.1 ≠ f ∧ ¬ J p.1) → ∃ c', removeAll (M.map (·.1)) c = (.ok (), c') ∧
      Edited J guards A f (P ++ Q) c' ∧ c'.nextIndex = c.nextIndex ∧ Edited.Keeps c c'
  | [], c, ed, _ => ⟨c, rfl, by simpa using ed, rfl, rfl, rfl⟩
  | (h, i) :: M, c, ed, inner => by
    have ed : Edited J guards A f (P ++ (h, i) :: (M ++ Q)) c := by simpa using ed
    obtain ⟨ne, other⟩ := inner (h, i) List.mem_cons_self
    obtain ⟨c₁, done, ed₁, next₁, locals₁, init₁⟩ := ed.remove_inner ne other
    obtain ⟨c₂, rest, ed₂, next₂, locals₂, init₂⟩ := removeAll_inner (M := M) (by simpa using ed₁)
      fun p mem => inner p (List.mem_cons_of_mem _ mem)
    refine ⟨c₂, ?_, ed₂, next₂.trans next₁, locals₂.trans locals₁, init₂.trans init₁⟩
    exact bind_eq_ok.2 ⟨(), c₁, done, rest⟩

theorem plain_of_straight {i : Instr} (straight : i.straight = true) :
    i.opcode ≠ .br ∧ i.opcode ≠ .leave := by
  constructor <;> intro opcode <;> simp [Instr.straight, opcode, Opcode.flow] at straight

theorem removeAll_front {h : Handle} {i : Instr} : ∀ {M : Lines} {c : Body} {f : Handle},
    Edited J guards A f (P ++ M ++ (h, i) :: Q) c →
    (M ++ [(h, i)]).head?.map (·.1) = some f → (∀ p ∈ (M ++ [(h, i)]).tail, ¬ J p.1) →
    (∀ p ∈ M, p.2.straight = true) → ∃ c', removeAll (M.map (·.1)) c = (.ok (), c') ∧
      Edited J guards A h (P ++ (h, i) :: Q) c' ∧ c'.nextIndex = c.nextIndex ∧ Edited.Keeps c c'
  | [], c, f, ed, head, _, _ => by
    cases head
    exact ⟨c, rfl, by simpa using ed, rfl, rfl, rfl⟩
  | (x, j) :: M, c, f, ed, head, inner, straight => by
    cases head
    obtain ⟨⟨y, k⟩, M', behind⟩ : ∃ p M', M ++ [(h, i)] = p :: M' := by
      cases M with
      | nil => exact ⟨_, _, rfl⟩
      | cons p M => exact ⟨_, _, rfl⟩
    have whole : M ++ (h, i) :: Q = (y, k) :: (M' ++ Q) := by
      rw [← List.singleton_append (x := (h, i)), ← List.append_assoc, behind]
      rfl
    have ed : Edited J guards A x (P ++ (x, j) :: (y, k) :: (M' ++ Q)) c := by
      rw [← whole]
      simpa using ed
    have inner : ∀ p ∈ (y, k) :: M', ¬ J p.1 := by
      rw [← behind]
      exact inner
    obtain ⟨c₁, done, ed₁, next₁, locals₁, init₁⟩ := ed.remove_first (inner (y, k) List.mem_cons_self)
      (plain_of_straight (straight (x, j) List.mem_cons_self))
    obtain ⟨c₂, rest, ed₂, next₂, locals₂, init₂⟩ := removeAll_front (M := M) (f := y)
      (by rw [List.append_assoc, whole]; exact ed₁) (by rw [behind]; rfl)
      (by rw [behind]; exact fun p mem => inner p (List.mem_cons_of_mem _ mem))
      fun p mem => straight p (List.mem_cons_of_mem _ mem)
    refine ⟨c₂, ?_, ed₂, next₂.trans next₁, locals₂.trans locals₁, init₂.trans init₁⟩
    exact bind_eq_ok.2 ⟨(), c₁, done, rest⟩

end

def Change.edit (info : EnumInfo) (ref : MethodRef) : Change → Edit Unit
  | .fold first last result => foldEdit first last result
  | .redirect scaffolding call _ => redirectEdit scaffolding call ref
  | .underlying token call primitive => underlyingEdit token call primitive
  | .hasFlag firstBox secondBox call => hasFlagEdit firstBox secondBox call info.kind
  | .constrained marker call => constrainedEdit marker call info.sig ref

namespace Plan

def front (info : EnumInfo) : Plan → List Instr
  | fold result => [result]
  | redirect _ | hasFlag => []
  | underlying primitive => [.typed .ldtoken primitive]
  | constrained => [.typed .ldobj info.sig]

/-- What stands in the place of the call; `temp` is the new local, if there is one. -/
def back (ref : MethodRef) (temp : Nat) : Plan → List Instr
  | fold _ | underlying _ => []
  | redirect _ | constrained => [.call .call ref]
  | hasFlag => [.stloc temp, .ldloc temp, ⟨.and, .none⟩, .ldloc temp, ⟨.ceq, .none⟩]

def locals : Plan → Nat
  | hasFlag => 1
  | _ => 0

end Plan

/-- What a plan takes the lines of a site to be: how many there are of the preparations, of the operand
and of the call, and that no constant branches. -/
def Plan.Fits (front operand back : Nat) : Plan → Prop
  | .fold result => operand = 0 ∧ back = 1 ∧ result.targets = []
  | .redirect _ => 0 < back ∧ (operand = 0 → back = 1)
  | .underlying _ => front = 1 ∧ operand = 1 ∧ back = 1
  | .hasFlag => front = 1 ∧ 0 < operand ∧ back = 2
  | .constrained => front = 1 ∧ operand = 0 ∧ back = 1

theorem Shape.fits {desc : Sig → Option EnumInfo} {r : Recipe} {F V B : List Instr}
    (shape : Shape desc r F V B) : r.plan.Fits F.length V.length B.length := by
  cases shape with
  | getValues | boxText => exact ⟨Nat.one_pos, fun _ => rfl⟩
  | underlying | definedName | definedConstant | literalText | literalPair | constrained =>
    exact ⟨rfl, rfl, rfl⟩
  | defined _ _ _ runs =>
    exact ⟨Nat.two_pos, fun none => absurd (List.length_eq_zero_iff.1 none) (runs.ne_nil (by decide))⟩
  | @pair _ _ _ _ _ p _ _ _ runs =>
    have some := runs.ne_nil (by decide)
    by_cases flag : p = .hasFlag
    · simp only [flag, if_true]
      exact ⟨rfl, List.length_pos_iff.2 some, rfl⟩
    · simp only [flag, if_false]
      exact ⟨Nat.two_pos, fun none => absurd (List.length_eq_zero_iff.1 none) some⟩

structure Turned (J : Handle → Prop) (r : Recipe) (ref : MethodRef) (A : Handle) (c : Body)
    (pre V post F B : Lines) (f : Handle) (c' : Body) : Prop where
  edited : Edited J c.regions A f (pre ++ (F ++ V ++ B ++ post)) c'
  head : (F ++ V ++ B).head?.map (·.1) = some f
  front : F.map (·.2) = r.plan.front r.info
  back : B.map (·.2) = r.plan.back ref c.locals.size
  fresh : ∀ p ∈ F ++ B, c.nextIndex ≤ p.1.index
  next : c.nextIndex ≤ c'.nextIndex
  grown : ∃ more, c'.locals = c.locals ++ more ∧ more.size = r.plan.locals
  initLocals : c'.initLocals = c.initLocals

theorem Turned.locals {J : Handle → Prop} {r : Recipe} {ref : MethodRef} {A f : Handle} {c c' : Body}
    {pre V post F B : Lines} (turned : Turned J r ref A c pre V post F B f c') :
    c'.locals.size = c.locals.size + r.plan.locals := by
  obtain ⟨more, locals, size⟩ := turned.grown
  rw [locals, Array.size_append, size]

theorem Turned.exists_head {J : Handle → Prop} {r : Recipe} {ref : MethodRef} {A f : Handle} {c c' : Body}
    {pre V post F B : Lines} (turned : Turned J r ref A c pre V post F B f c') :
    ∃ i new, F ++ V ++ B = (f, i) :: new := by
  have head := turned.head
  cases lines : F ++ V ++ B with
  | nil =>
    rw [lines] at head
    cases head
  | cons q new =>
    rw [lines] at head
    cases head
    exact ⟨q.2, new, rfl⟩

section
variable {J : Handle → Prop} {A : Handle} {a : Instr} {pre post M V : Lines} {c : Body}
  {r : Recipe} {info : EnumInfo} (ref : MethodRef)

theorem targets_call (ref : MethodRef) : (Instr.call .call ref).targets = [] := rfl

/-- What stands behind the anchor is found there, so no site is refused for want of it. -/
theorem upTo_eq (nodup : c.handles.Nodup) {C : Handle} {x : Instr}
    (code : c.code = pre ++ (A, a) :: (M ++ (C, x) :: post)) :
    upTo c A C = .ok ((M ++ [(C, x)]).map (·.1)) := by
  unfold Body.handles at nodup
  rw [code] at nodup
  obtain ⟨before, -⟩ := Edited.apart nodup
  have nodup' : ((M ++ (C, x) :: post).map (·.1)).Nodup := by
    rw [List.map_append, List.map_cons, List.nodup_append] at nodup
    exact (List.nodup_cons.1 nodup.2.1).2
  obtain ⟨inner, -⟩ := Edited.apart nodup'
  have handles : c.handles = pre.map (·.1) ++ A :: (M.map (·.1) ++ C :: post.map (·.1)) := by
    rw [Body.handles, code]
    simp
  unfold upTo
  rw [handles, List.dropWhile_append_of_pos (by simpa using before)]
  simp only [ne_eq, List.dropWhile_cons, decide_not, decide_true, Bool.not_true, Bool.false_eq_true,
    if_false, List.drop_succ_cons, List.drop_zero]
  rw [if_pos (by simp), List.takeWhile_append_of_pos (by simpa using inner)]
  simp

theorem fold_turned {result : Instr} {C : Handle} {x : Instr} (plain : result.targets = [])
    (plan : r.plan = .fold result)
    (ed : Edited J c.regions A A (pre ++ (A, a) :: (M ++ (C, x) :: post)) c)
    (inner : ∀ p ∈ M ++ [(C, x)], ¬ J p.1) :
    ∃ f front c', foldEdit A C result c = (.ok (), c') ∧
      Turned J r ref A c pre [] post front [] f c' := by
  have code := ed.code_self
  obtain ⟨c₁, replaced, ed₁, next₁, locals₁, init₁⟩ := ed.replace_first (j := result) plain
  obtain ⟨c₂, removed, ed₂, next₂, locals₂, init₂⟩ := removeAll_inner (M := M ++ [(C, x)])
    (P := pre ++ [(c.fresh, result)]) (Q := post) (by simpa using ed₁) fun p mem => ⟨by
      exact ed.fresh_ne p (by simp at mem ⊢; tauto), inner p mem⟩
  refine ⟨c.fresh, [(c.fresh, result)], c₂, ?_, by simpa using ed₂, rfl, ?_, ?_, ?_, ?_, ?_, ?_⟩
  · refine bind_eq_ok.2 ⟨c, c, rfl, bind_eq_ok.2 ⟨_, c, ?_, bind_eq_ok.2 ⟨c.fresh, c₁, replaced, removed⟩⟩⟩
    exact congrArg (Prod.mk · c) (upTo_eq ed.nodup_handles code)
  · rw [plan]; rfl
  · rw [plan]; rfl
  · simp [Body.fresh]
  · omega
  · exact ⟨#[], by rw [locals₂, locals₁, Array.append_empty], by rw [plan]; rfl⟩
  · rw [init₂, init₁]

theorem removeAll_append {hs hs' : List Handle} {c c₁ c₂ : Body}
    (first : removeAll hs c = (.ok (), c₁)) (second : removeAll hs' c₁ = (.ok (), c₂)) :
    removeAll (hs ++ hs') c = (.ok (), c₂) := by
  induction hs generalizing c with
  | nil =>
    cases first
    exact second
  | cons h hs ih =>
    obtain ⟨_, c', here, rest⟩ := bind_eq_ok.1 first
    exact bind_eq_ok.2 ⟨(), c', here, ih rest⟩

theorem redirect_turned {op : Operation} {F : Lines} {C : Handle} {x : Instr}
    (plan : r.plan = .redirect op)
    (ed : Edited J c.regions A A (pre ++ ((A, a) :: F ++ V ++ (M ++ [(C, x)]) ++ post)) c)
    (inner : ∀ p ∈ F ++ V ++ (M ++ [(C, x)]), ¬ J p.1) (straight : ∀ p ∈ (A, a) :: F, p.2.straight = true)
    (whole : V = [] → M = []) :
    ∃ f B c', redirectEdit (((A, a) :: F).map (·.1) ++ M.map (·.1)) C ref c = (.ok (), c') ∧
      Turned J r ref A c pre V post [] B f c' := by
  cases V with
  | nil =>
    cases whole rfl
    obtain ⟨c₁, removed, ed₁, next₁, locals₁, init₁⟩ := removeAll_front (M := (A, a) :: F) (h := C)
      (i := x) (Q := post) (by simpa using ed) rfl (by simpa using inner) straight
    obtain ⟨c₂, replaced, ed₂, next₂, locals₂, init₂⟩ := ed₁.replace_first (targets_call ref)
    refine ⟨_, [(c₁.fresh, .call .call ref)], c₂, ?_, by simpa using ed₂, rfl, ?_, ?_, ?_, ?_, ?_, ?_⟩
    · refine bind_eq_ok.2 ⟨(), c₁, by simpa using removed, bind_eq_ok.2 ⟨_, c₂, replaced, rfl⟩⟩
    · rw [plan]; rfl
    · rw [plan]; rfl
    · simp [Body.fresh, next₁]
    · omega
    · exact ⟨#[], by rw [locals₂, locals₁, Array.append_empty], by rw [plan]; rfl⟩
    · rw [init₂, init₁]
  | cons v V =>
    obtain ⟨h, i⟩ := v
    have apart : ∀ p ∈ M ++ [(C, x)], p.1 ≠ h := by
      have nodup := ed.nodup
      rw [show pre ++ ((A, a) :: F ++ (h, i) :: V ++ (M ++ [(C, x)]) ++ post) =
        (pre ++ (A, a) :: F) ++ (h, i) :: (V ++ (M ++ [(C, x)]) ++ post) by simp] at nodup
      intro p mem
      exact (Edited.apart nodup).2 p (by simp at mem ⊢; tauto)
    obtain ⟨c₁, removed, ed₁, next₁, locals₁, init₁⟩ := removeAll_front (M := (A, a) :: F) (h := h)
      (i := i) (Q := V ++ (M ++ [(C, x)]) ++ post) (by simpa using ed) rfl
      (fun p mem => inner p (by simp at mem ⊢; tauto)) straight
    obtain ⟨c₂, removed', ed₂, next₂, locals₂, init₂⟩ := removeAll_inner (M := M)
      (P := pre ++ (h, i) :: V) (Q := (C, x) :: post) (by simpa using ed₁)
      fun p mem => ⟨apart p (by simp [mem]), inner p (by simp [mem])⟩
    obtain ⟨c₃, replaced, ed₃, next₃, locals₃, init₃⟩ := ed₂.replace_inner (j := .call .call ref)
      (apart (C, x) (by simp)) (inner (C, x) (by simp)) rfl
    refine ⟨h, [(c₂.fresh, .call .call ref)], c₃, ?_, by simpa using ed₃, rfl, ?_, ?_, ?_, ?_, ?_, ?_⟩
    · exact bind_eq_ok.2 ⟨(), c₂, removeAll_append removed removed', bind_eq_ok.2 ⟨_, c₃, replaced, rfl⟩⟩
    · rw [plan]; rfl
    · rw [plan]; rfl
    · simp [Body.fresh, next₂, next₁]
    · omega
    · exact ⟨#[], by rw [locals₃, locals₂, locals₁, Array.append_empty], by rw [plan]; rfl⟩
    · rw [init₃, init₂, init₁]

theorem underlying_turned {primitive : Sig} {v : Handle × Instr} {C : Handle} {x : Instr}
    (plan : r.plan = .underlying primitive)
    (ed : Edited J c.regions A A (pre ++ (A, a) :: v :: (C, x) :: post) c)
    (inner : ∀ p ∈ [v, (C, x)], ¬ J p.1) :
    ∃ f F c', underlyingEdit A C primitive c = (.ok (), c') ∧
      Turned J r ref A c pre [v] post F [] f c' := by
  obtain ⟨c₁, replaced, ed₁, next₁, locals₁, init₁⟩ :=
    ed.replace_first (j := .typed .ldtoken primitive) rfl
  obtain ⟨c₂, removed, ed₂, next₂, locals₂, init₂⟩ := Edited.remove_inner (h := C) (i := x)
    (P := pre ++ [(c.fresh, .typed .ldtoken primitive), v]) (Q := post) (by simpa using ed₁)
    (ed.fresh_ne (C, x) (by simp)) (inner (C, x) (by simp))
  refine ⟨c.fresh, [(c.fresh, .typed .ldtoken primitive)], c₂, ?_, by simpa using ed₂, rfl, ?_, ?_, ?_,
    ?_, ?_, ?_⟩
  · exact bind_eq_ok.2 ⟨_, c₁, replaced, removed⟩
  · rw [plan]; rfl
  · rw [plan]; rfl
  · simp [Body.fresh]
  · omega
  · exact ⟨#[], by rw [locals₂, locals₁, Array.append_empty], by rw [plan]; rfl⟩
  · rw [init₂, init₁]

theorem constrained_turned {C : Handle} {x : Instr} (plan : r.plan = .constrained)
    (ed : Edited J c.regions A A (pre ++ (A, a) :: (C, x) :: post) c) (inner : ¬ J C) :
    ∃ f F B c', constrainedEdit A C r.info.sig ref c = (.ok (), c') ∧
      Turned J r ref A c pre [] post F B f c' := by
  obtain ⟨c₁, replaced, ed₁, next₁, locals₁, init₁⟩ :=
    ed.replace_first (j := .typed .ldobj r.info.sig) rfl
  obtain ⟨c₂, replaced', ed₂, next₂, locals₂, init₂⟩ := Edited.replace_inner (h := C) (i := x)
    (j := .call .call ref) (P := pre ++ [(c.fresh, .typed .ldobj r.info.sig)]) (Q := post)
    (by simpa using ed₁) (ed.fresh_ne (C, x) (by simp)) inner rfl
  refine ⟨c.fresh, [(c.fresh, .typed .ldobj r.info.sig)], [(c₁.fresh, .call .call ref)], c₂, ?_,
    by simpa using ed₂, rfl, ?_, ?_, ?_, ?_, ?_, ?_⟩
  · exact bind_eq_ok.2 ⟨_, c₁, replaced, bind_eq_ok.2 ⟨_, c₂, replaced', rfl⟩⟩
  · rw [plan]; rfl
  · rw [plan]; rfl
  · simp [Body.fresh, next₁]
  · omega
  · exact ⟨#[], by rw [locals₂, locals₁, Array.append_empty], by rw [plan]; rfl⟩
  · rw [init₂, init₁]

theorem hasFlag_turned {S C : Handle} {s x : Instr} (plan : r.plan = .hasFlag) (some : V ≠ [])
    (straight : a.straight = true) (room : c.locals.size < 65536)
    (ed : Edited J c.regions A A (pre ++ (A, a) :: (V ++ (S, s) :: (C, x) :: post)) c)
    (inner : ∀ p ∈ V ++ [(S, s), (C, x)], ¬ J p.1) :
    ∃ f B c', hasFlagEdit A S C r.info.kind c = (.ok (), c') ∧
      Turned J r ref A c pre V post [] B f c' := by
  obtain ⟨⟨h, i⟩, V, rfl⟩ := List.exists_cons_of_ne_nil some
  let c₀ : Body := { c with locals := c.locals.push r.info.kind.sig }
  have ed₀ : Edited J c.regions A A (pre ++ (A, a) :: ((h, i) :: V ++ (S, s) :: (C, x) :: post)) c₀ :=
    ⟨ed.code, ed.regions, ed.nodup, ed.below, ed.targets, ed.bounds, ed.old, ed.first⟩
  have apart : ∀ p ∈ [(S, s), (C, x)], p.1 ≠ h := by
    have nodup := ed.nodup
    rw [show pre ++ (A, a) :: ((h, i) :: V ++ (S, s) :: (C, x) :: post) =
      (pre ++ [(A, a)]) ++ (h, i) :: (V ++ (S, s) :: (C, x) :: post) by simp] at nodup
    intro p mem
    exact (Edited.apart nodup).2 p (by simp at mem ⊢; tauto)
  -- the first box goes, the second gives way to a store, three lines come behind it, and the call gives way to `ceq`
  obtain ⟨c₁, removed, ed₁, next₁, locals₁, init₁⟩ := ed₀.remove_first (inner (h, i) (by simp))
    (plain_of_straight straight)
  obtain ⟨c₂, stored, ed₂, next₂, locals₂, init₂⟩ := Edited.replace_inner (h := S) (i := s)
    (j := .stloc c.locals.size) (P := pre ++ (h, i) :: V) (Q := (C, x) :: post) (by simpa using ed₁)
    (apart (S, s) (by simp)) (inner (S, s) (by simp)) rfl
  obtain ⟨c₃, loaded, ed₃, next₃, locals₃, init₃⟩ := ed₂.insertAfter (j := .ldloc c.locals.size) rfl
  obtain ⟨c₄, anded, ed₄, next₄, locals₄, init₄⟩ := Edited.insertAfter (j := ⟨.and, .none⟩)
    (h := c₂.fresh) (i := .ldloc c.locals.size)
    (P := pre ++ (h, i) :: V ++ [(c₁.fresh, .stloc c.locals.size)]) (Q := (C, x) :: post)
    (by simpa using ed₃) rfl
  obtain ⟨c₅, loaded', ed₅, next₅, locals₅, init₅⟩ := Edited.insertAfter (j := .ldloc c.locals.size)
    (h := c₃.fresh) (i := ⟨.and, .none⟩)
    (P := pre ++ (h, i) :: V ++ [(c₁.fresh, .stloc c.locals.size), (c₂.fresh, .ldloc c.locals.size)])
    (Q := (C, x) :: post) (by simpa using ed₄) rfl
  obtain ⟨c₆, compared, ed₆, next₆, locals₆, init₆⟩ := Edited.replace_inner (h := C) (i := x)
    (j := ⟨.ceq, .none⟩) (P := pre ++ (h, i) :: V ++ [(c₁.fresh, .stloc c.locals.size),
      (c₂.fresh, .ldloc c.locals.size), (c₃.fresh, ⟨.and, .none⟩), (c₄.fresh, .ldloc c.locals.size)])
    (Q := post) (by simpa using ed₅) (apart (C, x) (by simp)) (inner (C, x) (by simp)) rfl
  refine ⟨h, [(c₁.fresh, .stloc c.locals.size), (c₂.fresh, .ldloc c.locals.size),
    (c₃.fresh, ⟨.and, .none⟩), (c₄.fresh, .ldloc c.locals.size), (c₅.fresh, ⟨.ceq, .none⟩)], c₆, ?_,
    by simpa using ed₆, rfl, ?_, ?_, ?_, ?_, ?_, ?_⟩
  · have added : Edit.addLocal r.info.kind.sig c = (.ok c.locals.size, c₀) := if_pos room
    refine bind_eq_ok.2 ⟨_, c₀, added, bind_eq_ok.2 ⟨(), c₁, removed, ?_⟩⟩
    refine bind_eq_ok.2 ⟨c₁.fresh, c₅, ?_, bind_eq_ok.2 ⟨_, c₆, compared, rfl⟩⟩
    refine bind_eq_ok.2 ⟨_, c₂, stored, bind_eq_ok.2 ⟨c₄.fresh, c₅, ?_, rfl⟩⟩
    exact bind_eq_ok.2 ⟨_, c₃, loaded, bind_eq_ok.2 ⟨_, c₄, anded, bind_eq_ok.2 ⟨_, c₅, loaded', rfl⟩⟩⟩
  · rw [plan]; rfl
  · rw [plan]; rfl
  · have : c₀.nextIndex = c.nextIndex := rfl
    simp only [List.nil_append, List.forall_mem_cons, Body.fresh, List.not_mem_nil, false_imp_iff,
      implies_true, and_true]
    omega
  · have : c₀.nextIndex = c.nextIndex := rfl
    omega
  · refine ⟨#[r.info.kind.sig], ?_, by rw [plan]; rfl⟩
    rw [locals₆, locals₅, locals₄, locals₃, locals₂, locals₁]
    exact Array.push_eq_append
  · rw [init₆, init₅, init₄, init₃, init₂, init₁]

end

/-! ## Sites -/

theorem live_of_join {b : Body} (linked : b.Linked) {h : Handle} (joined : isJoin b h = true) :
    h ∈ b.handles := by
  rw [isJoin, Bool.or_eq_true] at joined
  rcases joined with target | boundary
  · obtain ⟨p, mem, ht⟩ := Body.isTarget_iff.1 target
    exact linked.targets p mem h ht
  · obtain ⟨r, mem, hh⟩ := List.any_eq_true.1 boundary
    exact linked.boundaries r mem h (List.contains_iff_mem.1 hh)

theorem edited_self {b : Body} (num : b.Numbered) (linked : b.Linked) (A : Handle) :
    Edited (fun h => isJoin b h = true) b.regions A A b.code b where
  code := by
    rw [Edited.swap_self]
    exact ((List.map_congr_left fun p _ => Body.relabel_id p).trans (List.map_id' b.code)).symm
  regions := by
    refine ((List.map_congr_left fun r _ => ?_).trans (List.map_id' b.regions)).symm
    have still : ∀ h, Handle.swap A A h = h := fun h => congrFun Edited.swap_self h
    obtain ⟨flags, tryStart, tryEnd, handlerStart, handlerEnd, catchType, filterStart⟩ := r
    change Region.mk flags (Handle.swap A A tryStart) (tryEnd.map (Handle.swap A A))
      (Handle.swap A A handlerStart) (handlerEnd.map (Handle.swap A A)) catchType
      (filterStart.map (Handle.swap A A)) = _
    rw [Edited.swap_self, Option.map_id', Option.map_id', Option.map_id']
  nodup := num.nodup
  below p mem := num.below p.1 (List.mem_map_of_mem mem)
  targets p mem t ht := by
    rw [isJoin, Bool.or_eq_true]
    exact .inl (Body.isTarget_iff.2 ⟨p, mem, ht⟩)
  bounds r mem h hh := by
    rw [isJoin, Bool.or_eq_true]
    exact .inr (List.any_eq_true.2 ⟨r, mem, List.contains_iff_mem.2 hh⟩)
  old h joined := num.below h (live_of_join linked joined)
  first := .inl rfl

/-- The edits of a site are refused for want of locals only. -/
theorem Stands.turn {desc : Sig → Option EnumInfo} {b : Body} {r : Recipe}
    {pre front operand back post : Lines} {A : Handle} (num : b.Numbered) (linked : b.Linked)
    (stands : Stands desc b r pre front operand back post)
    (head : front.head?.map (·.1) = some A) (ref : MethodRef) :
    (r.plan = .hasFlag ∧ 65536 ≤ b.locals.size ∧
      (r.plan.change (front.map (·.1)) (back.map (·.1))).edit r.info ref b =
        (.error (.invariant .tooManyLocals), b)) ∨
    ∃ F B f b', (r.plan.change (front.map (·.1)) (back.map (·.1))).edit r.info ref b = (.ok (), b') ∧
      Turned (fun h => isJoin b h = true) r ref A b pre operand post F B f b' := by
  have ed := edited_self num linked A
  obtain ⟨code, alone, shape⟩ := stands
  rw [code] at ed
  have straight : ∀ p ∈ front ++ operand ++ back, p.2.straight = true := by
    intro p mem
    refine shape.straight p.2.seen ?_
    rw [sight, sight, sight, ← List.map_append, ← List.map_append]
    exact List.mem_map_of_mem mem
  have alone : ∀ p ∈ (front ++ operand ++ back).tail, ¬ isJoin b p.1 = true :=
    fun p mem => Bool.eq_false_iff.1 (alone p mem)
  -- the plan tells how many lines there are before and behind the operand
  have fits := shape.fits
  simp only [sight, List.length_map] at fits
  cases front with
  | nil => cases head
  | cons p M =>
  obtain ⟨A, a⟩ := p
  cases head
  cases plan : r.plan with
  | fold result =>
    rw [plan] at fits
    obtain ⟨none, one, plain⟩ := fits
    obtain rfl := List.length_eq_zero_iff.1 none
    obtain ⟨⟨C, c⟩, rfl⟩ := List.length_eq_one_iff.1 one
    obtain ⟨f, F, b', done, turned⟩ := fold_turned (M := M) ref plain plan (by simpa using ed)
      (by simpa using alone)
    exact .inr ⟨F, [], f, b', done, turned⟩
  | redirect op =>
    rw [plan] at fits
    obtain ⟨some, whole⟩ := fits
    rcases List.eq_nil_or_concat back with rfl | ⟨M', ⟨C, c⟩, rfl⟩
    · cases some
    · rw [List.concat_eq_append] at ed alone straight whole ⊢
      obtain ⟨f, B, b', done, turned⟩ := redirect_turned (F := M) (M := M') ref plan ed alone
        (fun p mem => straight p (by simp at mem ⊢; tauto))
        (by rintro rfl; simpa using whole rfl)
      exact .inr ⟨[], B, f, b', by simpa [Plan.change, Change.edit] using done, turned⟩
  | underlying primitive =>
    rw [plan] at fits
    obtain ⟨first, one, last⟩ := fits
    obtain rfl := List.length_eq_zero_iff.1 (Nat.succ.inj first)
    obtain ⟨v, rfl⟩ := List.length_eq_one_iff.1 one
    obtain ⟨⟨C, c⟩, rfl⟩ := List.length_eq_one_iff.1 last
    obtain ⟨f, F, b', done, turned⟩ := underlying_turned ref plan ed alone
    exact .inr ⟨F, [], f, b', done, turned⟩
  | hasFlag =>
    rw [plan] at fits
    obtain ⟨first, some, last⟩ := fits
    obtain rfl := List.length_eq_zero_iff.1 (Nat.succ.inj first)
    obtain ⟨⟨S, s⟩, ⟨C, c⟩, rfl⟩ := List.length_eq_two.1 last
    rcases Nat.lt_or_ge b.locals.size 65536 with room | full
    · obtain ⟨f, B, b', done, turned⟩ := hasFlag_turned ref plan (List.length_pos_iff.1 some)
        (straight (A, a) (by simp)) room (by simpa using ed) (by simpa using alone)
      exact .inr ⟨[], B, f, b', done, turned⟩
    · -- the first edit already fails, and has changed nothing
      have refused : Edit.addLocal r.info.kind.sig b = (.error (.invariant .tooManyLocals), b) :=
        if_neg (Nat.not_lt.2 full)
      refine .inl ⟨rfl, full, ?_⟩
      change (Edit.addLocal _ >>= _) b = _
      rw [run_bind, refused]
  | constrained =>
    rw [plan] at fits
    obtain ⟨first, none, last⟩ := fits
    obtain rfl := List.length_eq_zero_iff.1 (Nat.succ.inj first)
    obtain rfl := List.length_eq_zero_iff.1 none
    obtain ⟨⟨C, c⟩, rfl⟩ := List.length_eq_one_iff.1 last
    obtain ⟨f, F, B, b', done, turned⟩ := constrained_turned ref plan ed (alone (C, c) (by simp))
    exact .inr ⟨F, B, f, b', done, turned⟩

end CilForge.CallSite
