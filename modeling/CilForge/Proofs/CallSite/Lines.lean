import CilForge.Proofs.Enum.Number
import CilForge.Proofs.Generate.Lookup
import CilForge.Proofs.Machine.Straight

/-!
# What the lines of a site do

Call sites are made of constants, tokens, boxes and calls of platform methods. What each of these does
to a frame is said here once; what it does elsewhere follows.
-/

namespace CilForge

open CallSite

/-! ## Platform methods -/

namespace Intrinsic

open Platform

variable {s : Scope} {heap : Heap} {ref : MethodRef} {args : List Value}

theorem invoke?_getTypeFromHandle (yes : isGetTypeFromHandle ref = true) :
    invoke? s heap ref args = some ((getTypeFromHandle args).map (·, heap)) := by
  simp [invoke?, yes]

theorem invoke?_getValues (yes : isEnumGetValues ref = true) :
    invoke? s heap ref args = some (getValues s heap args) := by
  have name : ref.name = "GetValues" := by
    simp [isEnumGetValues, MethodRef.isNamed] at yes
    exact yes.1.1.2
  simp [invoke?, yes, isGetTypeFromHandle, MethodRef.isNamed, name]

theorem invoke?_isDefined (yes : isEnumIsDefined ref = true) :
    invoke? s heap ref args = some ((isDefined s heap args).map (·, heap)) := by
  have name : ref.name = "IsDefined" := by
    simp [isEnumIsDefined, MethodRef.isNamed] at yes
    exact yes.1.1.2
  simp [invoke?, yes, isGetTypeFromHandle, isEnumGetValues, MethodRef.isNamed, name]

theorem invoke?_getUnderlyingType (yes : isEnumGetUnderlyingType ref = true) :
    invoke? s heap ref args = some ((getUnderlyingType s heap args).map (·, heap)) := by
  have name : ref.name = "GetUnderlyingType" := by
    simp [isEnumGetUnderlyingType, MethodRef.isNamed] at yes
    exact yes.1.2
  simp [invoke?, yes, isGetTypeFromHandle, isEnumGetValues, isEnumIsDefined, MethodRef.isNamed, name]

theorem invoke?_hasFlag (yes : isEnumHasFlag ref = true) :
    invoke? s heap ref args = some ((hasFlag s heap args).map (·, heap)) := by
  have name : ref.name = "HasFlag" := by
    simp [isEnumHasFlag, MethodRef.isNamed] at yes
    exact yes.1.1.2
  simp [invoke?, yes, isGetTypeFromHandle, isEnumGetValues, isEnumIsDefined, isEnumGetUnderlyingType,
    MethodRef.isNamed, name]

theorem invoke?_toText (yes : isVirtualToString ref = true) :
    invoke? s heap ref args = some ((toText s heap args).map (·, heap)) := by
  have name : ref.name = "ToString" := by
    simp [isVirtualToString] at yes
    exact yes.1.1.2
  simp [invoke?, yes, isGetTypeFromHandle, isEnumGetValues, isEnumIsDefined, isEnumGetUnderlyingType,
    isEnumHasFlag, MethodRef.isNamed, name]

theorem invoke?_equals (yes : isVirtualEquals ref = true) :
    invoke? s heap ref args = some ((equals s heap args).map (·, heap)) := by
  have name : ref.name = "Equals" := by
    simp [isVirtualEquals] at yes
    exact yes.1.1.2
  simp [invoke?, yes, isGetTypeFromHandle, isEnumGetValues, isEnumIsDefined, isEnumGetUnderlyingType,
    isEnumHasFlag, isVirtualToString, MethodRef.isNamed, name]

end Intrinsic

/-! ## Boxed values -/

theorem Scope.sig_of_enumInfo? {s : Scope} {e : Sig} {d : EnumInfo} (info : s.enumInfo? e = some d) :
    e = d.sig := by
  unfold enumInfo? at info
  split at info
  · rename_i name
    split at info
    · rename_i r _
      cases read : EnumInfo.ofType name r.definition with
      | error _ =>
        rw [read] at info
        cases info
      | ok d' =>
        rw [read] at info
        cases info
        rw [EnumInfo.sig, EnumInfo.name_of_ofType read]
    · cases info
  · cases info

theorem Scope.kind?_enum {s : Scope} {e : Sig} {d : EnumInfo} (info : s.enumInfo? e = some d) :
    s.kind? e = some d.kind := by
  obtain rfl := sig_of_enumInfo? info
  change (s.enumInfo? d.sig).map (·.kind) = _
  rw [info]
  rfl

theorem Scope.kind?_sig {s : Scope} (k : IntKind) : s.kind? k.sig = some k := by
  unfold kind?
  rw [IntKind.ofSig?_sig]

namespace Heap

variable {heap : Heap} {k : IntKind} {v : Value}

theorem enum_of_int64 {w : BitVec 64} (word : heap.int64 v = .ok w) : heap.enum k v = .ok (.ofWord k w) := by
  unfold enum
  rw [word]
  rfl

theorem binary_and_ofEnum (x y : EnumValue k) :
    heap.binary .and (.ofEnum x) (.ofEnum y) = .ok (.ofEnum (x &&& y)) := by
  have words : (x &&& y : EnumValue k).stack32 = x.stack32 &&& y.stack32 := by
    unfold EnumValue.stack32
    split
    · exact BitVec.signExtend_and
    · exact BitVec.setWidth_and
  have words' : (x &&& y : EnumValue k).stack64 = x.stack64 &&& y.stack64 := BitVec.setWidth_and
  cases wide : k.isWide with
  | true =>
    rw [Value.ofEnum_wide wide, Value.ofEnum_wide wide, Value.ofEnum_wide wide, words']
    rfl
  | false =>
    rw [Value.ofEnum_narrow wide, Value.ofEnum_narrow wide, Value.ofEnum_narrow wide, words]
    rfl

end Heap

namespace Intrinsic

variable {s : Scope} {heap : Heap} {e : Sig} {d : EnumInfo} {v w : Value} {x y : EnumValue d.kind}

theorem boxedBits_boxed {sig : Sig} {k : IntKind} {x : EnumValue k} (kind : s.kind? sig = some k)
    (reads : heap.enum k v = .ok x) : boxedBits s heap (.boxed sig v) = .ok (sig, x.stack64) := by
  unfold Scope.kind? at kind
  unfold boxedBits unbox
  cases own : IntKind.ofSig? sig with
  | some k' =>
    rw [own] at kind
    cases kind
    simp only [own, reads, bind, Except.bind, pure, Except.pure]
  | none =>
    rw [own] at kind
    obtain ⟨d, info, rfl⟩ := Option.map_eq_some_iff.1 kind
    simp only [own, Scope.enumInfo, info, reads, bind, Except.bind, pure, Except.pure]

variable (info : s.enumInfo? e = some d)
include info

theorem getValues_type : getValues s heap [.type e] =
    .ok (heap.alloc e (d.valuesInOrder.map Value.ofEnum).toArray) := by
  simp only [getValues, expectType, Scope.enumInfo, info, bind, Except.bind, pure, Except.pure]

theorem getUnderlyingType_type : getUnderlyingType s heap [.type e] = .ok (.type d.kind.sig) := by
  simp only [getUnderlyingType, expectType, Scope.enumInfo, info, bind, Except.bind, pure, Except.pure]

theorem isDefined_name (name : String) :
    isDefined s heap [.type e, .str name] = .ok (.bool (d.declared.any (·.name = name))) := by
  simp only [isDefined, expectType, Scope.enumInfo, info, bind, Except.bind, pure, Except.pure]

variable (reads : heap.enum d.kind v = .ok x)
include reads

theorem isDefined_boxed {sig : Sig} (type : sig = e ∨ sig = d.kind.sig) :
    isDefined s heap [.type e, .boxed sig v] = .ok (.bool (d.nameOf? x).isSome) := by
  have kind : s.kind? sig = some d.kind := by
    rcases type with rfl | rfl
    · exact Scope.kind?_enum info
    · exact Scope.kind?_sig _
  have fits : (sig ≠ d.sig && sig ≠ d.kind.sig) = false := by
    rcases type with rfl | rfl
    · simp [← Scope.sig_of_enumInfo? info]
    · simp
  simp only [isDefined, expectType, Scope.enumInfo, info, boxedBits_boxed kind reads, bind, Except.bind, pure,
    Except.pure, fits, Bool.false_eq_true, if_false, EnumValue.ofWord_stack64]

theorem toText_boxed : toText s heap [.boxed e v] = .ok (.str (d.format x)) := by
  have plain : IntKind.ofSig? e = none := by rw [Scope.sig_of_enumInfo? info]; rfl
  simp only [toText, unbox, plain, info, reads, bind, Except.bind, pure, Except.pure]

variable (reads' : heap.enum d.kind w = .ok y)
include reads'

theorem hasFlag_boxed : hasFlag s heap [.boxed e v, .boxed e w] = .ok (.bool (decide (x &&& y = y))) := by
  have kind := Scope.kind?_enum info
  have same : x.stack64 &&& y.stack64 = y.stack64 ↔ x &&& y = y := by
    rw [EnumValue.stack64, EnumValue.stack64, ← BitVec.setWidth_and]
    constructor
    · intro eq
      have := congrArg (EnumValue.ofWord d.kind) (show EnumValue.stack64 (x &&& y) = y.stack64 from eq)
      rwa [EnumValue.ofWord_stack64, EnumValue.ofWord_stack64] at this
    · intro eq
      rw [eq]
  simp only [hasFlag, boxedBits_boxed kind reads, boxedBits_boxed kind reads', bind, Except.bind, pure,
    Except.pure, ne_eq, not_true_eq_false, if_false, same]

theorem equals_boxed : equals s heap [.boxed e v, .boxed e w] = .ok (.bool (decide (x = y))) := by
  have kind := Scope.kind?_enum info
  have same : x.stack64 = y.stack64 ↔ x = y := by
    constructor
    · intro eq
      have := congrArg (EnumValue.ofWord d.kind) eq
      rwa [EnumValue.ofWord_stack64, EnumValue.ofWord_stack64] at this
    · rintro rfl
      rfl
  simp only [equals, boxedBits_boxed kind reads, boxedBits_boxed kind reads', bind, Except.bind, pure,
    Except.pure, decide_true, Bool.true_and, same]

end Intrinsic

/-! ## Frames -/

/-- Opcodes that box a value, or may find one at an address to box. -/
def Opcode.mayBox (o : Opcode) : Bool := o = .box || o = .callvirt

namespace Frame

def onto (f : Frame) (behind : List (Handle × Instr)) (stack : List Value) : Frame :=
  { f with ahead := behind, stack, constrained := none }

variable {f : Frame} {h : Handle} {i : Instr} {behind : List (Handle × Instr)} {heap : Heap}

theorem faithful_of_other {s : Scope} (ahead : f.ahead = (h, i) :: behind) (other : i.opcode.mayBox = false) :
    f.Faithful s heap := by
  constructor
  · intro h₁ i₁ behind₁ sig k v rest ahead₁ opcode
    rw [ahead] at ahead₁
    cases ahead₁
    rw [opcode] at other
    cases other
  · intro h₁ i₁ behind₁ ref sig d address v ahead₁ opcode
    rw [ahead] at ahead₁
    cases ahead₁
    rw [opcode] at other
    cases other

theorem act_constant {w : BitVec 64} (constant : constant? i = some w) : ∃ v,
    Frame.act { f with ahead := behind } heap h i = .ok (f.onto behind (v :: f.stack), .next) ∧
      ∀ heap : Heap, heap.int64 v = .ok w := by
  obtain ⟨o, operand⟩ := i
  rcases opcode_of_constant constant with opcode | opcode <;> cases opcode <;> cases operand <;>
    first
    | cases constant
      exact ⟨_, rfl, fun _ => rfl⟩
    | cases constant

theorem act_token {e : Sig} (token : i.opcode = .ldtoken) (type : i.type? = some e) :
    Frame.act { f with ahead := behind } heap h i = .ok (f.onto behind (.typeToken e :: f.stack), .next) := by
  obtain ⟨o, operand⟩ := i
  cases token
  simp only [Frame.act, Instr.needType, type, bind, Except.bind]
  rfl

theorem act_string {name : String} (load : i.opcode = .ldstr) (string : i.string? = some name) :
    Frame.act { f with ahead := behind } heap h i = .ok (f.onto behind (.str name :: f.stack), .next) := by
  obtain ⟨o, operand⟩ := i
  cases load
  cases operand <;> first | cases string; rfl | cases string

theorem act_box {sig : Sig} {g : Frame} {a : Action} (boxes : i.opcode = .box) (type : i.type? = some sig)
    (value : sig.isReference = false) (act : Frame.act { f with ahead := behind } heap h i = .ok (g, a)) :
    ∃ v rest, f.stack = v :: rest ∧ g = f.onto behind (.boxed sig v :: rest) ∧ a = .next := by
  obtain ⟨o, operand⟩ := i
  cases boxes
  simp only [Frame.act, Instr.needType, type, bind, Except.bind, Frame.pop, reduceCtorEq, if_false] at act
  cases stack : f.stack with
  | nil =>
    rw [stack] at act
    cases act
  | cons v rest =>
    rw [stack] at act
    simp only [value, Bool.false_eq_true, if_false] at act
    cases act
    exact ⟨v, rest, rfl, rfl, rfl⟩

end Frame

namespace Machine

variable {m : Machine} {R : Carries} {f f' g : Frame} {mem mem' : Memory} {k : Nat} {h : Handle} {i : Instr}
  {behind : List (Handle × Instr)}

theorem Step.eq_of_next (step : Step m R f mem k f' mem') (ahead : f.ahead = (h, i) :: behind)
    (act : Frame.act { f with ahead := behind } mem.heap h i = .ok (g, .next)) : f' = g ∧ mem' = mem := by
  cases step with
  | move acts done =>
    rw [acts.eq ahead, Except.ok.injEq, Prod.mk.injEq] at act
    obtain ⟨rfl, rfl⟩ := act
    cases done
    exact ⟨rfl, rfl⟩
  | call acts callee =>
    rw [acts.eq ahead, Except.ok.injEq, Prod.mk.injEq] at act
    obtain ⟨-, rfl⟩ := act
    cases callee
  | ask acts callee =>
    rw [acts.eq ahead, Except.ok.injEq, Prod.mk.injEq] at act
    obtain ⟨-, rfl⟩ := act
    cases callee

theorem Step.box (step : Step m R f mem k f' mem') (ahead : f.ahead = (h, i) :: behind) {sig : Sig}
    (boxes : i.opcode = .box) (type : i.type? = some sig) (value : sig.isReference = false) :
    ∃ v rest, f.stack = v :: rest ∧ f' = f.onto behind (.boxed sig v :: rest) ∧ mem' = mem := by
  obtain ⟨g, a, acts, -⟩ := step.acts
  obtain ⟨v, rest, stack, rfl, rfl⟩ := Frame.act_box boxes type value (acts.eq ahead)
  obtain ⟨rfl, rfl⟩ := step.eq_of_next ahead (acts.eq ahead)
  exact ⟨v, rest, stack, rfl, rfl⟩

theorem Step.platform (step : Step m R f mem k f' mem') (ahead : f.ahead = (h, i) :: behind) {ref : MethodRef}
    (called : called? i = some ref) (native : m.body? ref = .ok none)
    {r : List Value → Except MachineFault (Value × Heap)}
    (invoke : ∀ args, Intrinsic.invoke? m.scope mem.heap ref args = some (r args)) :
    ref.sig.popCount ≤ f.stack.length ∧ ref.sig.pushCount = 1 ∧ ∃ args v heap,
      Frame.callArgs { f with ahead := behind } mem.heap (if i.opcode = .callvirt then f.constrained else none)
        ref (f.stack.take ref.sig.popCount).reverse = .ok args ∧
      r args = .ok (v, heap) ∧ mem' = { mem with heap } ∧
      f' = f.onto behind (v :: f.stack.drop ref.sig.popCount) := by
  have act {g : Frame} {a : Action} (acts : Acts f mem g a) : ref.sig.popCount ≤ f.stack.length ∧ ∃ args,
      Frame.callArgs { f with ahead := behind } mem.heap (if i.opcode = .callvirt then f.constrained else none)
        ref (f.stack.take ref.sig.popCount).reverse = .ok args ∧
      g = f.onto behind (f.stack.drop ref.sig.popCount) ∧ a = .call ref args := by
    simp only [called?, isCall, Option.ite_none_right_eq_some, Bool.or_eq_true, decide_eq_true_eq] at called
    obtain ⟨opcode | opcode, method⟩ := called
    · obtain ⟨enough, rfl, rfl⟩ := Frame.act_call opcode method (acts.eq ahead)
      refine ⟨enough, _, ?_, rfl, rfl⟩
      rw [opcode]
      rfl
    · obtain ⟨enough, args, adjusted, rfl, rfl⟩ := Frame.act_callvirt opcode method (acts.eq ahead)
      rw [if_pos opcode]
      exact ⟨enough, args, adjusted, rfl, rfl⟩
  -- a call of the platform has no body, so that only an answer from outside can come
  cases step with
  | move acts done =>
    obtain ⟨-, _, -, -, rfl⟩ := act acts
    cases done
  | call acts callee body =>
    obtain ⟨-, _, -, -, rfl⟩ := act acts
    cases callee
    rw [native] at body
    cases body
  | @ask _ _ _ args _ _ _ acts callee _ answer resume =>
    obtain ⟨enough, _, adjusted, rfl, rfl⟩ := act acts
    cases callee
    unfold outside? at answer
    rw [invoke] at answer
    cases result : r args with
    | error e =>
      rw [result] at answer
      cases answer
    | ok answered =>
      obtain ⟨v, heap⟩ := answered
      rw [result] at answer
      cases answer
      simp only [Action.resume, afterCall] at resume
      split at resume
      · rename_i push
        cases resume
        exact ⟨enough, push, args, v, heap, adjusted, result, rfl, rfl⟩
      · cases resume

theorem Step.answered (step : Step m R f mem k f' mem') (ahead : f.ahead = (h, i) :: behind) {ref : MethodRef}
    (called : called? i = some ref) (native : m.body? ref = .ok none)
    (free : i.opcode = .callvirt → f.constrained = none) {r : List Value → Except MachineFault (Value × Heap)}
    (invoke : ∀ args, Intrinsic.invoke? m.scope mem.heap ref args = some (r args)) {args st : List Value}
    (stack : f.stack = args.reverse ++ st) (count : ref.sig.popCount = args.length) {v : Value} {heap : Heap}
    (result : r args = .ok (v, heap)) : f' = f.onto behind (v :: st) ∧ mem' = { mem with heap } := by
  obtain ⟨-, -, args', v', heap', adjusted, result', rfl, rfl⟩ := step.platform ahead called native invoke
  rw [show (if i.opcode = .callvirt then f.constrained else none) = none by
    split <;> [exact free ‹_›; rfl]] at adjusted
  cases adjusted
  have count : ref.sig.popCount = args.reverse.length := by rw [count, List.length_reverse]
  rw [stack, count, List.take_left, List.reverse_reverse, result] at result'
  cases result'
  rw [stack, count, List.drop_left]
  exact ⟨rfl, rfl⟩

theorem Step.answered_one (step : Step m R f mem k f' mem') (ahead : f.ahead = (h, i) :: behind) {ref : MethodRef}
    (called : called? i = some ref) (native : m.body? ref = .ok none)
    (free : i.opcode = .callvirt → f.constrained = none) {r : List Value → Except MachineFault (Value × Heap)}
    (invoke : ∀ args, Intrinsic.invoke? m.scope mem.heap ref args = some (r args))
    (params : ref.sig.params.length = 1) (two : ∀ a b, ∃ e, r [a, b] = .error e) {a : Value} {st : List Value}
    (stack : f.stack = a :: st) {v : Value} {heap : Heap} (result : r [a] = .ok (v, heap)) :
    (ref.sig.popCount = 1 ∧ ref.sig.pushCount = 1) ∧ f' = f.onto behind (v :: st) ∧
      mem' = { mem with heap } := by
  obtain ⟨enough, push, args', v', heap', adjusted, result', -⟩ := step.platform ahead called native invoke
  cases this : ref.sig.hasThis with
  | false =>
    have count : ref.sig.popCount = [a].length := by
      rw [MethodSig.popCount, params, this]
      rfl
    exact ⟨⟨count, push⟩, step.answered ahead called native free invoke stack count result⟩
  | true =>
    have count : ref.sig.popCount = 2 := by
      rw [MethodSig.popCount, params, this]
      rfl
    rw [show (if i.opcode = .callvirt then f.constrained else none) = none by
      split <;> [exact free ‹_›; rfl]] at adjusted
    cases adjusted
    rw [count, stack] at enough result'
    cases st with
    | nil => simp at enough
    | cons b st =>
      obtain ⟨e, refused⟩ := two b a
      rw [show (a :: b :: st).take 2 = [a, b] from rfl, show [a, b].reverse = [b, a] from rfl, refused] at result'
      cases result'

end Machine

end CilForge
