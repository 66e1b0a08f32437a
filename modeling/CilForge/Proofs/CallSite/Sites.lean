import CilForge.Proofs.CallSite.Lines
import CilForge.Proofs.CallSite.Normal
import CilForge.Proofs.Generate.Answers

/-!
# Sites before and after their change

Where the lines of a site take a frame, the lines that stand in their place take its counterpart. The
values that the platform reads from boxes are those that the generated methods are given.
-/

namespace CilForge.CallSite

open Machine

variable {m : Machine} {R : Carries} {f g : Frame} {mem mem' : Memory} {s : Setting} {σ : Handle → Handle}
  {h : Handle} {rest : Lines}

theorem acts_call {i : Instr} {ref : MethodRef} {args st : List Value} (ahead : f.ahead = (h, i) :: rest)
    (opcode : i.opcode = .call) (method : i.method? = some ref) (stack : f.stack = args.reverse ++ st)
    (count : ref.sig.popCount = args.reverse.length) : Acts f mem (f.onto rest st) (.call ref args) := by
  refine ⟨h, i, rest, ahead, ?_⟩
  obtain ⟨o, operand⟩ := i
  cases opcode
  have enough : ¬ f.stack.length < ref.sig.popCount := by
    rw [stack, count, List.length_append]
    omega
  simp only [Frame.act, Frame.needMethod_eq method, Frame.popArgs, enough, Frame.callArgs, bind, Except.bind,
    pure, Except.pure, reduceCtorEq, if_false]
  rw [stack, count, List.take_left, List.drop_left, List.reverse_reverse]
  rfl

theorem step_performs {op : Operation} {d : EnumInfo} {ref : MethodRef} (performs : m.Performs R op d ref)
    {args st : List Value} {v : Value} (gives : op.Gives d args mem v mem')
    (ahead : f.ahead = (h, .call .call ref) :: rest) (stack : f.stack = args.reverse ++ st) :
    ∃ k, Step m R f mem k (f.onto rest (v :: st)) mem' := by
  obtain ⟨sig, body, found, runs⟩ := performs
  obtain ⟨k, run⟩ := runs args mem v mem' gives
  have counts : ref.sig.popCount = args.reverse.length ∧ ref.sig.pushCount = 1 := by
    rw [sig]
    cases gives <;> exact ⟨rfl, rfl⟩
  refine ⟨k + 1, .call (acts_call ahead rfl rfl stack counts.1) rfl found run ?_⟩
  exact if_pos counts.2

/-! ## The lines of a site -/

section
variable {e : Sig} {d : EnumInfo} {a r c : Instr} {A T C : Handle}
  (native : ∀ ref, Platform.isKnown ref = true → m.body? ref = .ok none)

theorem type?_of_valueType {i : Instr} (value : valueType? i = some e) : i.type? = some e := by
  unfold valueType? at value
  split at value <;> first | (rename_i type; cases value; exact type) | cases value

theorem called?_of_calls {i : Instr} {opcode : Opcode} {test : MethodRef → Bool}
    (call : opcode = .call ∨ opcode = .callvirt) (yes : calls i opcode test = true) :
    ∃ ref, called? i = some ref ∧ test ref = true ∧ i.opcode = opcode ∧ i.method? = some ref := by
  obtain ⟨rfl, ref, method, passes⟩ := calls_iff.1 yes
  refine ⟨ref, ?_, passes, rfl, method⟩
  rw [called?, if_pos (by simpa [isCall] using call), method]

include native

theorem Passes.type (passes : Passes m R m.faithful rest [(A, a), (T, r)] f mem g mem')
    (token : a.opcode = .ldtoken) (type : a.type? = some e)
    (resolves : calls r .call Platform.isGetTypeFromHandle = true) :
    g = f.onto rest (.type e :: f.stack) ∧ mem' = mem := by
  cases passes with
  | line ahead _ step passes =>
    obtain ⟨rfl, rfl⟩ := step.eq_of_next ahead (Frame.act_token token type)
    cases passes with
    | line ahead _ step passes =>
      obtain ⟨ref, called, test, opcode, -⟩ := called?_of_calls (.inl rfl) resolves
      have params : ref.sig.params.length = 1 := by
        simp [Platform.isGetTypeFromHandle, MethodRef.isNamed] at test
        exact test.2
      obtain ⟨-, rfl, rfl⟩ := step.answered_one ahead called (native ref (by simp [Platform.isKnown, test]))
        (fun _ => rfl) (fun args => Intrinsic.invoke?_getTypeFromHandle test) params
        (fun a b => by cases a <;> exact ⟨_, rfl⟩) rfl rfl
      cases passes
      exact ⟨rfl, rfl⟩

omit native in
theorem Passes.boxedConstant {b : Instr} {B : Handle} {sig : Sig} {w : BitVec 64}
    (passes : Passes m R m.faithful rest [(A, a), (B, b)] f mem g mem') (constant : constant? a = some w)
    (boxes : b.opcode = .box) (type : b.type? = some sig) (value : sig.isReference = false) :
    ∃ v, g = f.onto rest (.boxed sig v :: f.stack) ∧ mem' = mem ∧ ∀ heap : Heap, heap.int64 v = .ok w := by
  cases passes with
  | line ahead _ step passes =>
    obtain ⟨v, act, word⟩ := Frame.act_constant constant
    obtain ⟨rfl, rfl⟩ := step.eq_of_next ahead act
    cases passes with
    | line ahead _ step passes =>
      obtain ⟨_, _, stack, rfl, rfl⟩ := step.box ahead boxes type value
      cases stack
      cases passes
      exact ⟨v, rfl, rfl, word⟩

theorem Passes.answered {ref : MethodRef} (passes : Passes m R m.faithful rest [(C, c)] f mem g mem')
    (called : called? c = some ref) (known : Platform.isKnown ref = true)
    (free : c.opcode = .callvirt → f.constrained = none) {r : List Value → Except MachineFault (Value × Heap)}
    (invoke : ∀ args, Intrinsic.invoke? m.scope mem.heap ref args = some (r args)) {args st : List Value}
    (stack : f.stack = args.reverse ++ st) (count : ref.sig.popCount = args.length) {v : Value} {heap : Heap}
    (result : r args = .ok (v, heap)) : g = f.onto rest (v :: st) ∧ mem' = { mem with heap } := by
  cases passes with
  | line ahead _ step passes =>
    obtain ⟨rfl, rfl⟩ := step.answered ahead called (native ref known) free invoke stack count result
    cases passes
    exact ⟨rfl, rfl⟩

omit native in
theorem pairPattern?_cases {p : Pattern} (pair : pairPattern? c = some p) : ∃ ref, called? c = some ref ∧
    (p = .hasFlag ∧ Platform.isEnumHasFlag ref = true ∨ p = .equals ∧ Platform.isVirtualEquals ref = true) ∧
    Platform.isKnown ref = true ∧ ref.sig.popCount = 2 := by
  unfold pairPattern? at pair
  cases called : called? c with
  | none =>
    rw [called] at pair
    cases pair
  | some ref =>
    rw [called] at pair
    simp only at pair
    split at pair
    · rename_i flag
      cases pair
      refine ⟨ref, rfl, .inl ⟨rfl, flag⟩, by simp [Platform.isKnown, flag], ?_⟩
      simp only [Platform.isEnumHasFlag, MethodRef.isNamed, Bool.and_eq_true, decide_eq_true_eq] at flag
      simp [MethodSig.popCount, flag]
    · split at pair
      · rename_i same
        cases pair
        have same := (Bool.and_eq_true_iff.1 same).2
        refine ⟨ref, rfl, .inr ⟨rfl, same⟩, by simp [Platform.isKnown, same], ?_⟩
        simp only [Platform.isVirtualEquals, Bool.and_eq_true, decide_eq_true_eq] at same
        simp [MethodSig.popCount, same]
      · cases pair

theorem Passes.pair {p : Pattern} {v w : Value} {st : List Value} {x y : EnumValue d.kind}
    (passes : Passes m R m.faithful rest [(C, c)] f mem g mem') (pair : pairPattern? c = some p)
    (free : f.constrained = none) (info : m.scope.enumInfo? e = some d)
    (reads : mem.heap.enum d.kind v = .ok x) (reads' : mem.heap.enum d.kind w = .ok y)
    (stack : f.stack = .boxed e w :: .boxed e v :: st) :
    g = f.onto rest (.bool (if p = .hasFlag then decide (x &&& y = y) else decide (x = y)) :: st) ∧
      mem' = mem := by
  obtain ⟨ref, called, kind, known, count⟩ := pairPattern?_cases pair
  have stack : f.stack = [.boxed e v, .boxed e w].reverse ++ st := stack
  rcases kind with ⟨rfl, flag⟩ | ⟨rfl, same⟩
  · exact Passes.answered native passes called known (fun _ => free)
      (fun args => Intrinsic.invoke?_hasFlag flag) stack count
      (by rw [Intrinsic.hasFlag_boxed info reads reads']; rfl)
  · exact Passes.answered native passes called known (fun _ => free)
      (fun args => Intrinsic.invoke?_equals same) stack count
      (by rw [Intrinsic.equals_boxed info reads reads']; rfl)

theorem Passes.text {v : Value} {st : List Value} {x : EnumValue d.kind}
    (passes : Passes m R m.faithful rest [(C, c)] f mem g mem')
    (text : calls c .callvirt Platform.isVirtualToString = true) (free : f.constrained = none)
    (info : m.scope.enumInfo? e = some d) (reads : mem.heap.enum d.kind v = .ok x)
    (stack : f.stack = .boxed e v :: st) : g = f.onto rest (.str (d.format x) :: st) ∧ mem' = mem := by
  obtain ⟨ref, called, test, -⟩ := called?_of_calls (.inr rfl) text
  have stack : f.stack = [.boxed e v].reverse ++ st := stack
  refine Passes.answered native passes called (by simp [Platform.isKnown, test]) (fun _ => free)
    (fun args => Intrinsic.invoke?_toText test) stack ?_ (by rw [Intrinsic.toText_boxed info reads]; rfl)
  simp only [Platform.isVirtualToString, Bool.and_eq_true, decide_eq_true_eq] at test
  simp [MethodSig.popCount, test]

theorem Passes.defined {v : Value} {st : List Value} {defined : Bool}
    (passes : Passes m R m.faithful rest [(C, c)] f mem g mem')
    (test : calls c .call Platform.isEnumIsDefined = true)
    (answer : Intrinsic.isDefined m.scope mem.heap [.type e, v] = .ok (.bool defined))
    (stack : f.stack = v :: .type e :: st) : g = f.onto rest (.bool defined :: st) ∧ mem' = mem := by
  obtain ⟨ref, called, test, opcode, -⟩ := called?_of_calls (.inl rfl) test
  have stack : f.stack = [.type e, v].reverse ++ st := stack
  refine Passes.answered native passes called (by simp [Platform.isKnown, test])
    (fun virtual => by rw [opcode] at virtual; cases virtual)
    (fun args => Intrinsic.invoke?_isDefined test) stack ?_ (by rw [answer]; rfl)
  simp only [Platform.isEnumIsDefined, MethodRef.isNamed, Bool.and_eq_true, decide_eq_true_eq,
    Bool.not_eq_true'] at test
  simp [MethodSig.popCount, test]

end

/-! ## The lines in their place -/

def Replays (m : Machine) (R : Carries) (s : Setting) (σ : Handle → Handle) (lines : Lines) (f : Frame)
    (mem : Memory) (g : Frame) (mem' : Memory) : Prop :=
  ∃ extra, extra.size = s.extra.size ∧ Passes m R m.faithful s.ahead (lines.map (relabel σ))
    (f.placed { s with ahead := lines.map (relabel σ) ++ s.ahead }) mem (g.placed { s with extra }) mem'

theorem replays_push {i : Instr} {v : Value} (plain : i.mapTargets σ = i)
    (other : i.opcode.mayBox = false)
    (pushes : ∀ (f : Frame) (heap : Heap) (behind : Lines),
      Frame.act { f with ahead := behind } heap h i = .ok (f.onto behind (v :: f.stack), .next)) :
    Replays m R s σ [(h, i)] f mem (f.onto rest (v :: f.stack)) mem := by
  refine ⟨s.extra, rfl, ?_⟩
  rw [show [(h, i)].map (relabel σ) = [(h, i)] by simp [relabel, plain]]
  exact .line rfl (Frame.faithful_of_other rfl other) (.move ⟨h, i, s.ahead, rfl, pushes _ _ _⟩ rfl) (.done rfl)

theorem replays_bool (b : Bool) : Replays m R s σ [(h, loadBool b)] f mem (f.onto rest (.bool b :: f.stack)) mem :=
  replays_push rfl rfl fun _ _ _ => rfl

theorem replays_text (text : String) :
    Replays m R s σ [(h, .ldstr text)] f mem (f.onto rest (.str text :: f.stack)) mem :=
  replays_push rfl rfl fun _ _ _ => rfl

theorem replays_call {op : Operation} {d : EnumInfo} {ref : MethodRef} (performs : m.Performs R op d ref)
    {args st : List Value} {v : Value} (gives : op.Gives d args mem v mem') (stack : f.stack = args.reverse ++ st) :
    Replays m R s σ [(h, .call .call ref)] f mem (f.onto rest (v :: st)) mem' := by
  refine ⟨s.extra, rfl, ?_⟩
  let start := f.placed { s with ahead := (h, .call .call ref) :: s.ahead }
  have stack' : start.stack = args.reverse ++ (st ++ s.below) := by
    change f.stack ++ s.below = _
    rw [stack, List.append_assoc]
  obtain ⟨k, step⟩ := step_performs performs gives (show start.ahead = _ from rfl) stack'
  exact .line rfl (Frame.faithful_of_other rfl rfl) step (.done rfl)

theorem replays_type {e : Sig} {r : Instr} {T : Handle} {ref : MethodRef} (opcode : r.opcode = .call)
    (method : r.method? = some ref) (outside : m.body? ref = .ok none)
    (test : Platform.isGetTypeFromHandle ref = true) (counts : ref.sig.popCount = 1 ∧ ref.sig.pushCount = 1) :
    Replays m R s σ [(h, .typed .ldtoken e), (T, r)] f mem (f.onto rest (.type e :: f.stack)) mem := by
  have plain : r.mapTargets σ = r := by
    obtain ⟨o, operand⟩ := r
    cases operand <;> first | rfl | cases method
  have lines : [(h, Instr.typed .ldtoken e), (T, r)].map (relabel σ) = [(h, .typed .ldtoken e), (T, r)] := by
    rw [List.map_cons, List.map_cons, relabel, relabel, plain]
    rfl
  let start := f.placed { s with ahead := (T, r) :: s.ahead }
  let next := start.onto ((T, r) :: s.ahead) (.typeToken e :: start.stack)
  have answer : m.outside? ref [.typeToken e] mem = some (some (.type e), mem) := by
    unfold outside?
    rw [Intrinsic.invoke?_getTypeFromHandle test]
    rfl
  have acts : Acts next mem (next.onto s.ahead start.stack) (.call ref [.typeToken e]) :=
    acts_call rfl opcode method rfl counts.1
  refine ⟨s.extra, rfl, ?_⟩
  rw [lines]
  have loads : Step m R (f.placed { s with ahead := (h, .typed .ldtoken e) :: (T, r) :: s.ahead }) mem 1 next mem :=
    .move ⟨_, _, _, rfl, rfl⟩ rfl
  exact .line rfl (Frame.faithful_of_other rfl rfl) loads
    (.line rfl (Frame.faithful_of_other rfl (by rw [opcode]; rfl))
      (.ask acts rfl outside answer (if_pos counts.2)) (.done rfl))

/-! ## Operands -/

theorem runs_instrs {floor : Nat} {V : Lines} {k k' : Nat} :
    Runs floor k (sight V) k' ↔ Runs floor k (V.map (·.2)) k' := by
  induction V generalizing k with
  | nil => exact Iff.rfl
  | cons p V ih => rw [runs_sight, ih]; rfl

/-- An operand expression on top of another value, or of none. -/
theorem Passes.operand {V behind ahead : Lines} {top : Value} {st : List Value}
    (passes : Passes m R m.faithful behind V (f.onto ahead (top :: st)) mem g mem')
    (runs : Runs 1 1 (sight V) 2) (narrow : ∀ p ∈ V, p.2.counts.1 ≤ 255) :
    ∃ (w : Value) (own : Frame), g = own.above (top :: st) ∧ own.stack = [w] ∧ own.locals.size = f.locals.size ∧
      ∀ (s : Setting) (σ : Handle → Handle) (B : Lines),
        Passes m R m.faithful (B ++ s.ahead) (V.map (relabel σ))
          (f.placed { s with ahead := V.map (relabel σ) ++ (B ++ s.ahead) }) mem
          ((own.above f.stack).placed { s with ahead := B ++ s.ahead }) mem' := by
  have runs := runs_instrs.1 runs
  have low : Runs 0 0 (V.map (·.2)) 1 := Runs.lower (c := 1) runs
  let bare : Frame := { f with ahead, stack := [], constrained := none }
  have passes : Passes m R m.faithful behind V (bare.above (top :: st)) mem g mem' := passes
  obtain ⟨own, rfl, depth, elsewhere⟩ := passes.elsewhere low narrow rfl
  obtain ⟨w, single⟩ := List.length_eq_one_iff.1 depth
  refine ⟨w, own, rfl, single, ?_, fun s σ B => ?_⟩
  · have keeps := (passes.keeps fun p mem => runs.straight p.2 (List.mem_map_of_mem mem)).2
    exact keeps.locals
  · have there := elsewhere { s with ahead := B ++ s.ahead, below := f.stack ++ s.below } σ
    have last : (own.above f.stack).placed { s with ahead := B ++ s.ahead } =
        own.placed { s with ahead := B ++ s.ahead, below := f.stack ++ s.below } := by
      simp [Frame.placed, Frame.above]
    rw [last]
    -- the first line takes no value, so it does not see a type that is left over
    cases V with
    | nil => exact absurd rfl (runs.ne_nil (by decide))
    | cons p V =>
      have alone : (relabel σ p).2.counts.1 = 0 := by
        have same : (relabel σ p).2.counts = p.2.counts := by
          rw [relabel, Instr.counts, Instr.counts, Instr.method?_mapTargets]
          rfl
        have pops := runs.2.1
        rw [(Body.depthAfter_eq (narrow p List.mem_cons_self) 1).1] at pops
        rw [same]
        omega
      exact there.pending rfl alone f.constrained

theorem Replays.behind {V B : Lines} {own : Frame} {mem₁ : Memory}
    (first : ∀ (s : Setting) (σ : Handle → Handle) (B : Lines),
      Passes m R m.faithful (B ++ s.ahead) (V.map (relabel σ))
        (f.placed { s with ahead := V.map (relabel σ) ++ (B ++ s.ahead) }) mem
        (own.placed { s with ahead := B ++ s.ahead }) mem₁)
    (second : Replays m R s σ B own mem₁ g mem') : Replays m R s σ (V ++ B) f mem g mem' := by
  obtain ⟨extra, size, last⟩ := second
  refine ⟨extra, size, ?_⟩
  rw [List.map_append, List.append_assoc]
  exact (first s σ (B.map (relabel σ))).append last

/-- The lines of a flag test; the new local keeps the flag. -/
theorem replays_flag {k : IntKind} {x y : EnumValue k} {n : Nat} {st : List Value} {h₁ h₂ h₃ h₄ h₅ : Handle}
    (stack : f.stack = .ofEnum y :: .ofEnum x :: st) (size : f.locals.size = n) (room : s.extra.size = 1) :
    Replays m R s σ [(h₁, .stloc n), (h₂, .ldloc n), (h₃, ⟨.and, .none⟩), (h₄, .ldloc n), (h₅, ⟨.ceq, .none⟩)]
      f mem (f.onto rest (.bool (decide (x &&& y = y)) :: st)) mem := by
  let extra := s.extra.setIfInBounds 0 (.ofEnum y)
  let lines : Lines := [(h₂, .ldloc n), (h₃, ⟨.and, .none⟩), (h₄, .ldloc n), (h₅, ⟨.ceq, .none⟩)]
  let kept (behind : Lines) (stack : List Value) : Frame :=
    { f.placed { s with extra, ahead := behind } with stack := stack ++ (st ++ s.below), constrained := none }
  have there : (f.locals ++ extra)[n]? = some (.ofEnum y) := by
    rw [Array.getElem?_append_right (Nat.le_of_eq size), size, Nat.sub_self]
    simp [extra, room]
  have grown : (f.locals ++ s.extra).setIfInBounds n (.ofEnum y) = f.locals ++ extra := by
    rw [Array.setIfInBounds_append_right (Nat.le_of_eq size), size, Nat.sub_self]
  have first (behind : Lines) (heap : Heap) : Frame.act (f.placed { s with ahead := behind }) heap h₁ (.stloc n) =
      .ok (kept behind [.ofEnum x], .next) := by
    have top : (f.placed { s with ahead := behind }).stack = .ofEnum y :: (.ofEnum x :: (st ++ s.below)) := by
      simp [Frame.placed, stack]
    rw [Frame.act_stloc top (by simp [Frame.placed, size, room])]
    simp only [kept, Frame.placed, grown]
    rfl
  have load (behind : Lines) (heap : Heap) (h : Handle) (stack : List Value) :
      Frame.act (kept behind stack) heap h (.ldloc n) = .ok (kept behind (.ofEnum y :: stack), .next) :=
    Frame.act_ldloc there
  have both (behind : Lines) (heap : Heap) : Frame.act (kept behind [.ofEnum y, .ofEnum x]) heap h₃ ⟨.and, .none⟩ =
      .ok (kept behind [.ofEnum (x &&& y)], .next) := by
    change ((heap.binary .and (.ofEnum x) (.ofEnum y)) >>= _) = _
    rw [Heap.binary_and_ofEnum]
    rfl
  have test (behind : Lines) (heap : Heap) :
      Frame.act (kept behind [.ofEnum y, .ofEnum (x &&& y)]) heap h₅ ⟨.ceq, .none⟩ =
        .ok (kept behind [.bool (decide (x &&& y = y))], .next) := by
    change ((heap.compare .ceq (.ofEnum (x &&& y)) (.ofEnum y)) >>= _) = _
    rw [show heap.compare .ceq (.ofEnum (x &&& y)) (.ofEnum y) = _ from heap.equal_ofEnum _ _]
    rfl
  refine ⟨extra, by simp [extra], ?_⟩
  refine .line rfl (Frame.faithful_of_other rfl rfl) (.move ⟨_, _, _, rfl, first _ _⟩ rfl) ?_
  refine .line rfl (Frame.faithful_of_other rfl rfl) (.move ⟨_, _, _, rfl, load _ _ _ _⟩ rfl) ?_
  refine .line rfl (Frame.faithful_of_other rfl rfl) (.move ⟨_, _, _, rfl, both _ _⟩ rfl) ?_
  refine .line rfl (Frame.faithful_of_other rfl rfl) (.move ⟨_, _, _, rfl, load _ _ _ _⟩ rfl) ?_
  refine .line rfl (Frame.faithful_of_other rfl rfl) (.move ⟨_, _, _, rfl, test _ _⟩ rfl) ?_
  exact .done rfl

section
variable {e : Sig} {d : EnumInfo} {a r c : Instr} {A T C : Handle} {ref : MethodRef}
  (native : ∀ ref, Platform.isKnown ref = true → m.body? ref = .ok none)
  (info : m.scope.enumInfo? e = some d)
include info

theorem reference_of_info : e.isReference = false := by
  rw [Scope.sig_of_enumInfo? info]
  rfl

include native

theorem replays_getValues (performs : m.Performs R .getValues d ref)
    (passes : Passes m R m.faithful rest [(A, a), (T, r), (C, c)] f mem g mem')
    (token : a.opcode = .ldtoken) (type : a.type? = some e)
    (resolves : calls r .call Platform.isGetTypeFromHandle = true)
    (values : (called? c).any Platform.isEnumGetValues = true) :
    Replays m R s σ [(h, .call .call ref)] f mem g mem' := by
  obtain rfl := Scope.sig_of_enumInfo? info
  have passes : Passes m R m.faithful rest ([(A, a), (T, r)] ++ [(C, c)]) f mem g mem' := passes
  obtain ⟨_, _, first, last⟩ := passes.split
  obtain ⟨rfl, rfl⟩ := Passes.type native first token type resolves
  obtain ⟨ref', called, test⟩ := (Option.any_eq_true ..).1 values
  have count : ref'.sig.popCount = [Value.type d.sig].length := by
    simp only [Platform.isEnumGetValues, MethodRef.isNamed, Bool.and_eq_true, decide_eq_true_eq,
      Bool.not_eq_true'] at test
    simp [MethodSig.popCount, test]
  obtain ⟨rfl, rfl⟩ := Passes.answered native last called (by simp [Platform.isKnown, test]) (fun _ => rfl)
    (fun args => Intrinsic.invoke?_getValues test) (rfl : _ = [Value.type d.sig].reverse ++ f.stack) count
    (Intrinsic.getValues_type info)
  exact replays_call performs (.getValues rfl) (List.nil_append _).symm

theorem replays_definedName {l : Instr} {L : Handle} {name : String}
    (passes : Passes m R m.faithful rest [(A, a), (T, r), (L, l), (C, c)] f mem g mem')
    (token : a.opcode = .ldtoken) (type : a.type? = some e)
    (resolves : calls r .call Platform.isGetTypeFromHandle = true) (load : l.opcode = .ldstr)
    (string : l.string? = some name) (test : calls c .call Platform.isEnumIsDefined = true) :
    Replays m R s σ [(h, loadBool (d.declared.any (·.name = name)))] f mem g mem' := by
  have passes : Passes m R m.faithful rest ([(A, a), (T, r)] ++ [(L, l), (C, c)]) f mem g mem' := passes
  obtain ⟨_, _, first, last⟩ := passes.split
  obtain ⟨rfl, rfl⟩ := Passes.type native first token type resolves
  cases last with
  | line ahead _ step last =>
    obtain ⟨rfl, rfl⟩ := step.eq_of_next ahead (Frame.act_string load string)
    obtain ⟨rfl, rfl⟩ := Passes.defined native last test (Intrinsic.isDefined_name info name) rfl
    exact replays_bool _

theorem replays_definedConstant {t l : Instr} {K L : Handle} {w : BitVec 64} {sig : Sig}
    (passes : Passes m R m.faithful rest [(A, a), (T, r), (K, t), (L, l), (C, c)] f mem g mem')
    (token : a.opcode = .ldtoken) (type : a.type? = some e)
    (resolves : calls r .call Platform.isGetTypeFromHandle = true) (constant : constant? t = some w)
    (boxes : l.opcode = .box) (boxed : l.type? = some sig) (fits : sig = e ∨ sig = d.kind.sig)
    (test : calls c .call Platform.isEnumIsDefined = true) :
    Replays m R s σ [(h, loadBool (d.nameOf? (.ofWord d.kind w)).isSome)] f mem g mem' := by
  have passes : Passes m R m.faithful rest ([(A, a), (T, r)] ++ ([(K, t), (L, l)] ++ [(C, c)])) f mem g mem' := passes
  obtain ⟨_, _, first, others⟩ := passes.split
  obtain ⟨rfl, rfl⟩ := Passes.type native first token type resolves
  obtain ⟨_, _, middle, last⟩ := others.split
  have value : sig.isReference = false := by
    rcases fits with rfl | rfl
    · exact reference_of_info info
    · cases d.kind <;> rfl
  obtain ⟨v, rfl, rfl, word⟩ := Passes.boxedConstant middle constant boxes boxed value
  obtain ⟨rfl, rfl⟩ := Passes.defined native last test
    (Intrinsic.isDefined_boxed info (Heap.enum_of_int64 (word _)) fits) rfl
  exact replays_bool _

theorem replays_literalText {b : Instr} {B : Handle} {w : BitVec 64}
    (passes : Passes m R m.faithful rest [(A, a), (B, b), (C, c)] f mem g mem') (constant : constant? a = some w)
    (boxes : b.opcode = .box) (boxed : b.type? = some e)
    (text : calls c .callvirt Platform.isVirtualToString = true) :
    Replays m R s σ [(h, .ldstr (d.format (.ofWord d.kind w)))] f mem g mem' := by
  have passes : Passes m R m.faithful rest ([(A, a), (B, b)] ++ [(C, c)]) f mem g mem' := passes
  obtain ⟨_, _, first, last⟩ := passes.split
  obtain ⟨v, rfl, rfl, word⟩ := Passes.boxedConstant first constant boxes boxed (reference_of_info info)
  obtain ⟨rfl, rfl⟩ := Passes.text native last text rfl info (Heap.enum_of_int64 (word _)) rfl
  exact replays_text _

theorem replays_literalPair {b k s' : Instr} {B K S : Handle} {v w : BitVec 64} {p : Pattern}
    (passes : Passes m R m.faithful rest [(A, a), (B, b), (K, k), (S, s'), (C, c)] f mem g mem')
    (constant : constant? a = some v) (boxes : b.opcode = .box) (boxed : b.type? = some e)
    (constant' : constant? k = some w) (boxes' : s'.opcode = .box) (boxed' : s'.type? = some e)
    (pair : pairPattern? c = some p) :
    Replays m R s σ [(h, loadBool (if p = .hasFlag then decide (EnumValue.ofWord d.kind v &&& .ofWord d.kind w =
      .ofWord d.kind w) else decide (EnumValue.ofWord d.kind v = .ofWord d.kind w)))] f mem g mem' := by
  have passes : Passes m R m.faithful rest ([(A, a), (B, b)] ++ ([(K, k), (S, s')] ++ [(C, c)])) f mem g mem' := passes
  obtain ⟨_, _, first, others⟩ := passes.split
  obtain ⟨x, rfl, rfl, word⟩ := Passes.boxedConstant first constant boxes boxed (reference_of_info info)
  obtain ⟨_, _, second, last⟩ := others.split
  obtain ⟨y, rfl, rfl, word'⟩ := Passes.boxedConstant second constant' boxes' boxed' (reference_of_info info)
  obtain ⟨rfl, rfl⟩ := Passes.pair native last pair rfl info (Heap.enum_of_int64 (word _))
    (Heap.enum_of_int64 (word' _)) rfl
  exact replays_bool _

theorem replays_boxText (performs : m.Performs R .toString d ref)
    (passes : Passes m R m.faithful rest [(A, a), (C, c)] f mem g mem') (boxes : a.opcode = .box)
    (boxed : a.type? = some e) (text : calls c .callvirt Platform.isVirtualToString = true) :
    Replays m R s σ [(h, .call .call ref)] f mem g mem' := by
  cases passes with
  | line ahead faithful step last =>
    obtain ⟨v, st, stack, rfl, rfl⟩ := step.box ahead boxes boxed (reference_of_info info)
    obtain ⟨x, rfl⟩ := faithful.boxes _ _ _ e d.kind v st ahead boxes boxed (Scope.kind?_enum info) stack
    obtain ⟨rfl, rfl⟩ := Passes.text native last text rfl info (Heap.enum_ofEnum _ x) rfl
    exact replays_call performs .toString stack

theorem replays_underlying (passes : Passes m R m.faithful rest [(A, a), (T, r), (C, c)] f mem g mem')
    (token : a.opcode = .ldtoken) (type : a.type? = some e)
    (resolves : calls r .call Platform.isGetTypeFromHandle = true)
    (underlying : (called? c).any Platform.isEnumGetUnderlyingType = true) :
    Replays m R s σ [(h, .typed .ldtoken d.kind.sig), (T, r)] f mem g mem' := by
  cases passes with
  | line ahead _ step passes =>
    obtain ⟨rfl, rfl⟩ := step.eq_of_next ahead (Frame.act_token token type)
    cases passes with
    | line ahead _ step last =>
      obtain ⟨ref, called, test, opcode, method⟩ := called?_of_calls (.inl rfl) resolves
      have params : ref.sig.params.length = 1 := by
        simp [Platform.isGetTypeFromHandle, MethodRef.isNamed] at test
        exact test.2
      have outside := native ref (by simp [Platform.isKnown, test])
      obtain ⟨counts, rfl, rfl⟩ := step.answered_one ahead called outside (fun _ => rfl)
        (fun args => Intrinsic.invoke?_getTypeFromHandle test) params
        (fun a b => by cases a <;> exact ⟨_, rfl⟩) rfl rfl
      cases last with
      | line ahead _ step last =>
        obtain ⟨ref', called', test'⟩ := (Option.any_eq_true ..).1 underlying
        have params' : ref'.sig.params.length = 1 := by
          simp [Platform.isEnumGetUnderlyingType, MethodRef.isNamed] at test'
          exact test'.2
        obtain ⟨-, rfl, rfl⟩ := step.answered_one ahead called' (native ref' (by simp [Platform.isKnown, test']))
          (fun _ => rfl) (fun args => Intrinsic.invoke?_getUnderlyingType test') params'
          (fun _ _ => ⟨_, rfl⟩) rfl (by rw [Intrinsic.getUnderlyingType_type info]; rfl)
        cases last
        exact replays_type opcode method outside test counts

end

end CilForge.CallSite
