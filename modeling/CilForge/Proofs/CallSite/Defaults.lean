import CilForge.Proofs.CallSite.Idioms
import CilForge.Proofs.CallSite.Sites
import CilForge.Proofs.Generate.LookupZero
import CilForge.Proofs.Generate.Values

/-!
# Variables that were never set

A local of an enum type starts with a zero of 32 bits, whatever integers the enum is made of. The platform
takes it for the zero of the enum. What rewriting puts in the place of the reflective operations does so for
the narrow kinds, and for the wide ones if it asks for zero before anything else (`run_default`).
-/

namespace CilForge

open CallSite Script Lookup Machine

/-! ## Bodies in a scope -/

/-- Every machine with room for so many frames and instructions carries out the body with this result, and leaves
the memory as it was. -/
def Body.Returns (b : Body) (scope : Scope) (frames count : Nat) (args : List Value) (v : Value) : Prop :=
  ∀ (m : Machine) (w : World), m.scope = scope → frames ≤ m.limits.maxCallDepth →
    w.executed + count ≤ m.limits.maxInstructions →
    ∃ w', m.execute b args w = (.ok (.returned (some v)), w') ∧ w'.memory = w.memory

/-- No machine carries out the body. -/
def Body.Fails (b : Body) (scope : Scope) (args : List Value) : Prop :=
  ∀ (m : Machine) (w w' : World) (o : Outcome), m.scope = scope → m.execute b args w ≠ (.ok o, w')

section
variable {b : Body} {scope : Scope} {args : List Value} {v : Value}

theorem Body.returns_of_ends (depth : Nat) {count : Nat} (ends : ∀ (m : Machine) (mem : Memory), m.scope = scope →
      ∃ k ≤ count, Ends m (m.Within depth) (.start b args) mem k (.returned (some v)) mem) :
    b.Returns scope (depth + 1) count args v := by
  intro m w here frames room
  obtain ⟨k, le, ends⟩ := ends m w.memory here
  have within : m.Within (depth + 1) b args w.memory k (.returned (some v)) w.memory := ends
  exact ⟨_, execute_eq_ok_iff.2 ⟨k, w.memory, within_mono frames within, by omega, rfl⟩, rfl⟩

theorem Body.fails_of_stuck (stuck : ∀ (m : Machine) (mem : Memory), m.scope = scope → ∀ depth,
      m.Stuck (m.Within depth) (.start b args) mem) : b.Fails scope args :=
  fun m w w' o here => execute_ne_ok_of_stuck (stuck m w.memory here) o w'

end

namespace CallSite

/-! ## Lines without jumps -/

inductive Walks (mem : Memory) : Frame → Nat → Frame → Prop where
  | here {f : Frame} : Walks mem f 0 f
  | line {f g g' : Frame} {h : Handle} {i : Instr} {rest : Lines} {n : Nat} : f.ahead = (h, i) :: rest →
    Frame.act { f with ahead := rest } mem.heap h i = .ok (g, .next) → Walks mem g n g' → Walks mem f (n + 1) g'

section
variable {m : Machine} {R : Carries} {f g : Frame} {mem mem' : Memory} {n : Nat}

theorem Walks.ends {k : Nat} {o : Outcome} (walks : Walks mem f n g) (ends : Ends m R g mem k o mem') :
    Ends m R f mem (n + k) o mem' := by
  induction walks with
  | here => rwa [Nat.zero_add]
  | @line f g g' h i rest n ahead act _ ih =>
    rw [Nat.add_comm n 1, Nat.add_assoc]
    exact .of_next ahead act (ih ends)

theorem Walks.stuck (walks : Walks mem f n g) (stuck : m.Stuck R g mem) : m.Stuck R f mem := by
  induction walks with
  | here => exact stuck
  | line ahead act _ ih => exact .of_next ahead act (ih stuck)

variable {h : Handle} {rest : Lines}

theorem Walks.ldloc {k : Nat} {v : Value} (ahead : f.ahead = (h, .ldloc k) :: rest) (there : f.locals[k]? = some v)
    (walks : Walks mem (f.onto rest (v :: f.stack)) n g) : Walks mem f (n + 1) g :=
  .line ahead (Frame.act_ldloc there) walks

theorem Walks.ldarg {v : Value} (ahead : f.ahead = (h, .ldarg 0) :: rest) (there : f.args[0]? = some v)
    (walks : Walks mem (f.onto rest (v :: f.stack)) n g) : Walks mem f (n + 1) g := by
  refine .line ahead ?_ walks
  have unfolded : Frame.act { f with ahead := rest } mem.heap h (.ldarg 0) =
      ((f.onto rest f.stack).getArg 0 >>= fun v => .ok ((f.onto rest f.stack).push v, .next)) := rfl
  rw [unfolded, Frame.getArg, show (f.onto rest f.stack).args[0]? = some v from there]
  rfl

theorem Walks.box {e : Sig} {v : Value} {st : List Value} (ahead : f.ahead = (h, .typed .box e) :: rest)
    (stack : f.stack = v :: st) (value : e.isReference = false)
    (walks : Walks mem (f.onto rest (.boxed e v :: st)) n g) : Walks mem f (n + 1) g := by
  refine .line ahead ?_ walks
  have unfolded : Frame.act { f with ahead := rest } mem.heap h (.typed .box e) = ((f.onto rest f.stack).pop >>=
      fun x => .ok (x.2.push (if e.isReference then x.1 else .boxed e x.1), .next)) := rfl
  rw [unfolded, value, Frame.pop, show (f.onto rest f.stack).stack = v :: st from stack]
  rfl

theorem act_and {heap : Heap} {a b : Value} {st : List Value} (stack : f.stack = b :: a :: st) :
    Frame.act { f with ahead := rest } heap h ⟨.and, .none⟩ =
      (heap.binary .and a b).bind fun v => .ok (f.onto rest (v :: st), .next) := by
  have unfolded : Frame.act { f with ahead := rest } heap h ⟨.and, .none⟩ = ((f.onto rest f.stack).pop >>= fun x =>
      x.2.pop >>= fun y => heap.binary .and y.1 x.1 >>= fun v => .ok (y.2.push v, .next)) := rfl
  rw [unfolded, Frame.pop, show (f.onto rest f.stack).stack = b :: a :: st from stack]
  rfl

theorem act_ceq {heap : Heap} {a b : Value} {st : List Value} (stack : f.stack = b :: a :: st) :
    Frame.act { f with ahead := rest } heap h ⟨.ceq, .none⟩ =
      (heap.equal a b).bind fun c => .ok (f.onto rest (.bool c :: st), .next) := by
  have unfolded : Frame.act { f with ahead := rest } heap h ⟨.ceq, .none⟩ = ((f.onto rest f.stack).pop >>= fun x =>
      x.2.pop >>= fun y => heap.equal y.1 x.1 >>= fun c => .ok (y.2.push (.bool c), .next)) := rfl
  rw [unfolded, Frame.pop, show (f.onto rest f.stack).stack = b :: a :: st from stack]
  rfl

theorem Walks.and {k : IntKind} {x y : EnumValue k} {st : List Value} (ahead : f.ahead = (h, ⟨.and, .none⟩) :: rest)
    (stack : f.stack = .ofEnum y :: .ofEnum x :: st)
    (walks : Walks mem (f.onto rest (.ofEnum (x &&& y) :: st)) n g) : Walks mem f (n + 1) g := by
  refine .line ahead ?_ walks
  rw [act_and stack, Heap.binary_and_ofEnum]
  rfl

theorem Walks.ceq {k : IntKind} {x y : EnumValue k} {st : List Value} (ahead : f.ahead = (h, ⟨.ceq, .none⟩) :: rest)
    (stack : f.stack = .ofEnum y :: .ofEnum x :: st)
    (walks : Walks mem (f.onto rest (.bool (decide (x = y)) :: st)) n g) : Walks mem f (n + 1) g := by
  refine .line ahead ?_ walks
  rw [act_ceq stack, Heap.equal_ofEnum]
  rfl

end

/-! ## Calls in front of the end -/

section
variable {m : Machine} {R : Carries} {f : Frame} {mem : Memory} {h h' : Handle} {i : Instr} {rest : Lines}
  {ref : MethodRef} (args : List Value) {v : Value}

theorem act_invoke (call : called? i = some ref) (free : f.constrained = none) {st : List Value}
    (stack : f.stack = args.reverse ++ st) (count : ref.sig.popCount = args.length) :
    Frame.act { f with ahead := rest } mem.heap h i = .ok (f.onto rest st, .call ref args) := by
  simp only [called?, isCall, Option.ite_none_right_eq_some, Bool.or_eq_true, decide_eq_true_eq] at call
  obtain ⟨opcode, method⟩ := call
  have enough : ¬ f.stack.length < ref.sig.popCount := by
    rw [stack, count, List.length_append, List.length_reverse]
    omega
  have count : ref.sig.popCount = args.reverse.length := by rw [count, List.length_reverse]
  obtain ⟨o, operand⟩ := i
  rcases opcode with rfl | rfl <;>
  · simp only [Frame.act, Frame.needMethod_eq method, Frame.popArgs, enough, Frame.callArgs, free, bind, Except.bind,
      pure, Except.pure, reduceCtorEq, if_false, if_true]
    rw [stack, count, List.take_left, List.drop_left, List.reverse_reverse]
    rfl

theorem ends_platform (ahead : f.ahead = [(h, i), (h', ⟨.ret, .none⟩)]) (call : called? i = some ref)
    (free : f.constrained = none) (stack : f.stack = args.reverse) (count : ref.sig.popCount = args.length)
    (push : ref.sig.pushCount = 1) (native : m.body? ref = .ok none)
    (answer : Intrinsic.invoke? m.scope mem.heap ref args = some (.ok (v, mem.heap))) :
    Ends m R f mem 2 (.returned (some v)) mem := by
  have outside : m.outside? ref args mem = some (some v, mem) := by
    unfold outside?
    rw [answer]
  have act : Frame.act { f with ahead := [(h', ⟨.ret, .none⟩)] } mem.heap h i =
      .ok (f.onto [(h', ⟨.ret, .none⟩)] [], .call ref args) :=
    act_invoke args call free (by rw [stack, List.append_nil]) count
  have step : Step m R f mem 1 (f.onto [(h', ⟨.ret, .none⟩)] [v]) mem :=
    .ask ⟨h, i, _, ahead, act⟩ rfl native outside (if_pos push)
  exact .step step (.stop ⟨h', _, [], rfl, rfl⟩ rfl)

theorem acts_last (ahead : f.ahead = [(h, .call .call ref), (h', ⟨.ret, .none⟩)]) (stack : f.stack = args.reverse)
    (count : ref.sig.popCount = args.length) : Acts f mem (f.onto [(h', ⟨.ret, .none⟩)] []) (.call ref args) :=
  acts_call ahead rfl rfl (by rw [stack, List.append_nil]) (by rw [count, List.length_reverse])

theorem ends_call {b : Body} {k : Nat} (ahead : f.ahead = [(h, .call .call ref), (h', ⟨.ret, .none⟩)])
    (stack : f.stack = args.reverse) (count : ref.sig.popCount = args.length) (push : ref.sig.pushCount = 1)
    (body : m.body? ref = .ok (some b)) (run : R b args mem k (.returned (some v)) mem) :
    Ends m R f mem (k + 1 + 1) (.returned (some v)) mem := by
  have step : Step m R f mem (k + 1) (f.onto [(h', ⟨.ret, .none⟩)] [v]) mem :=
    .call (acts_last args ahead stack count) rfl body run (if_pos push)
  exact .step step (.stop ⟨h', _, [], rfl, rfl⟩ rfl)

theorem stuck_call {b : Body} (ahead : f.ahead = [(h, .call .call ref), (h', ⟨.ret, .none⟩)])
    (stack : f.stack = args.reverse) (count : ref.sig.popCount = args.length) (body : m.body? ref = .ok (some b))
    (never : ∀ k o mem', ¬ R b args mem k o mem') : m.Stuck R f mem :=
  .of_call ahead ((acts_last args ahead stack count).eq ahead) body never

end

section
variable {m : Machine} {f g : Frame} {mem : Memory} {n : Nat} {h h' : Handle} {ref : MethodRef} {op : Operation}
  {d : EnumInfo} {density : Density} (args : List Value) (loaded : Walks mem f n g)
  (helps : ref.sig = op.sig d.sig ∧ m.body? ref = .ok (some (op.script d density).body))
  (ahead : g.ahead = [(h, .call .call ref), (h', ⟨.ret, .none⟩)]) (stack : g.stack = args.reverse)
  (count : (op.sig d.sig).popCount = args.length)
include loaded helps ahead stack count

theorem ends_generated {v : Value} {depth : Nat} (push : (op.sig d.sig).pushCount = 1)
    (plays : ∀ R, Plays m R (op.script d density) args.toArray (op.script d density) [] mem 850
      (.returned (some v))) : ∃ k ≤ n + 852, Ends m (m.Within (depth + 1)) f mem k (.returned (some v)) mem := by
  obtain ⟨sig, body⟩ := helps
  obtain ⟨k, le, run⟩ := (plays (m.Within depth)).within
  exact ⟨n + (k + 1 + 1), by omega, loaded.ends (ends_call args ahead stack (sig ▸ count) (sig ▸ push) body run)⟩

theorem stuck_generated (jams : ∀ R, Jams m R (op.script d density) args.toArray (op.script d density) [] mem)
    (depth : Nat) : m.Stuck (m.Within depth) f mem :=
  loaded.stuck (stuck_call args ahead stack (helps.1 ▸ count) helps.2 (Jams.not_within jams depth))

end

/-! ## The operations on a local that was never set -/

namespace Idiom

def args {k : IntKind} (other : EnumValue k) : Idiom → List Value
  | toString | isDefined => []
  | equals | hasFlag => [.ofEnum other]

def answer (d : EnumInfo) (other : EnumValue d.kind) : Idiom → Value
  | toString => .str (d.format 0)
  | isDefined => .bool (d.nameOf? 0).isSome
  | equals => .bool (decide (0 = other))
  | hasFlag => .bool (decide (0 &&& other = other))

/-- Whether what stands in the place of the operation takes the narrow zero for the zero of the enum. -/
def findsZero (d : EnumInfo) (density : Density) : Idiom → Bool
  | toString => Lookup.findsZero (.ofNames d density.maxFlags) density.ratio
  | isDefined => Lookup.findsZero (.ofValues d) density.ratio
  | equals | hasFlag => !d.kind.isWide

end Idiom

section
variable {m : Machine} {R : Carries} {d : EnumInfo} {locals : Array Sig} {slot : Nat} {mem : Memory}
  (declared : locals[slot]? = some d.sig)
include declared

theorem default_local : (locals.map Value.default)[slot]? = some (.i32 0) := by
  rw [Array.getElem?_map, declared]
  rfl

/-- The method as it is: the platform widens what it finds in a box. -/
theorem ends_body (native : ∀ ref, Platform.isKnown ref = true → m.body? ref = .ok none)
    (info : m.scope.enumInfo? d.sig = some d) (other : EnumValue d.kind) (idiom : Idiom) :
    ∃ k ≤ 6, Ends m R (.start (idiom.body d.sig locals slot) (idiom.args other)) mem k
      (.returned (some (idiom.answer d other))) mem := by
  have there := default_local declared
  have zero := enum_zero mem.heap d.kind
  have reads := Heap.enum_ofEnum mem.heap other
  cases idiom with
  | toString =>
    have loaded : Walks mem (.start (Idiom.toString.body d.sig locals slot) []) 2 _ :=
      .ldloc rfl there (.box rfl rfl rfl .here)
    refine ⟨4, by omega, loaded.ends (ends_platform [.boxed d.sig (.i32 0)] rfl rfl rfl rfl rfl rfl (native _ rfl) ?_)⟩
    rw [Intrinsic.invoke?_toText rfl, Intrinsic.toText_boxed info zero]
    rfl
  | isDefined =>
    let f : Frame := .start (Idiom.isDefined.body d.sig locals slot) []
    have token : Walks mem f 1 _ := .line rfl (Frame.act_token rfl rfl) .here
    have type : m.outside? Platform.getTypeFromHandle [.typeToken d.sig] mem = some (some (.type d.sig), mem) := by
      unfold outside?
      rw [Intrinsic.invoke?_getTypeFromHandle rfl]
      rfl
    have resolved : Step m R (f.onto ((numbered 0 (Idiom.isDefined.code d.sig slot)).drop 1) [.typeToken d.sig]) mem 1
        (f.onto ((numbered 0 (Idiom.isDefined.code d.sig slot)).drop 2) [.type d.sig]) mem :=
      .ask ⟨_, _, _, rfl, act_invoke [.typeToken d.sig] rfl rfl rfl rfl⟩ rfl (native _ rfl) type rfl
    have loaded : Walks mem (f.onto ((numbered 0 (Idiom.isDefined.code d.sig slot)).drop 2) [.type d.sig]) 2 _ :=
      .ldloc rfl there (.box rfl rfl rfl .here)
    refine ⟨1 + (1 + (2 + 2)), by omega, token.ends (.step resolved (loaded.ends (ends_platform
      [.type d.sig, .boxed d.sig (.i32 0)] rfl rfl rfl rfl rfl rfl (native _ rfl) ?_)))⟩
    rw [Intrinsic.invoke?_isDefined rfl, Intrinsic.isDefined_boxed info zero (.inl rfl)]
    rfl
  | equals =>
    have loaded : Walks mem (.start (Idiom.equals.body d.sig locals slot) [.ofEnum other]) 4 _ :=
      .ldloc rfl there (.box rfl rfl rfl (.ldarg rfl rfl (.box rfl rfl rfl .here)))
    refine ⟨6, by omega, loaded.ends (ends_platform [.boxed d.sig (.i32 0), .boxed d.sig (.ofEnum other)]
      rfl rfl rfl rfl rfl rfl (native _ rfl) ?_)⟩
    rw [Intrinsic.invoke?_equals rfl, Intrinsic.equals_boxed info zero reads]
    rfl
  | hasFlag =>
    have loaded : Walks mem (.start (Idiom.hasFlag.body d.sig locals slot) [.ofEnum other]) 4 _ :=
      .ldloc rfl there (.box rfl rfl rfl (.ldarg rfl rfl (.box rfl rfl rfl .here)))
    refine ⟨6, by omega, loaded.ends (ends_platform [.boxed d.sig (.i32 0), .boxed d.sig (.ofEnum other)]
      rfl rfl rfl rfl rfl rfl (native _ rfl) ?_)⟩
    rw [Intrinsic.invoke?_hasFlag rfl, Intrinsic.hasFlag_boxed info zero reads]
    rfl

/-- Up to the test, the flag is kept in the new local. -/
theorem walks_flag (mem : Memory) (k : IntKind) (y : Value) (ref : MethodRef) : ∃ g : Frame,
    Walks mem (.start (Idiom.hasFlag.rewritten k locals slot ref) [y]) 4 g ∧ g.stack = [y, .i32 0] ∧
      g.ahead = [(⟨8⟩, ⟨.and, .none⟩), (⟨9⟩, .ldloc locals.size), (⟨10⟩, ⟨.ceq, .none⟩), (⟨5⟩, ⟨.ret, .none⟩)] ∧
      g.locals[locals.size]? = some y := by
  let f : Frame := .start (Idiom.hasFlag.rewritten k locals slot ref) [y]
  have there : f.locals[slot]? = some (.i32 0) := by
    have lt : slot < locals.size := (Array.getElem?_eq_some_iff.1 declared).1
    change ((locals.push k.sig).map Value.default)[slot]? = _
    rw [Array.getElem?_map, Array.getElem?_push_lt lt, ← default_local declared]
    simp [lt]
  have new : locals.size < f.locals.size := by
    change _ < ((locals.push k.sig).map Value.default).size
    rw [Array.size_map, Array.size_push]
    exact Nat.lt_succ_self _
  have kept : (f.locals.setIfInBounds locals.size y)[locals.size]? = some y := by simp [new]
  exact ⟨_, .ldloc rfl there (.ldarg rfl rfl (.line rfl (Frame.act_stloc rfl new) (.ldloc rfl kept .here))), rfl, rfl,
    kept⟩

section
variable {ref : MethodRef} {density : Density} {depth : Nat} (idiom : Idiom)
  (helps : ∀ op, (idiom.site d).operation? = some op → ref.sig = op.sig d.sig ∧
    m.body? ref = .ok (some (op.script d density).body))
  (other : EnumValue d.kind)
include helps

theorem ends_rewritten (info : m.scope.enumInfo? d.sig = some d)
    (convert : m.body? (Platform.convertToString d.kind) = .ok none)
    (object : m.body? Platform.objectToString = .ok none) (finds : idiom.findsZero d density = true) :
    ∃ k ≤ 860, Ends m (m.Within (depth + 1)) (.start (idiom.rewritten d.kind locals slot ref) (idiom.args other)) mem k
      (.returned (some (idiom.answer d other))) mem := by
  have there := default_local declared
  cases idiom with
  | toString =>
    have loaded : Walks mem (.start (Idiom.toString.rewritten d.kind locals slot ref) []) 1 _ := .ldloc rfl there .here
    obtain ⟨k, le, ends⟩ := ends_generated [.i32 0] loaded (helps .toString rfl) rfl rfl rfl rfl fun R =>
      plays_names_zero info convert object finds
    exact ⟨k, by omega, ends⟩
  | isDefined =>
    have loaded : Walks mem (.start (Idiom.isDefined.rewritten d.kind locals slot ref) []) 1 _ := .ldloc rfl there .here
    obtain ⟨k, le, ends⟩ := ends_generated [.i32 0] loaded (helps .isDefined rfl) rfl rfl rfl rfl fun R =>
      plays_membership_zero finds
    exact ⟨k, by omega, ends⟩
  | equals =>
    have narrow : d.kind.isWide = false := by simpa [Idiom.findsZero] using finds
    have loaded : Walks mem (.start (Idiom.equals.rewritten d.kind locals slot ref) [.ofEnum other]) 2 _ :=
      .ldloc rfl there (.ldarg rfl rfl .here)
    obtain ⟨k, le, ends⟩ := ends_generated [.ofEnum (0 : EnumValue d.kind), .ofEnum other] loaded (helps .equals rfl)
      rfl (by rw [ofEnum_zero narrow]; rfl) rfl rfl fun R => (Operation.plays_equals 0 other).mono (by omega)
    exact ⟨k, by omega, ends⟩
  | hasFlag =>
    have narrow : d.kind.isWide = false := by simpa [Idiom.findsZero] using finds
    obtain ⟨g, flag, stack, ahead, kept⟩ := walks_flag declared mem d.kind (.ofEnum other) ref
    rw [← ofEnum_zero narrow] at stack
    have tested : Walks mem g 3 (g.onto [(⟨5⟩, ⟨.ret, .none⟩)] [.bool (decide (0 &&& other = other))]) :=
      .and ahead stack (.ldloc rfl kept (.ceq rfl rfl .here))
    exact ⟨4 + (3 + 1), by omega, flag.ends (tested.ends (.stop ⟨⟨5⟩, _, [], rfl, rfl⟩ rfl))⟩

theorem stuck_rewritten (finds : idiom.findsZero d density = false) :
    m.Stuck (m.Within depth) (.start (idiom.rewritten d.kind locals slot ref) (idiom.args other)) mem := by
  have there := default_local declared
  cases idiom with
  | toString =>
    have loaded : Walks mem (.start (Idiom.toString.rewritten d.kind locals slot ref) []) 1 _ := .ldloc rfl there .here
    exact stuck_generated [.i32 0] loaded (helps .toString rfl) rfl rfl rfl
      (fun R => jams_of_findsZero (Roster.ordered_ofNames d density.maxFlags) finds) depth
  | isDefined =>
    have loaded : Walks mem (.start (Idiom.isDefined.rewritten d.kind locals slot ref) []) 1 _ := .ldloc rfl there .here
    exact stuck_generated [.i32 0] loaded (helps .isDefined rfl) rfl rfl rfl
      (fun R => jams_of_findsZero (Roster.ordered_ofValues d) finds) depth
  | equals =>
    have wide : d.kind.isWide = true := by simpa [Idiom.findsZero] using finds
    have loaded : Walks mem (.start (Idiom.equals.rewritten d.kind locals slot ref) [.ofEnum other]) 2 _ :=
      .ldloc rfl there (.ldarg rfl rfl .here)
    refine stuck_generated [.i32 0, .ofEnum other] loaded (helps .equals rfl) rfl rfl rfl (fun R => ?_) depth
    rw [Value.ofEnum_wide wide]
    exact .next (fun _ => rfl) (.next (fun _ => rfl) (.fault fun _ => ⟨_, rfl⟩))
  | hasFlag =>
    have wide : d.kind.isWide = true := by simpa [Idiom.findsZero] using finds
    obtain ⟨g, flag, stack, ahead, -⟩ := walks_flag declared mem d.kind (.ofEnum other) ref
    rw [Value.ofEnum_wide wide] at stack
    exact flag.stuck (.of_fault ahead (by rw [act_and stack]; rfl))

end

end

/-! ## Before and after -/

/-- A session that has just begun, with an enum that is known, a holder that is new and the platform's own types. -/
structure Begun (ctx : Context) (s : Session) (d : EnumInfo) : Prop where
  read : EnumInfo.ofSig ctx.library s.module d.sig = .ok d
  bare : s.generated = {}
  module : s.module.find? ctx.settings.holder = none
  library : ∀ p ∈ ctx.library, p.find? ctx.settings.holder = none
  native : s.module.LeavesPlatform

section
variable {ctx : Context} {s : Session} {d : EnumInfo} {locals : Array Sig} {slot : Nat}

theorem Begun.known (begun : Begun ctx s d) : known ctx s.module d.sig = some d := by
  rw [CallSite.known, begun.read]
  rfl

theorem Begun.returns (begun : Begun ctx s d) (declared : locals[slot]? = some d.sig) (other : EnumValue d.kind)
    (idiom : Idiom) : (idiom.body d.sig locals slot).Returns ⟨s.module, ctx.library⟩ 1 6 (idiom.args other)
      (idiom.answer d other) := by
  have stocked := Session.Stocked.fresh begun.module begun.bare
  refine Body.returns_of_ends 0 fun m mem scope => ends_body declared (fun ref yes => ?_) ?_ other idiom
  · obtain ⟨name, listed, declaring⟩ := Platform.declaring_of_isKnown yes
    exact body?_of_plain stocked scope (declaring ▸ begun.native name listed) (Platform.plain_of_isKnown yes)
  · rw [scope, enumInfo?_eq_known]
    exact begun.known

/-- What the method becomes, and what becomes of it. -/
theorem Begun.rewrites (begun : Begun ctx s d) (method : Token) (declared : locals[slot]? = some d.sig)
    (few : locals.size < room) (other : EnumValue d.kind) (idiom : Idiom) : ∃ w',
      run ctx method ⟨s, idiom.body d.sig locals slot⟩ = (.ok true, w') ∧
      (idiom.findsZero d ctx.settings.density = true →
        w'.body.Returns ⟨w'.session.module, ctx.library⟩ 2 860 (idiom.args other) (idiom.answer d other)) ∧
      (idiom.findsZero d ctx.settings.density = false →
        w'.body.Fails ⟨w'.session.module, ctx.library⟩ (idiom.args other)) := by
  have reserves := ModuleDef.reserves_of_free begun.module begun.library
  have info := begun.known
  obtain ⟨ref, w', ran, body, stocked, noted⟩ :=
    run_idiom method slot (.fresh begun.module begun.bare) reserves info few idiom
  have helps {m : Machine} (scope : m.scope = ⟨w'.session.module, ctx.library⟩) (op : Operation)
      (asks : (idiom.site d).operation? = some op) :
      ref.sig = op.sig d.sig ∧ m.body? ref = .ok (some (op.script d ctx.settings.density).body) := by
    obtain ⟨-, sig, e, looked, code⟩ := stocked.lookup? (noted op asks) info (.same _)
    refine ⟨sig, ?_⟩
    unfold body?
    rw [scope, looked]
    simp only [code]
  refine ⟨w', ran, fun finds => ?_, fun finds => ?_⟩
  · rw [body]
    refine Body.returns_of_ends 1 fun m mem scope =>
      ends_rewritten declared idiom (helps scope) other ?_ ?_ ?_ finds
    · rw [scope, enumInfo?_eq_known, known_extends stocked.keeps.grows reserves]
      exact info
    · exact body?_of_plain stocked scope (begun.native "Convert" (by decide)) (by decide : '_' ∉ "ToString".toList)
    · exact body?_of_plain stocked scope (begun.native "Object" (by decide)) (by decide : '_' ∉ "ToString".toList)
  · rw [body]
    exact Body.fails_of_stuck fun m mem scope depth => stuck_rewritten declared idiom (helps scope) other finds

/-- A reflective operation on a local that was never set has the answer for zero, and so has what it is rewritten to,
if that finds the zero of the enum; otherwise the rewritten method comes to no end. -/
theorem run_default (begun : Begun ctx s d) (method : Token) (declared : locals[slot]? = some d.sig)
    (few : locals.size < room) (idiom : Idiom) (other : EnumValue d.kind) :
    (idiom.body d.sig locals slot).Returns ⟨s.module, ctx.library⟩ 1 6 (idiom.args other) (idiom.answer d other) ∧
    ∃ w', CallSite.run ctx method ⟨s, idiom.body d.sig locals slot⟩ = (.ok true, w') ∧
      if idiom.findsZero d ctx.settings.density then
        w'.body.Returns ⟨w'.session.module, ctx.library⟩ 2 860 (idiom.args other) (idiom.answer d other)
      else w'.body.Fails ⟨w'.session.module, ctx.library⟩ (idiom.args other) := by
  refine ⟨begun.returns declared other idiom, ?_⟩
  obtain ⟨w', ran, yes, no⟩ := begun.rewrites method declared few other idiom
  refine ⟨w', ran, ?_⟩
  split
  · exact yes ‹_›
  · exact no (Bool.eq_false_iff.2 ‹_›)

end

/-! ## An enum of long integers -/

def windType : TypeDef where
  ns := "Demo"
  name := "Wind"
  flags := TypeFlags.isPublic
  base := some (.system "Enum")
  fields := #[
    { name := "value__", flags := FieldFlags.isPublic, sig := .prim .int64 },
    { name := "Calm", flags := FieldFlags.isStatic ||| FieldFlags.isLiteral, sig := .valueType ⟨"Demo", "Wind"⟩,
      constant := some (.int .int64 0) },
    { name := "Gale", flags := FieldFlags.isStatic ||| FieldFlags.isLiteral, sig := .valueType ⟨"Demo", "Wind"⟩,
      constant := some (.int .int64 9) }]

def windInfo : EnumInfo where
  name := ⟨"Demo", "Wind"⟩
  kind := .int64
  declared := [⟨"Calm", 0⟩, ⟨"Gale", 9⟩]
  isFlags := false

def winds : ModuleDef := { name := "Demo", types := #[windType] }

theorem begun_wind : Begun {} { module := winds } windInfo where
  read := by
    have resolves : Scope.Resolves ⟨winds, []⟩ ⟨windType.ns, windType.name⟩ windType := Scope.resolves_alone rfl rfl
    obtain ⟨r, found, same⟩ := resolves
    have found : Library.resolve [] winds windInfo.name = .ok r := found
    rw [EnumInfo.sig, EnumInfo.ofSig, found]
    change EnumInfo.ofType windInfo.name r.definition = _
    rw [same]
    rfl
  bare := rfl
  module := ModuleDef.find?_alone (t := windType) rfl rfl (by decide)
  library _ mem := absurd mem List.not_mem_nil
  native name _ := by
    refine ModuleDef.find?_alone (t := windType) rfl rfl fun same => ?_
    exact absurd (congrArg TypeName.ns same) (by decide : "System" ≠ "Demo")

/-- The name of zero is found without a comparison. -/
theorem run_default_wind : (Idiom.toString.body windInfo.sig #[windInfo.sig] 0).Returns ⟨winds, []⟩ 1 6 []
      (.str "Calm") ∧
    ∃ w', run {} (.method 1) ⟨{ module := winds }, Idiom.toString.body windInfo.sig #[windInfo.sig] 0⟩ =
        (.ok true, w') ∧
      w'.body.Returns ⟨w'.session.module, []⟩ 2 860 [] (.str "Calm") := by
  have declared : (#[windInfo.sig] : Array Sig)[0]? = some windInfo.sig := rfl
  have finds : Idiom.toString.findsZero windInfo ({} : Context).settings.density = true := by cbv
  have name : Idiom.toString.answer windInfo 0 = .str "Calm" := by cbv
  have both := run_default begun_wind (.method 1) declared (by decide) .toString 0
  rw [name] at both
  obtain ⟨before, w', ran, after⟩ := both
  rw [if_pos finds] at after
  exact ⟨before, w', ran, after⟩

/-- The zero of a local that was never set is equal to zero, but the rewritten method cannot compare the two. -/
theorem equals_wind : (Idiom.equals.body windInfo.sig #[windInfo.sig] 0).Returns ⟨winds, []⟩ 1 6 [.i64 0] (.i32 1) ∧
    ∃ w', run {} (.method 1) ⟨{ module := winds }, Idiom.equals.body windInfo.sig #[windInfo.sig] 0⟩ =
        (.ok true, w') ∧
      w'.body.Fails ⟨w'.session.module, []⟩ [.i64 0] := by
  have declared : (#[windInfo.sig] : Array Sig)[0]? = some windInfo.sig := rfl
  obtain ⟨w', ran, -, fails⟩ := begun_wind.rewrites (.method 1) declared (by decide) 0 .equals
  exact ⟨begun_wind.returns declared 0 .equals, w', ran, fails rfl⟩

end CallSite

end CilForge
