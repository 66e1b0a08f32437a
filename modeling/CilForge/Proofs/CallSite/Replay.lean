import CilForge.Proofs.CallSite.Sites

/-!
# Sites with operands

An operand expression stays as it is when its site is changed: it runs on another stack, and leaves the
value that the platform would have read from a box.
-/

namespace CilForge

namespace Frame

variable {f : Frame} {heap : Heap} {h : Handle} {behind : List (Handle × Instr)}

theorem act_marker {i : Instr} {e : Sig} (marks : i.opcode = .constrained) (type : i.type? = some e) :
    Frame.act { f with ahead := behind } heap h i =
      .ok ({ f with ahead := behind, constrained := some e }, .next) := by
  obtain ⟨o, operand⟩ := i
  cases marks
  simp only [Frame.act, Instr.needType, type, bind, Except.bind]
  rfl

theorem act_ldobj {sig : Sig} {address v : Value} {st : List Value} (stack : f.stack = address :: st)
    (loaded : f.load heap address = .ok v) :
    Frame.act { f with ahead := behind } heap h (.typed .ldobj sig) = .ok (f.onto behind (v :: st), .next) := by
  have unfolded : Frame.act { f with ahead := behind } heap h (.typed .ldobj sig) =
      (({ f with ahead := behind, constrained := none } : Frame).pop >>= fun x =>
        x.2.load heap x.1 >>= fun v => .ok (x.2.push v, .next)) := rfl
  have same : ({ f with ahead := behind, stack := st, constrained := none } : Frame).load heap address = .ok v := by
    cases address <;> exact loaded
  rw [unfolded]
  simp only [Frame.pop, stack, bind, Except.bind, same]
  rfl

end Frame

namespace CallSite

open Machine

variable {m : Machine} {R : Carries} {f g : Frame} {mem mem' : Memory} {s : Setting} {σ : Handle → Handle}
  {h : Handle} {rest : Lines}

section
variable {e : Sig} {d : EnumInfo} {a r c : Instr} {A T C : Handle} {ref : MethodRef}
  (native : ∀ ref, Platform.isKnown ref = true → m.body? ref = .ok none)
  (info : m.scope.enumInfo? e = some d)
include info native

theorem replays_defined {V : Lines} {l : Instr} {L : Handle} {sig : Sig} (performs : m.Performs R .isDefined d ref)
    (passes : Passes m R m.faithful rest ([(A, a), (T, r)] ++ V ++ [(L, l), (C, c)]) f mem g mem')
    (token : a.opcode = .ldtoken) (type : a.type? = some e)
    (resolves : calls r .call Platform.isGetTypeFromHandle = true) (runs : Runs 1 1 (sight V) 2)
    (narrow : ∀ p ∈ V, p.2.counts.1 ≤ 255) (boxes : l.opcode = .box) (boxed : l.type? = some sig)
    (fits : sig = e ∨ sig = d.kind.sig) (test : calls c .call Platform.isEnumIsDefined = true) :
    Replays m R s σ (V ++ [(h, .call .call ref)]) f mem g mem' := by
  have kind : m.scope.kind? sig = some d.kind ∧ sig.isReference = false := by
    rcases fits with rfl | rfl
    · exact ⟨Scope.kind?_enum info, reference_of_info info⟩
    · exact ⟨Scope.kind?_sig _, by cases d.kind <;> rfl⟩
  obtain ⟨_, _, before, last⟩ := passes.split
  obtain ⟨_, _, first, operand⟩ := before.split
  obtain ⟨rfl, rfl⟩ := Passes.type native first token type resolves
  obtain ⟨w, own, rfl, top, -, elsewhere⟩ := Passes.operand operand runs narrow
  cases last with
  | line ahead faithful step last =>
    obtain ⟨v, st, stack, rfl, rfl⟩ := step.box ahead boxes boxed kind.2
    rw [show (own.above (.type e :: f.stack)).stack = own.stack ++ .type e :: f.stack from rfl, top] at stack
    cases stack
    obtain ⟨x, rfl⟩ := faithful.boxes _ _ _ sig d.kind w _ ahead boxes boxed kind.1
      (show own.stack ++ _ = _ by rw [top]; rfl)
    obtain ⟨rfl, rfl⟩ := Passes.defined native last test
      (Intrinsic.isDefined_boxed info (Heap.enum_ofEnum _ x) fits) rfl
    have gives : Operation.isDefined.Gives d [.ofEnum x] mem' (.bool (d.nameOf? x).isSome) mem' := .isDefined
    have stack : (own.above f.stack).stack = [.ofEnum x].reverse ++ f.stack := by
      rw [Frame.above, top]
      rfl
    exact Replays.behind elsewhere (replays_call performs gives stack)

theorem replays_pair {V : Lines} {s' : Instr} {S : Handle} {p : Pattern} {B : Lines}
    (performs : p ≠ .hasFlag → m.Performs R .equals d ref)
    (passes : Passes m R m.faithful rest ([(A, a)] ++ V ++ [(S, s'), (C, c)]) f mem g mem')
    (boxes : a.opcode = .box) (boxed : a.type? = some e) (runs : Runs 1 1 (sight V) 2)
    (narrow : ∀ p ∈ V, p.2.counts.1 ≤ 255) (boxes' : s'.opcode = .box) (boxed' : s'.type? = some e)
    (pair : pairPattern? c = some p)
    (new : B.map (·.2) = Plan.back ref f.locals.size (if p = .hasFlag then .hasFlag else .redirect .equals))
    (room : p = .hasFlag → s.extra.size = 1) :
    Replays m R s σ (V ++ B) f mem g mem' := by
  have value := reference_of_info info
  have kind := Scope.kind?_enum info
  obtain ⟨_, _, before, last⟩ := passes.split
  obtain ⟨_, _, first, operand⟩ := before.split
  cases first with
  | line ahead faithful step done =>
    obtain ⟨v, st, stack, rfl, rfl⟩ := step.box ahead boxes boxed value
    obtain ⟨x, rfl⟩ := faithful.boxes _ _ _ e d.kind v st ahead boxes boxed kind stack
    cases done
    obtain ⟨w, own, rfl, top, size, elsewhere⟩ := Passes.operand operand runs narrow
    cases last with
    | line ahead faithful step last =>
      obtain ⟨v, st', stack', rfl, rfl⟩ := step.box ahead boxes' boxed' value
      rw [show (own.above (.boxed e (.ofEnum x) :: st)).stack = own.stack ++ .boxed e (.ofEnum x) :: st from rfl,
        top] at stack'
      cases stack'
      obtain ⟨y, rfl⟩ := faithful.boxes _ _ _ e d.kind w _ ahead boxes' boxed' kind
        (show own.stack ++ _ = _ by rw [top]; rfl)
      obtain ⟨rfl, rfl⟩ := Passes.pair native last pair rfl info (Heap.enum_ofEnum _ x) (Heap.enum_ofEnum _ y) rfl
      have both : (own.above f.stack).stack = .ofEnum y :: .ofEnum x :: st := by
        rw [Frame.above, top, stack]
        rfl
      refine Replays.behind elsewhere ?_
      by_cases flag : p = .hasFlag
      · subst flag
        simp only [if_true, Plan.back, List.map_eq_cons_iff, List.map_eq_nil_iff] at new
        obtain ⟨⟨h₁, _⟩, _, rfl, rfl, ⟨h₂, _⟩, _, rfl, rfl, ⟨h₃, _⟩, _, rfl, rfl, ⟨h₄, _⟩, _, rfl, rfl, ⟨h₅, _⟩, _,
          rfl, rfl, rfl⟩ := new
        exact replays_flag both size (room rfl)
      · simp only [flag, if_false, Plan.back, List.map_eq_singleton_iff] at new
        obtain ⟨⟨h₁, _⟩, rfl, rfl⟩ := new
        simp only [flag, if_false]
        exact replays_call (performs flag) .equals both

theorem Passes.constrained (passes : Passes m R m.faithful rest [(A, a), (C, c)] f mem g mem')
    (marks : a.opcode = .constrained) (type : a.type? = some e)
    (text : calls c .callvirt Platform.isVirtualToString = true) :
    ∃ address st, ∃ x : EnumValue d.kind, f.stack = address :: st ∧ f.load mem.heap address = .ok (.ofEnum x) ∧
      g = f.onto rest (.str (d.format x) :: st) ∧ mem' = mem := by
  obtain ⟨ref', called, test, opcode, method⟩ := called?_of_calls (.inr rfl) text
  obtain ⟨params, this⟩ : ref'.sig.params = [] ∧ ref'.sig.hasThis = true := by
    simp only [Platform.isVirtualToString, Bool.and_eq_true, decide_eq_true_eq] at test
    simp [test]
  have count : ref'.sig.popCount = 1 := by simp [MethodSig.popCount, params, this]
  cases passes with
  | @line _ _ _ _ _ f₁ mem₁ _ _ ahead _ step passes =>
    obtain ⟨rfl, same⟩ := step.eq_of_next ahead (Frame.act_marker marks type)
    subst mem₁
    cases passes with
    | @line _ _ _ _ _ f₂ mem₂ _ _ ahead faithful step done =>
      obtain ⟨enough, -, args, v, heap, adjusted, result, next, same⟩ := step.platform ahead called
        (native ref' (by simp [Platform.isKnown, test])) (fun args => Intrinsic.invoke?_toText test)
      subst f₂ mem₂
      cases done
      have enough : 1 ≤ f.stack.length := count ▸ enough
      obtain ⟨address, st, stack⟩ := List.exists_cons_of_length_pos enough
      have place : f.stack[ref'.sig.params.length]? = some address := by rw [params, stack]; rfl
      obtain ⟨_, _, acts, -⟩ := step.acts
      obtain ⟨address', x, place', loaded⟩ := Frame.load_of_callvirt opcode method this rfl (acts.eq ahead)
      cases place'.symm.trans place
      have loaded : f.load mem.heap address = .ok x := by cases address <;> exact loaded
      obtain ⟨x, rfl⟩ := faithful.reads _ _ _ ref' e d address x ahead opcode method this rfl info place
        (by cases address <;> exact loaded)
      refine ⟨address, st, x, stack, loaded, ?_⟩
      have plain : (Value.ofEnum x).isReference = false := by
        unfold Value.ofEnum
        split <;> rfl
      have boxed : Frame.receiver { f with ahead := rest, constrained := some e } mem.heap e address =
          .ok (.boxed e (.ofEnum x)) := by
        have there : Frame.load { f with ahead := rest, constrained := some e } mem.heap address = .ok (.ofEnum x) := by
          cases address <;> exact loaded
        simp only [Frame.receiver, there, plain, bind, Except.bind, pure, Except.pure, Bool.false_eq_true, if_false]
      rw [if_pos opcode, count, show (f.stack.take 1).reverse = [address] by rw [stack]; rfl,
        Frame.callArgs_constrained this] at adjusted
      change (Frame.receiver { f with ahead := rest, constrained := some e } mem.heap e address).map _ = _ at adjusted
      rw [boxed] at adjusted
      cases adjusted
      rw [Intrinsic.toText_boxed info (Heap.enum_ofEnum _ x)] at result
      cases result
      rw [count, show (f.stack.drop 1) = st by rw [stack]; rfl]
      exact ⟨rfl, rfl⟩

theorem replays_constrained (performs : m.Performs R .toString d ref)
    (passes : Passes m R m.faithful rest [(A, a), (C, c)] f mem g mem')
    (marks : a.opcode = .constrained) (type : a.type? = some e)
    (text : calls c .callvirt Platform.isVirtualToString = true) {h' : Handle} :
    Replays m R s σ [(h, .typed .ldobj d.sig), (h', .call .call ref)] f mem g mem' := by
  obtain ⟨address, st, x, stack, loaded, rfl, rfl⟩ := Passes.constrained native info passes marks type text
  let read := (f.placed { s with ahead := (h', .call .call ref) :: s.ahead }).onto ((h', .call .call ref) :: s.ahead)
    (.ofEnum x :: (st ++ s.below))
  have loads : Step m R (f.placed { s with ahead := (h, .typed .ldobj d.sig) :: (h', .call .call ref) :: s.ahead })
      mem' 1 read mem' := by
    have below : f.stack ++ s.below = address :: (st ++ s.below) := by rw [stack, List.cons_append]
    exact .move ⟨_, _, _, rfl, Frame.act_ldobj below (f.load_placed _ _ _ _ loaded)⟩ rfl
  have gives : Operation.toString.Gives d [.ofEnum x] mem' (.str (d.format x)) mem' := .toString
  obtain ⟨k, calls⟩ := step_performs (f := read) performs gives rfl
    (show read.stack = [.ofEnum x].reverse ++ (st ++ s.below) from rfl)
  exact ⟨s.extra, rfl, .line rfl (Frame.faithful_of_other rfl rfl) loads
    (.line rfl (Frame.faithful_of_other rfl rfl) calls (.done rfl))⟩

end

/-! ## Any site -/

/-- Where the lines of a site take a frame, the lines in their place take its counterpart. -/
theorem Stands.replays {desc : Sig → Option EnumInfo} {b : Body} {r : Recipe} {ref : MethodRef}
    {pre front operand back post F B : Lines}
    (native : ∀ ref, Platform.isKnown ref = true → m.body? ref = .ok none)
    (known : ∀ e d, desc e = some d → m.scope.enumInfo? e = some d)
    (stands : Stands desc b r pre front operand back post)
    (narrow : ∀ p ∈ b.code, p.2.counts.1 ≤ 255)
    (performs : ∀ op, r.operation? = some op → m.Performs R op r.info ref)
    (newFront : F.map (·.2) = r.plan.front r.info) (newBack : B.map (·.2) = r.plan.back ref f.locals.size)
    (room : s.extra.size = r.plan.locals)
    (passes : Passes m R m.faithful rest (front ++ operand ++ back) f mem g mem') :
    Replays m R s σ (F ++ operand ++ B) f mem g mem' := by
  have narrow : ∀ p ∈ operand, p.2.counts.1 ≤ 255 := fun p mem => narrow p (by rw [stands.code]; simp [mem])
  have boxed {i : Instr} {e s : Sig} (fits : i.type? = some e ∨ i.type? = some s) :
      ∃ sig, i.type? = some sig ∧ (sig = e ∨ sig = s) :=
    fits.elim (fun eq => ⟨_, eq, .inl rfl⟩) (fun eq => ⟨_, eq, .inr rfl⟩)
  cases stands.shape.outline with
  | getValues token value resolves values found =>
    obtain rfl := List.map_eq_nil_iff.1 newFront
    obtain ⟨⟨h, _⟩, rfl, rfl⟩ := List.map_eq_singleton_iff.1 newBack
    exact replays_getValues native (known _ _ found) (performs _ rfl) passes token (type?_of_valueType value)
      resolves values
  | underlying token value resolves _ underlying found =>
    obtain rfl := List.map_eq_nil_iff.1 newBack
    obtain ⟨⟨h, _⟩, rfl, rfl⟩ := List.map_eq_singleton_iff.1 newFront
    exact replays_underlying native (known _ _ found) passes token (type?_of_valueType value) resolves underlying
  | definedName token value resolves load string test found =>
    obtain rfl := List.map_eq_nil_iff.1 newBack
    obtain ⟨⟨h, _⟩, rfl, rfl⟩ := List.map_eq_singleton_iff.1 newFront
    exact replays_definedName native (known _ _ found) passes token (type?_of_valueType value) resolves load string
      test
  | definedConstant token value resolves constant boxes fits test found =>
    obtain rfl := List.map_eq_nil_iff.1 newBack
    obtain ⟨⟨h, _⟩, rfl, rfl⟩ := List.map_eq_singleton_iff.1 newFront
    obtain ⟨sig, boxed, fits⟩ := boxed fits
    exact replays_definedConstant native (known _ _ found) passes token (type?_of_valueType value) resolves constant
      boxes boxed fits test
  | defined token value resolves runs _ _ _ boxes fits test found =>
    obtain rfl := List.map_eq_nil_iff.1 newFront
    obtain ⟨⟨h, _⟩, rfl, rfl⟩ := List.map_eq_singleton_iff.1 newBack
    obtain ⟨sig, boxed, fits⟩ := boxed fits
    exact replays_defined native (known _ _ found) (performs _ rfl) passes token (type?_of_valueType value) resolves
      runs narrow boxes boxed fits test
  | literalText constant boxes value call found =>
    obtain rfl := List.map_eq_nil_iff.1 newBack
    obtain ⟨⟨h, _⟩, rfl, rfl⟩ := List.map_eq_singleton_iff.1 newFront
    exact replays_literalText native (known _ _ found) passes constant boxes (type?_of_valueType value) call
  | literalPair constant boxes value constant' boxes' pair found =>
    obtain rfl := List.map_eq_nil_iff.1 newBack
    obtain ⟨⟨h, _⟩, rfl, rfl⟩ := List.map_eq_singleton_iff.1 newFront
    rw [Instr.isTyped, Bool.and_eq_true, decide_eq_true_eq, decide_eq_true_eq] at boxes'
    exact replays_literalPair native (known _ _ found) passes constant boxes (type?_of_valueType value) constant'
      boxes'.1 boxes'.2 pair
  | boxText boxes value call found =>
    obtain rfl := List.map_eq_nil_iff.1 newFront
    obtain ⟨⟨h, _⟩, rfl, rfl⟩ := List.map_eq_singleton_iff.1 newBack
    exact replays_boxText native (known _ _ found) (performs _ rfl) passes boxes (type?_of_valueType value) call
  | @pair _ _ _ _ _ _ _ d p _ boxes value runs _ _ boxes' pair found =>
    rw [Instr.isTyped, Bool.and_eq_true, decide_eq_true_eq, decide_eq_true_eq] at boxes'
    obtain rfl : F = [] := by
      by_cases flag : p = .hasFlag <;> simp only [flag, if_true, if_false] at newFront <;>
        exact List.map_eq_nil_iff.1 newFront
    refine replays_pair native (known _ _ found) (fun other => performs _ ?_) passes boxes (type?_of_valueType value)
      runs narrow boxes'.1 boxes'.2 pair newBack fun flag => ?_
    · simp only [Recipe.operation?, other, if_false]
    · rw [room]
      simp only [flag, if_true]
      rfl
  | constrained marks value call found =>
    obtain ⟨⟨h, _⟩, rfl, rfl⟩ := List.map_eq_singleton_iff.1 newFront
    obtain ⟨⟨h', _⟩, rfl, rfl⟩ := List.map_eq_singleton_iff.1 newBack
    exact replays_constrained native (known _ _ found) (performs _ rfl) passes marks (type?_of_valueType value) call

end CallSite

end CilForge
