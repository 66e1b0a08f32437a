import CilForge.Proofs.Machine.Depth
import CilForge.Proofs.Machine.Straight

/-!
# What an instruction takes and puts

An instruction that succeeds takes a certain number of values from the stack, puts another number there and
leaves alone what is below. `step_exchanges` reads both numbers off the instruction, and `effect_exact` compares
them with the effect that the instruction is charged with, which is kept in bytes.
-/

namespace CilForge

namespace Frame

variable (f : Frame) (below : List Value)

theorem goTo_above (h : Handle) : (f.above below).goTo h = (f.goTo h).map (·.above below) := by
  unfold goTo above
  cases f.body.codeFrom h <;> rfl

theorem act_onto {g : Frame} {a : Action} {heap : Heap} {h : Handle} {i : Instr} (plain : i.opcode.isPlain = true)
    (act : f.act heap h i = .ok (g, a)) : (f.above below).act heap h i = .ok (g.above below, a) := by
  have around (f : Frame) : f.placed ⟨f.body, f.ahead, f.leaves, #[], below⟩ = f.above below := by
    simp [placed, above]
  have same : i.mapTargets id = i := by
    obtain ⟨o, operand⟩ := i
    cases operand <;> simp [Instr.mapTargets, Operand.mapTargets]
  have action : a.mapTargets id = a := by cases a <;> rfl
  have there := f.act_placed ⟨f.body, f.ahead, f.leaves, #[], below⟩ id heap h h i plain _ act
  obtain ⟨body, ahead, leaves⟩ := place_of_act plain act
  rw [around, same] at there
  simp only [action] at there
  rw [← body, ← ahead, ← leaves, around] at there
  exact there

end Frame

def raise (below : List Value) : Frame ⊕ Outcome → Frame ⊕ Outcome := Sum.map (·.above below) id

def leftOn : Frame ⊕ Outcome → List Value
  | .inl f => f.stack
  | .inr _ => []

namespace Machine

variable {m : Machine} {callee : Executor} {f : Frame} {h : Handle} {i : Instr} {w w' : World} {below : List Value}
  {r : Frame ⊕ Outcome}

theorem step_of_act {g : Frame} {a : Action} (act : f.act w.heap h i = .ok (g, a))
    (above : (f.above below).act w.heap h i = .ok (g.above below, a)) :
    m.step callee (f.above below) h i w =
      ((m.step callee f h i w).1.map (raise below), (m.step callee f h i w).2) := by
  unfold step
  simp only [act, above]
  cases a with
  | jump goal =>
    simp only [Frame.goTo_above]
    cases g.goTo goal <;> rfl
  | call ref args =>
    simp only [afterCall_above]
    rcases m.dispatch callee ref args w with ⟨e | v, w₁⟩
    · rfl
    · dsimp only
      cases afterCall g ref v <;> rfl
  | new ref args =>
    simp only [afterNew_above]
    rcases m.dispatch callee ref args w with ⟨e | v, w₁⟩
    · rfl
    · dsimp only
      cases afterNew g ref v <;> rfl
  | _ => rfl

theorem step_above (plain : i.opcode.isPlain = true) (enough : i.counts.1 ≤ f.stack.length) {r' : Frame ⊕ Outcome} :
    m.step callee (f.above below) h i w = (.ok r', w') ↔
      ∃ r, m.step callee f h i w = (.ok r, w') ∧ r' = raise below r := by
  constructor
  · intro step
    obtain ⟨g', a, act', -⟩ := step_cases step
    obtain ⟨⟨g, a⟩, act, eq⟩ := f.act_above below w.heap h i plain enough _ act'
    cases eq
    rw [step_of_act act act'] at step
    rcases whole : m.step callee f h i w with ⟨e | r, w₁⟩
    · rw [whole] at step
      cases step
    · rw [whole] at step
      cases step
      exact ⟨r, rfl, rfl⟩
  · rintro ⟨r, step, rfl⟩
    obtain ⟨g, a, act, -⟩ := step_cases step
    rw [step_of_act act (f.act_onto below plain act), step]
    rfl

theorem step_pops (plain : i.opcode.isPlain = true) (step : m.step callee f h i w = (.ok r, w')) :
    i.counts.1 ≤ f.stack.length := by
  obtain ⟨g, a, act, -⟩ := step_cases step
  exact (act_profile f w.heap h i plain _ act).pops

theorem flow_eq_throw {o : Opcode} (flow : o.flow = .throw) : o = .throw := by
  cases o <;> first | rfl | cases flow

theorem step_leaves (plain : i.opcode.isPlain = true) (step : m.step callee f h i w = (.ok r, w'))
    (bare : f.stack.length = i.counts.1) : (leftOn r).length = i.counts.2 := by
  cases r with
  | inl g =>
    obtain ⟨k, mem', moved⟩ := step_of_run (f := { f with ahead := (h, i) :: f.ahead }) rfl step
    obtain ⟨way, lands, -⟩ := moved.plain rfl plain
    have stack := lands.stack
    simp only [bare] at stack
    rw [leftOn, stack]
    omega
  | inr o =>
    obtain ⟨g, a, act, out | done | call⟩ := step_cases step
    · obtain ⟨o, out, -, -⟩ := out
      have goes := (act_profile f w.heap h i plain _ act).goes
      cases a with
      | ret v => exact goes.elim
      | throw v =>
        have opcode : i.opcode = .throw := flow_eq_throw goes
        simp [leftOn, Instr.counts, opcode, Opcode.counts?]
      | _ => cases out
    · obtain ⟨_, _, -, eq, -⟩ := done
      cases eq
    · obtain ⟨_, _, _, _, -, -, -, eq⟩ := call
      cases eq

variable (m callee f h i w)

/-- In this frame the instruction takes `taken` values and puts `put`: it succeeds on just so many values from
the top of the stack, leaves so many, does the same whatever is below them, and never succeeds on fewer. -/
structure Exchanges (taken put : Nat) : Prop where
  there : taken ≤ f.stack.length
  done : ∃ r w', (leftOn r).length = put ∧ ∀ below : List Value,
    m.step callee { f with stack := f.stack.take taken ++ below } h i w = (.ok (raise below r), w')
  least : ∀ stack r w', m.step callee { f with stack } h i w = (.ok r, w') → taken ≤ stack.length

variable {m callee f h i w}

theorem Exchanges.unique {p q p' q' : Nat} (first : Exchanges m callee f h i w p q)
    (second : Exchanges m callee f h i w p' q') : p = p' ∧ q = q' := by
  obtain ⟨there, ⟨r, w₁, left, done⟩, least⟩ := first
  obtain ⟨there', ⟨r', w₁', left', done'⟩, least'⟩ := second
  have le := least _ _ _ (done' [])
  have ge := least' _ _ _ (done [])
  simp only [List.append_nil, List.length_take] at le ge
  obtain rfl : p = p' := by omega
  have same := (done []).symm.trans (done' [])
  simp only [Prod.mk.injEq, Except.ok.injEq] at same
  have left_raise (r : Frame ⊕ Outcome) : leftOn (raise [] r) = leftOn r := by
    cases r with
    | inl g => exact List.append_nil _
    | inr o => rfl
  rw [← left_raise, same.1, left_raise] at left
  exact ⟨rfl, left.symm.trans left'⟩

/-- An instruction that succeeds takes and puts as many values as its opcode and its operand say. -/
theorem step_exchanges (plain : i.opcode.isPlain = true) (step : m.step callee f h i w = (.ok r, w')) :
    Exchanges m callee f h i w i.counts.1 i.counts.2 := by
  have there := step_pops plain step
  have bare : (f.stack.take i.counts.1).length = i.counts.1 := by
    rw [List.length_take]
    omega
  have whole : f = Frame.above { f with stack := f.stack.take i.counts.1 } (f.stack.drop i.counts.1) := by
    rw [Frame.above, List.take_append_drop]
  rw [whole] at step
  obtain ⟨r₀, step₀, -⟩ := (step_above plain (Nat.le_of_eq bare.symm)).1 step
  refine ⟨there, ⟨r₀, w', step_leaves plain step₀ bare, fun below => ?_⟩, fun _ _ _ step => step_pops plain step⟩
  exact (step_above plain (Nat.le_of_eq bare.symm)).2 ⟨r₀, step₀, rfl⟩

/-! ## What the effect says -/

section
variable {p q : Nat}

theorem ofCounts_pops : (StackEffect.ofCounts p q).pops = p ↔ p ≤ 255 := by
  simp only [StackEffect.ofCounts]
  omega

theorem ofCounts_pushes (few : q ≤ 127) : (StackEffect.ofCounts p q).pushes = q :=
  Nat.mod_eq_of_lt (by omega)

/-- The signed byte holds a difference down to -128. -/
theorem ofCounts_net (few : q ≤ 127) : (StackEffect.ofCounts p q).net = (q - p : Int) ↔ p ≤ q + 128 := by
  simp only [StackEffect.ofCounts, Int.bmod]
  omega

theorem ofCounts_net_bytes (few : q ≤ 127) :
    (StackEffect.ofCounts p q).net =
        ((StackEffect.ofCounts p q).pushes - (StackEffect.ofCounts p q).pops : Int) ↔
      (StackEffect.ofCounts p q).pops ≤ q + 128 := by
  simp only [StackEffect.ofCounts, Int.bmod]
  omega

end

theorem taken_le_of_flow (other : i.opcode.flow ≠ .call) : i.counts.1 ≤ 3 := by
  obtain ⟨o, operand⟩ := i
  cases o <;> first | exact absurd rfl other | exact Nat.le_of_ble_eq_true rfl

/-- A call that is carried out takes what the signature of its method says. -/
theorem taken_of_call {x : Frame × Action} {heap : Heap} (call : i.opcode.flow = .call)
    (act : f.act heap h i = .ok x) : ∃ ref, i.method? = some ref ∧
      i.counts.1 = if i.opcode = .newobj then ref.sig.params.length else ref.sig.popCount := by
  obtain ⟨o, operand⟩ := i
  cases o
  case call | callvirt | newobj =>
    obtain ⟨ref, needs, -⟩ := Except.bind_eq_ok.1 act
    have method := Instr.gives_needMethod _ ref needs
    exact ⟨ref, method, by simp [Instr.counts, Opcode.counts?, method]⟩
  all_goals cases call

/-- How the effect that an instruction is charged with compares with what it takes and puts when it
succeeds. Nothing is ever put that a byte does not hold, and only a call with a long list of parameters takes
so much. -/
theorem effect_exact (plain : i.opcode.isPlain = true) (step : m.step callee f h i w = (.ok r, w')) :
    ∃ taken put, (∀ p q, Exchanges m callee f h i w p q ↔ p = taken ∧ q = put) ∧
      i.effect.pushes = put ∧ i.effect.pops = taken % 256 ∧
      (i.effect.pops = taken ↔ taken ≤ 255) ∧
      (i.effect.net = (put - taken : Int) ↔ taken ≤ put + 128) ∧
      (i.effect.net = (i.effect.pushes - i.effect.pops : Int) ↔ i.effect.pops ≤ put + 128) ∧
      (i.opcode.flow ≠ .call → taken ≤ 3) ∧
      (i.opcode.flow = .call → ∃ ref, i.method? = some ref ∧
        taken = if i.opcode = .newobj then ref.sig.params.length else ref.sig.popCount) := by
  have exchanges := step_exchanges plain step
  have few : i.counts.2 ≤ 127 := Nat.le_trans (Body.counts_le i) (by decide)
  obtain ⟨g, a, act, -⟩ := step_cases step
  refine ⟨i.counts.1, i.counts.2, fun p q => ⟨fun other => other.unique exchanges, ?_⟩, ofCounts_pushes few,
    rfl, ofCounts_pops, ofCounts_net few, ofCounts_net_bytes few, taken_le_of_flow, fun call =>
      taken_of_call call act⟩
  rintro ⟨rfl, rfl⟩
  exact exchanges

/-! ## Long lists of parameters -/

/-- A static method without a result. -/
def wide (params : Nat) : MethodRef := ⟨⟨"App", "Wide"⟩, "Run", { params := List.replicate params .int32 }⟩

def callWide (params : Nat) : Instr := ⟨.call, .method (wide params)⟩

def answering : Machine := { scope := { module := { name := "" } }, host := .recording }

def laden (params : Nat) : Frame :=
  { Frame.start {} [] with stack := List.replicate params (.i32 0) }

theorem step_wide (n : Nat) (callee : Executor) (h : Handle) (w : World) :
    ∃ r w', answering.step callee (laden n) h (callWide n) w = (.ok r, w') := by
  have act : (laden n).act w.heap h (callWide n) =
      .ok (Frame.start {} [], .call (wide n) (List.replicate n (.i32 0))) := by
    simp [Frame.act, callWide, wide, laden, Instr.needMethod, Instr.method?, Frame.popArgs, Frame.start,
      Frame.callArgs, MethodSig.popCount, bind, Except.bind, pure, Except.pure]
  unfold step
  simp only [act]
  exact ⟨_, _, rfl⟩

theorem counts_callWide (n : Nat) : (callWide n).counts = (n, 0) := by
  simp [Instr.counts, Opcode.counts?, callWide, wide, Instr.method?, MethodSig.popCount, MethodSig.pushCount]

theorem wide_exchanges (n : Nat) (callee : Executor) (h : Handle) (w : World) :
    Exchanges answering callee (laden n) h (callWide n) w n 0 := by
  obtain ⟨r, w', step⟩ := step_wide n callee h w
  have exchanges := step_exchanges rfl step
  rw [counts_callWide] at exchanges
  exact exchanges

theorem effect_exact_wide : ∃ r w', (callWide 200).opcode.isPlain = true ∧
    answering.step (answering.executeWithin 0) (laden 200) ⟨0⟩ (callWide 200) {} = (.ok r, w') ∧
    (∀ p q, Exchanges answering (answering.executeWithin 0) (laden 200) ⟨0⟩ (callWide 200) {} p q ↔
      p = 200 ∧ q = 0) ∧
    (callWide 200).effect.pushes = 0 ∧ (callWide 200).effect.pops = 200 ∧
    (callWide 200).effect.net ≠ 0 - 200 := by
  obtain ⟨r, w', step⟩ := step_wide 200 (answering.executeWithin 0) ⟨0⟩ {}
  obtain ⟨taken, put, exchanges, pushes, -, pops, net, -⟩ := effect_exact rfl step
  obtain ⟨rfl, rfl⟩ := (exchanges 200 0).1 (wide_exchanges 200 _ _ _)
  exact ⟨r, w', rfl, step, exchanges, pushes, pops.2 (by decide), fun eq => absurd (net.1 eq) (by decide)⟩

/-- A call that takes 256 values is charged with none. One that takes 200 is charged with as many, but with
a net effect of 56 more values. -/
theorem effect_callWide :
    Exchanges answering (answering.executeWithin 0) (laden 256) ⟨0⟩ (callWide 256) {} 256 0 ∧
      (callWide 256).effect = ⟨0, 0, 0⟩ ∧
      Exchanges answering (answering.executeWithin 0) (laden 200) ⟨0⟩ (callWide 200) {} 200 0 ∧
      (callWide 200).effect = ⟨200, 0, 56⟩ := by
  have effect (n : Nat) : (callWide n).effect = .ofCounts n 0 := by rw [Instr.effect, counts_callWide]
  exact ⟨wide_exchanges 256 _ _ _, effect 256, wide_exchanges 200 _ _ _, effect 200⟩

end Machine

end CilForge
