import CilForge.Proofs.CallSite.Normal

/-!
# Sites and the depth of the stack

Wherever a site goes on, there are values on the stack that it still takes. So no site goes on where
the stack is empty, as it is where protected regions start and end. A changed site takes no value that
was not there for the old one.
-/

namespace CilForge.CallSite

open Body

variable {desc : Sig → Option EnumInfo} {r : Recipe} {F V B P : List Instr} {d e : Nat}

/-! ## Sites do not go on with an empty stack -/

theorem steady_cons {i : Instr} (straight : i.straight = true) :
    Steady d (i :: P) ↔ i.effect.pops ≤ d ∧ Steady (depthAfter i d) P :=
  ⟨fun h => ⟨h.1, h.2 straight⟩, fun h => ⟨h.1, fun _ => h.2⟩⟩

theorem Runs.steady {f k : Nat} (runs : Runs f k V e) (steady : Steady d (V ++ P)) :
    ∃ d', d' + k = e + d ∧ Steady d' P := by
  induction V generalizing k d with
  | nil =>
    obtain rfl : k = e := runs
    exact ⟨d, by omega, steady⟩
  | cons i V ih =>
    obtain ⟨straight, enough, rest⟩ := runs
    obtain ⟨pops, onward⟩ := steady
    obtain ⟨d', sum, steady'⟩ := ih rest (onward straight)
    refine ⟨d', ?_, steady'⟩
    unfold depthAfter at sum
    omega

theorem not_steady_operand {V₁ V₂ : List Instr} {l c : Instr} (runs : Runs 1 1 (V₁ ++ V₂) 2)
    (boxes : l.opcode = .box) (call : c.effect.pops = 2) : ¬ Steady 0 (V₂ ++ l :: c :: P) := by
  intro steady
  obtain ⟨k, first, second⟩ := runs_append.1 runs
  have floor := first.floor_le (Nat.le_refl 1)
  obtain ⟨d', sum, steady⟩ := second.steady steady
  obtain ⟨pops, pushes⟩ := effect_box boxes
  rw [steady_cons (straight_of_opcode boxes rfl)] at steady
  have := steady.2.1
  unfold depthAfter at this
  omega

def Hungry (P : List Instr) : List Instr → Prop
  | [] => True
  | i :: is => ¬ Steady 0 (i :: is ++ P) ∧ Hungry P is

theorem hungry_append {W : List Instr} (last : Hungry P W)
    (first : ∀ V₁ V₂, V = V₁ ++ V₂ → ¬ Steady 0 (V₂ ++ (W ++ P))) : Hungry P (V ++ W) := by
  induction V with
  | nil => exact last
  | cons i V ih =>
    refine ⟨?_, ih fun V₁ V₂ eq => first (i :: V₁) V₂ (by rw [eq, List.cons_append])⟩
    simpa using first [] (i :: V) rfl

theorem hungry_takes {i : Instr} {L : List Instr} (takes : 1 ≤ i.effect.pops) (rest : Hungry P L) :
    Hungry P (i :: L) :=
  ⟨fun steady => by have := steady.1; omega, rest⟩

theorem Shape.hungry (shape : Shape desc r F V B) (P : List Instr) : Hungry P (F ++ V ++ B).tail := by
  have operand {V : List Instr} {l c : Instr} (runs : Runs 1 1 V 2) (boxes : l.opcode = .box)
      (call : c.effect.pops = 2) : Hungry P (V ++ [l, c]) := by
    refine hungry_append ?_ ?_
    · exact hungry_takes (Nat.le_of_eq (effect_box boxes).1.symm) (hungry_takes (by omega) trivial)
    · rintro V₁ V₂ rfl
      exact not_steady_operand runs boxes call
  have constant {t l c : Instr} {w : BitVec 64} (literal : constant? t = some w) (boxes : l.opcode = .box)
      (call : c.effect.pops = 2) : Hungry P [t, l, c] := by
    obtain ⟨pops, pushes⟩ := effect_constant literal
    refine operand (V := [t]) ⟨straight_of_constant literal, by omega, ?_⟩ boxes call
    simp [Runs, depthAfter, pops, pushes]
  cases shape with
  | getValues _ _ resolves values =>
    exact hungry_takes (effect_getType (.inl rfl) resolves).1.1
      (hungry_takes (Nat.le_of_eq (effect_getValues values).1.symm) trivial)
  | underlying _ _ resolves _ underlying =>
    exact hungry_takes (effect_getType (.inl rfl) resolves).1.1
      (hungry_takes (effect_getUnderlyingType underlying).1.1 trivial)
  | @definedName a r l c _ _ _ _ _ resolves string _ test =>
    refine hungry_takes (effect_getType (.inl rfl) resolves).1.1 ⟨fun steady => ?_,
      hungry_takes (by rw [(effect_isDefined test).1]; decide) trivial⟩
    have effect : l.effect.pops = 0 ∧ l.effect.pushes = 1 :=
      effect_of_counts (p := 0) (q := 1) (by rw [string]; rfl)
    have enough := ((steady_cons (straight_of_opcode string rfl)).1 steady).2.1
    rw [(effect_isDefined test).1] at enough
    unfold depthAfter at enough
    omega
  | definedConstant _ _ resolves literal boxes _ test =>
    exact hungry_takes (effect_getType (.inl rfl) resolves).1.1
      (constant literal boxes (effect_isDefined test).1)
  | defined _ _ resolves runs _ _ _ boxes _ test =>
    exact hungry_takes (effect_getType (.inl rfl) resolves).1.1
      (operand runs boxes (effect_isDefined test).1)
  | literalText _ boxes _ text =>
    exact hungry_takes (Nat.le_of_eq (effect_box boxes).1.symm)
      (hungry_takes (Nat.le_of_eq (effect_toString text).1.symm) trivial)
  | literalPair _ boxes _ literal boxes' pattern =>
    simp only [Instr.isTyped, Bool.and_eq_true, decide_eq_true_eq] at boxes'
    exact hungry_takes (Nat.le_of_eq (effect_box boxes).1.symm)
      (constant literal boxes'.1 (effect_pair pattern).1)
  | boxText _ _ text => exact hungry_takes (Nat.le_of_eq (effect_toString text).1.symm) trivial
  | pair _ _ runs _ _ boxes' pattern =>
    simp only [Instr.isTyped, Bool.and_eq_true, decide_eq_true_eq] at boxes'
    exact operand runs boxes'.1 (effect_pair pattern).1
  | constrained _ _ text => exact hungry_takes (Nat.le_of_eq (effect_toString text).1.symm) trivial

/-! ## Changed sites need no more -/

theorem steady_one {i : Instr} {p q : Nat} (straight : i.straight = true)
    (effect : i.effect.pops = p ∧ i.effect.pushes = q) :
    Steady d (i :: P) ↔ p ≤ d ∧ Steady (d - p + q) P := by
  rw [steady_cons straight, depthAfter, effect.1, effect.2]

theorem steady_operand (runs : Runs 1 1 V 2) : Steady d (V ++ P) ↔ Steady (d + 1) P :=
  steady_append (runs.lift d)

theorem Steady.call {c : Instr} {n : Nat} (straight : c.straight = true)
    (effect : c.effect.pops = n ∧ c.effect.pushes ≤ 1) (steady : Steady d (c :: P)) :
    n ≤ d ∧ Steady (d - n + 1) P := by
  obtain ⟨enough, rest⟩ := (steady_cons straight).1 steady
  rw [effect.1] at enough
  refine ⟨enough, rest.mono ?_⟩
  unfold depthAfter
  omega

theorem Steady.token {a r : Instr} (token : a.opcode = .ldtoken)
    (resolves : calls r .call Platform.isGetTypeFromHandle = true) (steady : Steady d (a :: r :: P)) :
    Steady (d + 1) P := by
  have effect := effect_of_counts (p := 0) (q := 1) (by rw [token]; rfl)
  have takes := effect_getType (.inl rfl) resolves
  rw [steady_one (straight_of_opcode token rfl) effect,
    steady_cons (straight_of_calls resolves (.inl rfl))] at steady
  refine steady.2.2.mono ?_
  unfold depthAfter
  omega

theorem steady_box {b : Instr} (boxes : b.opcode = .box) :
    Steady d (b :: P) ↔ 1 ≤ d ∧ Steady d P := by
  rw [steady_one (straight_of_opcode boxes rfl) (effect_box boxes)]
  refine and_congr_right fun pos => ?_
  rw [Nat.sub_add_cancel pos]

theorem steady_constant {t : Instr} {w : BitVec 64} (literal : constant? t = some w) :
    Steady d (t :: P) ↔ Steady (d + 1) P := by
  rw [steady_one (straight_of_constant literal) (effect_constant literal)]
  simp

/-- The new lines are steady wherever the old ones are. -/
theorem Shape.steady (shape : Shape desc r F V B) (steady : Steady d (F ++ V ++ B ++ P)) :
    Steady d (r.newFront ++ V ++ r.newBack ++ P) := by
  -- a line that pushes one value
  have pushes {x : Instr} {k : Nat} (straight : x.straight = true)
      (effect : x.effect.pops = 0 ∧ x.effect.pushes = 1) (rest : Steady k P) (le : k ≤ d + 1) :
      Steady d (x :: P) :=
    (steady_one straight effect).2 ⟨Nat.zero_le _, rest.mono le⟩
  cases shape with
  | getValues token _ resolves values =>
    obtain ⟨-, rest⟩ := (steady.token token resolves).call (straight_of_any values) (effect_getValues values)
    exact pushes rfl ⟨rfl, rfl⟩ rest (by omega)
  | @underlying a r c e i token _ resolves _ underlying =>
    have effect := effect_of_counts (p := 0) (q := 1) (by rw [token]; rfl)
    have takes := effect_getUnderlyingType underlying
    refine (steady_one (p := 0) (q := 1) rfl ⟨rfl, rfl⟩).2 ⟨Nat.zero_le _, ?_⟩
    have resolved : Steady (d + 1) (r :: c :: P) :=
      ((steady_one (straight_of_opcode token rfl) effect).1 steady).2
    change Steady (d + 1) (r :: P)
    refine ⟨resolved.1, fun straight => ?_⟩
    obtain ⟨enough, rest⟩ := (steady_cons (straight_of_any underlying)).1 (resolved.2 straight)
    refine rest.mono ?_
    unfold depthAfter at *
    omega
  | definedName token _ resolves string _ test =>
    have effect := effect_of_counts (p := 0) (q := 1) (by rw [string]; rfl)
    have named := ((steady_one (straight_of_opcode string rfl) effect).1 (steady.token token resolves)).2
    obtain ⟨-, rest⟩ := named.call (straight_of_calls test (.inl rfl)) (effect_isDefined test)
    exact pushes rfl ⟨rfl, rfl⟩ rest (by omega)
  | definedConstant token _ resolves literal boxes _ test =>
    have boxed := ((steady_box boxes).1 ((steady_constant literal).1 (steady.token token resolves))).2
    obtain ⟨-, rest⟩ := boxed.call (straight_of_calls test (.inl rfl)) (effect_isDefined test)
    exact pushes rfl ⟨rfl, rfl⟩ rest (by omega)
  | @defined a r l c e i V token _ resolves runs _ _ _ boxes _ test =>
    simp only [List.append_assoc] at steady ⊢
    have boxed := ((steady_box boxes).1 ((steady_operand runs).1 (steady.token token resolves))).2
    obtain ⟨-, rest⟩ := boxed.call (straight_of_calls test (.inl rfl)) (effect_isDefined test)
    refine (steady_operand runs).2 ((steady_one (p := 1) (q := 1) rfl ⟨rfl, rfl⟩).2 ?_)
    exact ⟨by omega, rest.mono (by omega)⟩
  | literalText literal boxes _ text =>
    have boxed := ((steady_box boxes).1 ((steady_constant literal).1 steady)).2
    obtain ⟨-, rest⟩ := boxed.call (straight_of_calls text (.inr rfl)) (effect_toString text)
    exact pushes rfl ⟨rfl, rfl⟩ rest (by omega)
  | literalPair literal boxes _ literal' boxes' pattern =>
    simp only [Instr.isTyped, Bool.and_eq_true, decide_eq_true_eq] at boxes'
    have first := ((steady_box boxes).1 ((steady_constant literal).1 steady)).2
    have second := ((steady_box boxes'.1).1 ((steady_constant literal').1 first)).2
    obtain ⟨-, rest⟩ := second.call (straight_of_pair pattern) (effect_pair pattern)
    exact pushes rfl ⟨rfl, rfl⟩ rest (by omega)
  | boxText boxes _ text =>
    obtain ⟨pos, boxed⟩ := (steady_box boxes).1 steady
    obtain ⟨-, rest⟩ := boxed.call (straight_of_calls text (.inr rfl)) (effect_toString text)
    exact (steady_one (p := 1) (q := 1) rfl ⟨rfl, rfl⟩).2 ⟨pos, rest⟩
  | @pair a s c e i p V boxes _ runs _ _ boxes' pattern =>
    simp only [Instr.isTyped, Bool.and_eq_true, decide_eq_true_eq] at boxes'
    simp only [List.append_assoc] at steady ⊢
    obtain ⟨pos, boxed⟩ := (steady_box boxes).1 steady
    obtain ⟨-, boxed⟩ := (steady_box boxes'.1).1 ((steady_operand runs).1 boxed)
    obtain ⟨-, rest⟩ := boxed.call (straight_of_pair pattern) (effect_pair pattern)
    by_cases flag : p = .hasFlag
    · simp only [flag, if_true]
      refine (steady_operand runs).2 ?_
      -- the flag goes to the local and comes back twice
      refine (steady_one (p := 1) (q := 0) rfl ⟨rfl, rfl⟩).2 ⟨by omega, ?_⟩
      refine (steady_one (p := 0) (q := 1) rfl ⟨rfl, rfl⟩).2 ⟨by omega, ?_⟩
      refine (steady_one (p := 2) (q := 1) rfl ⟨rfl, rfl⟩).2 ⟨by omega, ?_⟩
      refine (steady_one (p := 0) (q := 1) rfl ⟨rfl, rfl⟩).2 ⟨by omega, ?_⟩
      exact (steady_one (p := 2) (q := 1) rfl ⟨rfl, rfl⟩).2 ⟨by omega, rest.mono (by omega)⟩
    · simp only [flag, if_false]
      refine (steady_operand runs).2 ((steady_one (p := 2) (q := 1) rfl ⟨rfl, rfl⟩).2 ?_)
      exact ⟨by omega, rest⟩
  | constrained marker _ text =>
    have effect := effect_of_counts (p := 0) (q := 0) (by rw [marker]; rfl)
    have marked := ((steady_one (straight_of_opcode marker rfl) effect).1 steady).2
    obtain ⟨pos, rest⟩ := marked.call (straight_of_calls text (.inr rfl)) (effect_toString text)
    refine (steady_one (p := 1) (q := 1) rfl ⟨rfl, rfl⟩).2 ⟨by omega, ?_⟩
    exact (steady_one (p := 1) (q := 1) rfl ⟨rfl, rfl⟩).2 ⟨by omega, rest.mono (by omega)⟩

end CilForge.CallSite
