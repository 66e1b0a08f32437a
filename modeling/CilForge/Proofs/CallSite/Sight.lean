import CilForge.CallSite.Match
import CilForge.Proofs.Body.Depth

/-!
# What a search sees

A search for call sites looks at opcodes, at constants and types, and at calls of platform methods.
Branch destinations, numbers of locals and the names of other methods are not seen, so code that
differs in these only has the same sites.
-/

namespace CilForge

open CallSite

/-! ## Instructions -/

/-- The platform methods that make up call sites. -/
def Platform.isKnown (m : MethodRef) : Bool :=
  isGetTypeFromHandle m || isEnumGetValues m || isEnumIsDefined m || isEnumGetUnderlyingType m ||
    isEnumHasFlag m || isVirtualToString m || isVirtualEquals m

/-- Of a method that is not known only its signature is seen. -/
def MethodRef.seen (m : MethodRef) : MethodRef :=
  if Platform.isKnown m then m else ⟨⟨"", ""⟩, "", m.sig⟩

namespace Platform

variable (m : MethodRef)

theorem isKnown_stub (sig : MethodSig) : isKnown ⟨⟨"", ""⟩, "", sig⟩ = false := by
  simp [isKnown, isGetTypeFromHandle, isEnumGetValues, isEnumIsDefined, isEnumGetUnderlyingType,
    isEnumHasFlag, isVirtualToString, isVirtualEquals, MethodRef.isNamed]

/-- A test of known methods only sees what is seen. -/
theorem seen_of_known {test : MethodRef → Bool} (known : ∀ m, test m = true → isKnown m = true) :
    test m.seen = test m := by
  unfold MethodRef.seen
  split
  · rfl
  · rename_i other
    rw [Bool.eq_false_iff.2 fun yes => other (known m yes), Bool.eq_false_iff]
    intro yes
    have := known _ yes
    rw [isKnown_stub] at this
    cases this

@[simp] theorem isGetTypeFromHandle_seen : isGetTypeFromHandle m.seen = isGetTypeFromHandle m :=
  seen_of_known m fun _ yes => by simp [isKnown, yes]

@[simp] theorem isEnumGetValues_seen : isEnumGetValues m.seen = isEnumGetValues m :=
  seen_of_known m fun _ yes => by simp [isKnown, yes]

@[simp] theorem isEnumIsDefined_seen : isEnumIsDefined m.seen = isEnumIsDefined m :=
  seen_of_known m fun _ yes => by simp [isKnown, yes]

@[simp] theorem isEnumGetUnderlyingType_seen :
    isEnumGetUnderlyingType m.seen = isEnumGetUnderlyingType m :=
  seen_of_known m fun _ yes => by simp [isKnown, yes]

@[simp] theorem isEnumHasFlag_seen : isEnumHasFlag m.seen = isEnumHasFlag m :=
  seen_of_known m fun _ yes => by simp [isKnown, yes]

@[simp] theorem isVirtualToString_seen : isVirtualToString m.seen = isVirtualToString m :=
  seen_of_known m fun _ yes => by simp [isKnown, yes]

@[simp] theorem isVirtualEquals_seen : isVirtualEquals m.seen = isVirtualEquals m :=
  seen_of_known m fun _ yes => by simp [isKnown, yes]

end Platform

@[simp] theorem MethodRef.sig_seen (m : MethodRef) : m.seen.sig = m.sig := by
  unfold seen
  split <;> rfl

def Operand.seen : Operand → Operand
  | method ref => method ref.seen
  | int32 value => int32 value
  | int64 value => int64 value
  | string value => string value
  | type sig => type sig
  | _ => none

namespace Instr

def seen (i : Instr) : Instr := ⟨i.opcode, i.operand.seen⟩

variable (i : Instr)

@[simp] theorem opcode_seen : i.seen.opcode = i.opcode := rfl

@[simp] theorem type?_seen : i.seen.type? = i.type? := by
  unfold type? seen
  cases i.operand <;> rfl

@[simp] theorem method?_seen : i.seen.method? = i.method?.map (·.seen) := by
  unfold method? seen
  cases i.operand <;> rfl

@[simp] theorem string?_seen : i.seen.string? = i.string? := by
  unfold string? seen
  cases i.operand <;> rfl

@[simp] theorem int64?_seen : i.seen.int64? = i.int64? := by
  obtain ⟨opcode, operand⟩ := i
  cases opcode <;> cases operand <;> rfl

@[simp] theorem effect_seen : i.seen.effect = i.effect := by
  have counts : i.seen.counts = i.counts := by
    unfold Instr.counts
    rw [opcode_seen, method?_seen]
    cases i.opcode.counts? with
    | some c => rfl
    | none =>
      cases i.method? with
      | none => rfl
      | some m =>
        cases i.opcode <;> simp
  unfold effect
  rw [counts]

@[simp] theorem isTyped_seen (opcode : Opcode) (sig : Sig) :
    i.seen.isTyped opcode sig = i.isTyped opcode sig := by
  unfold isTyped
  rw [type?_seen]
  rfl

@[simp] theorem seen_mapTargets (σ : Handle → Handle) : (i.mapTargets σ).seen = i.seen := by
  obtain ⟨opcode, operand⟩ := i
  cases operand <;> rfl

end Instr

namespace CallSite

variable (i : Instr)

@[simp] theorem valueType?_seen : valueType? i.seen = valueType? i := by simp [valueType?]

@[simp] theorem constant?_seen : constant? i.seen = constant? i := by simp [constant?]

@[simp] theorem called?_seen : called? i.seen = (called? i).map (·.seen) := by
  have same : isCall i.seen = isCall i := rfl
  unfold called?
  rw [same, Instr.method?_seen]
  split <;> rfl

theorem calls_seen (opcode : Opcode) {test : MethodRef → Bool} (same : ∀ m, test m.seen = test m) :
    calls i.seen opcode test = calls i opcode test := by
  unfold calls
  rw [Instr.method?_seen, Option.any_map]
  simp only [same]
  rfl

theorem any_called?_seen {test : MethodRef → Bool} (same : ∀ m, test m.seen = test m) :
    (called? i.seen).any test = (called? i).any test := by
  rw [called?_seen, Option.any_map]
  simp only [same]

@[simp] theorem pairPattern?_seen : pairPattern? i.seen = pairPattern? i := by
  unfold pairPattern?
  rw [called?_seen]
  cases called? i with
  | none => rfl
  | some m =>
    simp only [Option.map_some, Platform.isEnumHasFlag_seen, Platform.isVirtualEquals_seen]
    rfl

/-! ## Effects -/

variable {i}

theorem effect_of_counts {p q : Nat} (counts : i.opcode.counts? = some (p, q)) :
    i.effect.pops = p % 256 ∧ i.effect.pushes = q % 256 := by
  unfold Instr.effect Instr.counts
  rw [counts]
  exact ⟨rfl, rfl⟩

theorem opcode_of_constant {w : BitVec 64} (constant : constant? i = some w) :
    i.opcode = .ldcI4 ∨ i.opcode = .ldcI8 := by
  unfold constant? at constant
  split at constant
  · exact .inl ‹_›
  · exact .inr ‹_›
  · cases constant

theorem effect_constant {w : BitVec 64} (constant : constant? i = some w) :
    i.effect.pops = 0 ∧ i.effect.pushes = 1 := by
  rcases opcode_of_constant constant with opcode | opcode <;>
    exact effect_of_counts (p := 0) (q := 1) (by rw [opcode]; rfl)

theorem effect_box (boxes : i.opcode = .box) : i.effect.pops = 1 ∧ i.effect.pushes = 1 :=
  effect_of_counts (p := 1) (q := 1) (by rw [boxes]; rfl)

theorem effect_of_called {m : MethodRef} (call : called? i = some m) :
    i.effect.pops = m.sig.popCount % 256 ∧ i.effect.pushes = m.sig.pushCount := by
  obtain ⟨opcode, operand⟩ := i
  simp only [called?, isCall, Option.ite_none_right_eq_some, Bool.or_eq_true, decide_eq_true_eq] at call
  have small : m.sig.pushCount % 256 = m.sig.pushCount := by
    unfold MethodSig.pushCount
    split <;> rfl
  obtain ⟨rfl | rfl, method⟩ := call <;>
    simp [Instr.effect, Instr.counts, Opcode.counts?, method, StackEffect.ofCounts, small]

theorem pushes_le_of_called {m : MethodRef} (call : called? i = some m) : i.effect.pushes ≤ 1 := by
  rw [(effect_of_called call).2, MethodSig.pushCount]
  split <;> omega

theorem calls_iff {opcode : Opcode} {test : MethodRef → Bool} : calls i opcode test = true ↔
    i.opcode = opcode ∧ ∃ m, i.method? = some m ∧ test m = true := by
  simp [calls, Option.any_eq_true]

/-- A call of a method that passes a test takes what the test says. -/
theorem effect_of_calls {opcode : Opcode} {test : MethodRef → Bool} {P : Nat → Prop}
    (call : opcode = .call ∨ opcode = .callvirt) (pops : ∀ m, test m = true → P (m.sig.popCount % 256))
    (yes : calls i opcode test = true) : P i.effect.pops ∧ i.effect.pushes ≤ 1 := by
  obtain ⟨rfl, m, method, passes⟩ := calls_iff.1 yes
  have called : called? i = some m := by
    rw [called?, if_pos (by simpa [isCall] using call), method]
  exact ⟨(effect_of_called called).1 ▸ pops m passes, pushes_le_of_called called⟩

theorem effect_of_any {test : MethodRef → Bool} {P : Nat → Prop}
    (pops : ∀ m, test m = true → P (m.sig.popCount % 256)) (yes : (called? i).any test = true) :
    P i.effect.pops ∧ i.effect.pushes ≤ 1 := by
  obtain ⟨m, called, passes⟩ := (Option.any_eq_true ..).1 yes
  exact ⟨(effect_of_called called).1 ▸ pops m passes, pushes_le_of_called called⟩

theorem effect_getType {opcode : Opcode} (call : opcode = .call ∨ opcode = .callvirt)
    (yes : calls i opcode Platform.isGetTypeFromHandle = true) :
    (1 ≤ i.effect.pops ∧ i.effect.pops ≤ 2) ∧ i.effect.pushes ≤ 1 := by
  refine effect_of_calls (P := fun n => 1 ≤ n ∧ n ≤ 2) call (fun m yes => ?_) yes
  have params : m.sig.params.length = 1 := by
    simp [Platform.isGetTypeFromHandle, MethodRef.isNamed] at yes
    exact yes.2
  cases this : m.sig.hasThis <;> simp [MethodSig.popCount, params, this]

theorem effect_toString (yes : calls i .callvirt Platform.isVirtualToString = true) :
    i.effect.pops = 1 ∧ i.effect.pushes ≤ 1 := by
  refine effect_of_calls (P := (· = 1)) (.inr rfl) (fun m yes => ?_) yes
  simp [Platform.isVirtualToString] at yes
  simp [MethodSig.popCount, yes]

theorem effect_isDefined (yes : calls i .call Platform.isEnumIsDefined = true) :
    i.effect.pops = 2 ∧ i.effect.pushes ≤ 1 := by
  refine effect_of_calls (P := (· = 2)) (.inl rfl) (fun m yes => ?_) yes
  simp [Platform.isEnumIsDefined, MethodRef.isNamed] at yes
  simp [MethodSig.popCount, yes]

theorem effect_getValues (yes : (called? i).any Platform.isEnumGetValues = true) :
    i.effect.pops = 1 ∧ i.effect.pushes ≤ 1 := by
  refine effect_of_any (P := (· = 1)) (fun m yes => ?_) yes
  simp [Platform.isEnumGetValues, MethodRef.isNamed] at yes
  simp [MethodSig.popCount, yes]

theorem effect_getUnderlyingType (yes : (called? i).any Platform.isEnumGetUnderlyingType = true) :
    (1 ≤ i.effect.pops ∧ i.effect.pops ≤ 2) ∧ i.effect.pushes ≤ 1 := by
  refine effect_of_any (P := fun n => 1 ≤ n ∧ n ≤ 2) (fun m yes => ?_) yes
  have params : m.sig.params.length = 1 := by
    simp [Platform.isEnumGetUnderlyingType, MethodRef.isNamed] at yes
    exact yes.2
  cases this : m.sig.hasThis <;> simp [MethodSig.popCount, params, this]

theorem effect_pair {p : Pattern} (yes : pairPattern? i = some p) :
    i.effect.pops = 2 ∧ i.effect.pushes ≤ 1 := by
  have any : (called? i).any (fun m => Platform.isEnumHasFlag m || Platform.isVirtualEquals m) = true := by
    unfold pairPattern? at yes
    cases call : called? i with
    | none =>
      rw [call] at yes
      cases yes
    | some m =>
      rw [call] at yes
      grind
  refine effect_of_any (P := (· = 2)) (fun m yes => ?_) any
  simp only [Platform.isEnumHasFlag, Platform.isVirtualEquals, MethodRef.isNamed, Bool.or_eq_true,
    Bool.and_eq_true, decide_eq_true_eq] at yes
  rcases yes with ⟨⟨-, params⟩, this⟩ | ⟨⟨⟨this, -⟩, params⟩, -⟩ <;>
    simp [MethodSig.popCount, params, this]

end CallSite

/-! ## Straight code -/

def Instr.straight (i : Instr) : Bool := i.opcode.flow = .sequential || i.opcode.flow = .call

@[simp] theorem Instr.straight_seen (i : Instr) : i.seen.straight = i.straight := rfl

namespace CallSite

open Body

/-- Straight code that goes from one depth of the stack to another and leaves the lowest `floor`
values alone. -/
def Runs (floor : Nat) : Nat → List Instr → Nat → Prop
  | d, [], d' => d = d'
  | d, i :: is, d' =>
    i.straight = true ∧ i.effect.pops + floor ≤ d ∧ Runs floor (depthAfter i d) is d'

/-- From here on, as far as the code is straight, no value is taken that is not there. -/
def Steady : Nat → List Instr → Prop
  | _, [] => True
  | d, i :: is => i.effect.pops ≤ d ∧ (i.straight = true → Steady (depthAfter i d) is)

variable {f g d d' e e' : Nat} {V W : List Instr}

theorem depthAfter_add {i : Instr} (enough : i.effect.pops ≤ d) (c : Nat) :
    depthAfter i (d + c) = depthAfter i d + c := by
  unfold depthAfter
  omega

theorem runs_append : Runs f d (V ++ W) d' ↔ ∃ k, Runs f d V k ∧ Runs f k W d' := by
  induction V generalizing d with
  | nil => simp [Runs]
  | cons i V ih =>
    simp only [List.cons_append, Runs, ih]
    constructor
    · rintro ⟨straight, pops, k, first, second⟩
      exact ⟨k, ⟨straight, pops, first⟩, second⟩
    · rintro ⟨k, ⟨straight, pops, first⟩, second⟩
      exact ⟨straight, pops, k, first, second⟩

theorem Runs.straight (runs : Runs f d V d') : ∀ i ∈ V, i.straight = true := by
  induction V generalizing d with
  | nil => exact List.forall_mem_nil _
  | cons i V ih =>
    intro j mem
    rcases List.mem_cons.1 mem with rfl | mem
    · exact runs.1
    · exact ih runs.2.2 j mem

theorem Runs.raise (runs : Runs f d V d') (c : Nat) : Runs (f + c) (d + c) V (d' + c) := by
  induction V generalizing d with
  | nil => exact congrArg (· + c) runs
  | cons i V ih =>
    obtain ⟨straight, pops, rest⟩ := runs
    refine ⟨straight, by omega, ?_⟩
    rw [depthAfter_add (by omega)]
    exact ih rest

theorem Runs.lower {c : Nat} (runs : Runs (f + c) (d + c) V (d' + c)) : Runs f d V d' := by
  induction V generalizing d with
  | nil => exact Nat.add_right_cancel runs
  | cons i V ih =>
    obtain ⟨straight, pops, rest⟩ := runs
    refine ⟨straight, by omega, ih ?_⟩
    rw [← depthAfter_add (by omega)]
    exact rest

theorem Runs.weaken (runs : Runs f d V d') (le : g ≤ f) : Runs g d V d' := by
  induction V generalizing d with
  | nil => exact runs
  | cons i V ih => exact ⟨runs.1, by have := runs.2.1; omega, ih runs.2.2⟩

theorem Runs.lift (runs : Runs 1 1 V 2) (d : Nat) : Runs 0 d V (d + 1) := by
  have low : Runs 0 0 V 1 := Runs.lower (c := 1) runs
  have := low.raise d
  rw [Nat.zero_add, Nat.add_comm 1] at this
  exact this.weaken (Nat.zero_le _)

theorem Runs.ne_nil (runs : Runs f d V d') (ne : d ≠ d') : V ≠ [] := by
  rintro rfl
  exact ne runs

theorem Runs.floor_le (runs : Runs f d V d') (le : f ≤ d) : f ≤ d' := by
  induction V generalizing d with
  | nil => exact runs ▸ le
  | cons i V ih =>
    refine ih runs.2.2 ?_
    have := runs.2.1
    unfold depthAfter
    omega

/-- Two runs of the same code keep their distance. -/
theorem Runs.distance (first : Runs f d V d') (second : Runs g e V e') : d' + e = e' + d := by
  induction V generalizing d e with
  | nil =>
    have same : d = d' := first
    have same' : e = e' := second
    omega
  | cons i V ih =>
    have := ih first.2.2 second.2.2
    have := first.2.1
    have := second.2.1
    unfold depthAfter at *
    omega

theorem Steady.mono (steady : Steady d V) (le : d ≤ e) : Steady e V := by
  induction V generalizing d e with
  | nil => trivial
  | cons i V ih =>
    refine ⟨Nat.le_trans steady.1 le, fun straight => ih (steady.2 straight) ?_⟩
    unfold depthAfter
    omega

theorem steady_append (runs : Runs 0 d V d') : Steady d (V ++ W) ↔ Steady d' W := by
  induction V generalizing d with
  | nil =>
    cases runs
    exact Iff.rfl
  | cons i V ih =>
    obtain ⟨straight, pops, rest⟩ := runs
    rw [List.cons_append, Steady, ih rest]
    exact ⟨fun h => h.2 straight, fun h => ⟨pops, fun _ => h⟩⟩

/-- A change of the rest that keeps it steady at any depth keeps the whole steady. -/
theorem Steady.change {W' : List Instr} (change : ∀ d, Steady d W → Steady d W')
    (steady : Steady d (V ++ W)) : Steady d (V ++ W') := by
  induction V generalizing d with
  | nil => exact change d steady
  | cons i V ih => exact ⟨steady.1, fun straight => ih (steady.2 straight)⟩

end CallSite

end CilForge
