import CilForge.Machine.Run
import CilForge.Proofs.Enum.Number

/-!
# Enum values on the stack

The machine works on the stack forms of enum values as if on the values: it loads them, reads them back,
compares them and counts the way from one to another (`stack_faithful`). A way down wraps around, and is
then longer than any way up to the greatest value.
-/

namespace CilForge

namespace EnumValue

variable {k : IntKind} {v w base : EnumValue k}

/-! ## Neighbours -/

theorem toNumber_le_greatest (v : EnumValue k) : v.toNumber ≤ (greatest k).toNumber := by
  have := v.toNumber_lt
  rw [toNumber_greatest]
  omega

theorem toNumber_least : (least k).toNumber = k.lowest := by
  unfold least toNumber IntKind.lowest
  split
  · exact BitVec.toInt_intMin_of_pos k.bits_pos
  · simp

theorem least_le_toNumber (v : EnumValue k) : (least k).toNumber ≤ v.toNumber := by
  rw [toNumber_least]
  exact v.lowest_le

theorem next?_eq_none_iff : v.next? = none ↔ v = greatest k := by
  unfold next?
  split <;> simp [*]

theorem prev?_eq_none_iff : v.prev? = none ↔ v = least k := by
  unfold prev?
  split <;> simp [*]

theorem toNumber_of_prev? (h : v.prev? = some w) : w.toNumber = v.toNumber - 1 := by
  unfold prev? at h
  split at h
  · cases h
  · rename_i ne
    cases h
    have low := v.lowest_le
    have high := v.toNumber_lt
    have bottom : v.toNumber ≠ k.lowest := fun bottom => ne (toNumber_injective (bottom.trans toNumber_least.symm))
    refine toNumber_eq_of_emod (by omega) (by omega) ?_
    have one : ((1 : EnumValue k).toNat : Int) = 1 % 2 ^ k.bits := by
      cases k <;> decide
    exact (Heap.toNat_sub_emod v.toNumber_emod.symm one).symm

theorem next?_eq_some_iff : v.next? = some w ↔ w.toNumber = v.toNumber + 1 := by
  refine ⟨toNumber_of_next?, fun number => ?_⟩
  cases next : v.next? with
  | none =>
    have top := toNumber_le_greatest w
    rw [← next?_eq_none_iff.1 next] at top
    omega
  | some u => rw [toNumber_injective ((toNumber_of_next? next).trans number.symm)]

theorem prev?_eq_some_iff : v.prev? = some w ↔ w.toNumber = v.toNumber - 1 := by
  refine ⟨toNumber_of_prev?, fun number => ?_⟩
  cases prev : v.prev? with
  | none =>
    have bottom := least_le_toNumber w
    rw [← prev?_eq_none_iff.1 prev] at bottom
    omega
  | some u => rw [toNumber_injective ((toNumber_of_prev? prev).trans number.symm)]

theorem next?_eq_some_iff_least : v.next? = some w ↔
    v.toNumber < w.toNumber ∧ ∀ u : EnumValue k, v.toNumber < u.toNumber → w.toNumber ≤ u.toNumber := by
  rw [next?_eq_some_iff]
  constructor
  · exact fun number => ⟨by omega, fun u above => by omega⟩
  · rintro ⟨above, least⟩
    obtain ⟨u, next⟩ : ∃ u, v.next? = some u := by
      rw [← Option.ne_none_iff_exists', ne_eq, next?_eq_none_iff]
      rintro rfl
      have := toNumber_le_greatest w
      omega
    have number := toNumber_of_next? next
    have := least u (by omega)
    omega

theorem prev?_eq_some_iff_greatest : v.prev? = some w ↔
    w.toNumber < v.toNumber ∧ ∀ u : EnumValue k, u.toNumber < v.toNumber → u.toNumber ≤ w.toNumber := by
  rw [prev?_eq_some_iff]
  constructor
  · exact fun number => ⟨by omega, fun u below => by omega⟩
  · rintro ⟨below, greatest⟩
    obtain ⟨u, prev⟩ : ∃ u, v.prev? = some u := by
      rw [← Option.ne_none_iff_exists', ne_eq, prev?_eq_none_iff]
      rintro rfl
      have := least_le_toNumber w
      omega
    have number := toNumber_of_prev? prev
    have := greatest u (by omega)
    omega

/-! ## Distances -/

/-- A distance on the stack is right for the way up; for the way down it exceeds every way up. -/
theorem distance_cases {width n : Nat} (bits : k.bits ≤ width)
    (distance : (n : Int) = (v.toNumber - base.toNumber) % 2 ^ width) :
    (base.toNumber ≤ v.toNumber → n = v.offsetFrom base) ∧
      (v.toNumber < base.toNumber → (greatest k).toNumber - base.toNumber + 1 ≤ n) := by
  have pow : (2 : Int) ^ k.bits ≤ 2 ^ width := by exact_mod_cast Nat.pow_le_pow_right (by decide) bits
  have vLow := v.lowest_le
  have vHigh := v.toNumber_lt
  have baseLow := base.lowest_le
  have baseHigh := base.toNumber_lt
  constructor
  · intro up
    rw [Int.emod_eq_of_lt (by omega) (by omega)] at distance
    rw [offsetFrom]
    omega
  · intro down
    rw [← Int.add_emod_right, Int.emod_eq_of_lt (by omega) (by omega)] at distance
    rw [toNumber_greatest]
    omega

end EnumValue

/-! ## Carrying out instructions -/

def IntKind.stackBits (k : IntKind) : Nat := if k.isWide then 64 else 32

def IntKind.word (k : IntKind) (n : Nat) : Value :=
  if k.isWide then .i64 (BitVec.ofNat 64 n) else .i32 (BitVec.ofNat 32 n)

/-- On every machine and in every frame the instruction takes the values `taken` from the top of the stack,
puts the values `put` there, and goes on at the goal, or behind itself if there is none. -/
def Instr.Does (i : Instr) (taken put : List Value) (goal : Option Handle := none) : Prop :=
  ∀ (m : Machine) (callee : Executor) (f : Frame) (h : Handle) (w : World) (below : List Value),
    let after : Frame := { f with stack := put ++ below, constrained := none }
    m.step callee { f with stack := taken ++ below } h i w =
      match goal with
      | none => (.ok (.inl after), w)
      | some goal => ((after.goTo goal).map .inl, w)

theorem Instr.Does.of_act {i : Instr} {taken put : List Value} {goal : Option Handle}
    (act : ∀ (f : Frame) (heap : Heap) (h : Handle) (below : List Value),
      Frame.act { f with stack := taken ++ below } heap h i =
        .ok ({ f with stack := put ++ below, constrained := none }, (goal.map .jump).getD .next)) :
    i.Does taken put goal := by
  intro m callee f h w below
  simp only [Machine.step, act]
  cases goal <;> rfl

namespace EnumValue

variable {k : IntKind} (v w : EnumValue k)

theorem does_load : v.load.Does [] [.ofEnum v] := by
  refine .of_act fun f heap h below => ?_
  unfold load Value.ofEnum
  split <;> rfl

theorem does_ceq : (⟨.ceq, .none⟩ : Instr).Does [.ofEnum w, .ofEnum v] [.bool (decide (v = w))] := by
  refine .of_act fun f heap h below => ?_
  have unfolded (a b : Value) : Frame.act { f with stack := b :: a :: below } heap h ⟨.ceq, .none⟩ =
      (heap.equal a b).bind fun c => .ok ({ f with stack := .bool c :: below, constrained := none }, .next) := rfl
  exact (unfolded _ _).trans (by rw [Heap.equal_ofEnum]; rfl)

theorem does_branch {op : Opcode} {a b : Value} {c : Bool} (goal : Handle)
    (branch : op = .beq ∨ op = .blt ∨ op = .bltUn) (compare : ∀ heap : Heap, heap.compare op a b = .ok c) :
    (Instr.branch op goal).Does [b, a] [] (if c then some goal else none) := by
  refine .of_act fun f heap h below => ?_
  have unfolded : Frame.act { f with stack := b :: a :: below } heap h (.branch op goal) =
      (heap.compare op a b).bind fun c => if c then .ok ({ f with stack := below, constrained := none }, .jump goal)
        else .ok ({ f with stack := below, constrained := none }, .next) := by
    rcases branch with rfl | rfl | rfl <;> rfl
  refine Eq.trans unfolded ?_
  rw [compare]
  cases c <;> rfl

/-- The difference of two stack forms is that of the numbers, modulo the width of the stack. -/
theorem exists_difference : ∃ n : Nat, n < 2 ^ k.stackBits ∧ (n : Int) = (v.toNumber - w.toNumber) % 2 ^ k.stackBits ∧
    ∀ heap : Heap, heap.binary .sub (.ofEnum v) (.ofEnum w) = .ok (k.word n) := by
  unfold IntKind.stackBits IntKind.word
  cases wide : k.isWide with
  | true =>
    refine ⟨(v.stack64 - w.stack64).toNat, (v.stack64 - w.stack64).isLt,
      Heap.toNat_sub_emod (toNat_stack64 wide v) (toNat_stack64 wide w), fun heap => ?_⟩
    rw [Value.ofEnum_wide wide, Value.ofEnum_wide wide, if_pos rfl, BitVec.ofNat_toNat, BitVec.setWidth_eq]
    rfl
  | false =>
    refine ⟨(v.stack32 - w.stack32).toNat, (v.stack32 - w.stack32).isLt,
      Heap.toNat_sub_emod (toNat_stack32 wide v) (toNat_stack32 wide w), fun heap => ?_⟩
    rw [Value.ofEnum_narrow wide, Value.ofEnum_narrow wide, if_neg (by decide), BitVec.ofNat_toNat, BitVec.setWidth_eq]
    rfl

theorem does_sub {n : Nat} (difference : ∀ heap : Heap, heap.binary .sub (.ofEnum v) (.ofEnum w) = .ok (k.word n)) :
    (⟨.sub, .none⟩ : Instr).Does [.ofEnum w, .ofEnum v] [k.word n] := by
  refine .of_act fun f heap h below => ?_
  have unfolded (a b : Value) : Frame.act { f with stack := b :: a :: below } heap h ⟨.sub, .none⟩ =
      (heap.binary .sub a b).bind fun d => .ok ({ f with stack := d :: below, constrained := none }, .next) := rfl
  exact (unfolded _ _).trans (by rw [difference]; rfl)

theorem bits_le_stackBits (k : IntKind) : k.bits ≤ k.stackBits := by cases k <;> decide

/-- The stack form of a value is read back as the value, and is what the value's own instruction loads. The
machine tells values apart by `ceq` and `beq` and orders them by `blt`, for unsigned kinds `blt.un`, just as
their numbers are ordered. `sub` gives the distance from a smaller value to a greater one; where it wraps, it
gives more than any distance up from there. The next and the previous value are the neighbours in the order;
only the greatest value has no next one, and only the least no previous one. -/
theorem stack_faithful :
    (∀ heap : Heap, heap.enum k (.ofEnum v) = .ok v) ∧
    v.load.Does [] [.ofEnum v] ∧
    (⟨.ceq, .none⟩ : Instr).Does [.ofEnum w, .ofEnum v] [.bool (decide (v = w))] ∧
    (∀ goal, (Instr.branch .beq goal).Does [.ofEnum w, .ofEnum v] [] (if v = w then some goal else none)) ∧
    (∀ goal, (Instr.branch (if k.isSigned then .blt else .bltUn) goal).Does [.ofEnum w, .ofEnum v] []
      (if v.toNumber < w.toNumber then some goal else none)) ∧
    (∃ n : Nat, n < 2 ^ k.stackBits ∧ (⟨.sub, .none⟩ : Instr).Does [.ofEnum w, .ofEnum v] [k.word n] ∧
      (w.toNumber ≤ v.toNumber → n = v.offsetFrom w) ∧
      (v.toNumber < w.toNumber → (greatest k).toNumber - w.toNumber + 1 ≤ n)) ∧
    ((least k).toNumber ≤ v.toNumber ∧ v.toNumber ≤ (greatest k).toNumber) ∧
    (v.next? = none ↔ v = greatest k) ∧
    (v.next? = some w ↔ v.toNumber < w.toNumber ∧
      ∀ u : EnumValue k, v.toNumber < u.toNumber → w.toNumber ≤ u.toNumber) ∧
    (v.prev? = none ↔ v = least k) ∧
    (v.prev? = some w ↔ w.toNumber < v.toNumber ∧
      ∀ u : EnumValue k, u.toNumber < v.toNumber → u.toNumber ≤ w.toNumber) := by
  refine ⟨fun heap => heap.enum_ofEnum v, v.does_load, does_ceq v w, fun goal => ?equal, fun goal => ?less,
    ?difference, ⟨v.least_le_toNumber, v.toNumber_le_greatest⟩, next?_eq_none_iff, next?_eq_some_iff_least,
    prev?_eq_none_iff, prev?_eq_some_iff_greatest⟩
  case equal =>
    have branch := does_branch goal (.inl rfl) fun heap => heap.compare_beq_ofEnum v w
    simpa using branch
  case less =>
    have known : (if k.isSigned then Opcode.blt else .bltUn) = .beq ∨
        (if k.isSigned then Opcode.blt else .bltUn) = .blt ∨ (if k.isSigned then Opcode.blt else .bltUn) = .bltUn := by
      cases k.isSigned <;> simp
    have branch := does_branch goal known fun heap => heap.compare_blt_ofEnum v w
    simpa using branch
  case difference =>
    obtain ⟨n, lt, distance, difference⟩ := exists_difference v w
    obtain ⟨up, down⟩ := distance_cases (bits_le_stackBits k) distance
    exact ⟨n, lt, does_sub v w difference, up, down⟩

/-- One below the smaller value, the distance is the greatest word of the stack. -/
example : Heap.binary #[] .sub (.ofEnum (2 : EnumValue .uint8)) (.ofEnum (3 : EnumValue .uint8)) =
    .ok (IntKind.uint8.word (2 ^ 32 - 1)) := rfl

end EnumValue

end CilForge
