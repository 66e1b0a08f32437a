import CilForge.Machine.Arith
import Mathlib.Algebra.Group.Int.Defs
import Mathlib.Algebra.Group.Nat.Defs

/-!
# The numbers of enum values

A kind of integer holds the `2 ^ bits` numbers from `lowest` on, each by one bit pattern. The forms
of a value on the stack agree with its number modulo the width of the stack, so the machine
compares and subtracts numbers.
-/

namespace CilForge

namespace IntKind

def lowest (k : IntKind) : Int := if k.isSigned then -2 ^ (k.bits - 1) else 0

theorem bits_pos (k : IntKind) : 0 < k.bits := by cases k <;> decide

theorem bits_eq_of_isWide {k : IntKind} (wide : k.isWide = true) : k.bits = 64 := by
  cases k <;> first | rfl | simp [isWide, width] at wide

theorem bits_le_of_not_isWide {k : IntKind} (narrow : k.isWide = false) : k.bits ≤ 32 := by
  cases k <;> first | decide | simp [isWide, width] at narrow

theorem bits_le (k : IntKind) : k.bits ≤ 64 := by cases k <;> decide

end IntKind

theorem two_pow_pred {n : Nat} (pos : 0 < n) : (2 : Int) ^ n = 2 * 2 ^ (n - 1) := by
  obtain ⟨n, rfl⟩ : ∃ k, n = k + 1 := ⟨n - 1, by omega⟩
  rw [Int.pow_succ, Nat.add_sub_cancel]
  omega

theorem toNat_eq_toInt_emod {w : Nat} (x : BitVec w) : (x.toNat : Int) = x.toInt % 2 ^ w := by
  have lt : (x.toNat : Int) < 2 ^ w := by exact_mod_cast x.isLt
  rw [BitVec.toInt_eq_toNat_cond]
  split
  · rw [Int.emod_eq_of_lt (by omega) lt]
  · rw [Int.natCast_pow, show ((2 : Nat) : Int) = 2 from rfl, Int.sub_emod, Int.emod_self, Int.sub_zero,
      Int.emod_emod_of_dvd _ (Int.dvd_refl _), Int.emod_eq_of_lt (by omega) lt]

namespace EnumValue

variable {k : IntKind}

theorem toNumber_emod (v : EnumValue k) : v.toNumber % 2 ^ k.bits = v.toNat := by
  unfold toNumber
  split
  · exact (toNat_eq_toInt_emod v).symm
  · exact Int.emod_eq_of_lt (by omega) (by exact_mod_cast v.isLt)

theorem lowest_le (v : EnumValue k) : k.lowest ≤ v.toNumber := by
  unfold IntKind.lowest toNumber
  split
  · exact BitVec.le_toInt v
  · omega

theorem toNumber_lt (v : EnumValue k) : v.toNumber < k.lowest + 2 ^ k.bits := by
  unfold IntKind.lowest toNumber
  rw [two_pow_pred k.bits_pos]
  split
  · have := BitVec.toInt_lt (x := v); omega
  · have : (v.toNat : Int) < 2 ^ k.bits := by exact_mod_cast v.isLt
    rw [two_pow_pred k.bits_pos] at this
    omega

/-- The number of a value is the only one of the kind with its bits. -/
theorem toNumber_eq_of_emod {v : EnumValue k} {z : Int} (low : k.lowest ≤ z)
    (high : z < k.lowest + 2 ^ k.bits) (bits : z % 2 ^ k.bits = v.toNat) : v.toNumber = z := by
  have hv := v.toNumber_emod
  have h₁ := v.lowest_le
  have h₂ := v.toNumber_lt
  rw [← bits] at hv
  obtain ⟨q, hq⟩ := Int.dvd_of_emod_eq_zero (Int.emod_eq_emod_iff_emod_sub_eq_zero.1 hv)
  have pos : (0 : Int) < 2 ^ k.bits := Int.pow_pos (by decide)
  have q0 : q = 0 := by
    rcases Int.lt_trichotomy q 0 with h | h | h
    · have : (2 : Int) ^ k.bits * q ≤ 2 ^ k.bits * (-1) := Int.mul_le_mul_of_nonneg_left (by omega) (by omega)
      omega
    · exact h
    · have : (2 : Int) ^ k.bits * 1 ≤ 2 ^ k.bits * q := Int.mul_le_mul_of_nonneg_left (by omega) (by omega)
      omega
  subst q0
  omega

theorem toNumber_injective {v w : EnumValue k} (h : v.toNumber = w.toNumber) : v = w := by
  apply BitVec.eq_of_toNat_eq
  have := v.toNumber_emod
  rw [h, w.toNumber_emod] at this
  omega

theorem toNumber_add_ofNat (v : EnumValue k) (n : Nat)
    (high : v.toNumber + n < k.lowest + 2 ^ k.bits) :
    (v + BitVec.ofNat k.bits n : EnumValue k).toNumber = v.toNumber + n := by
  apply toNumber_eq_of_emod
  · have := v.lowest_le; omega
  · exact high
  · rw [BitVec.toNat_add, BitVec.toNat_ofNat, Int.add_emod, toNumber_emod]
    simp

theorem toNumber_greatest : (greatest k).toNumber = k.lowest + 2 ^ k.bits - 1 := by
  have pos : (0 : Int) < 2 ^ (k.bits - 1) := Int.pow_pos (by decide)
  unfold greatest toNumber IntKind.lowest
  rw [two_pow_pred k.bits_pos]
  split
  · rw [BitVec.toInt_intMax]
    omega
  · rw [BitVec.toNat_allOnes, Int.ofNat_sub Nat.one_le_two_pow, Int.natCast_pow,
      show ((2 : Nat) : Int) = 2 from rfl, two_pow_pred k.bits_pos]
    omega

theorem toNumber_of_next? {v w : EnumValue k} (h : v.next? = some w) :
    w.toNumber = v.toNumber + 1 := by
  unfold next? at h
  split at h
  · cases h
  · rename_i ne
    cases h
    have lt := v.toNumber_lt
    have top : v.toNumber ≠ (greatest k).toNumber := fun top => ne (toNumber_injective top)
    rw [toNumber_greatest] at top
    exact toNumber_add_ofNat v 1 (by simp; omega)

/-! ## Forms on the stack -/

theorem toNat_stack32 (narrow : k.isWide = false) (v : EnumValue k) :
    (v.stack32.toNat : Int) = v.toNumber % 2 ^ 32 := by
  have le := k.bits_le_of_not_isWide narrow
  unfold stack32 toNumber
  split
  · rw [toNat_eq_toInt_emod, BitVec.toInt_signExtend_of_le le]
  · rw [BitVec.toNat_setWidth]; rfl

theorem toNat_stack64 (wide : k.isWide = true) (v : EnumValue k) :
    (v.stack64.toNat : Int) = v.toNumber % 2 ^ 64 := by
  have bits := k.bits_eq_of_isWide wide
  have pow : (2 : Int) ^ 64 = 2 ^ k.bits := by rw [bits]
  rw [pow, toNumber_emod, stack64, BitVec.toNat_setWidth_of_le (Nat.le_of_eq bits)]

theorem toInt_stack32 (narrow : k.isWide = false) (signed : k.isSigned = true) (v : EnumValue k) :
    v.stack32.toInt = v.toNumber := by
  simp [stack32, toNumber, signed, BitVec.toInt_signExtend_of_le (k.bits_le_of_not_isWide narrow)]

theorem toNat_stack32_of_unsigned (narrow : k.isWide = false) (unsigned : k.isSigned = false)
    (v : EnumValue k) : (v.stack32.toNat : Int) = v.toNumber := by
  simp [stack32, toNumber, unsigned, BitVec.toNat_setWidth_of_le (k.bits_le_of_not_isWide narrow)]

theorem toInt_stack64 (wide : k.isWide = true) (signed : k.isSigned = true) (v : EnumValue k) :
    v.stack64.toInt = v.toNumber := by
  have pow : 2 ^ 64 = 2 ^ k.bits := by rw [k.bits_eq_of_isWide wide]
  rw [stack64, toNumber, signed, if_pos rfl, BitVec.toInt_setWidth, BitVec.toInt_eq_toNat_bmod, pow]

theorem toNat_stack64_of_unsigned (wide : k.isWide = true) (unsigned : k.isSigned = false)
    (v : EnumValue k) : (v.stack64.toNat : Int) = v.toNumber := by
  simp [stack64, toNumber, unsigned, BitVec.toNat_setWidth_of_le (Nat.le_of_eq (k.bits_eq_of_isWide wide))]

/-- Words that agree with the number of a value modulo the width of its kind stand for it. -/
theorem ofWord_eq_of_emod {v : EnumValue k} {w : BitVec 64}
    (h : w.toInt % 2 ^ k.bits = v.toNumber % 2 ^ k.bits) : ofWord k w = v := by
  apply BitVec.eq_of_toNat_eq
  have dvd : (2 : Int) ^ k.bits ∣ 2 ^ 64 := by exact_mod_cast Nat.pow_dvd_pow 2 k.bits_le
  have hw : (w.toNat : Int) % 2 ^ k.bits = w.toInt % 2 ^ k.bits := by
    rw [toNat_eq_toInt_emod w, Int.emod_emod_of_dvd _ dvd]
  rw [ofWord, BitVec.toNat_setWidth]
  have := v.toNumber_emod
  rw [← h, ← hw] at this
  exact_mod_cast this

theorem ofWord_stack64 (v : EnumValue k) : ofWord k v.stack64 = v := by
  rw [ofWord, stack64, BitVec.setWidth_setWidth_of_le _ k.bits_le, BitVec.setWidth_eq]

theorem ofWord_stack32 (narrow : k.isWide = false) (v : EnumValue k) :
    ofWord k (v.stack32.signExtend 64) = v := by
  have dvd : (2 : Int) ^ k.bits ∣ 2 ^ 32 := by
    exact_mod_cast Nat.pow_dvd_pow 2 (k.bits_le_of_not_isWide narrow)
  apply ofWord_eq_of_emod
  rw [BitVec.toInt_signExtend_of_le (by decide), ← Int.emod_emod_of_dvd v.stack32.toInt dvd,
    ← toNat_eq_toInt_emod, toNat_stack32 narrow, Int.emod_emod_of_dvd _ dvd]

end EnumValue

namespace Value

variable {k : IntKind}

theorem ofEnum_wide (wide : k.isWide = true) (v : EnumValue k) : ofEnum v = .i64 v.stack64 := by
  simp [ofEnum, wide]

theorem ofEnum_narrow (narrow : k.isWide = false) (v : EnumValue k) :
    ofEnum v = .i32 v.stack32 := by
  simp [ofEnum, narrow]

end Value

namespace Heap

open EnumValue

variable {k : IntKind} (heap : Heap)

theorem enum_ofEnum (v : EnumValue k) : heap.enum k (.ofEnum v) = .ok v := by
  cases h : k.isWide with
  | true => rw [Value.ofEnum_wide h]; exact congrArg _ (ofWord_stack64 v)
  | false => rw [Value.ofEnum_narrow h]; exact congrArg _ (ofWord_stack32 h v)

theorem ofEnum_injective {v w : EnumValue k} (h : Value.ofEnum v = .ofEnum w) : v = w := by
  have := enum_ofEnum #[] v
  rw [h, enum_ofEnum] at this
  exact (Except.ok.inj this).symm

theorem isTrue_ofEnum (v : EnumValue k) : (Value.ofEnum v).isTrue = decide (v ≠ 0) := by
  have zero : Value.ofEnum (0 : EnumValue k) = if k.isWide then .i64 0 else .i32 0 := by
    unfold Value.ofEnum stack64 stack32
    cases k <;> rfl
  have inj : Value.ofEnum v = Value.ofEnum 0 ↔ v = 0 := ⟨ofEnum_injective, congrArg _⟩
  rw [zero] at inj
  cases h : k.isWide with
  | true =>
    rw [h, if_pos rfl, Value.ofEnum_wide h, Value.i64.injEq] at inj
    rw [Value.ofEnum_wide h]
    exact decide_eq_decide.2 (not_congr inj)
  | false =>
    rw [h, if_neg (by decide), Value.ofEnum_narrow h, Value.i32.injEq] at inj
    rw [Value.ofEnum_narrow h]
    exact decide_eq_decide.2 (not_congr inj)

theorem equal_ofEnum (v w : EnumValue k) :
    heap.equal (.ofEnum v) (.ofEnum w) = .ok (decide (v = w)) := by
  have inj : Value.ofEnum v = Value.ofEnum w ↔ v = w := ⟨ofEnum_injective, congrArg _⟩
  cases h : k.isWide with
  | true => simp only [Value.ofEnum_wide h, Value.i64.injEq] at inj ⊢; simp [equal, inj]
  | false => simp only [Value.ofEnum_narrow h, Value.i32.injEq] at inj ⊢; simp [equal, inj]

theorem compare_beq_ofEnum (v w : EnumValue k) :
    heap.compare .beq (.ofEnum v) (.ofEnum w) = .ok (decide (v = w)) := equal_ofEnum heap v w

theorem isLT_wordOrder_signed {w : Nat} (a b : BitVec w) :
    (wordOrder false a b).isLT = decide (a.toInt < b.toInt) := by
  rw [Bool.eq_iff_iff, Ordering.isLT_iff_eq_lt, decide_eq_true_iff]
  exact Int.compare_eq_lt

theorem isLT_wordOrder_unsigned {w : Nat} (a b : BitVec w) :
    (wordOrder true a b).isLT = decide ((a.toNat : Int) < b.toNat) := by
  rw [Bool.eq_iff_iff, Ordering.isLT_iff_eq_lt, decide_eq_true_iff, Int.ofNat_lt]
  exact Nat.compare_eq_lt

theorem compare_blt_ofEnum (v w : EnumValue k) :
    heap.compare (if k.isSigned then .blt else .bltUn) (.ofEnum v) (.ofEnum w) =
      .ok (decide (v.toNumber < w.toNumber)) := by
  cases hw : k.isWide <;> cases hs : k.isSigned
  · rw [Value.ofEnum_narrow hw, Value.ofEnum_narrow hw, ← toNat_stack32_of_unsigned hw hs,
      ← toNat_stack32_of_unsigned hw hs, ← isLT_wordOrder_unsigned]
    rfl
  · rw [Value.ofEnum_narrow hw, Value.ofEnum_narrow hw, ← toInt_stack32 hw hs, ← toInt_stack32 hw hs,
      ← isLT_wordOrder_signed]
    rfl
  · rw [Value.ofEnum_wide hw, Value.ofEnum_wide hw, ← toNat_stack64_of_unsigned hw hs,
      ← toNat_stack64_of_unsigned hw hs, ← isLT_wordOrder_unsigned]
    rfl
  · rw [Value.ofEnum_wide hw, Value.ofEnum_wide hw, ← toInt_stack64 hw hs, ← toInt_stack64 hw hs,
      ← isLT_wordOrder_signed]
    rfl

/-! ## Distances -/

theorem toNat_sub_emod {w : Nat} {a b : BitVec w} {x y : Int} (ha : (a.toNat : Int) = x % 2 ^ w)
    (hb : (b.toNat : Int) = y % 2 ^ w) : ((a - b).toNat : Int) = (x - y) % 2 ^ w := by
  have le := Nat.le_of_lt b.isLt
  rw [BitVec.toNat_sub, Int.natCast_emod, Int.natCast_add, Int.ofNat_sub le, Int.natCast_pow, ha, hb]
  rw [show (2 : Nat) = (2 : Int) from rfl,
    show (2 : Int) ^ w - y % 2 ^ w + x % 2 ^ w = x % 2 ^ w - y % 2 ^ w + 2 ^ w by omega,
    Int.add_emod_right, ← Int.sub_emod]

/-- A distance on the stack is a place of a table exactly for the value at that place: below the
table the distance wraps to a number that no table of the kind has. -/
theorem emod_sub_eq_iff {v base : EnumValue k} {w n i : Nat} (bits : k.bits ≤ w)
    (room : base.toNumber + n ≤ k.lowest + 2 ^ k.bits) (lt : i < n) :
    (v.toNumber - base.toNumber) % 2 ^ w = i ↔ v.toNumber = base.toNumber + i := by
  have pow : (2 : Int) ^ k.bits ≤ 2 ^ w := by exact_mod_cast Nat.pow_le_pow_right (by decide) bits
  have h₁ := v.lowest_le
  have h₂ := v.toNumber_lt
  have h₃ := base.lowest_le
  rcases Int.lt_or_le v.toNumber base.toNumber with below | above
  · rw [← Int.add_emod_right, Int.emod_eq_of_lt (by omega) (by omega)]
    omega
  · rw [Int.emod_eq_of_lt (by omega) (by omega)]
    omega

end Heap

end CilForge
