import CilForge.Proofs.Enum.Roster
import Mathlib.Data.List.Induction

/-!
# Names of enum values

The entries of a roster of names carry the text that the platform gives their values. A value that
the roster leaves out shows as its number, unless it could be made of flags.
-/

namespace CilForge

section
variable {k : IntKind}

/-! ## Distinct constants -/

theorem distinctConstants_snoc (cs : List (EnumConstant k)) (c : EnumConstant k) :
    distinctConstants (cs ++ [c]) = if (distinctConstants cs).any (·.value = c.value) then
      distinctConstants cs else distinctConstants cs ++ [c] := by
  rw [distinctConstants, List.foldl_append]
  rfl

theorem distinct_values (cs : List (EnumConstant k)) :
    (distinctConstants cs).Pairwise fun a b => a.value ≠ b.value := by
  induction cs using List.reverseRecOn with
  | nil => exact .nil
  | append_singleton cs c ih =>
    rw [distinctConstants_snoc]
    split
    · exact ih
    · rename_i new
      rw [List.pairwise_append]
      refine ⟨ih, List.pairwise_singleton _ _, fun a ha b hb eq => new ?_⟩
      rw [List.mem_singleton.1 hb] at eq
      exact List.any_eq_true.2 ⟨a, ha, by simpa using eq⟩

theorem values_distinct (cs : List (EnumConstant k)) (v : EnumValue k) :
    v ∈ (distinctConstants cs).map (·.value) ↔ v ∈ cs.map (·.value) := by
  induction cs using List.reverseRecOn with
  | nil => rfl
  | append_singleton cs c ih =>
    rw [List.map_append, List.mem_append, ← ih, distinctConstants_snoc]
    split
    · rename_i old
      obtain ⟨a, ha, eq⟩ := List.any_eq_true.1 old
      have known : c.value ∈ (distinctConstants cs).map (·.value) :=
        List.mem_map.2 ⟨a, ha, of_decide_eq_true eq⟩
      refine ⟨.inl, fun h => h.elim id fun h => ?_⟩
      rwa [List.mem_singleton.1 h]
    · rw [List.map_append, List.mem_append]

end

namespace EnumInfo

variable (d : EnumInfo)

theorem find?_constants {c : EnumConstant d.kind} (mem : c ∈ d.constants) :
    d.constants.find? (·.value = c.value) = some c := by
  have distinct : d.constants.Pairwise fun a b => a.value ≠ b.value := distinct_values _
  obtain ⟨front, back, eq⟩ := List.append_of_mem mem
  rw [eq] at distinct ⊢
  rw [List.find?_append, List.find?_eq_none.2, Option.none_or, List.find?_cons_of_pos (by simp)]
  intro a ha
  simpa using (List.pairwise_append.1 distinct).2.2 a ha c (by simp)

theorem format_of_mem {c : EnumConstant d.kind} (mem : c ∈ d.constants) :
    d.format c.value = c.name := by
  rw [format, formatWith, d.find?_constants mem]

theorem find?_constants_eq_none {v : EnumValue d.kind} (new : ∀ c ∈ d.constants, c.value ≠ v) :
    d.constants.find? (·.value = v) = none :=
  List.find?_eq_none.2 fun c hc => by simpa using new c hc

theorem format_eq_text {v : EnumValue d.kind} (new : ∀ c ∈ d.constants, c.value ≠ v)
    (plain : d.isFlags = false ∨ v = 0) : d.format v = v.text := by
  have : (!d.isFlags || decide (v = 0)) = true := by
    rcases plain with h | h
    · simp [h]
    · simp [h]
  rw [format, formatWith, d.find?_constants_eq_none new]
  simp only [this, if_true]

end EnumInfo

/-! ## Unions of flags -/

section
variable {k : IntKind}

theorem eq_of_isSingleBit {s : EnumValue k} (single : s.isSingleBit = true) {i j : Nat}
    (hi : s.getLsbD i = true) (hj : s.getLsbD j = true) : i = j := by
  rw [EnumValue.isSingleBit, decide_eq_true_iff, List.countP_eq_length_filter,
    List.length_eq_one_iff] at single
  obtain ⟨a, eq⟩ := single
  have only {i : Nat} (hi : s.getLsbD i = true) : i = a := by
    have : i ∈ (List.range k.bits).filter (s.getLsbD ·) :=
      List.mem_filter.2 ⟨List.mem_range.2 (BitVec.lt_of_getLsbD hi), hi⟩
    rw [eq] at this
    exact List.mem_singleton.1 this
  rw [only hi, only hj]

theorem exists_bit {v : EnumValue k} (ne : v ≠ 0) : ∃ i, v.getLsbD i = true := by
  refine Classical.byContradiction fun clear => ne (BitVec.eq_of_getLsbD_eq fun i _ => ?_)
  have : v.getLsbD i = false := by
    rw [← Bool.not_eq_true]
    exact fun h => clear ⟨i, h⟩
  rw [this]
  simp

theorem getLsbD_foldl_or {α : Type} (f : α → EnumValue k) (i : Nat) : ∀ (l : List α) (acc : EnumValue k),
    (l.foldl (fun acc a => acc ||| f a) acc).getLsbD i = true ↔
      acc.getLsbD i = true ∨ ∃ a ∈ l, (f a).getLsbD i = true
  | [], acc => by simp
  | a :: l, acc => by
    rw [List.foldl_cons, getLsbD_foldl_or f i l, BitVec.getLsbD_or, Bool.or_eq_true, or_assoc]
    simp

def subsetOf (singles : List (EnumValue k)) (v : EnumValue k) : Nat :=
  (BitVec.ofBoolListLE (singles.map fun s => decide (s &&& v ≠ 0))).toNat

def unionOf (singles : List (EnumValue k)) (subset : Nat) : EnumValue k :=
  (singles.zipIdx.filter fun (_, bit) => subset.testBit bit).foldl (fun acc (v, _) => acc ||| v) 0

theorem subsetOf_lt (singles : List (EnumValue k)) (v : EnumValue k) :
    subsetOf singles v < 2 ^ singles.length := by
  have lt := (BitVec.ofBoolListLE (singles.map fun s => decide (s &&& v ≠ 0))).isLt
  exact Nat.lt_of_lt_of_eq lt (congrArg (2 ^ ·) (List.length_map _))

theorem mem_subsetOf {singles : List (EnumValue k)} {v s : EnumValue k} {j : Nat} :
    (s, j) ∈ (singles.zipIdx.filter fun (_, bit) => (subsetOf singles v).testBit bit) ↔
      singles[j]? = some s ∧ s &&& v ≠ 0 := by
  rw [List.mem_filter, List.mk_mem_zipIdx_iff_getElem?]
  refine and_congr_right fun hj => ?_
  simp only [subsetOf, BitVec.testBit_toNat, BitVec.getLsbD_ofBoolListLE]
  simp [hj]

theorem mem_singles_of_covers {singles : List (EnumValue k)}
    (covers : singles.foldl (· ||| ·) 0 = BitVec.allOnes k.bits) {i : Nat} (lt : i < k.bits) :
    ∃ s ∈ singles, s.getLsbD i = true := by
  have := getLsbD_foldl_or id i singles 0
  simp only [id, covers] at this
  simpa [lt] using this

/-- Single bits that cover a kind make up every value. -/
theorem unionOf_subsetOf {singles : List (EnumValue k)}
    (single : ∀ s ∈ singles, s.isSingleBit = true)
    (covers : singles.foldl (· ||| ·) 0 = BitVec.allOnes k.bits) (v : EnumValue k) :
    unionOf singles (subsetOf singles v) = v := by
  refine BitVec.eq_of_getLsbD_eq fun i hi => ?_
  rw [Bool.eq_iff_iff, unionOf]
  refine (getLsbD_foldl_or Prod.fst i _ 0).trans ?_
  constructor
  · rintro (h | ⟨⟨s, j⟩, mem, bit⟩)
    · simp at h
    · obtain ⟨hj, shares⟩ := mem_subsetOf.1 mem
      -- a bit that both have is the only one that the single has
      obtain ⟨i', both⟩ := exists_bit shares
      rw [BitVec.getLsbD_and, Bool.and_eq_true] at both
      rw [eq_of_isSingleBit (single s (List.mem_of_getElem? hj)) bit both.1]
      exact both.2
  · intro bit
    obtain ⟨s, hs, hbit⟩ := mem_singles_of_covers covers hi
    obtain ⟨j, hj⟩ := List.getElem?_of_mem hs
    refine .inr ⟨(s, j), mem_subsetOf.2 ⟨hj, fun zero => ?_⟩, hbit⟩
    have := congrArg (·.getLsbD i) zero
    simp [hbit, bit] at this

/-- If single bits cover a kind, every value but zero is one of them or a union. -/
theorem mem_unions {singles : List (EnumValue k)} (single : ∀ s ∈ singles, s.isSingleBit = true)
    (covers : singles.foldl (· ||| ·) 0 = BitVec.allOnes k.bits) {v : EnumValue k} (ne : v ≠ 0) :
    v ∈ singles ∨ v ∈ Roster.unions singles := by
  have union := unionOf_subsetOf single covers v
  unfold unionOf at union
  cases chosen : (singles.zipIdx.filter fun (_, bit) => (subsetOf singles v).testBit bit) with
  | nil =>
    rw [chosen] at union
    exact absurd union.symm ne
  | cons c rest =>
    cases rest with
    | nil =>
      rw [chosen] at union
      have mem : (c.1, c.2) ∈ (singles.zipIdx.filter fun (_, bit) => (subsetOf singles v).testBit bit) := by
        simp [chosen]
      have := List.mem_of_getElem? (mem_subsetOf.1 mem).1
      have eq : c.1 = v := by simpa using union
      exact .inl (eq ▸ this)
    | cons c' rest =>
      refine .inr (List.mem_filterMap.2 ⟨subsetOf singles v, ?_, ?_⟩)
      · rw [List.mem_range, Nat.one_shiftLeft]
        exact subsetOf_lt singles v
      · rw [if_neg, union]
        rw [chosen]
        simp

end

/-! ## Rosters of names -/

namespace Roster

variable (d : EnumInfo) (budget : Nat)

theorem isFlags_ofNames : (ofNames d budget).isFlags = d.isFlags := by
  unfold ofNames
  dsimp only
  split <;> rfl

theorem name_ofNames {e : EnumConstant d.kind} (mem : e ∈ (ofNames d budget).entries.toList) :
    e.name = d.format e.value := by
  unfold ofNames at mem
  dsimp only at mem
  split at mem
  · rcases List.mem_append.1 (mem_of_mem_ofEntries _ _ _ mem) with declared | named
    · exact (d.format_of_mem declared).symm
    · obtain ⟨v, -, rfl⟩ := List.mem_map.1 named
      rfl
  · exact (d.format_of_mem (mem_of_mem_ofEntries _ _ _ mem)).symm

theorem constants_ofNames {v : EnumValue d.kind}
    (new : ∀ e ∈ (ofNames d budget).entries.toList, e.value ≠ v) : ∀ c ∈ d.constants, c.value ≠ v := by
  rintro c hc rfl
  have listed : c.value ∈ (ofNames d budget).entries.toList.map (·.value) := by
    unfold ofNames
    dsimp only
    split
    · rw [values_ofEntries, List.map_append]
      exact List.mem_append_left _ (List.mem_map.2 ⟨c, hc, rfl⟩)
    · rw [values_ofEntries]
      exact List.mem_map.2 ⟨c, hc, rfl⟩
  obtain ⟨e, he, eq⟩ := List.mem_map.1 listed
  exact new e he eq

theorem eq_zero_of_exhaustive (exhaustive : (ofNames d budget).exhaustive = true) {v : EnumValue d.kind}
    (new : ∀ e ∈ (ofNames d budget).entries.toList, e.value ≠ v) : v = 0 := by
  refine Decidable.by_contra fun ne => ?_
  have listed : v ∈ (ofNames d budget).entries.toList.map (·.value) := by
    unfold ofNames at exhaustive ⊢
    dsimp only at exhaustive ⊢
    split at exhaustive
    · rename_i listed
      rw [if_pos listed, values_ofEntries, List.map_append, List.mem_append]
      have covers := of_decide_eq_true exhaustive
      have single := mem_unions (v := v) ?_ covers ne
      · by_cases declared : v ∈ d.constants.map (·.value)
        · exact .inl declared
        · refine .inr ?_
          rcases single with single | union
          · exact absurd (List.mem_filter.1 (List.mem_mergeSort.1 single)).1 declared
          · have undeclared : (d.constants.all fun c => decide (c.value ≠ v)) = true :=
              List.all_eq_true.2 fun c hc => decide_eq_true fun eq =>
                declared (List.mem_map.2 ⟨c, hc, eq⟩)
            simp only [List.mem_map]
            exact ⟨_, ⟨v, List.mem_filter.2 ⟨union, undeclared⟩, rfl⟩, rfl⟩
      · intro s hs
        exact (List.mem_filter.1 (List.mem_mergeSort.1 hs)).2
    · cases exhaustive
  obtain ⟨e, he, eq⟩ := List.mem_map.1 listed
  exact new e he eq

/-- A value that a roster of names leaves out shows as its number, except among flags that are not
exhausted. -/
theorem format_of_missing {v : EnumValue d.kind}
    (new : ∀ e ∈ (ofNames d budget).entries.toList, e.value ≠ v)
    (known : ((ofNames d budget).isFlags && !(ofNames d budget).exhaustive) = false) :
    d.format v = v.text := by
  refine d.format_eq_text (constants_ofNames d budget new) ?_
  rw [isFlags_ofNames] at known
  by_cases exhaustive : (ofNames d budget).exhaustive = true
  · exact .inr (eq_zero_of_exhaustive d budget exhaustive new)
  · simp only [Bool.not_eq_true] at exhaustive
    exact .inl (by simpa [exhaustive] using known)

end Roster

end CilForge
