import CilForge.Proofs.Enum.Names

/-!
# Texts of flags

The text of a value that has no name of its own is taken apart from the greatest constant down. What
is taken away and what is left never share a bit, and together they are the value; so the names that
are written stand for disjoint constants that unite to it.
-/

namespace CilForge

section
variable {k : IntKind}

/-! ## Bits -/

theorem and_eq_right_iff {a b : EnumValue k} :
    a &&& b = b ↔ ∀ i, b.getLsbD i = true → a.getLsbD i = true := by
  constructor
  · intro h i hi
    rw [← h, BitVec.getLsbD_and, Bool.and_eq_true] at hi
    exact hi.1
  · intro h
    refine BitVec.eq_of_getLsbD_eq fun i _ => ?_
    rw [BitVec.getLsbD_and, Bool.and_eq_right_iff_imp]
    exact h i

theorem and_eq_zero_iff {a b : EnumValue k} :
    a &&& b = 0 ↔ ∀ i, a.getLsbD i = true → b.getLsbD i = false := by
  constructor
  · intro h i hi
    have := congrArg (·.getLsbD i) h
    simpa [hi] using this
  · intro h
    refine BitVec.eq_of_getLsbD_eq fun i _ => ?_
    cases ha : a.getLsbD i with
    | false => simp [ha]
    | true => simp [ha, h i ha]

theorem getLsbD_clear {rest c : EnumValue k} {i : Nat} :
    (rest &&& ~~~c).getLsbD i = true ↔ rest.getLsbD i = true ∧ c.getLsbD i = false := by
  rw [BitVec.getLsbD_and, BitVec.getLsbD_not, Bool.and_eq_true, Bool.and_eq_true, decide_eq_true_iff,
    Bool.not_eq_true']
  exact ⟨fun h => ⟨h.1, h.2.2⟩, fun h => ⟨h.1, BitVec.lt_of_getLsbD h.1, h.2⟩⟩

/-! ## First names -/

theorem find?_distinctConstants (cs : List (EnumConstant k)) (v : EnumValue k) :
    (distinctConstants cs).find? (·.value = v) = cs.find? (·.value = v) := by
  induction cs using List.reverseRecOn with
  | nil => rfl
  | append_singleton cs c ih =>
    rw [distinctConstants_snoc, List.find?_append, ← ih]
    split
    · rename_i old
      obtain ⟨a, ha, eq⟩ := List.any_eq_true.1 old
      by_cases hv : c.value = v
      · have found : ((distinctConstants cs).find? (·.value = v)).isSome = true :=
          List.find?_isSome.2 ⟨a, ha, by rw [decide_eq_true_iff] at eq ⊢; exact eq.trans hv⟩
        rw [Option.or_of_isSome found]
      · simp [hv]
    · rw [List.find?_append]

/-! ## Taking a value apart -/

structure Stripped (rest : EnumValue k) (parts : List (EnumConstant k)) (left : EnumValue k) : Prop where
  disjoint : parts.Pairwise fun a b => a.value &&& b.value = 0
  apart : ∀ c ∈ parts, c.value &&& left = 0
  union : parts.foldl (fun u c => u ||| c.value) left = rest

theorem Stripped.getLsbD_iff {rest left : EnumValue k} {parts : List (EnumConstant k)}
    (h : Stripped rest parts left) (i : Nat) :
    rest.getLsbD i = true ↔ left.getLsbD i = true ∨ ∃ c ∈ parts, c.value.getLsbD i = true := by
  rw [← h.union]
  exact getLsbD_foldl_or EnumConstant.value i parts left

theorem Stripped.cons {rest left : EnumValue k} {parts : List (EnumConstant k)} {c : EnumConstant k}
    (within : rest &&& c.value = c.value) (h : Stripped (rest &&& ~~~c.value) parts left) :
    Stripped rest (c :: parts) left := by
  have outside (i : Nat) (hi : (rest &&& ~~~c.value).getLsbD i = true) : c.value.getLsbD i = false :=
    (getLsbD_clear.1 hi).2
  refine ⟨List.pairwise_cons.2 ⟨fun p hp => ?_, h.disjoint⟩, List.forall_mem_cons.2 ⟨?_, h.apart⟩, ?_⟩
  · rw [BitVec.and_comm]
    exact and_eq_zero_iff.2 fun i hi => outside i ((h.getLsbD_iff i).2 (.inr ⟨p, hp, hi⟩))
  · rw [BitVec.and_comm]
    exact and_eq_zero_iff.2 fun i hi => outside i ((h.getLsbD_iff i).2 (.inl hi))
  · refine BitVec.eq_of_getLsbD_eq fun i _ => ?_
    have bits := h.getLsbD_iff i
    rw [getLsbD_clear] at bits
    have taken := and_eq_right_iff.1 within i
    have all := getLsbD_foldl_or EnumConstant.value i (c :: parts) left
    rw [Bool.eq_iff_iff, all]
    cases hc : c.value.getLsbD i with
    | false => simpa [hc, or_assoc] using bits.symm
    | true => exact iff_of_true (.inr ⟨c, List.mem_cons_self, hc⟩) (taken hc)

end

namespace EnumInfo

section
variable {k : IntKind}

/-- What the loop over the constants does: it writes down, in front of the names before, those of the
constants it takes away, the last one first. -/
theorem strip_stripped (cs : List (EnumConstant k)) (rest : EnumValue k) (names : List String) :
    ∃ parts : List (EnumConstant k), parts.Sublist cs ∧ Stripped rest parts (strip cs rest names).2 ∧
      (strip cs rest names).1 = parts.reverse.map (·.name) ++ names := by
  have none_taken (cs : List (EnumConstant k)) (rest : EnumValue k) (names : List String) :
      ∃ parts : List (EnumConstant k), parts.Sublist cs ∧ Stripped rest parts rest ∧
        names = parts.reverse.map (·.name) ++ names :=
    ⟨[], List.nil_sublist cs, ⟨.nil, nofun, rfl⟩, rfl⟩
  fun_induction strip cs rest names with
  | case1 rest names => exact none_taken [] rest names
  | case2 c cs names => exact none_taken (c :: cs) 0 names
  | case3 c cs rest names _ within ih =>
    obtain ⟨parts, sub, stripped, eq⟩ := ih
    exact ⟨c :: parts, sub.cons_cons c, stripped.cons within, by rw [eq]; simp⟩
  | case4 c cs rest names _ _ ih =>
    obtain ⟨parts, sub, stripped, eq⟩ := ih
    exact ⟨parts, sub.cons c, stripped, eq⟩

theorem strip_eq_zero (cs : List (EnumConstant k)) (rest : EnumValue k) (names : List String)
    (bits : ∀ i, rest.getLsbD i = true → ∃ c ∈ cs, c.value = BitVec.twoPow k.bits i) :
    (strip cs rest names).2 = 0 := by
  have has {c : EnumConstant k} {i : Nat} (eq : c.value = BitVec.twoPow k.bits i) (lt : i < k.bits) :
      c.value.getLsbD i = true := by
    rw [eq, BitVec.getLsbD_twoPow]
    simp [lt]
  fun_induction strip cs rest names with
  | case1 rest names =>
    refine Classical.byContradiction fun ne => ?_
    obtain ⟨i, hi⟩ := exists_bit ne
    obtain ⟨c, mem, -⟩ := bits i hi
    cases mem
  | case2 c cs names => rfl
  | case3 c cs rest names _ within ih =>
    refine ih fun i hi => ?_
    obtain ⟨set, clear⟩ := getLsbD_clear.1 hi
    obtain ⟨b, mem, eq⟩ := bits i set
    rcases List.mem_cons.1 mem with rfl | later
    · rw [has eq (BitVec.lt_of_getLsbD set)] at clear
      cases clear
    · exact ⟨b, later, eq⟩
  | case4 c cs rest names _ outside ih =>
    refine ih fun i hi => ?_
    obtain ⟨b, mem, eq⟩ := bits i hi
    rcases List.mem_cons.1 mem with rfl | later
    · -- the constant of a bit of the value would have been taken
      refine absurd (and_eq_right_iff.2 fun j hj => ?_) outside
      rw [eq, BitVec.getLsbD_twoPow, Bool.and_eq_true, decide_eq_true_iff, decide_eq_true_iff] at hj
      exact hj.2 ▸ hi
    · exact ⟨b, later, eq⟩

end

variable (d : EnumInfo)

/-- Declared constants whose names, one after the other, are the text of a value: each is the first of
its value and not zero, no two share a bit, together they are the value, and they ascend by bit
pattern. -/
structure Decomposes (v : EnumValue d.kind) (parts : List (EnumConstant d.kind)) : Prop where
  first : ∀ c ∈ parts, d.declared.find? (·.value = c.value) = some c
  nonzero : ∀ c ∈ parts, c.value ≠ 0
  disjoint : parts.Pairwise fun a b => a.value &&& b.value = 0
  union : parts.foldl (fun u c => u ||| c.value) 0 = v
  ascending : parts.Pairwise fun a b => a.value.toNat < b.value.toNat

def descending : List (EnumConstant d.kind) :=
  (d.constants.filter (·.value ≠ 0)).mergeSort fun a b => b.value.toNat ≤ a.value.toNat

theorem mem_descending {c : EnumConstant d.kind} : c ∈ d.descending ↔ c ∈ d.constants ∧ c.value ≠ 0 := by
  rw [descending, List.mem_mergeSort, List.mem_filter, decide_eq_true_iff]

theorem pairwise_descending : d.descending.Pairwise fun a b => b.value.toNat ≤ a.value.toNat := by
  have sorted : d.descending.Pairwise fun a b => decide (b.value.toNat ≤ a.value.toNat) = true :=
    List.pairwise_mergeSort (by simp only [decide_eq_true_eq]; omega)
      (by simp only [Bool.or_eq_true, decide_eq_true_eq]; omega) _
  exact sorted.imp of_decide_eq_true

theorem format_strip {v : EnumValue d.kind} (new : ∀ c ∈ d.constants, c.value ≠ v) (flags : d.isFlags = true)
    (ne : v ≠ 0) : d.format v = if (strip d.descending v []).2 = 0 then
      String.intercalate ", " (strip d.descending v []).1 else v.text := by
  have goes : ¬ (!d.isFlags || decide (v = 0)) = true := by simpa [flags] using ne
  rw [format, formatWith, d.find?_constants_eq_none new]
  simp only [if_neg goes]
  rfl

/-- If nothing is left of a value, its text is made of the names of the constants that were taken. -/
theorem decomposes_of_strip {v : EnumValue d.kind} (done : (strip d.descending v []).2 = 0) :
    ∃ parts, d.Decomposes v parts ∧ (strip d.descending v []).1 = parts.map (·.name) := by
  obtain ⟨parts, sub, stripped, names⟩ := strip_stripped d.descending v []
  rw [done] at stripped
  rw [List.append_nil] at names
  have known (c) (mem : c ∈ parts.reverse) : c ∈ d.constants ∧ c.value ≠ 0 :=
    d.mem_descending.1 (sub.subset (List.mem_reverse.1 mem))
  refine ⟨parts.reverse, ⟨fun c mem => ?_, fun c mem => (known c mem).2, ?_, ?_, ?_⟩, names⟩
  · rw [← find?_distinctConstants]
    exact d.find?_constants (known c mem).1
  · exact List.pairwise_reverse.2 (stripped.disjoint.imp fun h => by rwa [BitVec.and_comm])
  · rw [(List.reverse_perm parts).foldl_eq' fun a _ b _ u => by
      rw [BitVec.or_assoc, BitVec.or_comm a.value, ← BitVec.or_assoc]]
    exact stripped.union
  · -- of two that share no bit and are not zero, one is greater
    refine List.pairwise_reverse.2 ?_
    refine ((d.pairwise_descending.sublist sub).and stripped.disjoint).imp_of_mem ?_
    rintro a b ha - ⟨le, apart⟩
    refine Nat.lt_of_le_of_ne le fun eq => (known a (List.mem_reverse.2 ha)).2 ?_
    have same := BitVec.eq_of_toNat_eq eq
    rwa [same, BitVec.and_self] at apart

/-- The text of a declared value is its first name. Any other value has its number for a text, unless
it is a non-zero value of a set of flags: then it may have the names of disjoint constants that unite
to it, and does if each of its bits is declared on its own. -/
theorem format_decomposes (v : EnumValue d.kind) :
    (∀ c, d.declared.find? (·.value = v) = some c → d.format v = c.name) ∧
    ((∀ c ∈ d.declared, c.value ≠ v) →
      (d.isFlags = false ∨ v = 0 → d.format v = v.text) ∧
      (d.isFlags = true → v ≠ 0 →
        (d.format v = v.text ∨
          ∃ parts, d.Decomposes v parts ∧ d.format v = String.intercalate ", " (parts.map (·.name))) ∧
        ((∀ i, v.getLsbD i = true → ∃ c ∈ d.declared, c.value = BitVec.twoPow d.kind.bits i) →
          ∃ parts, d.Decomposes v parts ∧
            d.format v = String.intercalate ", " (parts.map (·.name))))) := by
  refine ⟨fun c first => ?_, fun undeclared => ?_⟩
  · rw [← find?_distinctConstants] at first
    have value : c.value = v := by simpa using List.find?_some first
    rw [← value, d.format_of_mem (List.mem_of_find?_eq_some first)]
  · have values (w : EnumValue d.kind) : (∃ c ∈ d.constants, c.value = w) ↔ ∃ c ∈ d.declared, c.value = w := by
      have := values_distinct d.declared w
      rwa [List.mem_map, List.mem_map] at this
    have new (c) (mem : c ∈ d.constants) : c.value ≠ v := fun eq =>
      have ⟨c', mem', eq'⟩ := (values v).1 ⟨c, mem, eq⟩
      undeclared c' mem' eq'
    refine ⟨d.format_eq_text new, fun flags ne => ?_⟩
    have named (done : (strip d.descending v []).2 = 0) :
        ∃ parts, d.Decomposes v parts ∧ d.format v = String.intercalate ", " (parts.map (·.name)) := by
      obtain ⟨parts, decomposes, names⟩ := d.decomposes_of_strip done
      exact ⟨parts, decomposes, by rw [d.format_strip new flags ne, if_pos done, names]⟩
    refine ⟨?_, fun bits => named (strip_eq_zero _ _ _ fun i hi => ?_)⟩
    · by_cases done : (strip d.descending v []).2 = 0
      · exact .inr (named done)
      · exact .inl (by rw [d.format_strip new flags ne, if_neg done])
    · obtain ⟨c, mem, eq⟩ := (values _).2 (bits i hi)
      refine ⟨c, d.mem_descending.2 ⟨mem, fun zero => ?_⟩, eq⟩
      have lt := BitVec.lt_of_getLsbD hi
      have := congrArg (·.getLsbD i) (eq.symm.trans zero)
      simp [lt] at this

end EnumInfo

end CilForge
