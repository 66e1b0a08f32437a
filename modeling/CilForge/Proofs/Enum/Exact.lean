import CilForge.Proofs.Enum.Names
import Mathlib.Data.List.Perm.Subperm
import Mathlib.Data.List.Nodup

/-!
# Exact rosters

What a roster lists is fixed by the declaration: the declared values, and for a small set of flags
the unions of its single bits. Its runs are the stretches of consecutive values, none of which could
be longer, and halving finds the entry of every value that has one.
-/

namespace CilForge

/-! ## Unions -/

section
variable {k : IntKind}

def IsUnion (singles : List (EnumValue k)) (v : EnumValue k) : Prop :=
  ∃ chosen : List (EnumValue k), chosen.Nodup ∧ chosen ⊆ singles ∧ 2 ≤ chosen.length ∧
    v = chosen.foldl (· ||| ·) 0

def chosenBy (subset : Nat) (singles : List (EnumValue k)) : List (EnumValue k) :=
  (singles.zipIdx.filter fun (_, bit) => subset.testBit bit).map Prod.fst

theorem chosenBy_sublist (subset : Nat) (singles : List (EnumValue k)) :
    (chosenBy subset singles).Sublist singles := by
  have := (List.filter_sublist (l := singles.zipIdx) (p := fun (_, bit) => subset.testBit bit)).map Prod.fst
  rwa [List.zipIdx_map_fst] at this

theorem mem_unions_iff_chosenBy {singles : List (EnumValue k)} {v : EnumValue k} :
    v ∈ Roster.unions singles ↔ ∃ subset < 2 ^ singles.length,
      2 ≤ (chosenBy subset singles).length ∧ v = (chosenBy subset singles).foldl (· ||| ·) 0 := by
  unfold Roster.unions chosenBy
  simp only [List.mem_filterMap, List.mem_range, Nat.one_shiftLeft, List.length_map, List.foldl_map]
  refine exists_congr fun subset => and_congr_right fun _ => ?_
  split
  · rename_i few
    exact iff_of_false (fun h => nomatch h) fun h => absurd h.1 (by omega)
  · rename_i enough
    rw [Option.some.injEq]
    exact ⟨fun h => ⟨by omega, h.symm⟩, fun h => h.2.symm⟩

theorem exists_chosenBy_eq_filter (keep : EnumValue k → Bool) (singles : List (EnumValue k)) :
    ∃ subset < 2 ^ singles.length, chosenBy subset singles = singles.filter keep := by
  have lt := (BitVec.ofBoolListLE (singles.map keep)).isLt
  refine ⟨(BitVec.ofBoolListLE (singles.map keep)).toNat,
    Nat.lt_of_lt_of_eq lt (congrArg (2 ^ ·) (List.length_map _)), ?_⟩
  rw [chosenBy, List.filter_congr (q := keep ∘ Prod.fst), ← List.filter_map, List.zipIdx_map_fst]
  rintro ⟨s, bit⟩ mem
  simp only [BitVec.testBit_toNat, BitVec.getLsbD_ofBoolListLE, Function.comp_apply]
  simp [List.mk_mem_zipIdx_iff_getElem?.1 mem]

theorem foldl_or_perm {l l' : List (EnumValue k)} (perm : l.Perm l') :
    l.foldl (· ||| ·) 0 = l'.foldl (· ||| ·) 0 :=
  perm.foldl_eq' (fun a _ b _ acc => by rw [BitVec.or_assoc, BitVec.or_comm a b, ← BitVec.or_assoc]) 0

theorem mem_unions_iff {singles : List (EnumValue k)} (distinct : singles.Nodup) {v : EnumValue k} :
    v ∈ Roster.unions singles ↔ IsUnion singles v := by
  rw [mem_unions_iff_chosenBy]
  constructor
  · rintro ⟨subset, -, enough, eq⟩
    have sublist := chosenBy_sublist subset singles
    exact ⟨_, distinct.sublist sublist, sublist.subset, enough, eq⟩
  · rintro ⟨chosen, nodup, subset, enough, rfl⟩
    obtain ⟨number, lt, eq⟩ := exists_chosenBy_eq_filter (fun s => decide (s ∈ chosen)) singles
    have perm : (chosenBy number singles).Perm chosen := by
      rw [eq, List.perm_ext_iff_of_nodup (distinct.filter _) nodup]
      intro s
      simpa using fun h => subset h
    exact ⟨number, lt, by rwa [perm.length_eq], (foldl_or_perm perm).symm⟩

theorem IsUnion.of_perm {l l' : List (EnumValue k)} (perm : l.Perm l') {v : EnumValue k} :
    IsUnion l v → IsUnion l' v
  | ⟨chosen, nodup, subset, rest⟩ => ⟨chosen, nodup, fun _ h => perm.subset (subset h), rest⟩

theorem isUnion_congr {l l' : List (EnumValue k)} (perm : l.Perm l') {v : EnumValue k} :
    IsUnion l v ↔ IsUnion l' v := ⟨.of_perm perm, .of_perm perm.symm⟩

end

namespace EnumInfo

variable (d : EnumInfo)

def singleBits : List (EnumValue d.kind) := (d.constants.map (·.value)).filter (·.isSingleBit)

theorem nodup_singleBits : d.singleBits.Nodup := by
  refine List.Nodup.filter _ (List.pairwise_map.2 ?_)
  exact distinct_values d.declared

end EnumInfo

namespace Roster

/-! ## Listed values -/

section
variable (d : EnumInfo) (budget : Nat)

theorem mem_values_append {k : IntKind} (constants : List (EnumConstant k)) (new : List (EnumValue k))
    (name : EnumValue k → String) (v : EnumValue k) :
    v ∈ (constants ++ (new.filter fun v => constants.all (·.value ≠ v)).map fun v =>
      (⟨name v, v⟩ : EnumConstant k)).map (·.value) ↔ v ∈ constants.map (·.value) ∨ v ∈ new := by
  rw [List.map_append, List.map_map, List.mem_append]
  by_cases old : v ∈ constants.map (·.value)
  · exact iff_of_true (.inl old) (.inl old)
  · have undeclared : (constants.all fun c => decide (c.value ≠ v)) = true :=
      List.all_eq_true.2 fun c hc => decide_eq_true fun eq => old (List.mem_map.2 ⟨c, hc, eq⟩)
    rw [or_iff_right old, or_iff_right old]
    refine ⟨fun h => ?_, fun h => List.mem_map.2 ⟨v, List.mem_filter.2 ⟨h, undeclared⟩, rfl⟩⟩
    obtain ⟨w, hw, rfl⟩ := List.mem_map.1 h
    exact (List.mem_filter.1 hw).1

/-- The values of a roster of names are the declared ones and, within the budget, the unions of
single bits. -/
theorem values_ofNames (fits : budget < 2 ^ 64) (v : EnumValue d.kind) :
    v ∈ (ofNames d budget).entries.toList.map (·.value) ↔ v ∈ d.declared.map (·.value) ∨
      d.isFlags = true ∧ 2 ^ d.singleBits.length ≤ budget ∧ IsUnion d.singleBits v := by
  have perm := List.mergeSort_perm d.singleBits fun a b => a.toNat ≤ b.toNat
  have declared : v ∈ d.constants.map (·.value) ↔ v ∈ d.declared.map (·.value) :=
    values_distinct d.declared v
  rw [← isUnion_congr perm, ← mem_unions_iff (perm.nodup_iff.2 d.nodup_singleBits), ← perm.length_eq,
    ← declared]
  unfold ofNames
  dsimp only
  split
  · rename_i listed
    simp only [Bool.and_eq_true, decide_eq_true_eq, Nat.one_shiftLeft] at listed
    rw [values_ofEntries, mem_values_append]
    exact or_congr_right ⟨fun h => ⟨listed.1.1, listed.2, h⟩, fun h => h.2.2⟩
  · rename_i unlisted
    rw [values_ofEntries, or_iff_left]
    rintro ⟨flags, affordable, -⟩
    have few := (Nat.pow_lt_pow_iff_right (by decide : 1 < 2)).1 (Nat.lt_of_le_of_lt affordable fits)
    refine unlisted ?_
    simp only [Bool.and_eq_true, decide_eq_true_eq, Nat.one_shiftLeft]
    exact ⟨⟨flags, few⟩, affordable⟩

theorem exists_of_exhaustive (exhaustive : (ofNames d budget).exhaustive = true) {v : EnumValue d.kind}
    (ne : v ≠ 0) : ∃ e ∈ (ofNames d budget).entries.toList, e.value = v := by
  by_contra missing
  exact ne (eq_zero_of_exhaustive d budget exhaustive fun e he eq => missing ⟨e, he, eq⟩)

end

/-! ## Blocks -/

section
variable {k : IntKind}

/-- Runs that divide entries, in order, into the longest blocks of consecutive values: two
neighbours stand in one run exactly if the second is next to the first. -/
structure Blocks (entries : List (EnumConstant k)) (runs : List Run) : Prop where
  places : (runs.flatMap fun r => List.range' r.start r.len) = List.range entries.length
  nonempty : ∀ r ∈ runs, 0 < r.len
  joined : ∀ i a b, entries[i]? = some a → entries[i + 1]? = some b →
    ((∃ r ∈ runs, r.start ≤ i ∧ i + 1 < r.start + r.len) ↔ a.value.next? = some b.value)

theorem places_runsFrom (start len : Nat) (last : EnumValue k) (rest : List (EnumConstant k)) :
    ((runsFrom start len last rest).flatMap fun r => List.range' r.start r.len) =
      List.range' start (len + rest.length) := by
  fun_induction runsFrom start len last rest with
  | case1 start len last => simp
  | case2 start len last e rest next ih => rw [ih, List.length_cons, Nat.add_assoc, Nat.add_comm 1]
  | case3 start len last e rest far ih =>
    rw [List.flatMap_cons, ih, List.length_cons, Nat.add_comm rest.length,
      ← List.range'_append_1 (s := start)]

theorem start_le_of_mem_runsFrom {start len : Nat} {last : EnumValue k} {rest : List (EnumConstant k)}
    {r : Run} (mem : r ∈ runsFrom start len last rest) : start ≤ r.start := by
  fun_induction runsFrom start len last rest with
  | case1 start len last => exact Nat.le_of_eq (by rw [List.mem_singleton.1 mem])
  | case2 start len last e rest next ih => exact ih mem
  | case3 start len last e rest far ih =>
    rcases List.mem_cons.1 mem with rfl | later
    · exact Nat.le_refl _
    · have := ih later
      omega

theorem len_pos_of_mem_runsFrom {start len : Nat} (pos : 0 < len) {last : EnumValue k}
    {rest : List (EnumConstant k)} {r : Run} (mem : r ∈ runsFrom start len last rest) : 0 < r.len := by
  fun_induction runsFrom start len last rest with
  | case1 start len last => rwa [List.mem_singleton.1 mem]
  | case2 start len last e rest next ih => exact ih (Nat.succ_pos _) mem
  | case3 start len last e rest far ih =>
    rcases List.mem_cons.1 mem with rfl | later
    · exact pos
    · exact ih Nat.one_pos later

theorem open_mem_runsFrom (start len : Nat) (last : EnumValue k) (rest : List (EnumConstant k)) :
    ∃ r ∈ runsFrom start len last rest, r.start = start ∧ len ≤ r.len := by
  fun_induction runsFrom start len last rest with
  | case1 start len last => exact ⟨_, List.mem_singleton_self _, rfl, Nat.le_refl _⟩
  | case2 start len last e rest next ih =>
    obtain ⟨r, mem, eq, le⟩ := ih
    exact ⟨r, mem, eq, by omega⟩
  | case3 start len last e rest far ih => exact ⟨_, List.mem_cons_self, rfl, Nat.le_refl _⟩

/-- From the last entry of the open run on, neighbours stand in one run exactly if they are
consecutive. -/
theorem joined_runsFrom (start : Nat) {len : Nat} (pos : 0 < len) {c : EnumConstant k}
    {rest : List (EnumConstant k)} :
    ∀ i a b, (c :: rest)[i]? = some a → (c :: rest)[i + 1]? = some b →
      ((∃ r ∈ runsFrom start len c.value rest,
        r.start ≤ start + len - 1 + i ∧ start + len + i < r.start + r.len) ↔
          a.value.next? = some b.value) := by
  induction rest generalizing start len c with
  | nil => intro i a b _ hb; simp at hb
  | cons e rest ih =>
    intro i a b ha hb
    rw [runsFrom]
    split
    · rename_i next
      cases i with
      | zero =>
        cases ha
        cases hb
        obtain ⟨r, mem, eq, le⟩ := open_mem_runsFrom start (len + 1) e.value rest
        exact iff_of_true ⟨r, mem, by omega, by omega⟩ next
      | succ i =>
        rw [← ih start (Nat.succ_pos len) i a b ha hb]
        refine exists_congr fun r => and_congr_right fun _ => ?_
        rw [show start + (len + 1) - 1 + i = start + len - 1 + (i + 1) by omega,
          show start + (len + 1) + i = start + len + (i + 1) by omega]
    · rename_i far
      cases i with
      | zero =>
        cases ha
        cases hb
        refine iff_of_false ?_ far
        rintro ⟨r, mem, le, lt⟩
        rcases List.mem_cons.1 mem with rfl | later
        · simp at lt
        · have := start_le_of_mem_runsFrom later
          omega
      | succ i =>
        rw [← ih (start + len) Nat.one_pos i a b ha hb, List.exists_mem_cons_iff, or_iff_right]
        · refine exists_congr fun r => and_congr_right fun _ => ?_
          rw [show start + len + 1 - 1 + i = start + len - 1 + (i + 1) by omega,
            show start + len + 1 + i = start + len + (i + 1) by omega]
        · rintro ⟨-, lt⟩
          dsimp only at lt
          omega

theorem blocks_runsOf : ∀ entries : List (EnumConstant k), Blocks entries (runsOf entries)
  | [] => ⟨rfl, fun _ h => (nomatch h), fun _ _ _ h => nomatch h⟩
  | e :: rest => by
    refine ⟨?_, fun r mem => len_pos_of_mem_runsFrom Nat.one_pos mem, fun i a b ha hb => ?_⟩
    · rw [runsOf, places_runsFrom, List.length_cons, List.range_eq_range', Nat.add_comm]
    · rw [runsOf, ← joined_runsFrom 0 Nat.one_pos i a b ha hb]
      simp only [Nat.zero_add, Nat.sub_self, Nat.add_comm 1]

/-! ## Halving -/

variable {p : Roster k}

theorem of_search_eq_some {v : EnumValue k} {start len : Nat} {e : EnumConstant k}
    (found : p.search v start len = some e) : e ∈ p.entries.toList ∧ e.value = v := by
  fun_induction search p v start len with
  | case1 start => cases found
  | case2 start len pos half missing => cases found
  | case3 start len pos half middle at_middle eq =>
    cases found
    exact ⟨Array.mem_toList_iff.2 (Array.mem_of_getElem? at_middle), eq⟩
  | case4 start len pos half middle at_middle ne less ih => exact ih found
  | case5 start len pos half middle at_middle ne less ih => exact ih found

theorem search_eq_some (ascending : Ascending p.entries.toList) {e : EnumConstant k} {start len i : Nat}
    (within : start + len ≤ p.size) (hi : p.entries.toList[i]? = some e) (low : start ≤ i)
    (high : i < start + len) : p.search e.value start len = some e := by
  fun_induction search p e.value start len with
  | case1 start => omega
  | case2 start len pos half missing =>
    have := Array.getElem?_eq_none_iff.1 missing
    unfold size at within
    omega
  | case3 start len pos half middle there eq =>
    rw [← Array.getElem?_toList] at there
    have lt := ascending.lt_iff there hi
    have gt := ascending.lt_iff hi there
    rw [eq] at lt gt
    have same : start + half = i := by omega
    rw [← there, same, hi]
  | case4 start len pos half middle there ne less ih =>
    rw [← Array.getElem?_toList] at there
    have := (ascending.lt_iff there hi).1 less
    exact ih (by omega) (by omega) (by omega)
  | case5 start len pos half middle there ne notLess ih =>
    rw [← Array.getElem?_toList] at there
    have := (ascending.lt_iff there hi).not.1 notLess
    have : i ≠ start + half := by
      rintro rfl
      exact ne (by rw [Option.some.inj (there.symm.trans hi)])
    exact ih (by omega) low (by omega)

/-- The entry that halving finds among all is the one of the value. -/
theorem lookup?_eq_some_iff (ascending : Ascending p.entries.toList) {v : EnumValue k}
    {e : EnumConstant k} : p.lookup? v = some e ↔ e ∈ p.entries.toList ∧ e.value = v := by
  refine ⟨of_search_eq_some, ?_⟩
  rintro ⟨mem, rfl⟩
  obtain ⟨i, hi⟩ := List.getElem?_of_mem mem
  have lt := (List.getElem?_eq_some_iff.1 hi).1
  rw [Array.length_toList] at lt
  exact search_eq_some ascending (Nat.le_of_eq (Nat.zero_add _)) hi (Nat.zero_le i) (by rwa [Nat.zero_add])

end

/-! ## Exactness -/

theorem runs_ofNames (d : EnumInfo) (budget : Nat) :
    (ofNames d budget).runs = runsOf (ofNames d budget).entries.toList := by
  unfold ofNames
  dsimp only
  split <;> rfl

/-- A roster of names lists the declared values and the unions within the budget, in ascending order
and by their texts, and is called exhaustive only if it leaves out nothing but zero. Its runs and
those of a roster of values are the longest blocks of consecutive values, and both find a value if
and only if they list it. -/
theorem exact_rosters (d : EnumInfo) (cap : UInt64) :
    Ascending (ofNames d cap.toNat).entries.toList ∧
    (∀ v, v ∈ (ofNames d cap.toNat).entries.toList.map (·.value) ↔
      v ∈ d.declared.map (·.value) ∨
        d.isFlags = true ∧ 2 ^ d.singleBits.length ≤ cap.toNat ∧ IsUnion d.singleBits v) ∧
    (∀ e ∈ (ofNames d cap.toNat).entries.toList, e.name = d.format e.value) ∧
    ((ofNames d cap.toNat).exhaustive = true →
      ∀ v ≠ 0, ∃ e ∈ (ofNames d cap.toNat).entries.toList, e.value = v) ∧
    ∀ p ∈ [ofNames d cap.toNat, ofValues d],
      Blocks p.entries.toList p.runs ∧
      ∀ v e, p.lookup? v = some e ↔ e ∈ p.entries.toList ∧ e.value = v := by
  refine ⟨(ordered_ofNames d _).ascending, values_ofNames d _ cap.toNat_lt,
    fun e => name_ofNames d _, fun exhaustive v => exists_of_exhaustive d _ exhaustive, fun p mem => ?_⟩
  have planned : p.Ordered ∧ p.runs = runsOf p.entries.toList := by
    simp only [List.mem_cons, List.not_mem_nil, or_false] at mem
    rcases mem with rfl | rfl
    · exact ⟨ordered_ofNames d _, runs_ofNames d _⟩
    · exact ⟨ordered_ofValues d, rfl⟩
  refine ⟨planned.2 ▸ blocks_runsOf _, fun v e => lookup?_eq_some_iff planned.1.ascending⟩

end Roster

end CilForge
