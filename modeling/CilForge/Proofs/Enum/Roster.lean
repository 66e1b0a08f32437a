import CilForge.Proofs.Enum.Number
import CilForge.Roster

/-!
# Rosters in order

The entries of a roster stand in ascending order, one for each value, and its runs cut them into
stretches of consecutive values.
-/

namespace CilForge.Roster

variable {k : IntKind}

def Ascending (l : List (EnumConstant k)) : Prop :=
  l.Pairwise fun a b => a.value.toNumber < b.value.toNumber

theorem dedup_sublist (l : List (EnumConstant k)) : (dedup l).Sublist l := by
  fun_induction dedup l with
  | case1 a b rest eq ih => exact ih.trans (.cons_cons _ (List.sublist_cons_self b rest))
  | case2 a b rest ne ih => exact .cons_cons _ ih
  | case3 short _ => exact List.Sublist.refl _

theorem values_dedup (l : List (EnumConstant k)) (v : EnumValue k) :
    v ∈ (dedup l).map (·.value) ↔ v ∈ l.map (·.value) := by
  fun_induction dedup l with
  | case1 a b rest eq ih => rw [ih]; simp [eq]
  | case2 a b rest ne ih => rw [List.map_cons, List.mem_cons, ih]; simp
  | case3 short _ => rfl

theorem ascending_dedup {l : List (EnumConstant k)}
    (sorted : l.Pairwise fun a b => a.value.toNumber ≤ b.value.toNumber) : Ascending (dedup l) := by
  fun_induction dedup l with
  | case1 a b rest eq ih => exact ih (sorted.sublist (.cons_cons _ (List.sublist_cons_self b rest)))
  | case2 a b rest ne ih =>
    obtain ⟨first, later⟩ := List.pairwise_cons.1 sorted
    refine List.pairwise_cons.2 ⟨fun c hc => ?_, ih later⟩
    have hab : a.value.toNumber < b.value.toNumber := by
      have := first b (by simp)
      have : a.value.toNumber ≠ b.value.toNumber := fun h => ne (EnumValue.toNumber_injective h)
      omega
    have hbc : b.value.toNumber ≤ c.value.toNumber := by
      rcases List.mem_cons.1 ((dedup_sublist _).subset hc) with rfl | hc
      · exact Int.le_refl _
      · exact (List.pairwise_cons.1 later).1 c hc
    omega
  | case3 short notTwo =>
    cases short with
    | nil => exact List.Pairwise.nil
    | cons a rest =>
      cases rest with
      | nil => exact List.pairwise_singleton _ _
      | cons b rest => exact (notTwo a b rest rfl).elim

section
variable (entries : List (EnumConstant k)) (isFlags exhaustive : Bool)

theorem ascending_ofEntries : Ascending (ofEntries entries isFlags exhaustive).entries.toList := by
  unfold ofEntries
  simp only
  apply ascending_dedup
  have := @List.pairwise_mergeSort (EnumConstant k) (fun a b => decide (a.value.toNumber ≤ b.value.toNumber))
    (by simp; omega) (by simp; omega) entries
  simpa using this

theorem values_ofEntries (v : EnumValue k) :
    v ∈ (ofEntries entries isFlags exhaustive).entries.toList.map (·.value) ↔
      v ∈ entries.map (·.value) := by
  unfold ofEntries
  simp only
  rw [values_dedup]
  simp only [List.mem_map, List.mem_mergeSort]

theorem mem_of_mem_ofEntries {e : EnumConstant k}
    (h : e ∈ (ofEntries entries isFlags exhaustive).entries.toList) : e ∈ entries := by
  unfold ofEntries at h
  exact List.mem_mergeSort.1 ((dedup_sublist _).subset h)

theorem size_ofEntries_le : (ofEntries entries isFlags exhaustive).size ≤ entries.length := by
  unfold ofEntries Roster.size
  simp only [List.size_toArray]
  exact Nat.le_trans (dedup_sublist _).length_le (Nat.le_of_eq (List.length_mergeSort _))

end

/-! ## Runs -/

/-- Runs that cut a list of entries, the first of which has number `start`, into stretches of
consecutive values. -/
inductive Cuts : Nat → List (EnumConstant k) → List Run → Prop where
  | nil (start : Nat) : Cuts start [] []
  | cons {start : Nat} {e : EnumConstant k} {stretch rest : List (EnumConstant k)} {runs : List Run}
      (consecutive : ∀ (i : Nat) c, (e :: stretch)[i]? = some c →
        c.value.toNumber = e.value.toNumber + i)
      (cut : Cuts (start + (stretch.length + 1)) rest runs) :
      Cuts start (e :: stretch ++ rest) (⟨start, stretch.length + 1⟩ :: runs)

theorem cuts_runsFrom (e : EnumConstant k) (start : Nat) : ∀ (rest stretch : List (EnumConstant k))
    (last : EnumConstant k), (e :: stretch).getLast? = some last →
      (∀ (i : Nat) c, (e :: stretch)[i]? = some c → c.value.toNumber = e.value.toNumber + i) →
      Cuts start (e :: stretch ++ rest) (runsFrom start (stretch.length + 1) last.value rest)
  | [], stretch, last, _, consecutive => by
    rw [runsFrom]
    exact .cons consecutive (.nil _)
  | c :: rest, stretch, last, hlast, consecutive => by
    rw [runsFrom]
    split
    · rename_i next
      have number : c.value.toNumber = e.value.toNumber + (stretch.length + 1 : Nat) := by
        have := consecutive stretch.length last (by
          rw [List.getLast?_eq_getElem?] at hlast
          simpa using hlast)
        rw [EnumValue.toNumber_of_next? next, this]
        omega
      have := cuts_runsFrom e start rest (stretch ++ [c]) c
        (by rw [← List.cons_append, List.getLast?_concat]) (fun i d hd => by
        rcases Nat.lt_or_ge i (stretch.length + 1) with lt | ge
        · rw [← List.cons_append, List.getElem?_append_left (by simpa using lt)] at hd
          exact consecutive i d hd
        · rw [← List.cons_append, List.getElem?_append_right (by simpa using ge)] at hd
          obtain ⟨lt, hd⟩ := List.getElem?_eq_some_iff.1 hd
          simp only [List.length_cons, List.length_nil, List.getElem_singleton] at lt hd
          rw [← hd, number, show i = stretch.length + 1 by omega])
      simpa using this
    · have := cuts_runsFrom c (start + (stretch.length + 1)) rest [] c rfl (by
        intro i d hd
        cases i with
        | zero => simp at hd; subst hd; simp
        | succ i => simp at hd)
      exact .cons consecutive (by simpa using this)

theorem cuts_runsOf : ∀ l : List (EnumConstant k), Cuts 0 l (runsOf l)
  | [] => .nil 0
  | e :: rest => by
    have := cuts_runsFrom e 0 rest [] e rfl (by
      intro i d hd
      cases i with
      | zero => simp at hd; subst hd; simp
      | succ i => simp at hd)
    simpa [runsOf] using this

def cutAt (runs : List Run) (size j : Nat) : Nat := (runs[j]?.map (·.start)).getD size

theorem Cuts.cutAt_zero {start : Nat} {l : List (EnumConstant k)} {runs : List Run}
    (h : Cuts start l runs) : cutAt runs (start + l.length) 0 = start := by
  cases h <;> simp [cutAt]

theorem Cuts.run {start : Nat} {l : List (EnumConstant k)} {runs : List Run}
    (h : Cuts start l runs) : ∀ {j : Nat} {r : Run}, runs[j]? = some r →
      0 < r.len ∧ start ≤ r.start ∧ cutAt runs (start + l.length) (j + 1) = r.start + r.len ∧
      ∃ first, l[r.start - start]? = some first ∧
        ∀ i < r.len, ∃ c, l[r.start - start + i]? = some c ∧
          c.value.toNumber = first.value.toNumber + i := by
  induction h with
  | nil start => intro j r hr; simp at hr
  | @cons start e stretch rest runs consecutive cut ih =>
    intro j r hr
    cases j with
    | zero =>
      simp only [List.getElem?_cons_zero, Option.some.injEq] at hr
      subst hr
      refine ⟨by simp, Nat.le_refl _, ?_, e, by simp, fun i hi => ?_⟩
      · have := cut.cutAt_zero
        simp only [cutAt, List.getElem?_cons_succ, List.length_append, List.length_cons] at this ⊢
        rw [show start + (stretch.length + 1 + rest.length) =
          start + (stretch.length + 1) + rest.length by omega, this]
      · have lt : i < (e :: stretch).length := by simpa using hi
        refine ⟨(e :: stretch)[i], ?_, consecutive i _ (List.getElem?_eq_getElem lt)⟩
        rw [Nat.sub_self, Nat.zero_add, List.getElem?_append_left lt, List.getElem?_eq_getElem lt]
    | succ j =>
      obtain ⟨pos, le, next, first, hfirst, all⟩ := ih hr
      have shift (i : Nat) : (e :: stretch ++ rest)[r.start - start + i]? =
          rest[r.start - (start + (stretch.length + 1)) + i]? := by
        rw [List.getElem?_append_right (by simp only [List.length_cons]; omega)]
        congr 1
        simp only [List.length_cons]
        omega
      refine ⟨pos, by omega, ?_, first, (shift 0).trans hfirst, fun i hi => ?_⟩
      · simp only [cutAt, List.getElem?_cons_succ, List.length_append, List.length_cons] at next ⊢
        rw [show start + (stretch.length + 1 + rest.length) =
          start + (stretch.length + 1) + rest.length by omega, next]
      · obtain ⟨c, hc, number⟩ := all i hi
        exact ⟨c, (shift i).trans hc, number⟩

theorem Cuts.end_le {start : Nat} {l : List (EnumConstant k)} {runs : List Run}
    (h : Cuts start l runs) {i : Nat} {r : Run} (hi : runs[i]? = some r) :
    ∀ {j : Nat} {r' : Run}, i < j → runs[j]? = some r' → r.start + r.len ≤ r'.start
  | j + 1, r', lt, hj => by
    obtain ⟨lj, -⟩ := List.getElem?_eq_some_iff.1 hj
    obtain ⟨q, hq⟩ : ∃ q, runs[j]? = some q := ⟨_, List.getElem?_eq_getElem (by omega)⟩
    have next := (h.run hq).2.2.1
    have pos := (h.run hq).1
    simp only [cutAt, hj, Option.map_some, Option.getD_some] at next
    rcases Nat.lt_or_eq_of_le (Nat.le_of_lt_succ lt) with below | rfl
    · have := h.end_le hi below hq
      omega
    · rw [hi, Option.some.injEq] at hq
      subst hq
      omega

theorem Cuts.length_le {start : Nat} {l : List (EnumConstant k)} {runs : List Run}
    (h : Cuts start l runs) : runs.length ≤ l.length := by
  induction h with
  | nil start => simp
  | cons _ _ ih => simp only [List.length_append, List.length_cons]; omega

/-! ## Numbers of entries -/

theorem Ascending.lt_iff {l : List (EnumConstant k)} (h : Ascending l) {i j : Nat}
    {a b : EnumConstant k} (hi : l[i]? = some a) (hj : l[j]? = some b) :
    a.value.toNumber < b.value.toNumber ↔ i < j := by
  obtain ⟨li, rfl⟩ := List.getElem?_eq_some_iff.1 hi
  obtain ⟨lj, rfl⟩ := List.getElem?_eq_some_iff.1 hj
  have order := List.pairwise_iff_getElem.1 h
  rcases Nat.lt_trichotomy i j with lt | rfl | gt
  · simp [lt, order i j li lj lt]
  · simp
  · have := order j i lj li gt
    omega

theorem Ascending.lowest_add_le {l : List (EnumConstant k)} (h : Ascending l) :
    ∀ {i : Nat} {a : EnumConstant k}, l[i]? = some a → k.lowest + i ≤ a.value.toNumber
  | 0, a, _ => by have := a.value.lowest_le; simpa using this
  | i + 1, a, hi => by
    obtain ⟨li, rfl⟩ := List.getElem?_eq_some_iff.1 hi
    have before := List.getElem?_eq_getElem (show i < l.length by omega)
    have := h.lowest_add_le before
    have := (h.lt_iff before hi).2 (by omega)
    push_cast
    omega

theorem Ascending.length_le {l : List (EnumConstant k)} (h : Ascending l) :
    l.length ≤ 2 ^ k.bits := by
  rcases Nat.eq_zero_or_pos l.length with zero | pos
  · rw [zero]; exact Nat.zero_le _
  · obtain ⟨e, he⟩ : ∃ e, l[l.length - 1]? = some e :=
      ⟨_, List.getElem?_eq_getElem (by omega)⟩
    have low := h.lowest_add_le he
    have high := e.value.toNumber_lt
    have lt : ((l.length - 1 : Nat) : Int) < (2 ^ k.bits : Nat) := by push_cast; omega
    have := Int.ofNat_lt.1 lt
    omega

/-- A roster in order: ascending entries, cut into its runs. -/
structure Ordered (p : Roster k) : Prop where
  ascending : Ascending p.entries.toList
  cuts : Cuts 0 p.entries.toList p.runs

theorem ordered_ofEntries (entries : List (EnumConstant k)) (isFlags exhaustive : Bool) :
    (ofEntries entries isFlags exhaustive).Ordered :=
  ⟨ascending_ofEntries entries isFlags exhaustive, cuts_runsOf _⟩

theorem ordered_ofNames (d : EnumInfo) (budget : Nat) : (ofNames d budget).Ordered := by
  unfold ofNames
  dsimp only
  split <;> exact ordered_ofEntries _ _ _

theorem ordered_ofValues (d : EnumInfo) : (ofValues d).Ordered := ordered_ofEntries _ _ _

end CilForge.Roster
