import CilForge.Proofs.Enum.Roster
import CilForge.Proofs.Generate.LookupScript
import Std.Data.String.ToNat

/-!
# The labels of lookups

Every name in the script of a lookup is bound once, and all names gone to are bound: names of one
group differ by their numbers, and names of different groups by their first letter.
-/

namespace CilForge.Lookup

open Script Roster

/-! ## Names -/

theorem numberedName_injective {front : String} {i j : Nat}
    (h : front ++ toString i = front ++ toString j) : i = j := by
  have := congrArg String.toList h
  rw [String.toList_append, String.toList_append, List.append_cancel_left_eq, String.toList_inj] at this
  exact Nat.repr_injective this

theorem hitLabel_names_injective {i j : Nat} (h : hitLabel names i = hitLabel names j) : i = j :=
  numberedName_injective h

/-- The last number of a name can be read off its end. -/
theorem leftLabel_injective {a b i j : Nat} (h : leftLabel a i = leftLabel b j) : i = j := by
  have ends (a i : Nat) : ((leftLabel a i).toList.reverse).takeWhile (· ≠ '_') =
      (i.repr).toList.reverse := by
    have digits : ∀ c ∈ i.repr.toList.reverse, decide (c ≠ '_') = true := by
      intro c hc
      rw [List.mem_reverse, Nat.toList_repr] at hc
      rw [decide_eq_true_iff]
      rintro rfl
      exact Nat.underscore_not_in_toDigits hc
    have shape : (leftLabel a i).toList.reverse =
        i.repr.toList.reverse ++ '_' :: (a.repr.toList.reverse ++ "left_".toList.reverse) := by
      change (("left_" ++ a.repr ++ "_" ++ i.repr).toList).reverse = _
      simp
    rw [shape, List.takeWhile_append_of_pos digits, List.takeWhile_cons_of_neg (by simp),
      List.append_nil]
  have := ends a i
  rw [h, ends b j, List.reverse_inj, String.toList_inj] at this
  exact (Nat.repr_injective this).symm

theorem tableEnd_injective {k : IntKind} {v w : EnumValue k} (h : tableEnd v = tableEnd w) : v = w :=
  BitVec.eq_of_toNat_eq (numberedName_injective h)

def letter (l : String) : Option Char := l.toList.head?

@[simp] theorem letter_tableEnd {k : IntKind} (v : EnumValue k) : letter (tableEnd v) = some 't' := by
  change ("table_end_" ++ toString v.toNat).toList.head? = _
  simp

@[simp] theorem letter_leftLabel (a i : Nat) : letter (leftLabel a i) = some 'l' := by
  change ("left_" ++ a.repr ++ "_" ++ i.repr).toList.head? = _
  simp

@[simp] theorem letter_hitLabel (mode : Lookup) (i : Nat) : letter (mode.hitLabel i) = some 'h' := by
  cases mode with
  | names => change ("hit_" ++ toString i).toList.head? = _; simp
  | membership => change "hit".toList.head? = _; simp

@[simp] theorem letter_gapLabel {k : IntKind} (base v : EnumValue k) :
    letter (gapLabel base v) = some 'g' := by
  change ("gap_" ++ toString (v.offsetFrom base)).toList.head? = _
  simp

@[simp] theorem letter_fallback : letter "fallback" = some 'f' := by
  change "fallback".toList.head? = _
  simp

theorem ne_of_letter {l l' : String} {c c' : Char} (h : letter l = some c) (h' : letter l' = some c')
    (ne : c ≠ c') : l ≠ l' := by
  rintro rfl
  rw [h, Option.some.injEq] at h'
  exact ne h'

variable {k : IntKind}

/-! ## Places of dense tables -/

/-- What a place of a table stands for, among the entries of `l`: the entry there, or a value that
no entry has. -/
def Holds (l : List (EnumConstant k)) (z : Int) : Slot k → Prop
  | .hit index => ∃ e, l[index]? = some e ∧ e.value.toNumber = z
  | .gap v => v.toNumber = z ∧ ∀ e ∈ l, e.value ≠ v

theorem getElem?_between {low high : EnumValue k} {i : Nat} {v : EnumValue k}
    (h : (between low high)[i]? = some v) :
    v.toNumber = low.toNumber + 1 + i ∧ v.toNumber < high.toNumber := by
  unfold between EnumValue.offsetFrom at h
  obtain ⟨lt, rfl⟩ := List.getElem?_eq_some_iff.1 h
  simp only [List.length_map, List.length_range] at lt
  have room := high.toNumber_lt
  have one : (low + 1 : EnumValue k).toNumber = low.toNumber + 1 :=
    EnumValue.toNumber_add_ofNat low 1 (by simp; omega)
  rw [List.getElem_map, List.getElem_range, EnumValue.toNumber_add_ofNat _ i (by rw [one]; omega), one]
  omega

theorem length_between {low high : EnumValue k} (lt : low.toNumber < high.toNumber) :
    ((between low high).length : Int) = high.toNumber - low.toNumber - 1 := by
  simp only [between, EnumValue.offsetFrom, List.length_map, List.length_range]
  omega

theorem getElem?_last {α : Type} {front : List α} {last : α} (back : List α)
    (h : front.getLast? = some last) :
    0 < front.length ∧ (front ++ back)[front.length - 1]? = some last := by
  have pos : 0 < front.length := by
    cases front with
    | nil => simp at h
    | cons a l => simp
  rw [List.getLast?_eq_getElem?] at h
  exact ⟨pos, by rw [List.getElem?_append_left (by omega), h]⟩

theorem holds_slotsFrom : ∀ (rest front : List (EnumConstant k)) (last : EnumConstant k),
    Ascending (front ++ rest) → front.getLast? = some last → ∀ {i : Nat} {s : Slot k},
      (slotsFrom front.length last.value rest)[i]? = some s →
      Holds (front ++ rest) (last.value.toNumber + 1 + i) s
  | [], _, _, _, _, i, s, h => by simp [slotsFrom] at h
  | e :: rest, front, last, asc, hlast, i, s, h => by
    rw [slotsFrom] at h
    obtain ⟨pos, atLast⟩ := getElem?_last (e :: rest) hlast
    have atE : (front ++ e :: rest)[front.length]? = some e := by simp
    have lt : last.value.toNumber < e.value.toNumber := (asc.lt_iff atLast atE).2 (by omega)
    have len := length_between lt
    rcases Nat.lt_or_ge i (between last.value e.value).length with inGap | behind
    · rw [List.getElem?_append_left (by simpa using inGap), List.getElem?_map,
        Option.map_eq_some_iff] at h
      obtain ⟨v, hv, rfl⟩ := h
      obtain ⟨number, below⟩ := getElem?_between hv
      refine ⟨number, fun c hc eq => ?_⟩
      obtain ⟨j, hj⟩ := List.getElem?_of_mem hc
      have := asc.lt_iff atLast hj
      have := asc.lt_iff hj atE
      rw [eq] at *
      omega
    · rw [List.getElem?_append_right (by simpa using behind), List.length_map] at h
      cases hi : i - (between last.value e.value).length with
      | zero =>
        rw [hi, List.getElem?_cons_zero, Option.some.injEq] at h
        subst h
        exact ⟨e, atE, by omega⟩
      | succ j =>
        rw [hi, List.getElem?_cons_succ] at h
        have split : front ++ e :: rest = (front ++ [e]) ++ rest := by simp
        rw [split] at asc ⊢
        have := holds_slotsFrom rest (front ++ [e]) e asc (by simp) (i := j) (s := s) (by
          rw [List.length_append]; exact h)
        rwa [show last.value.toNumber + 1 + (i : Int) = e.value.toNumber + 1 + j by omega]

theorem length_slotsFrom : ∀ (rest front : List (EnumConstant k)) (last : EnumConstant k),
    Ascending (front ++ rest) → front.getLast? = some last → ∀ {j : Nat} {e : EnumConstant k},
      rest[j]? = some e →
      e.value.toNumber - last.value.toNumber ≤ (slotsFrom front.length last.value rest).length
  | c :: rest, front, last, asc, hlast, j, e, he => by
    obtain ⟨pos, atLast⟩ := getElem?_last (c :: rest) hlast
    have atC : (front ++ c :: rest)[front.length]? = some c := by simp
    have lt : last.value.toNumber < c.value.toNumber := (asc.lt_iff atLast atC).2 (by omega)
    have len := length_between lt
    rw [slotsFrom, List.length_append, List.length_map, List.length_cons]
    cases j with
    | zero =>
      rw [List.getElem?_cons_zero, Option.some.injEq] at he
      subst he
      push_cast
      omega
    | succ j =>
      rw [List.getElem?_cons_succ] at he
      have split : front ++ c :: rest = (front ++ [c]) ++ rest := by simp
      rw [split] at asc
      have := length_slotsFrom rest (front ++ [c]) c asc (by simp) he
      rw [List.length_append, List.length_singleton] at this
      push_cast
      omega

theorem holds_slots {l : List (EnumConstant k)} (asc : Ascending l) {e₀ : EnumConstant k}
    (first : l[0]? = some e₀) {i : Nat} {s : Slot k} (h : (slots l)[i]? = some s) :
    Holds l (e₀.value.toNumber + i) s := by
  cases l with
  | nil => simp at first
  | cons e rest =>
    rw [List.getElem?_cons_zero, Option.some.injEq] at first
    subst first
    rw [slots] at h
    cases i with
    | zero =>
      rw [List.getElem?_cons_zero, Option.some.injEq] at h
      subst h
      exact ⟨e, rfl, by simp⟩
    | succ i =>
      rw [List.getElem?_cons_succ] at h
      have := holds_slotsFrom rest [e] e asc rfl h
      rwa [show e.value.toNumber + ((i + 1 : Nat) : Int) = e.value.toNumber + 1 + i by push_cast; omega]

theorem lt_length_slots {l : List (EnumConstant k)} (asc : Ascending l) {e₀ : EnumConstant k}
    (first : l[0]? = some e₀) {j : Nat} {e : EnumConstant k} (he : l[j]? = some e) :
    e.value.toNumber - e₀.value.toNumber < (slots l).length := by
  cases l with
  | nil => simp at first
  | cons c rest =>
    rw [List.getElem?_cons_zero, Option.some.injEq] at first
    subst first
    rw [slots, List.length_cons]
    cases j with
    | zero =>
      rw [List.getElem?_cons_zero, Option.some.injEq] at he
      subst he
      push_cast
      omega
    | succ j =>
      have := length_slotsFrom rest [c] c asc rfl he
      rw [List.length_singleton] at this
      push_cast
      omega

theorem length_slots_le {l : List (EnumConstant k)} (asc : Ascending l) {e₀ : EnumConstant k}
    (first : l[0]? = some e₀) :
    e₀.value.toNumber + (slots l).length ≤ k.lowest + 2 ^ k.bits := by
  rcases Nat.eq_zero_or_pos (slots l).length with zero | pos
  · have := e₀.value.toNumber_lt
    omega
  · obtain ⟨s, hs⟩ : ∃ s, (slots l)[(slots l).length - 1]? = some s :=
      ⟨_, List.getElem?_eq_getElem (by omega)⟩
    have holds := holds_slots asc first hs
    cases s with
    | hit index =>
      obtain ⟨e, -, number⟩ := holds
      have := e.value.toNumber_lt
      omega
    | gap v =>
      have := holds.1
      have := v.toNumber_lt
      omega

/-! ## Values between entries -/

def Slot.gap? : Slot k → Option (EnumValue k)
  | .hit _ => none
  | .gap v => some v

theorem gapValues_eq (mode : Lookup) (p : Roster k) (places : List (Slot k)) :
    mode.gapValues p places = if mode.fillsGaps p then places.filterMap Slot.gap? else [] := by
  unfold gapValues Slot.gap?
  congr 1

theorem ascending_gaps {l : List (EnumConstant k)} (asc : Ascending l) {e₀ : EnumConstant k}
    (first : l[0]? = some e₀) : ((slots l).filterMap Slot.gap?).Pairwise
      fun v w => v.toNumber < w.toNumber := by
  rw [List.pairwise_filterMap, List.pairwise_iff_getElem]
  intro i j hi hj lt v hv w hw
  have hs := holds_slots asc first (List.getElem?_eq_getElem hi)
  have ht := holds_slots asc first (List.getElem?_eq_getElem hj)
  cases hsi : (slots l)[i] with
  | hit _ => rw [hsi] at hv; cases hv
  | gap v' =>
    cases htj : (slots l)[j] with
    | hit _ => rw [htj] at hw; cases hw
    | gap w' =>
      rw [hsi] at hv hs
      rw [htj] at hw ht
      cases hv
      cases hw
      have := hs.1
      have := ht.1
      omega

theorem le_of_mem_gaps {l : List (EnumConstant k)} (asc : Ascending l) {e₀ : EnumConstant k}
    (first : l[0]? = some e₀) {v : EnumValue k} (mem : v ∈ (slots l).filterMap Slot.gap?) :
    e₀.value.toNumber ≤ v.toNumber := by
  obtain ⟨s, hs, hv⟩ := List.mem_filterMap.1 mem
  obtain ⟨i, hi⟩ := List.getElem?_of_mem hs
  have holds := holds_slots asc first hi
  cases s with
  | hit _ => cases hv
  | gap v' => cases hv; have := holds.1; omega

theorem gapLabel_injective {base v w : EnumValue k} (hv : base.toNumber ≤ v.toNumber)
    (hw : base.toNumber ≤ w.toNumber) (h : gapLabel base v = gapLabel base w) : v = w := by
  have := numberedName_injective h
  unfold EnumValue.offsetFrom at this
  exact EnumValue.toNumber_injective (by omega)

/-! ## Names of the pieces -/

section
variable (mode : Lookup)

@[simp] theorem labels_equalityScript (index : Nat) (v : EnumValue k) :
    (equalityScript mode index v).labels = [] := by
  unfold equalityScript; split <;> rfl

@[simp] theorem goals_equalityScript (index : Nat) (v : EnumValue k) :
    (equalityScript mode index v).goals = [mode.hitLabel index] := by
  unfold equalityScript; split <;> rfl

@[simp] theorem labels_indexScript (base : EnumValue k) : (indexScript base).labels = [] := by
  unfold indexScript; split <;> rfl

@[simp] theorem goals_indexScript (base : EnumValue k) : (indexScript base).goals = [] := by
  unfold indexScript; split <;> rfl

theorem labels_tableScript (base : EnumValue k) (ls : List String) :
    (tableScript base ls).labels = if k.isWide then [tableEnd base] else [] := by
  unfold tableScript
  split <;> simp [plain]

theorem goals_tableScript (base : EnumValue k) (ls : List String) :
    (tableScript base ls).goals = if k.isWide then tableEnd base :: ls else ls := by
  unfold tableScript
  split <;> simp [plain, Pending.goals]

@[simp] theorem labels_fallbackScript (p : Roster k) (enum : Sig) :
    (fallbackScript mode p enum).labels = [] := by
  unfold fallbackScript
  split
  · rfl
  · split <;> rfl

@[simp] theorem goals_fallbackScript (p : Roster k) (enum : Sig) :
    (fallbackScript mode p enum).goals = [] := by
  unfold fallbackScript
  split
  · rfl
  · split <;> rfl

theorem labels_flatMap {α : Type} (f : α → Script) : ∀ l : List α,
    labels (l.flatMap f) = l.flatMap fun a => (f a).labels
  | [] => rfl
  | a :: l => by rw [List.flatMap_cons, List.flatMap_cons, labels_append, labels_flatMap f l]

theorem goals_flatMap {α : Type} (f : α → Script) : ∀ l : List α,
    goals (l.flatMap f) = l.flatMap fun a => (f a).goals
  | [] => rfl
  | a :: l => by rw [List.flatMap_cons, List.flatMap_cons, goals_append, goals_flatMap f l]

theorem labels_hitsScript_names (p : Roster k) :
    (hitsScript names p).labels = (List.range p.size).map names.hitLabel := by
  unfold hitsScript
  rw [labels_flatMap, List.range_eq_range', show p.size = p.entries.toList.length from rfl,
    ← List.zipIdx_map_snd 0 p.entries.toList, List.map_map, List.map_eq_flatMap]
  rfl

theorem labels_hitsScript_membership (p : Roster k) :
    (hitsScript membership p).labels = if p.size = 0 then [] else ["hit"] := by
  unfold hitsScript
  simp only
  split <;> rfl

@[simp] theorem goals_hitsScript (p : Roster k) : (hitsScript mode p).goals = [] := by
  cases mode with
  | names =>
    unfold hitsScript
    rw [goals_flatMap, List.flatMap_eq_nil_iff]
    intro a _
    rfl
  | membership =>
    unfold hitsScript
    simp only
    split <;> rfl

theorem labels_gapsScript (base : EnumValue k) (values : List (EnumValue k)) :
    (gapsScript base values).labels = values.map (gapLabel base) := by
  unfold gapsScript
  rw [labels_flatMap, List.map_eq_flatMap]
  rfl

@[simp] theorem goals_gapsScript (base : EnumValue k) (values : List (EnumValue k)) :
    (gapsScript base values).goals = [] := by
  unfold gapsScript
  rw [goals_flatMap, List.flatMap_eq_nil_iff]
  intro a _
  rfl

theorem hitLabel_mem {p : Roster k} {index : Nat} (lt : index < p.size) :
    mode.hitLabel index ∈ (hitsScript mode p).labels := by
  cases mode with
  | names =>
    rw [labels_hitsScript_names]
    exact List.mem_map.2 ⟨index, List.mem_range.2 lt, rfl⟩
  | membership =>
    rw [labels_hitsScript_membership, if_neg (by omega)]
    exact List.mem_singleton.2 rfl

theorem nodup_hits (p : Roster k) : (hitsScript mode p).labels.Nodup := by
  cases mode with
  | names =>
    rw [labels_hitsScript_names]
    refine List.Pairwise.map _ ?_ (List.nodup_range (n := p.size))
    exact fun i j ne h => ne (hitLabel_names_injective h)
  | membership =>
    rw [labels_hitsScript_membership]
    split <;> simp

theorem letter_hits {p : Roster k} {l : String} (h : l ∈ (hitsScript mode p).labels) :
    letter l = some 'h' := by
  cases mode with
  | names =>
    rw [labels_hitsScript_names] at h
    obtain ⟨i, -, rfl⟩ := List.mem_map.1 h
    exact letter_hitLabel names i
  | membership =>
    rw [labels_hitsScript_membership] at h
    split at h
    · cases h
    · rw [List.mem_singleton.1 h]; exact letter_hitLabel membership 0

end

/-! ## Names of a search -/

theorem midRun_spec {p : Roster k} (ord : p.Ordered) {mid : Nat} (lt : mid < p.runs.length) :
    p.runs[mid]? = some (midRun p mid) ∧ 0 < (midRun p mid).len ∧
      cutAt p.runs p.size (mid + 1) = (midRun p mid).start + (midRun p mid).len ∧
      ∀ i < (midRun p mid).len, ∃ c, p.entries.toList[(midRun p mid).start + i]? = some c ∧
        c.value.toNumber = (midFirst p mid).toNumber + i := by
  have at' : p.runs[mid]? = some (midRun p mid) := by
    simp [midRun, List.getElem?_eq_getElem lt]
  obtain ⟨pos, -, next, first, hfirst, all⟩ := ord.cuts.run at'
  have value : midFirst p mid = first.value := by
    simp only [Nat.sub_zero] at hfirst
    unfold midFirst
    rw [← Array.getElem?_toList, hfirst]
    rfl
  refine ⟨at', pos, by simpa [Roster.size] using next, fun i hi => ?_⟩
  rw [value]
  simpa using all i hi

theorem cutAt_eq_start {p : Roster k} (ord : p.Ordered) {mid : Nat} (lt : mid < p.runs.length) :
    cutAt p.runs p.size mid = (midRun p mid).start := by
  simp [cutAt, (midRun_spec ord lt).1]

theorem midFirst_lt {p : Roster k} (ord : p.Ordered) {i j : Nat} (lt : i < j)
    (hj : j < p.runs.length) : (midFirst p i).toNumber < (midFirst p j).toNumber := by
  obtain ⟨ri, posi, -, alli⟩ := midRun_spec ord (show i < p.runs.length by omega)
  obtain ⟨rj, posj, -, allj⟩ := midRun_spec ord hj
  obtain ⟨c, hc, numc⟩ := alli 0 posi
  obtain ⟨d, hd, numd⟩ := allj 0 posj
  have := ord.cuts.end_le ri lt rj
  have := (ord.ascending.lt_iff hc hd).2 (by omega)
  omega

section
variable (mode : Lookup)

theorem labels_runScript_sub {run : Run} {first : EnumValue k} {l : String}
    (h : l ∈ (runScript mode run first).labels) : l = tableEnd first := by
  unfold runScript at h
  split at h
  · simp at h
  · rw [labels_tableScript] at h
    split at h <;> simp_all

theorem nodup_runScript (run : Run) (first : EnumValue k) :
    (runScript mode run first).labels.Nodup := by
  unfold runScript
  split
  · simp
  · rw [labels_tableScript]; split <;> simp

def NamesRun (p : Roster k) (j : Nat) (l : String) : Prop :=
  l = tableEnd (midFirst p j) ∨ ∃ a, l = leftLabel a j

theorem labels_searchScript_sub {p : Roster k} {lo hi : Nat} {l : String}
    (h : l ∈ (searchScript mode p lo hi).labels) :
    ∃ j, lo ≤ j ∧ j < hi ∧ NamesRun p j l := by
  fun_induction searchScript mode p lo hi with
  | case1 lo hi lt mid ih₁ ih₂ ih₃ =>
    have bounds : lo ≤ mid ∧ mid < hi := by omega
    rw [labels_append, List.mem_append] at h
    rcases h with h | h
    · exact ⟨mid, bounds.1, bounds.2, .inl (labels_runScript_sub mode h)⟩
    · split at h
      · rename_i left
        simp only [labels_append, labels_label, List.mem_append, List.mem_cons, plain, labels_code,
          labels_nil, List.not_mem_nil, false_or] at h
        rcases h with h | rfl | h
        · obtain ⟨j, hlo, hhi, hj⟩ := ih₁ left h
          exact ⟨j, by omega, hhi, hj⟩
        · exact ⟨mid, bounds.1, bounds.2, .inr ⟨lo, rfl⟩⟩
        · obtain ⟨j, hlo, hhi, hj⟩ := ih₂ left h
          exact ⟨j, hlo, by omega, hj⟩
      · rename_i left
        obtain ⟨j, hlo, hhi, hj⟩ := ih₃ left h
        exact ⟨j, by omega, hhi, hj⟩
  | case2 lo hi ge => simp at h

theorem ne_of_runs {p : Roster k} (ord : p.Ordered) {i j : Nat} (ne : i ≠ j)
    (hi : i < p.runs.length) (hj : j < p.runs.length) {l l' : String}
    (hl : NamesRun p i l) (hl' : NamesRun p j l') : l ≠ l' := by
  have first : midFirst p i ≠ midFirst p j := by
    intro eq
    rcases Nat.lt_or_gt_of_ne ne with lt | gt
    · have := midFirst_lt ord lt hj; rw [eq] at this; omega
    · have := midFirst_lt ord gt hi; rw [eq] at this; omega
  rcases hl with rfl | ⟨a, rfl⟩ <;> rcases hl' with rfl | ⟨b, rfl⟩
  · exact fun h => first (tableEnd_injective h)
  · exact ne_of_letter (letter_tableEnd _) (letter_leftLabel _ _) (by decide)
  · exact ne_of_letter (letter_leftLabel _ _) (letter_tableEnd _) (by decide)
  · exact fun h => ne (leftLabel_injective h)

theorem nodup_searchScript {p : Roster k} (ord : p.Ordered) {lo hi : Nat}
    (le : hi ≤ p.runs.length) : (searchScript mode p lo hi).labels.Nodup := by
  fun_induction searchScript mode p lo hi with
  | case1 lo hi lt mid ih₁ ih₂ ih₃ =>
    have bounds : lo ≤ mid ∧ mid < hi := by omega
    rw [labels_append, List.nodup_append]
    refine ⟨nodup_runScript mode _ _, ?_, ?_⟩
    · split
      · rename_i left
        simp only [labels_append, labels_label, plain, labels_code, labels_nil, List.nil_append]
        rw [List.nodup_append, List.nodup_cons]
        refine ⟨ih₁ left le, ⟨?_, ih₂ left (by omega)⟩, ?_⟩
        · intro mem
          obtain ⟨j, hlo, hhi, hj⟩ := labels_searchScript_sub mode mem
          exact ne_of_runs ord (i := mid) (j := j) (by omega) (by omega) (by omega)
            (.inr ⟨lo, rfl⟩) hj rfl
        · intro l hl l' hl'
          obtain ⟨i, ilo, ihi, hi'⟩ := labels_searchScript_sub mode hl
          rcases List.mem_cons.1 hl' with rfl | hl'
          · exact ne_of_runs ord (i := i) (j := mid) (by omega) (by omega) (by omega) hi'
              (.inr ⟨lo, rfl⟩)
          · obtain ⟨j, jlo, jhi, hj⟩ := labels_searchScript_sub mode hl'
            exact ne_of_runs ord (i := i) (j := j) (by omega) (by omega) (by omega) hi' hj
      · rename_i left
        exact ih₃ left le
    · intro l hl l' hl'
      have mine := labels_runScript_sub mode hl
      split at hl'
      · rename_i left
        simp only [labels_append, labels_label, List.mem_append, List.mem_cons, plain, labels_code,
          labels_nil, List.not_mem_nil, false_or] at hl'
        rcases hl' with hl' | rfl | hl'
        · obtain ⟨j, jlo, jhi, hj⟩ := labels_searchScript_sub mode hl'
          exact ne_of_runs ord (i := mid) (j := j) (by omega) (by omega) (by omega) (.inl mine) hj
        · rw [mine]
          exact ne_of_letter (letter_tableEnd _) (letter_leftLabel _ _) (by decide)
        · obtain ⟨j, jlo, jhi, hj⟩ := labels_searchScript_sub mode hl'
          exact ne_of_runs ord (i := mid) (j := j) (by omega) (by omega) (by omega) (.inl mine) hj
      · obtain ⟨j, jlo, jhi, hj⟩ := labels_searchScript_sub mode hl'
        exact ne_of_runs ord (i := mid) (j := j) (by omega) (by omega) (by omega) (.inl mine) hj
  | case2 lo hi ge => simp

def Outer (p : Roster k) (l : String) : Prop :=
  l = "fallback" ∨ ∃ index < p.size, l = mode.hitLabel index

theorem goals_runScript_sub {p : Roster k} (ord : p.Ordered) {mid : Nat}
    (lt : mid < p.runs.length) {l : String}
    (h : l ∈ (runScript mode (midRun p mid) (midFirst p mid)).goals) :
    l ∈ (runScript mode (midRun p mid) (midFirst p mid)).labels ∨ Outer mode p l := by
  obtain ⟨-, pos, -, all⟩ := midRun_spec ord lt
  have inRange (i : Nat) (hi : i < (midRun p mid).len) : (midRun p mid).start + i < p.size := by
    obtain ⟨c, hc, -⟩ := all i hi
    exact (List.getElem?_eq_some_iff.1 hc).1
  unfold runScript at h ⊢
  split at h
  · rw [goals_equalityScript, List.mem_singleton] at h
    exact .inr (.inr ⟨_, inRange 0 pos, h⟩)
  · rename_i many
    rw [if_neg many, labels_tableScript]
    rw [goals_tableScript] at h
    have hit (h : l ∈ (List.range (midRun p mid).len).map
        fun i => mode.hitLabel ((midRun p mid).start + i)) : Outer mode p l := by
      obtain ⟨i, hi, rfl⟩ := List.mem_map.1 h
      exact .inr ⟨_, inRange i (List.mem_range.1 hi), rfl⟩
    split at h
    · rename_i wide
      rw [if_pos wide]
      rcases List.mem_cons.1 h with rfl | h
      · exact .inl (List.mem_singleton.2 rfl)
      · exact .inr (hit h)
    · exact .inr (hit h)

theorem goals_searchScript_sub {p : Roster k} (ord : p.Ordered) {lo hi : Nat}
    (le : hi ≤ p.runs.length) {l : String} (h : l ∈ (searchScript mode p lo hi).goals) :
    l ∈ (searchScript mode p lo hi).labels ∨ Outer mode p l := by
  fun_induction searchScript mode p lo hi with
  | case1 lo hi lt mid ih₁ ih₂ ih₃ =>
    have bounds : lo ≤ mid ∧ mid < hi := by omega
    rw [goals_append, List.mem_append] at h
    rw [labels_append, List.mem_append, or_assoc]
    rcases h with h | h
    · rcases goals_runScript_sub mode ord (by omega) h with h | h
      · exact .inl h
      · exact .inr (.inr h)
    · refine .inr ?_
      split at h
      · rename_i left
        rw [if_pos left]
        simp only [goals_append, goals_label, plain, goals_code, Pending.goals, goals_nil,
          List.mem_append, List.mem_cons, List.nil_append, List.not_mem_nil, or_false] at h
        simp only [labels_append, labels_label, plain, labels_code, labels_nil, List.nil_append,
          List.mem_append, List.mem_cons]
        rcases h with rfl | h | h
        · exact .inl (.inr (.inl rfl))
        · rcases ih₁ left le h with h | h
          · exact .inl (.inl h)
          · exact .inr h
        · rcases ih₂ left (by omega) h with h | h
          · exact .inl (.inr (.inr h))
          · exact .inr h
      · rename_i left
        rw [if_neg left]
        exact ih₃ left le h
  | case2 lo hi ge =>
    simp only [goals_code, Pending.goals, goals_nil, List.append_nil, List.mem_singleton] at h
    exact .inr (.inl h)

/-! ## Names of the whole -/

theorem first_of_shape {p : Roster k} {ratio : Nat} (h : p.shape ratio ≠ .empty) :
    ∃ e, p.entries.toList[0]? = some e ∧ baseOf p = e.value := by
  have pos : 0 < p.entries.size := by
    rcases Nat.eq_zero_or_pos p.size with zero | pos
    · exact absurd (by simp [Roster.shape, zero]) h
    · exact pos
  refine ⟨p.entries[0], by simp [pos], ?_⟩
  simp [baseOf, pos]

theorem letter_decision {p : Roster k} {ratio : Nat} {l : String}
    (h : l ∈ (decisionScript mode p ratio).labels) : letter l = some 't' ∨ letter l = some 'l' := by
  unfold decisionScript at h
  split at h
  · cases h
  · rw [labels_flatMap, List.mem_flatMap] at h
    obtain ⟨a, -, h⟩ := h
    simp at h
  · rw [labels_flatMap, List.mem_flatMap] at h
    obtain ⟨a, -, h⟩ := h
    simp at h
  · rw [labels_tableScript] at h
    split at h <;> simp_all
  · rw [labels_tableScript] at h
    split at h <;> simp_all
  · obtain ⟨j, -, -, rfl | ⟨a, rfl⟩⟩ := labels_searchScript_sub mode h
    · exact .inl (letter_tableEnd _)
    · exact .inr (letter_leftLabel _ _)

theorem labels_tests (p : Roster k) :
    labels ((testOrder p).flatMap fun (index, v) => equalityScript mode index v) = [] := by
  rw [labels_flatMap, List.flatMap_eq_nil_iff]
  exact fun a _ => labels_equalityScript mode a.1 a.2

theorem nodup_decision {p : Roster k} (ord : p.Ordered) (ratio : Nat) :
    (decisionScript mode p ratio).labels.Nodup := by
  unfold decisionScript
  split
  · exact List.nodup_nil
  · rw [labels_tests]; exact List.nodup_nil
  · rw [labels_tests]; exact List.nodup_nil
  · rw [labels_tableScript]; split <;> simp
  · rw [labels_tableScript]; split <;> simp
  · exact nodup_searchScript mode ord (Nat.le_refl _)

def gapNames (p : Roster k) (ratio : Nat) : List String :=
  (gapsScript (baseOf p) (mode.gapValues p (placesOf p ratio))).labels

theorem letter_gapNames {p : Roster k} {ratio : Nat} {l : String} (h : l ∈ gapNames mode p ratio) :
    letter l = some 'g' := by
  rw [gapNames, labels_gapsScript] at h
  obtain ⟨v, -, rfl⟩ := List.mem_map.1 h
  exact letter_gapLabel _ v

theorem nodup_gapNames {p : Roster k} (ord : p.Ordered) (ratio : Nat) :
    (gapNames mode p ratio).Nodup := by
  rw [gapNames, labels_gapsScript, gapValues_eq, placesOf]
  split
  · split
    · rename_i shape
      obtain ⟨e, first, base⟩ := first_of_shape (show p.shape ratio ≠ .empty by simp [shape])
      rw [base]
      refine List.pairwise_map.2 ((ascending_gaps ord.ascending first).imp_of_mem ?_)
      intro v w hv hw lt eq
      have := gapLabel_injective (le_of_mem_gaps ord.ascending first hv)
        (le_of_mem_gaps ord.ascending first hw) eq
      rw [this] at lt
      omega
    · exact List.nodup_nil
  · exact List.nodup_nil

theorem labels_script (p : Roster k) (enum : Sig) (ratio : Nat) :
    (script mode p enum ratio).labels = (decisionScript mode p ratio).labels ++
      "fallback" :: ((hitsScript mode p).labels ++ gapNames mode p ratio) := by
  simp [script, gapNames]

theorem nodup_script {p : Roster k} (ord : p.Ordered) (enum : Sig) (ratio : Nat) :
    (script mode p enum ratio).labels.Nodup := by
  rw [labels_script, List.nodup_append, List.nodup_cons, List.nodup_append, List.mem_append]
  refine ⟨nodup_decision mode ord ratio,
    ⟨?_, nodup_hits mode p, nodup_gapNames mode ord ratio, ?_⟩, ?_⟩
  · rintro (h | h)
    · exact ne_of_letter letter_fallback (letter_hits mode h) (by decide) rfl
    · exact ne_of_letter letter_fallback (letter_gapNames mode h) (by decide) rfl
  · intro l hl l' hl'
    exact ne_of_letter (letter_hits mode hl) (letter_gapNames mode hl') (by decide)
  · intro l hl l' hl'
    have other : ∃ c, letter l' = some c ∧ c ≠ 't' ∧ c ≠ 'l' := by
      rw [List.mem_cons, List.mem_append] at hl'
      rcases hl' with rfl | h | h
      · exact ⟨'f', letter_fallback, by decide, by decide⟩
      · exact ⟨'h', letter_hits mode h, by decide, by decide⟩
      · exact ⟨'g', letter_gapNames mode h, by decide, by decide⟩
    obtain ⟨c, hc, net, nel⟩ := other
    rcases letter_decision mode hl with h | h
    · exact ne_of_letter h hc net.symm
    · exact ne_of_letter h hc nel.symm

theorem mem_testOrder {p : Roster k} {index : Nat} {v : EnumValue k} :
    (index, v) ∈ testOrder p ↔ ∃ e, p.entries.toList[index]? = some e ∧ e.value = v := by
  simp only [testOrder, List.mem_append, List.mem_filter, List.mem_map, Prod.exists, Prod.mk.injEq,
    List.mk_mem_zipIdx_iff_getElem?]
  constructor
  · rintro (⟨⟨e, i, h, rfl, hv⟩, -⟩ | ⟨⟨e, i, h, rfl, hv⟩, -⟩)
    · exact ⟨e, h, hv⟩
    · exact ⟨e, h, hv⟩
  · rintro ⟨e, h, hv⟩
    by_cases zero : v = 0
    · exact .inl ⟨⟨e, index, h, rfl, hv⟩, by simpa using zero⟩
    · exact .inr ⟨⟨e, index, h, rfl, hv⟩, by simpa using zero⟩

theorem goals_decision_sub {p : Roster k} (ord : p.Ordered) {ratio : Nat} {l : String}
    (h : l ∈ (decisionScript mode p ratio).goals) :
    l ∈ (decisionScript mode p ratio).labels ∨ Outer mode p l ∨ l ∈ gapNames mode p ratio := by
  have tests (h : l ∈ goals ((testOrder p).flatMap fun (index, v) => equalityScript mode index v)) :
      Outer mode p l := by
    rw [goals_flatMap, List.mem_flatMap] at h
    obtain ⟨⟨index, v⟩, mem, h⟩ := h
    obtain ⟨e, he, -⟩ := mem_testOrder.1 mem
    rw [goals_equalityScript, List.mem_singleton] at h
    exact .inr ⟨index, (List.getElem?_eq_some_iff.1 he).1, h⟩
  have table {base : EnumValue k} {ls : List String} (h : l ∈ (tableScript base ls).goals) :
      l ∈ (tableScript base ls).labels ∨ l ∈ ls := by
    rw [labels_tableScript]
    rw [goals_tableScript] at h
    split at h
    · rename_i wide
      rw [if_pos wide, List.mem_singleton]
      exact List.mem_cons.1 h
    · exact .inr h
  unfold decisionScript at h ⊢
  split at h
  · cases h
  · exact .inr (.inl (tests h))
  · exact .inr (.inl (tests h))
  · refine (table h).imp_right fun h => .inl ?_
    obtain ⟨i, hi, rfl⟩ := List.mem_map.1 h
    exact .inr ⟨i, List.mem_range.1 hi, rfl⟩
  · rename_i shape
    refine (table h).imp_right fun h => ?_
    obtain ⟨s, hs, rfl⟩ := List.mem_map.1 h
    obtain ⟨e, first, -⟩ := first_of_shape (show p.shape ratio ≠ .empty by simp [shape])
    cases s with
    | hit index =>
      have hs' := hs
      rw [placesOf, if_pos shape] at hs'
      obtain ⟨i, hi⟩ := List.getElem?_of_mem hs'
      obtain ⟨e, he, -⟩ := holds_slots ord.ascending first hi
      exact .inl (.inr ⟨index, (List.getElem?_eq_some_iff.1 he).1, rfl⟩)
    | gap v =>
      rw [slotLabel]
      by_cases fills : mode.fillsGaps p
      · rw [if_pos fills, gapNames, labels_gapsScript, gapValues_eq, if_pos fills]
        exact .inr (List.mem_map.2 ⟨v, List.mem_filterMap.2 ⟨.gap v, hs, rfl⟩, rfl⟩)
      · rw [if_neg fills]
        exact .inl (.inl rfl)
  · exact (goals_searchScript_sub mode ord (Nat.le_refl _) h).imp_right .inl

theorem goals_script (p : Roster k) (enum : Sig) (ratio : Nat) :
    (script mode p enum ratio).goals = (decisionScript mode p ratio).goals := by
  simp [script]

/-! ## The end of a lookup -/

def Finished (s : Script) : Prop := ∃ front p, s = front ++ [.code p]

theorem Finished.append {t : Script} (s : Script) (h : Finished t) : Finished (s ++ t) := by
  obtain ⟨front, p, rfl⟩ := h
  exact ⟨s ++ front, p, by rw [List.append_assoc]⟩

theorem Finished.flatMap {α : Type} {f : α → Script} (pieces : ∀ a, Finished (f a)) :
    ∀ (l : List α) {s : Script}, Finished s → Finished (s ++ l.flatMap f)
  | [], s, h => by simpa using h
  | a :: l, s, h => by
    rw [List.flatMap_cons, ← List.append_assoc]
    exact Finished.flatMap pieces l ((pieces a).append s)

theorem Finished.ends {s : Script} (h : Finished s) {l : String} (mem : l ∈ s.labels) :
    (s.after l).code ≠ [] := by
  obtain ⟨front, p, rfl⟩ := h
  obtain ⟨part, hs, -⟩ := split_at mem
  generalize after l (front ++ [Line.code p]) = back at hs ⊢
  have last := congrArg List.getLast? hs
  rcases List.eq_nil_or_concat back with rfl | ⟨back, line, rfl⟩
  · simp at last
  · rw [List.concat_eq_append] at last ⊢
    rw [List.getLast?_concat, ← List.cons_append, ← List.append_assoc, List.getLast?_concat,
      Option.some.injEq] at last
    subst last
    simp

theorem finished_fallback (p : Roster k) (enum : Sig) : Finished (fallbackScript mode p enum) := by
  cases mode with
  | membership => exact ⟨[_], _, rfl⟩
  | names => exact ⟨_ :: _, _, rfl⟩

theorem finished_script (p : Roster k) (enum : Sig) (ratio : Nat) :
    Finished (script mode p enum ratio) := by
  have hits : Finished (fallbackScript mode p enum ++ hitsScript mode p) := by
    cases mode with
    | names =>
      exact .flatMap (fun a => ⟨[_, _], _, rfl⟩) _ (finished_fallback names p enum)
    | membership =>
      unfold hitsScript
      simp only
      split
      · rw [List.append_nil]
        exact finished_fallback membership p enum
      · exact Finished.append _ ⟨[_, _], _, rfl⟩
  have gaps : Finished (fallbackScript mode p enum ++ hitsScript mode p ++
      gapsScript (baseOf p) (mode.gapValues p (placesOf p ratio))) :=
    .flatMap (fun a => ⟨[_, _], _, rfl⟩) _ hits
  rw [List.append_assoc] at gaps
  exact Finished.append _ (Finished.append [_] gaps)

theorem closed_script {p : Roster k} (ord : p.Ordered) (enum : Sig) (ratio : Nat) :
    (script mode p enum ratio).Closed where
  nodup := nodup_script mode ord enum ratio
  bound := by
    intro l h
    rw [goals_script] at h
    rw [labels_script, List.mem_append, List.mem_cons, List.mem_append]
    rcases goals_decision_sub mode ord h with h | (rfl | ⟨index, lt, rfl⟩) | h
    · exact .inl h
    · exact .inr (.inl rfl)
    · exact .inr (.inr (.inl (hitLabel_mem mode lt)))
    · exact .inr (.inr (.inr h))
  ends _ h := (finished_script mode p enum ratio).ends h

end

end CilForge.Lookup
