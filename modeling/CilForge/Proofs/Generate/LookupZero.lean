import CilForge.Proofs.Generate.Performs
import CilForge.Proofs.Machine.Stuck

/-!
# Lookups of the narrow zero

A variable of an enum type starts with a zero of 32 bits, also where values of the enum have 64. A lookup
for a wide kind takes it for the zero of the kind as long as it tests nothing but whether the argument is
zero (`plays_zero`); any other test compares words of two widths, and the lookup comes to no end
(`jams_zero`).
-/

namespace CilForge.Lookup

open Script Roster

/-- Whether a lookup comes to an answer for zero before it has compared or subtracted anything. -/
def asksZeroFirst {k : IntKind} (p : Roster k) (ratio : Nat) : Bool :=
  match p.shape ratio with
  | .empty => true
  | .single | .pair => p.entries.any (·.value = 0)
  | .contiguous | .denseTable => false
  | .binarySearch => (midRun p (p.runs.length / 2)).len = 1 && midFirst p (p.runs.length / 2) = 0

variable {k : IntKind} {m : Machine} {R : Carries} {s : Script} {back : Script} {stack : List Value}
  {mem : Memory} {n : Nat} {o : Outcome} {mode : Lookup} {p : Roster k} {ratio : Nat} {enum : Sig}

/-! ## One test -/

theorem plays_equality_zero {index : Nat} (bound : mode.hitLabel index ∈ s.labels)
    (hit : Plays m R s #[.i32 0] (s.after (mode.hitLabel index)) stack mem n o) :
    Plays m R s #[.i32 0] (equalityScript mode index (0 : EnumValue k) ++ back) stack mem (n + 2) o := by
  unfold equalityScript
  rw [if_pos rfl]
  exact plays_ldarg (plays_brfalse bound (fun _ => hit) (fun yes => by cases yes))

section
variable (wide : k.isWide = true)
include wide

theorem jams_load {args : Array Value} {v : EnumValue k} (jams : Jams m R s args back (.i64 v.stack64 :: stack) mem) :
    Jams m R s args (plain v.load :: back) stack mem := by
  unfold EnumValue.load
  rw [wide]
  exact .next (fun _ => rfl) jams

theorem jams_equality {index : Nat} {value : EnumValue k} (other : value ≠ 0) :
    Jams m R s #[.i32 0] (equalityScript mode index value ++ back) stack mem := by
  unfold equalityScript
  rw [if_neg other]
  exact .next (fun _ => rfl) (jams_load wide (.fault fun _ => ⟨_, rfl⟩))

theorem jams_table {base : EnumValue k} {ls : List String} :
    Jams m R s #[.i32 0] (tableScript base ls ++ back) stack mem := by
  unfold tableScript indexScript
  rw [wide]
  by_cases zero : base = 0
  · rw [if_pos zero]
    exact .next (fun _ => rfl) (.next (fun _ => rfl) (.fault fun _ => ⟨_, rfl⟩))
  · rw [if_neg zero]
    exact .next (fun _ => rfl) (jams_load wide (.fault fun _ => ⟨_, rfl⟩))

end

/-! ## The first test of a decision -/

theorem testOrder_first (filled : p.shape ratio ≠ .empty) : ∃ index e rest, p.entries.toList[index]? = some e ∧
    testOrder p = (index, e.value) :: rest ∧ (p.entries.any (·.value = 0) = true ↔ e.value = 0) := by
  obtain ⟨e, he, -⟩ := first_of_shape filled
  obtain ⟨⟨index, value⟩, rest, order⟩ :=
    List.exists_cons_of_ne_nil (List.ne_nil_of_mem (mem_testOrder.2 ⟨e, he, rfl⟩))
  obtain ⟨e, he, rfl⟩ := mem_testOrder.1 (order ▸ List.mem_cons_self)
  refine ⟨index, e, rest, he, order, fun zero => ?_, fun zero => ?_⟩
  · obtain ⟨i, lt, zero⟩ := Array.any_eq_true.1 zero
    have listed : (i, (0 : EnumValue k)) ∈ testOrder p :=
      mem_testOrder.2 ⟨p.entries[i], by simp [lt], of_decide_eq_true zero⟩
    obtain ⟨all, split⟩ : ∃ all : List (Nat × EnumValue k),
        testOrder p = all.filter (·.2 = 0) ++ all.filter (·.2 ≠ 0) := ⟨_, rfl⟩
    rw [split] at order listed
    have first : (i, (0 : EnumValue k)) ∈ all.filter (·.2 = 0) := by simpa using listed
    obtain ⟨_, _, zeros⟩ := List.exists_cons_of_ne_nil (List.ne_nil_of_mem first)
    rw [zeros, List.cons_append] at order
    obtain rfl := (List.cons.inj order).1
    have head : (index, e.value) ∈ all.filter (·.2 = 0) := zeros ▸ List.mem_cons_self
    exact of_decide_eq_true (List.mem_filter.1 head).2
  · have there := Array.mem_toList_iff.1 (List.mem_of_getElem? he)
    exact Array.any_eq_true'.2 ⟨e, there, decide_eq_true zero⟩

theorem middle_lt (ord : p.Ordered) (shape : p.shape ratio = .binarySearch) : p.runs.length / 2 < p.runs.length := by
  have suits := suits_shape p ratio
  rw [shape] at suits
  have start : cutAt p.runs p.size 0 = 0 := by simpa [Roster.size] using ord.cuts.cutAt_zero
  have some : p.runs ≠ [] := by
    intro none
    rw [none] at start
    exact absurd start (Nat.ne_of_gt suits)
  exact Nat.div_lt_self (List.length_pos_of_ne_nil some) (by decide)

theorem searchScript_eq (mode : Lookup) (some : 0 < p.runs.length) : ∃ rest, searchScript mode p 0 p.runs.length =
    runScript mode (midRun p (p.runs.length / 2)) (midFirst p (p.runs.length / 2)) ++ rest := by
  rw [searchScript, if_pos some]
  simp only [Nat.sub_zero, Nat.zero_add]
  exact ⟨_, rfl⟩

/-- A decision begins with the test for an entry, which asks for zero if it is the entry for zero, or with a table. -/
theorem decision_first (ord : p.Ordered) (mode : Lookup) (filled : p.shape ratio ≠ .empty) :
    (∃ (index : Nat) (e : EnumConstant k) (rest : Script), p.entries.toList[index]? = some e ∧
      decisionScript mode p ratio = equalityScript mode index e.value ++ rest ∧
      (asksZeroFirst p ratio = true ↔ e.value = 0)) ∨
    (∃ (base : EnumValue k) (ls : List String) (rest : Script),
      decisionScript mode p ratio = tableScript base ls ++ rest ∧ asksZeroFirst p ratio = false) := by
  unfold decisionScript asksZeroFirst
  cases shape : p.shape ratio with
  | empty => exact absurd shape filled
  | single | pair =>
    obtain ⟨index, e, rest, he, order, zero⟩ := testOrder_first filled
    exact .inl ⟨index, e, _, he, by simp only [order, List.flatMap_cons]; rfl, zero⟩
  | contiguous | denseTable => exact .inr ⟨_, _, [], (List.append_nil _).symm, rfl⟩
  | binarySearch =>
    have lt := middle_lt ord shape
    obtain ⟨-, pos, -, all⟩ := midRun_spec ord lt
    obtain ⟨e, he, number⟩ := all 0 pos
    have first : midFirst p (p.runs.length / 2) = e.value :=
      EnumValue.toNumber_injective (by simpa using number.symm)
    obtain ⟨rest, search⟩ := searchScript_eq mode (Nat.zero_lt_of_lt lt)
    by_cases one : (midRun p (p.runs.length / 2)).len = 1
    · refine .inl ⟨_, e, rest, he, ?_, by simp [one, first]⟩
      simp only [search, runScript, if_pos one, first, Nat.add_zero]
    · exact .inr ⟨_, _, rest, by simp only [search, runScript, if_neg one]; rfl, by simp [one]⟩

/-! ## Whole lookups -/

/-- A lookup that asks for zero first finds its entry for zero, or has no entries at all. -/
theorem plays_zero (ord : p.Ordered) (asks : asksZeroFirst p ratio = true)
    (hit : ∀ (index : Nat) e, p.entries.toList[index]? = some e → e.value = 0 →
      Plays m R (script mode p enum ratio) #[.i32 0] ((script mode p enum ratio).after (mode.hitLabel index)) [] mem
        n o)
    (miss : (∀ e ∈ p.entries.toList, e.value ≠ 0) →
      Plays m R (script mode p enum ratio) #[.i32 0] (tailScript mode p enum ratio) [] mem n o) :
    Plays m R (script mode p enum ratio) #[.i32 0] (script mode p enum ratio) [] mem (n + 2) o := by
  have decided : Plays m R (script mode p enum ratio) #[.i32 0] (decisionScript mode p ratio ++
      .label "fallback" :: tailScript mode p enum ratio) [] mem (n + 2) o := by
    by_cases empty : p.shape ratio = .empty
    · have suits := suits_shape p ratio
      rw [empty] at suits
      rw [decisionScript, empty]
      refine (Plays.label (miss fun e he => ?_)).mono (Nat.le_add_right n 2)
      rw [List.eq_nil_of_length_eq_zero suits] at he
      cases he
    · obtain ⟨index, e, rest, he, first, zero⟩ | ⟨_, _, _, -, no⟩ := decision_first ord mode empty
      · have zero := zero.1 asks
        rw [first, zero, List.append_assoc]
        refine plays_equality_zero ?_ (hit index e he zero)
        rw [labels_script]
        have listed := hitLabel_mem mode (List.getElem?_eq_some_iff.1 he).1
        exact List.mem_append_right _ (List.mem_cons_of_mem _ (List.mem_append_left _ listed))
      · exact absurd (asks.symm.trans no) (by decide)
  exact decided

/-- Every other lookup for a wide kind comes to no end. -/
theorem jams_zero (ord : p.Ordered) (wide : k.isWide = true) (asks : asksZeroFirst p ratio = false) :
    Jams m R (script mode p enum ratio) #[.i32 0] (script mode p enum ratio) [] mem := by
  have filled : p.shape ratio ≠ .empty := by
    intro empty
    rw [asksZeroFirst, empty] at asks
    cases asks
  have decided (back : Script) :
      Jams m R (script mode p enum ratio) #[.i32 0] (decisionScript mode p ratio ++ back) [] mem := by
    obtain ⟨index, e, rest, -, first, zero⟩ | ⟨_, _, rest, first, -⟩ := decision_first ord mode filled
    · rw [first, List.append_assoc]
      exact jams_equality wide fun yes => absurd (asks.symm.trans (zero.2 yes)) (by decide)
    · rw [first, List.append_assoc]
      exact jams_table wide
  exact decided _

/-! ## Names and membership -/

theorem enum_zero (heap : Heap) (k : IntKind) : heap.enum k (.i32 0) = .ok 0 := by
  cases k <;> rfl

theorem ofEnum_zero (narrow : k.isWide = false) : Value.ofEnum (0 : EnumValue k) = .i32 0 := by
  rw [Value.ofEnum_narrow narrow]
  cases k <;> rfl

/-- Whether the generated lookup takes the narrow zero for the zero of the kind. -/
def findsZero {k : IntKind} (p : Roster k) (ratio : Nat) : Bool := !k.isWide || asksZeroFirst p ratio

section
variable {d : EnumInfo} {density : Density}

theorem plays_names_zero (info : m.scope.enumInfo? d.sig = some d)
    (convert : m.body? (Platform.convertToString d.kind) = .ok none)
    (object : m.body? Platform.objectToString = .ok none)
    (finds : findsZero (.ofNames d density.maxFlags) density.ratio = true) :
    Plays m R (names.script (.ofNames d density.maxFlags) d.sig density.ratio) #[.i32 0]
      (names.script (.ofNames d density.maxFlags) d.sig density.ratio) [] mem 850
      (.returned (some (.str (d.format 0)))) := by
  cases wide : d.kind.isWide with
  | false =>
    rw [← ofEnum_zero wide]
    exact plays_names_of info convert object 0 fun yes => by cases wide.symm.trans yes
  | true =>
    have asks : asksZeroFirst (.ofNames d density.maxFlags) density.ratio = true := by
      simpa [findsZero, wide] using finds
    refine (plays_zero (n := 4) (ordered_ofNames d density.maxFlags) asks ?_ ?_).mono (by omega)
    · intro index e he zero
      rw [← zero]
      exact (plays_hit_format he).mono (by omega)
    · exact fun new => plays_tail_names (enum_zero mem.heap d.kind) info convert object new

theorem plays_membership_zero (finds : findsZero (.ofValues d) density.ratio = true) :
    Plays m R (membership.script (.ofValues d) d.sig density.ratio) #[.i32 0]
      (membership.script (.ofValues d) d.sig density.ratio) [] mem 850
      (.returned (some (.bool (d.nameOf? 0).isSome))) := by
  have same : Value.bool (d.nameOf? 0).isSome = .i32 (if ∃ c ∈ d.declared, c.value = 0 then 1 else 0) := by
    simp only [Value.bool, Operation.nameOf?_isSome]
  rw [same]
  cases wide : d.kind.isWide with
  | false =>
    rw [← ofEnum_zero wide]
    exact plays_membership_of (fun yes => by cases wide.symm.trans yes) 0
  | true =>
    have ord := ordered_ofValues d
    have asks : asksZeroFirst (.ofValues d) density.ratio = true := by simpa [findsZero, wide] using finds
    refine (plays_zero (n := 2) ord asks ?_ ?_).mono (by omega)
    · intro index e he zero
      rw [if_pos ((mem_ofValues d 0).2 ⟨e, List.mem_of_getElem? he, zero⟩)]
      exact plays_hit_membership ord (Nat.zero_lt_of_lt (List.getElem?_eq_some_iff.1 he).1)
    · intro new
      rw [if_neg fun listed => ?_]
      · exact plays_ldcI4
      · obtain ⟨e, he, zero⟩ := (mem_ofValues d 0).1 listed
        exact new e he zero

end

/-- A lookup that does not find the narrow zero is one for a wide kind, and comes to no end. -/
theorem jams_of_findsZero (ord : p.Ordered) (finds : findsZero p ratio = false) :
    Jams m R (script mode p enum ratio) #[.i32 0] (script mode p enum ratio) [] mem := by
  simp only [findsZero, Bool.or_eq_false_iff, Bool.not_eq_false'] at finds
  exact jams_zero ord finds.1 finds.2

end CilForge.Lookup
