import CilForge.Proofs.Generate.LookupLabels
import CilForge.Proofs.Enum.Number
import CilForge.Proofs.Draft.Play

/-!
# Running lookups

Where the decision of a lookup goes: to the name of the entry that has the value of the argument, or
to the fallback if no entry has it. Numbers of instructions are bounded on the way, so that a lookup
needs no more than `lookupCost` of them.
-/

namespace CilForge.Lookup

open Script Roster

variable {k : IntKind} {m : Machine} {R : Carries} {s : Script} {args : Array Value} {back : Script}
  {stack : List Value} {mem : Memory} {n : Nat} {o : Outcome} {l : String}

/-! ## Instructions -/

theorem plays_ldarg {v : Value} (h : Plays m R s #[v] back (v :: stack) mem n o) :
    Plays m R s #[v] (plain (.ldarg 0) :: back) stack mem (n + 1) o :=
  .next (fun _ => rfl) h

theorem plays_load (v : EnumValue k) (h : Plays m R s args back (.ofEnum v :: stack) mem n o) :
    Plays m R s args (plain v.load :: back) stack mem (n + 1) o := by
  unfold EnumValue.load
  cases wide : k.isWide with
  | true => rw [Value.ofEnum_wide wide] at h; exact .next (fun _ => rfl) h
  | false => rw [Value.ofEnum_narrow wide] at h; exact .next (fun _ => rfl) h

theorem plays_ldcI8 {c : BitVec 64} (h : Plays m R s args back (.i64 c :: stack) mem n o) :
    Plays m R s args (plain (.ldcI8 c) :: back) stack mem (n + 1) o :=
  .next (fun _ => rfl) h

theorem plays_convU4 {c : BitVec 64}
    (h : Plays m R s args back (.i32 (c.setWidth 32) :: stack) mem n o) :
    Plays m R s args (plain ⟨.convU4, .none⟩ :: back) (.i64 c :: stack) mem (n + 1) o :=
  .next (fun _ => rfl) h

theorem plays_br (bound : l ∈ s.labels) (h : Plays m R s args (s.after l) stack mem n o) :
    Plays m R s args (.code (.branch .br l) :: back) stack mem (n + 1) o :=
  .jump bound (fun _ => rfl) h

theorem plays_brfalse {v : Value} (bound : l ∈ s.labels)
    (no : v.isTrue = false → Plays m R s args (s.after l) stack mem n o)
    (yes : v.isTrue = true → Plays m R s args back stack mem n o) :
    Plays m R s args (.code (.branch .brfalse l) :: back) (v :: stack) mem (n + 1) o := by
  have act (h : Handle) : (s.frame args back (v :: stack)).act mem.heap h
      (s.resolve (.branch .brfalse l)) = .ok (s.frame args back stack,
        if v.isTrue = false then .jump ⟨s.place l⟩ else .next) := by
    change (if v.isTrue = (Opcode.brfalse = Opcode.brtrue) then _ else _) = _
    cases v.isTrue <;> rfl
  cases hv : v.isTrue with
  | false => exact .jump bound (fun h => by rw [act h, if_pos hv]) (no hv)
  | true => exact .next (fun h => by rw [act h, if_neg (by simp [hv])]) (yes hv)

theorem plays_compare {op : Opcode} {a b : Value} {c : Bool}
    (known : op = .beq ∨ op = .blt ∨ op = .bltUn ∨ op = .bgeUn) (bound : l ∈ s.labels)
    (compare : mem.heap.compare op a b = .ok c)
    (yes : c = true → Plays m R s args (s.after l) stack mem n o)
    (no : c = false → Plays m R s args back stack mem n o) :
    Plays m R s args (.code (.branch op l) :: back) (b :: a :: stack) mem (n + 1) o := by
  have act (h : Handle) : (s.frame args back (b :: a :: stack)).act mem.heap h
      (s.resolve (.branch op l)) = .ok (s.frame args back stack,
        if c then .jump ⟨s.place l⟩ else .next) := by
    have unfolded : (s.frame args back (b :: a :: stack)).act mem.heap h (s.resolve (.branch op l)) =
        (mem.heap.compare op a b).bind fun c => if c then
          .ok (s.frame args back stack, .jump ⟨s.place l⟩)
        else .ok (s.frame args back stack, .next) := by
      rcases known with rfl | rfl | rfl | rfl <;> rfl
    rw [unfolded, compare]
    cases c <;> rfl
  cases c with
  | true => exact .jump bound act (yes rfl)
  | false => exact .next act (no rfl)

theorem plays_switch {ls : List String} {index : BitVec 32} (bound : ∀ l ∈ ls, l ∈ s.labels)
    (hit : ∀ l, ls[index.toNat]? = some l → Plays m R s args (s.after l) stack mem n o)
    (miss : ls[index.toNat]? = none → Plays m R s args back stack mem n o) :
    Plays m R s args (.code (.switch ls) :: back) (.i32 index :: stack) mem (n + 1) o := by
  have act (h : Handle) : (s.frame args back (.i32 index :: stack)).act mem.heap h
      (s.resolve (.switch ls)) = .ok (s.frame args back stack,
        ((ls[index.toNat]?).map fun l => .jump ⟨s.place l⟩).getD .next) := by
    have targets : (s.resolve (.switch ls)).targets[index.toNat]? =
        (ls[index.toNat]?).map fun l => ⟨s.place l⟩ := List.getElem?_map
    have opcode : (s.resolve (.switch ls)).opcode = .switch := rfl
    simp only [Frame.act, opcode, reduceCtorEq, if_false, frame, Frame.pop, Heap.int32, bind,
      Except.bind, targets]
    cases ls[index.toNat]? <;> rfl
  cases found : ls[index.toNat]? with
  | some l =>
    rw [found] at act
    exact .jump (bound l (List.mem_of_getElem? found)) act (hit l found)
  | none =>
    rw [found] at act
    exact .next act (miss found)

/-! ## Tests -/

section
variable {v : EnumValue k}

theorem plays_equality {mode : Lookup} {index : Nat} {value : EnumValue k}
    (bound : mode.hitLabel index ∈ s.labels)
    (hit : v = value → Plays m R s #[.ofEnum v] (s.after (mode.hitLabel index)) stack mem n o)
    (miss : v ≠ value → Plays m R s #[.ofEnum v] back stack mem n o) :
    Plays m R s #[.ofEnum v] (equalityScript mode index value ++ back) stack mem (n + 3) o := by
  unfold equalityScript
  by_cases zero : value = 0
  · rw [if_pos zero]
    refine (plays_ldarg (plays_brfalse bound ?_ ?_)).mono (show n + 1 + 1 ≤ n + 3 by omega)
    · intro no
      rw [Heap.isTrue_ofEnum, decide_eq_false_iff_not, Decidable.not_not] at no
      exact hit (no.trans zero.symm)
    · intro yes
      rw [Heap.isTrue_ofEnum, decide_eq_true_iff] at yes
      exact miss (zero ▸ yes)
  · rw [if_neg zero]
    refine plays_ldarg (plays_load value ?_)
    refine plays_compare (.inl rfl) bound (Heap.compare_beq_ofEnum mem.heap v value) ?_ ?_
    · exact fun yes => hit (of_decide_eq_true yes)
    · exact fun no => miss (of_decide_eq_false no)

def distance (v base : EnumValue k) : Value :=
  if k.isWide then .i64 (v.stack64 - base.stack64) else .i32 (v.stack32 - base.stack32)

theorem distance_zero (v : EnumValue k) : distance v 0 = .ofEnum v := by
  have wide : (0 : EnumValue k).stack64 = 0 := by simp [EnumValue.stack64]
  have narrow : (0 : EnumValue k).stack32 = 0 := by cases k <;> rfl
  rw [distance, wide, narrow]
  simp [Value.ofEnum]

theorem plays_index {base : EnumValue k}
    (h : Plays m R s #[.ofEnum v] back (distance v base :: stack) mem n o) :
    Plays m R s #[.ofEnum v] (indexScript base ++ back) stack mem (n + 3) o := by
  unfold indexScript
  by_cases zero : base = 0
  · rw [if_pos zero]
    rw [zero, distance_zero] at h
    exact (plays_ldarg h).mono (by omega)
  · rw [if_neg zero]
    refine plays_ldarg (plays_load base (.next (fun _ => ?_) h))
    unfold distance
    cases wide : k.isWide with
    | true => rw [Value.ofEnum_wide wide, Value.ofEnum_wide wide]; rfl
    | false => rw [Value.ofEnum_narrow wide, Value.ofEnum_narrow wide]; rfl

def ShortTables (s : Script) : Prop := ∀ ls, .switch ls ∈ s.code → ls.length < 2 ^ 31

theorem mem_code_of_suffix {s back : Script} {p : Pending} (suffix : back <:+ s) (mem : p ∈ back.code) :
    p ∈ s.code := by
  obtain ⟨front, rfl⟩ := suffix
  rw [code_append]
  exact List.mem_append_right _ mem

theorem compare_bgeUn {w : Nat} (a b : BitVec w) :
    (wordOrder true a b).isGE = decide (b.toNat ≤ a.toNat) := by
  rw [Bool.eq_iff_iff, decide_eq_true_iff]
  exact Nat.isGE_compare

section
variable {base : EnumValue k} {ls : List String} (bound : ∀ l ∈ ls, l ∈ s.labels)
  (room : base.toNumber + ls.length ≤ k.lowest + 2 ^ k.bits)
  (hit : ∀ (i : Nat) (l : String), ls[i]? = some l → v.toNumber = base.toNumber + i →
    Plays m R s #[.ofEnum v] (s.after l) stack mem n o)
include bound hit

theorem plays_jump {index : BitVec 32} (inside : index.toNat < ls.length →
      v.toNumber = base.toNumber + index.toNat)
    (out : ls.length ≤ index.toNat → Plays m R s #[.ofEnum v] back stack mem n o) :
    Plays m R s #[.ofEnum v] (.code (.switch ls) :: back) (.i32 index :: stack) mem (n + 1) o := by
  refine plays_switch bound (fun l hl => hit _ l hl (inside ?_)) (fun none => out ?_)
  · exact (List.getElem?_eq_some_iff.1 hl).1
  · exact List.getElem?_eq_none_iff.1 none

variable (miss : (∀ i < ls.length, v.toNumber ≠ base.toNumber + i) →
    Plays m R s #[.ofEnum v] back stack mem n o)
include room miss

theorem plays_table_narrow (narrow : k.isWide = false) :
    Plays m R s #[.ofEnum v] (tableScript base ls ++ back) stack mem (n + 4) o := by
  have number := Heap.toNat_sub_emod (EnumValue.toNat_stack32 narrow v) (EnumValue.toNat_stack32 narrow base)
  have bits := IntKind.bits_le_of_not_isWide narrow
  unfold tableScript
  rw [narrow, if_neg (by decide), List.append_assoc]
  refine plays_index ?_
  rw [distance, narrow, if_neg (by decide)]
  refine plays_jump bound hit ?_ ?_
  · intro lt
    exact (Heap.emod_sub_eq_iff bits room lt).1 number.symm
  · intro ge
    refine miss fun i lt eq => ?_
    have := (Heap.emod_sub_eq_iff bits room lt).2 eq
    omega

/-- The distance of wide values is checked before it is made an index. -/
theorem plays_table_wide (wide : k.isWide = true) (nodup : s.labels.Nodup) (short : ShortTables s) :
    Plays m R s #[.ofEnum v] (tableScript base ls ++ back) stack mem (n + 10) o := by
  intro suffix
  have small : ls.length < 2 ^ 31 := by
    refine short ls (mem_code_of_suffix suffix ?_)
    unfold tableScript
    split <;> simp [plain]
  revert suffix
  have number := Heap.toNat_sub_emod (EnumValue.toNat_stack64 wide v) (EnumValue.toNat_stack64 wide base)
  have bits : k.bits ≤ 64 := k.bits_le
  have size : (BitVec.ofNat 64 ls.length).toNat = ls.length := by
    rw [BitVec.toNat_ofNat, Nat.mod_eq_of_lt (by omega)]
  unfold tableScript
  rw [wide, if_pos rfl]
  simp only [List.append_assoc, List.cons_append, List.nil_append]
  intro suffix
  -- behind the check the index is counted once more, and the end of the table stands last
  have rest : .label (tableEnd base) :: back <:+ s := by
    obtain ⟨front, rfl⟩ := suffix
    refine ⟨front ++ (indexScript base ++ plain (.ldcI8 (BitVec.ofNat 64 ls.length)) ::
      .code (.branch .bgeUn (tableEnd base)) :: (indexScript base ++
        [plain ⟨.convU4, .none⟩, .code (.switch ls)])), ?_⟩
    simp
  obtain ⟨skip, after⟩ := after_of_suffix nodup rest
  revert suffix
  refine (plays_index (n := n + 7) ?_)
  rw [distance, wide, if_pos rfl]
  refine plays_ldcI8 ?_
  refine plays_compare (c := decide (ls.length ≤ (v.stack64 - base.stack64).toNat))
    (.inr (.inr (.inr rfl))) skip ?_ ?_ ?_
  · rw [← size, ← compare_bgeUn, size]
    rfl
  · intro ge
    have ge := of_decide_eq_true ge
    rw [after]
    refine (miss fun i lt eq => ?_).mono (by omega)
    have := (Heap.emod_sub_eq_iff bits room lt).2 eq
    omega
  · intro lt
    have lt := of_decide_eq_false lt
    have index : ((v.stack64 - base.stack64).setWidth 32).toNat = (v.stack64 - base.stack64).toNat := by
      rw [BitVec.toNat_setWidth, Nat.mod_eq_of_lt (by omega)]
    refine (plays_index (n := n + 2) ?_)
    rw [distance, wide, if_pos rfl]
    refine plays_convU4 (plays_jump bound hit ?_ ?_)
    · rw [index]
      exact fun lt => (Heap.emod_sub_eq_iff bits room lt).1 number.symm
    · rw [index]
      exact fun ge => absurd ge lt

theorem plays_table (nodup : s.labels.Nodup) (short : k.isWide = true → ShortTables s) :
    Plays m R s #[.ofEnum v] (tableScript base ls ++ back) stack mem (n + 10) o := by
  cases wide : k.isWide with
  | false => exact (plays_table_narrow bound room hit miss wide).mono (by omega)
  | true => exact plays_table_wide bound room hit miss wide nodup (short wide)

end

/-! ## Searches -/

variable {mode : Lookup} {p : Roster k}

/-- The answers a lookup gives behind its decision: at the names of entries and at the fallback. -/
structure Answers (m : Machine) (R : Carries) (s : Script) (mode : Lookup) (p : Roster k)
    (v : EnumValue k) (mem : Memory) (n : Nat) (o : Outcome) : Prop where
  bound : ∀ index < p.size, mode.hitLabel index ∈ s.labels
  hit : ∀ (index : Nat) e, p.entries.toList[index]? = some e → e.value = v →
    Plays m R s #[.ofEnum v] (s.after (mode.hitLabel index)) [] mem n o
  fallback : "fallback" ∈ s.labels
  miss : (∀ e ∈ p.entries.toList, e.value ≠ v) →
    Plays m R s #[.ofEnum v] (s.after "fallback") [] mem n o

theorem plays_entries (nodup : s.labels.Nodup) (short : k.isWide = true → ShortTables s)
    (answers : Answers m R s mode p v mem n o) {base : EnumValue k} {start len : Nat}
    (all : ∀ i < len, ∃ e, p.entries.toList[start + i]? = some e ∧ e.value.toNumber = base.toNumber + i)
    (miss : (∀ i < len, v.toNumber ≠ base.toNumber + i) → Plays m R s #[.ofEnum v] back [] mem n o) :
    Plays m R s #[.ofEnum v] (tableScript base ((List.range len).map fun i => mode.hitLabel (start + i)) ++
      back) [] mem (n + 10) o := by
  refine plays_table ?_ ?_ ?_ ?_ nodup short
  · intro l hl
    obtain ⟨i, hi, rfl⟩ := List.mem_map.1 hl
    obtain ⟨e, he, -⟩ := all i (List.mem_range.1 hi)
    exact answers.bound _ (List.getElem?_eq_some_iff.1 he).1
  · rw [List.length_map, List.length_range]
    rcases Nat.eq_zero_or_pos len with zero | pos
    · have := base.toNumber_lt
      omega
    · obtain ⟨e, -, number⟩ := all (len - 1) (by omega)
      have := e.value.toNumber_lt
      omega
  · intro i l hl eq
    rw [List.getElem?_map, Option.map_eq_some_iff] at hl
    obtain ⟨j, hj, rfl⟩ := hl
    obtain ⟨hi, rfl⟩ := List.getElem?_eq_some_iff.1 hj
    rw [List.getElem_range]
    rw [List.length_range] at hi
    obtain ⟨e, he, number⟩ := all i hi
    exact answers.hit _ e he (EnumValue.toNumber_injective (number.trans eq.symm))
  · intro none
    rw [List.length_map, List.length_range] at none
    exact miss none

theorem plays_run (ord : p.Ordered) (nodup : s.labels.Nodup) (short : k.isWide = true → ShortTables s)
    (answers : Answers m R s mode p v mem n o) {mid : Nat} (lt : mid < p.runs.length)
    (miss : (∀ i < (midRun p mid).len, v.toNumber ≠ (midFirst p mid).toNumber + i) →
      Plays m R s #[.ofEnum v] back [] mem n o) :
    Plays m R s #[.ofEnum v] (runScript mode (midRun p mid) (midFirst p mid) ++ back) [] mem
      (n + 10) o := by
  obtain ⟨-, pos, -, all⟩ := midRun_spec ord lt
  unfold runScript
  split
  · rename_i one
    obtain ⟨e, he, number⟩ := all 0 pos
    have value : e.value = midFirst p mid := EnumValue.toNumber_injective (by simpa using number)
    refine (plays_equality (answers.bound _ (List.getElem?_eq_some_iff.1 he).1) ?_ ?_).mono
      (show n + 3 ≤ n + 10 by omega)
    · exact fun eq => answers.hit _ e he (value.trans eq.symm)
    · intro ne
      refine miss fun i hi eq => ne (EnumValue.toNumber_injective ?_)
      omega
  · exact plays_entries nodup short answers all miss

/-- An entry with the value of the argument is not in front of run `lo`, and in front of run `hi`. -/
def Narrowed (p : Roster k) (v : EnumValue k) (lo hi : Nat) : Prop :=
  ∀ (index : Nat) e, p.entries.toList[index]? = some e → e.value = v →
    cutAt p.runs p.size lo ≤ index ∧ index < cutAt p.runs p.size hi

theorem Narrowed.left (ord : p.Ordered) {lo mid hi : Nat} (lt : mid < p.runs.length)
    (h : Narrowed p v lo hi) (below : v.toNumber < (midFirst p mid).toNumber) :
    Narrowed p v lo mid := by
  intro index e he value
  obtain ⟨-, pos, -, all⟩ := midRun_spec ord lt
  obtain ⟨first, hfirst, number⟩ := all 0 pos
  refine ⟨(h index e he value).1, ?_⟩
  rw [cutAt_eq_start ord lt]
  refine (ord.ascending.lt_iff he hfirst).1 ?_
  rw [value]
  omega

theorem Narrowed.right (ord : p.Ordered) {lo mid hi : Nat} (lt : mid < p.runs.length)
    (h : Narrowed p v lo hi) (from' : ¬ v.toNumber < (midFirst p mid).toNumber ∨ lo = mid)
    (none : ∀ i < (midRun p mid).len, v.toNumber ≠ (midFirst p mid).toNumber + i) :
    Narrowed p v (mid + 1) hi := by
  intro index e he value
  obtain ⟨-, pos, next, all⟩ := midRun_spec ord lt
  obtain ⟨first, hfirst, number⟩ := all 0 pos
  have start : (midRun p mid).start ≤ index := by
    rcases from' with above | rfl
    · have := ord.ascending.lt_iff he hfirst
      rw [value] at this
      omega
    · rw [← cutAt_eq_start ord lt]
      exact (h index e he value).1
  refine ⟨?_, (h index e he value).2⟩
  rw [next]
  refine Nat.le_of_not_lt fun inside => ?_
  obtain ⟨c, hc, numberc⟩ := all (index - (midRun p mid).start) (by omega)
  rw [Nat.add_sub_cancel' start, he, Option.some.injEq] at hc
  subst hc
  rw [value] at numberc
  exact none _ (by omega) numberc

/-- A search goes to the entry of the argument, or to the fallback if there is none. It halves what
is left with every 13 instructions. -/
theorem plays_search (ord : p.Ordered) (nodup : s.labels.Nodup) (short : k.isWide = true → ShortTables s)
    (answers : Answers m R s mode p v mem n o) {lo hi h : Nat} (order : lo ≤ hi)
    (le : hi ≤ p.runs.length) (levels : hi - lo < 2 ^ h) (narrowed : Narrowed p v lo hi) :
    Plays m R s #[.ofEnum v] (searchScript mode p lo hi ++ back) [] mem (n + 13 * h + 1) o := by
  -- `hi - lo < 2 ^ h` bounds the halvings, and `Narrowed` says the argument is in no run left out
  fun_induction searchScript mode p lo hi generalizing back h with
  | case1 lo hi lt mid ih₁ ih₂ =>
    rename_i ih₃
    have bounds : lo ≤ mid ∧ mid < hi := by omega
    have inside : mid < p.runs.length := by omega
    obtain ⟨h, rfl⟩ : ∃ h', h = h' + 1 := by
      cases h with
      | zero => simp only [Nat.pow_zero] at levels; omega
      | succ h => exact ⟨h, rfl⟩
    have half : hi - (mid + 1) < 2 ^ h ∧ mid - lo < 2 ^ h := by
      rw [Nat.pow_succ] at levels
      omega
    have more : Answers m R s mode p v mem (n + 13 * h + 1 + 3) o :=
      { answers with
        hit := fun index e he value => (answers.hit index e he value).mono (by omega)
        miss := fun none => (answers.miss none).mono (by omega) }
    -- first the middle run: only an argument it does not have goes on to one of the halves
    rw [List.append_assoc]
    refine (plays_run ord nodup short more inside fun none => ?_).mono
      (show n + 13 * h + 1 + 3 + 10 ≤ n + 13 * (h + 1) + 1 by omega)
    by_cases left : lo < mid
    · rw [if_pos left]
      intro suffix
      have rest : .label (leftLabel lo mid) :: (searchScript mode p lo mid ++ back) <:+ s := by
        obtain ⟨front, rfl⟩ := suffix
        refine ⟨front ++ ([plain (.ldarg 0), plain (midFirst p mid).load, .code (.branch
          (if k.isSigned then .blt else .bltUn) (leftLabel lo mid))] ++ searchScript mode p (mid + 1) hi), ?_⟩
        simp
      obtain ⟨bound, after⟩ := after_of_suffix nodup rest
      revert suffix
      simp only [List.append_assoc, List.cons_append, List.nil_append]
      refine plays_ldarg (plays_load _ (plays_compare ?_ bound
        (Heap.compare_blt_ofEnum mem.heap v (midFirst p mid)) ?_ ?_))
      · split
        · exact .inr (.inl rfl)
        · exact .inr (.inr (.inl rfl))
      · intro below
        rw [after]
        exact ih₂ left (by omega) (by omega) half.2 (narrowed.left ord inside (of_decide_eq_true below))
      · intro above
        exact ih₁ left (by omega) le half.1
          (narrowed.right ord inside (.inl (of_decide_eq_false above)) none)
    · rw [if_neg left]
      refine (ih₃ left (by omega) le half.1 ?_).mono (by omega)
      exact narrowed.right ord inside (.inr (by omega)) none
  | case2 lo hi ge =>
    refine (plays_br answers.fallback (answers.miss fun e he value => ?_)).mono
      (show n + 1 ≤ n + 13 * h + 1 by omega)
    obtain ⟨index, hindex⟩ := List.getElem?_of_mem he
    have := narrowed index e hindex value
    rw [show lo = hi by omega] at this
    omega

/-! ## Decisions -/

theorem plays_tests (answers : Answers m R s mode p v mem n o) :
    ∀ {tests : List (Nat × EnumValue k)},
      (∀ t ∈ tests, ∃ e, p.entries.toList[t.1]? = some e ∧ e.value = t.2) →
      ((∀ t ∈ tests, v ≠ t.2) → Plays m R s #[.ofEnum v] back [] mem n o) →
      Plays m R s #[.ofEnum v] ((tests.flatMap fun (index, value) => equalityScript mode index value) ++ back)
        [] mem (n + 3 * tests.length) o
  | [], _, miss => miss (by simp)
  | (index, value) :: tests, entries, miss => by
    obtain ⟨e, he, rfl⟩ := entries (index, value) (by simp)
    have bound := answers.bound index (List.getElem?_eq_some_iff.1 he).1
    rw [List.flatMap_cons, List.append_assoc]
    refine plays_equality bound ?_ ?_
    · intro eq
      exact (answers.hit index e he eq.symm).mono (Nat.le_add_right _ _)
    · intro ne
      refine plays_tests answers (fun t ht => entries t (by simp [ht])) fun none => miss fun t ht => ?_
      rcases List.mem_cons.1 ht with rfl | ht
      · exact ne
      · exact none t ht

theorem length_testOrder_le (p : Roster k) : (testOrder p).length ≤ 2 * p.size := by
  unfold testOrder
  rw [List.length_append]
  refine Nat.le_trans (Nat.add_le_add (List.length_filter_le _ _) (List.length_filter_le _ _)) ?_
  rw [List.length_map, List.length_zipIdx, ← Nat.two_mul]
  exact Nat.le_refl _

theorem entries_of_one_run (ord : p.Ordered) (one : p.runs.length = 1) {i : Nat} (lt : i < p.size) :
    ∃ e, p.entries.toList[i]? = some e ∧ e.value.toNumber = (baseOf p).toNumber + i := by
  obtain ⟨-, -, next, all⟩ := midRun_spec ord (show 0 < p.runs.length by omega)
  have zero : (midRun p 0).start = 0 := by
    rw [← cutAt_eq_start ord (by omega)]
    simpa [Roster.size] using ord.cuts.cutAt_zero
  have last : cutAt p.runs p.size 1 = p.size := by simp [cutAt, one]
  have first : midFirst p 0 = baseOf p := by simp [midFirst, baseOf, zero]
  rw [Nat.zero_add, last, zero, Nat.zero_add] at next
  rw [zero, first] at all
  simpa using all i (by omega)

/-- What a roster has the shape for. -/
def Suits (p : Roster k) : Shape → Prop
  | .empty => p.size = 0
  | .single | .pair => p.size ≤ 2
  | .contiguous => p.runs.length = 1
  | .denseTable | .binarySearch => 0 < p.size

theorem suits_shape (p : Roster k) (ratio : Nat) : Suits p (p.shape ratio) := by
  unfold Roster.shape
  split
  · assumption
  · rename_i size; exact Nat.le_succ_of_le (Nat.le_of_eq size)
  · rename_i size; exact Nat.le_of_eq size
  · split
    · assumption
    · split <;> exact Nat.pos_of_ne_zero ‹_›

/-- A table with places between entries goes to the entry of the argument. If there is none it goes to
the code of the value there, or to the fallback, or on. -/
theorem plays_slots (ord : p.Ordered) (nodup : s.labels.Nodup) (short : k.isWide = true → ShortTables s)
    (answers : Answers m R s mode p v mem n o) {e₀ : EnumConstant k} (first : p.entries.toList[0]? = some e₀)
    (bound : ∀ l ∈ (slots p.entries.toList).map (mode.slotLabel p e₀.value), l ∈ s.labels)
    (gap : mode.fillsGaps p → .gap v ∈ slots p.entries.toList → (∀ e ∈ p.entries.toList, e.value ≠ v) →
      Plays m R s #[.ofEnum v] (s.after (gapLabel e₀.value v)) [] mem n o)
    (on : (∀ e ∈ p.entries.toList, e.value ≠ v) → Plays m R s #[.ofEnum v] back [] mem n o) :
    Plays m R s #[.ofEnum v] (tableScript e₀.value ((slots p.entries.toList).map (mode.slotLabel p e₀.value)) ++
      back) [] mem (n + 10) o := by
  refine plays_table bound ?_ ?_ ?_ nodup short
  · rw [List.length_map]
    exact length_slots_le ord.ascending first
  · intro i l hl eq
    rw [List.getElem?_map, Option.map_eq_some_iff] at hl
    obtain ⟨place, hplace, rfl⟩ := hl
    have holds := holds_slots ord.ascending first hplace
    rw [← eq] at holds
    cases place with
    | hit index =>
      obtain ⟨e, he, number⟩ := holds
      exact answers.hit index e he (EnumValue.toNumber_injective number)
    | gap w =>
      obtain ⟨number, none⟩ := holds
      rw [EnumValue.toNumber_injective number] at none hplace ⊢
      rw [slotLabel]
      by_cases fills : mode.fillsGaps p
      · rw [if_pos fills]
        exact gap fills (List.mem_of_getElem? hplace) none
      · rw [if_neg fills]
        exact answers.miss none
  · intro none
    rw [List.length_map] at none
    refine on fun e he eq => ?_
    obtain ⟨j, hj⟩ := List.getElem?_of_mem he
    have above : e₀.value.toNumber ≤ e.value.toNumber := by
      have := ord.ascending.lt_iff hj first
      omega
    have below := lt_length_slots ord.ascending first hj
    refine none (e.value.toNumber - e₀.value.toNumber).toNat (by omega) ?_
    rw [← eq]
    omega

/-- A decision goes to the entry of the argument. If there is none it goes on, to the fallback, or to
the code of the value between entries. -/
theorem plays_decision (ord : p.Ordered) {ratio : Nat} (nodup : s.labels.Nodup)
    (short : k.isWide = true → ShortTables s)
    (bound : ∀ l ∈ (decisionScript mode p ratio).goals, l ∈ s.labels)
    (answers : Answers m R s mode p v mem n o)
    (gap : mode.fillsGaps p → .gap v ∈ placesOf p ratio → (∀ e ∈ p.entries.toList, e.value ≠ v) →
      Plays m R s #[.ofEnum v] (s.after (gapLabel (baseOf p) v)) [] mem n o)
    (on : (∀ e ∈ p.entries.toList, e.value ≠ v) → Plays m R s #[.ofEnum v] back [] mem n o) :
    Plays m R s #[.ofEnum v] (decisionScript mode p ratio ++ back) [] mem (n + 846) o := by
  have tests (size : p.size ≤ 2) : Plays m R s #[.ofEnum v] (((testOrder p).flatMap fun (index, value) =>
      equalityScript mode index value) ++ back) [] mem (n + 846) o := by
    have length := length_testOrder_le p
    refine (plays_tests answers (fun t ht => mem_testOrder.1 ht) fun none => on fun e he eq => ?_).mono
      (show n + 3 * (testOrder p).length ≤ n + 846 by omega)
    obtain ⟨index, hindex⟩ := List.getElem?_of_mem he
    exact none (index, e.value) (mem_testOrder.2 ⟨e, hindex, rfl⟩) eq.symm
  have suits := suits_shape p ratio
  unfold decisionScript at bound ⊢
  cases shape : p.shape ratio with
  | empty =>
    rw [shape] at suits
    simp only [shape] at bound ⊢
    refine (on fun e he => ?_).mono (by omega)
    rw [List.eq_nil_of_length_eq_zero suits] at he
    cases he
  | single => exact tests (by rwa [shape] at suits)
  | pair => exact tests (by rwa [shape] at suits)
  | contiguous =>
    have one : p.runs.length = 1 := by rwa [shape] at suits
    have all (i : Nat) (lt : i < p.size) := entries_of_one_run ord one lt
    have table : Plays m R s #[.ofEnum v] (tableScript (baseOf p) ((List.range p.size).map fun i =>
        mode.hitLabel (0 + i)) ++ back) [] mem (n + 10) o := by
      refine plays_entries nodup short answers (by simpa using all) fun none => on fun e he eq => ?_
      obtain ⟨i, hi⟩ := List.getElem?_of_mem he
      have lt : i < p.size := (List.getElem?_eq_some_iff.1 hi).1
      obtain ⟨e', he', number⟩ := all i lt
      cases hi.symm.trans he'
      exact none i lt (eq ▸ number)
    simp only [Nat.zero_add] at table
    exact table.mono (by omega)
  | denseTable =>
    obtain ⟨e₀, first, base⟩ := first_of_shape (show p.shape ratio ≠ .empty by simp [shape])
    have places : placesOf p ratio = slots p.entries.toList := by rw [placesOf, if_pos shape]
    simp only [shape] at bound ⊢
    rw [places, base] at bound gap ⊢
    refine (plays_slots ord nodup short answers first (fun l hl => bound l ?_) gap on).mono (by omega)
    rw [goals_tableScript]
    split
    · exact List.mem_cons_of_mem _ hl
    · exact hl
  | binarySearch =>
    simp only [shape] at bound ⊢
    -- a roster of 64-bit values has at most so many runs
    have few : p.runs.length < 2 ^ 65 := by
      have := ord.cuts.length_le
      have := ord.ascending.length_le
      have := Nat.pow_le_pow_right (show 0 < 2 by decide) k.bits_le
      omega
    refine plays_search (h := 65) ord nodup short answers (Nat.zero_le _) (Nat.le_refl _) few ?_
    intro index e he value
    have zero : cutAt p.runs p.size 0 = 0 := by simpa [Roster.size] using ord.cuts.cutAt_zero
    have last : cutAt p.runs p.size p.runs.length = p.size := by simp [cutAt]
    rw [zero, last]
    exact ⟨Nat.zero_le _, (List.getElem?_eq_some_iff.1 he).1⟩

/-! ## Answers -/

theorem plays_ret {a : Value} : Plays m R s args (plain ⟨.ret, .none⟩ :: back) (a :: stack) mem 1
    (.returned (some a)) :=
  .stop (fun _ => rfl) rfl

theorem plays_ldstr {t : String} : Plays m R s args (plain (.ldstr t) :: plain ⟨.ret, .none⟩ :: back)
    stack mem 2 (.returned (some (.str t))) :=
  .next (fun _ => rfl) plays_ret

theorem plays_ldcI4 {c : BitVec 32} : Plays m R s args (plain (.ldcI4 c) :: plain ⟨.ret, .none⟩ :: back)
    stack mem 2 (.returned (some (.i32 c))) :=
  .next (fun _ => rfl) plays_ret

theorem suffix_flatMap {α : Type} {f : α → Script} {l : List α} {x : α} {s front back : Script}
    (hs : s = front ++ (l.flatMap f ++ back)) (mem : x ∈ l) : ∃ rest, f x ++ rest <:+ s := by
  obtain ⟨a, b, rfl⟩ := List.append_of_mem mem
  exact ⟨b.flatMap f ++ back, front ++ a.flatMap f, by simp [hs]⟩

section
variable {enum : Sig} {ratio : Nat}

theorem script_eq_hits (mode : Lookup) (p : Roster k) (enum : Sig) (ratio : Nat) :
    ∃ front back, script mode p enum ratio = front ++ (hitsScript mode p ++ back) :=
  ⟨decisionScript mode p ratio ++ .label "fallback" :: fallbackScript mode p enum,
    gapsScript (baseOf p) (mode.gapValues p (placesOf p ratio)), by simp [script]⟩

theorem plays_hit_names (ord : p.Ordered) {index : Nat} {e : EnumConstant k}
    (he : p.entries.toList[index]? = some e) :
    Plays m R (script names p enum ratio) args ((script names p enum ratio).after (names.hitLabel index))
      stack mem 2 (.returned (some (.str e.name))) := by
  obtain ⟨front, back, hs⟩ := script_eq_hits names p enum ratio
  have mem' : (e, index) ∈ p.entries.toList.zipIdx := List.mk_mem_zipIdx_iff_getElem?.2 he
  obtain ⟨rest, suffix⟩ := suffix_flatMap hs mem'
  rw [(after_of_suffix (nodup_script names ord enum ratio) suffix).2]
  exact plays_ldstr

theorem plays_hit_membership (ord : p.Ordered) (pos : 0 < p.size) :
    Plays m R (script membership p enum ratio) args ((script membership p enum ratio).after "hit")
      stack mem 2 (.returned (some (.bool true))) := by
  obtain ⟨front, back, hs⟩ := script_eq_hits membership p enum ratio
  rw [hitsScript, if_neg (by omega)] at hs
  have suffix : .label "hit" :: plain (.ldcI4 1) :: plain ⟨.ret, .none⟩ :: back <:+
      script membership p enum ratio := ⟨front, by rw [hs]; rfl⟩
  rw [(after_of_suffix (nodup_script membership ord enum ratio) suffix).2]
  exact plays_ldcI4

theorem plays_gap (ord : p.Ordered) (fills : mode.fillsGaps p) (place : .gap v ∈ placesOf p ratio) :
    Plays m R (script mode p enum ratio) args
      ((script mode p enum ratio).after (gapLabel (baseOf p) v)) stack mem 2
      (.returned (some (.str v.text))) := by
  have mem' : v ∈ mode.gapValues p (placesOf p ratio) := by
    rw [gapValues_eq, if_pos fills]
    exact List.mem_filterMap.2 ⟨_, place, rfl⟩
  have hs : script mode p enum ratio = decisionScript mode p ratio ++ .label "fallback" ::
      (fallbackScript mode p enum ++ hitsScript mode p) ++
        (gapsScript (baseOf p) (mode.gapValues p (placesOf p ratio)) ++ []) := by simp [script]
  obtain ⟨rest, suffix⟩ := suffix_flatMap hs mem'
  rw [(after_of_suffix (nodup_script mode ord enum ratio) suffix).2]
  exact plays_ldstr

def tailScript (mode : Lookup) (p : Roster k) (enum : Sig) (ratio : Nat) : Script :=
  fallbackScript mode p enum ++
    (hitsScript mode p ++ gapsScript (baseOf p) (mode.gapValues p (placesOf p ratio)))

/-- A lookup gives the answer of the entry of the argument, or that of the fallback if there is
none, or the text of the argument where values between entries have code. -/
theorem plays_script (ord : p.Ordered) (short : k.isWide = true → ShortTables (script mode p enum ratio))
    (hit : ∀ (index : Nat) e, p.entries.toList[index]? = some e → e.value = v →
      Plays m R (script mode p enum ratio) #[.ofEnum v]
        ((script mode p enum ratio).after (mode.hitLabel index)) [] mem n o)
    (gap : mode.fillsGaps p → .gap v ∈ placesOf p ratio → (∀ e ∈ p.entries.toList, e.value ≠ v) →
      Plays m R (script mode p enum ratio) #[.ofEnum v]
        ((script mode p enum ratio).after (gapLabel (baseOf p) v)) [] mem n o)
    (miss : (∀ e ∈ p.entries.toList, e.value ≠ v) →
      Plays m R (script mode p enum ratio) #[.ofEnum v] (tailScript mode p enum ratio) [] mem n o) :
    Plays m R (script mode p enum ratio) #[.ofEnum v] (script mode p enum ratio) [] mem (n + 846) o := by
  have closed := closed_script mode ord enum ratio
  have suffix : .label "fallback" :: tailScript mode p enum ratio <:+ script mode p enum ratio :=
    ⟨decisionScript mode p ratio, rfl⟩
  obtain ⟨fallback, after⟩ := after_of_suffix closed.nodup suffix
  refine plays_decision ord closed.nodup short ?_ ?_ gap fun none => .label (miss none)
  · intro l hl
    exact closed.bound l (by rwa [goals_script])
  · refine ⟨fun index lt => ?_, hit, fallback, fun none => after ▸ miss none⟩
    rw [labels_script]
    exact List.mem_append_right _ (List.mem_cons_of_mem _ (List.mem_append_left _ (hitLabel_mem mode lt)))

end

end

end CilForge.Lookup
