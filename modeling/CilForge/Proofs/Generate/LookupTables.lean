import CilForge.Proofs.Generate.LookupLabels

/-!
# The tables of lookups

The tables of a lookup are no longer than its roster, or than the ratio allows.
-/

namespace CilForge.Lookup

open Script Roster

variable {k : IntKind}

theorem length_slotsFrom_le {rest front : List (EnumConstant k)} {last far : EnumConstant k}
    (asc : Ascending (front ++ rest)) (hlast : front.getLast? = some last)
    (hfar : (front ++ rest).getLast? = some far) :
    (slotsFrom front.length last.value rest).length ≤ far.value.toNumber - last.value.toNumber := by
  induction rest generalizing front last with
  | nil =>
    rw [List.append_nil, hlast, Option.some.injEq] at hfar
    rw [hfar, slotsFrom]
    simp
  | cons c rest ih =>
    obtain ⟨pos, atLast⟩ := getElem?_last (c :: rest) hlast
    have atC : (front ++ c :: rest)[front.length]? = some c := by simp
    have lt : last.value.toNumber < c.value.toNumber := (asc.lt_iff atLast atC).2 (by omega)
    have len := length_between lt
    have split : front ++ c :: rest = (front ++ [c]) ++ rest := by simp
    rw [split] at asc hfar
    have here : (front ++ [c]).getLast? = some c := List.getLast?_concat
    have ih := ih asc here hfar
    rw [List.length_append, List.length_singleton] at ih
    rw [slotsFrom, List.length_append, List.length_map, List.length_cons]
    push_cast
    omega

theorem length_slots_le_span {p : Roster k} (ord : p.Ordered) :
    (slots p.entries.toList).length ≤ p.span + 1 := by
  have asc := ord.ascending
  unfold Roster.span
  rw [← Array.getElem?_toList, ← Array.getLast?_toList]
  cases entries : p.entries.toList with
  | nil => simp [slots]
  | cons e rest =>
    rw [entries] at asc
    obtain ⟨far, hfar⟩ : ∃ far, (e :: rest).getLast? = some far := ⟨_, List.getLast?_cons⟩
    have here : [e].getLast? = some e := rfl
    have len := length_slotsFrom_le asc here hfar
    rw [hfar, slots]
    simp only [List.getElem?_cons_zero, List.length_cons, EnumValue.offsetFrom]
    rw [List.length_singleton] at len
    omega

def width : Pending → Nat
  | .plain i => i.targets.length
  | .branch _ _ => 1
  | .switch ls => ls.length

def TablesWithin (bound : Nat) (s : Script) : Prop := ∀ p ∈ s.code, width p ≤ bound

section
variable {bound : Nat} {s t : Script}

theorem TablesWithin.nil : TablesWithin bound [] := fun _ h => nomatch h

theorem TablesWithin.append (hs : TablesWithin bound s) (ht : TablesWithin bound t) :
    TablesWithin bound (s ++ t) := by
  intro p mem
  rw [code_append, List.mem_append] at mem
  exact mem.elim (hs p) (ht p)

theorem TablesWithin.label (l : String) (h : TablesWithin bound s) :
    TablesWithin bound (.label l :: s) := h

theorem TablesWithin.code {p : Pending} (le : width p ≤ bound) (h : TablesWithin bound s) :
    TablesWithin bound (.code p :: s) := by
  intro q mem
  rcases List.mem_cons.1 mem with rfl | mem
  · exact le
  · exact h q mem

theorem TablesWithin.plain {i : Instr} (none : i.targets = []) (h : TablesWithin bound s) :
    TablesWithin bound (plain i :: s) :=
  .code (by simp [width, none]) h

theorem targets_load (v : EnumValue k) : v.load.targets = [] := by
  unfold EnumValue.load; split <;> rfl

theorem TablesWithin.flatMap {α : Type} {f : α → Script} {l : List α}
    (h : ∀ a ∈ l, TablesWithin bound (f a)) : TablesWithin bound (l.flatMap f) := by
  induction l with
  | nil => exact .nil
  | cons a l ih => exact .append (h a (by simp)) (ih fun b hb => h b (by simp [hb]))

theorem tablesWithin_equality (pos : 1 ≤ bound) (mode : Lookup) (index : Nat) (v : EnumValue k) :
    TablesWithin bound (equalityScript mode index v) := by
  unfold equalityScript
  split
  · exact .plain rfl (.code pos .nil)
  · exact .plain rfl (.plain (targets_load v) (.code pos .nil))

theorem tablesWithin_index (base : EnumValue k) : TablesWithin bound (indexScript base) := by
  unfold indexScript
  split
  · exact .plain rfl .nil
  · exact .plain rfl (.plain (targets_load base) (.plain rfl .nil))

theorem tablesWithin_table (pos : 1 ≤ bound) {base : EnumValue k} {ls : List String} (le : ls.length ≤ bound) :
    TablesWithin bound (tableScript base ls) := by
  unfold tableScript
  refine (tablesWithin_index base).append ?_
  split
  · exact .append (.plain rfl (.code pos .nil)) ((tablesWithin_index base).append
      (.plain rfl (.code le (.label _ .nil))))
  · exact .code le .nil

end

theorem tablesWithin_search (mode : Lookup) {p : Roster k} (ord : p.Ordered) {lo hi : Nat}
    (le : hi ≤ p.runs.length) {bound : Nat} (pos : 1 ≤ bound) (fits : p.size ≤ bound) :
    TablesWithin bound (searchScript mode p lo hi) := by
  fun_induction searchScript mode p lo hi with
  | case1 lo hi lt mid ih₁ ih₂ ih₃ =>
    have test : TablesWithin bound (runScript mode (midRun p mid) (midFirst p mid)) := by
      obtain ⟨-, some, -, all⟩ := midRun_spec ord (show mid < p.runs.length by omega)
      obtain ⟨c, hc, -⟩ := all ((midRun p mid).len - 1) (by omega)
      have : (midRun p mid).start + ((midRun p mid).len - 1) < p.size :=
        (List.getElem?_eq_some_iff.1 hc).1
      unfold runScript
      split
      · exact tablesWithin_equality pos mode _ _
      · refine tablesWithin_table pos ?_
        rw [List.length_map, List.length_range]
        omega
    refine test.append ?_
    split
    · rename_i left
      exact .append (.plain rfl (.plain (targets_load _) (.code pos .nil)))
        ((ih₁ left le).append (.label _ (ih₂ left (by omega))))
    · rename_i left
      exact ih₃ left le
  | case2 lo hi ge => exact .code pos .nil

theorem tablesWithin_script (mode : Lookup) {p : Roster k} (ord : p.Ordered) (enum : Sig) (ratio : Nat) :
    TablesWithin (max p.size (ratio * p.size + 1)) (script mode p enum ratio) := by
  have pos : 1 ≤ max p.size (ratio * p.size + 1) := by omega
  have decision : TablesWithin (max p.size (ratio * p.size + 1)) (decisionScript mode p ratio) := by
    unfold decisionScript
    cases shape : p.shape ratio with
    | empty => exact .nil
    | single | pair => exact .flatMap fun t _ => tablesWithin_equality pos mode t.1 t.2
    | contiguous =>
      refine tablesWithin_table pos ?_
      rw [List.length_map, List.length_range]
      exact Nat.le_max_left _ _
    | denseTable =>
      refine tablesWithin_table pos ?_
      have span : p.span ≤ ratio * p.size := by
        unfold Roster.shape at shape
        split at shape <;> try cases shape
        split at shape <;> try cases shape
        split at shape <;> try cases shape
        assumption
      have := length_slots_le_span ord
      simp only [List.length_map, placesOf, shape, if_true]
      omega
    | binarySearch => exact tablesWithin_search mode ord (Nat.le_refl _) pos (by omega)
  refine decision.append (.label _ (.append ?_ (.append ?_ (.flatMap fun v _ => ?_))))
  · cases mode with
    | membership => exact .plain rfl (.plain rfl .nil)
    | names =>
      unfold fallbackScript
      simp only
      split
      · exact .plain rfl (.plain rfl (.plain rfl (.plain rfl .nil)))
      · exact .plain rfl (.plain rfl (.plain rfl .nil))
  · cases mode with
    | names => exact .flatMap fun e _ => .label _ (.plain rfl (.plain rfl .nil))
    | membership =>
      unfold hitsScript
      simp only
      split
      · exact .nil
      · exact .label _ (.plain rfl (.plain rfl .nil))
  · exact .label _ (.plain rfl (.plain rfl .nil))

end CilForge.Lookup
