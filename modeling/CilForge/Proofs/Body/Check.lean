import CilForge.Proofs.Body.Linked
import CilForge.Proofs.Results

/-!
# Bodies that pass the check

For a linked body the check is a matter of its operands, its locals and the order of its boundaries.
-/

namespace CilForge.Body

variable {b : Body}

/-- A boundary with another one behind it, or with the end of the method. -/
def Precedes (b : Body) (h : Handle) (e : Option Handle) : Prop :=
  ∃ u i v, b.code = u ++ (h, i) :: v ∧ ∀ x ∈ e, x ∈ v.map (·.1)

structure Fit (b : Body) : Prop where
  formed : ∀ p ∈ b.code, p.2.wellFormed = true
  declared : ∀ p ∈ b.code, ∀ index, p.2.operand = .localVar index → index < b.locals.size
  ordered : ∀ r ∈ b.regions, b.Precedes r.tryStart r.tryEnd ∧ b.Precedes r.handlerStart r.handlerEnd

theorem getElem?_places_of_getElem? (nodup : b.handles.Nodup) {h : Handle} {n : Nat} (here : b.handles[n]? = some h) :
    b.places[h]? = some n := by
  unfold places
  refine Std.HashMap.getElem?_ofList_of_mem (k := h) (BEq.refl h) ?_ ?_
  · have distinct : (b.handles.zipIdx.map (·.1)).Pairwise fun x y => (x == y) = false := by
      rw [List.zipIdx_map_fst]
      exact nodup.imp fun ne => beq_eq_false_iff_ne.2 ne
    exact List.pairwise_map.1 distinct
  · exact List.mem_zipIdx_iff_getElem?.2 here

theorem getElem?_places (nodup : b.handles.Nodup) {u v : List (Handle × Instr)} {h : Handle} {i : Instr}
    (code : b.code = u ++ (h, i) :: v) : b.places[h]? = some u.length :=
  getElem?_places_of_getElem? nodup (by rw [handles, code]; simp)

theorem checkInstr_eq_ok {places : Places} {h : Handle} {i : Instr}
    (live : ∀ t ∈ i.targets, places.contains t = true) : b.checkInstr places h i = .ok () ↔
      i.wellFormed = true ∧ ∀ index, i.operand = .localVar index → index < b.locals.size := by
  unfold checkInstr
  rw [checkTargets_live live]
  cases formed : i.wellFormed with
  | false => simp [bind, Except.bind, throw, throwThe, MonadExceptOf.throw]
  | true =>
    simp only [bind, Except.bind, Bool.not_true, Bool.false_eq_true, if_false, true_and]
    cases operand : i.operand with
    | localVar index =>
      by_cases lt : index < b.locals.size
      · simp [Nat.not_le.2 lt, lt, pure, Except.pure]
      · simp [Nat.not_lt.1 lt, lt, throw, throwThe, MonadExceptOf.throw]
    | _ => simp [pure, Except.pure]

theorem exists_split {h : Handle} (mem : h ∈ b.handles) : ∃ u i v, b.code = u ++ (h, i) :: v := by
  obtain ⟨⟨x, i⟩, line, rfl⟩ := List.mem_map.1 mem
  obtain ⟨u, v, code⟩ := List.append_of_mem line
  exact ⟨u, i, v, code⟩

theorem precedes_iff (nodup : b.handles.Nodup) {h : Handle} {e : Option Handle} (live : h ∈ b.handles)
    (live' : ∀ x ∈ e, x ∈ b.handles) : ∃ m n, b.boundaryPosition b.places (some h) = .ok m ∧
      b.boundaryPosition b.places e = .ok n ∧ (b.Precedes h e ↔ m < n) := by
  obtain ⟨u, i, v, code⟩ := exists_split live
  have here := getElem?_places nodup code
  cases e with
  | none =>
    refine ⟨u.length, b.size, by rw [boundaryPosition, here], rfl, ?_⟩
    have : u.length < b.size := by
      rw [size, code, List.length_append]
      simp
    exact iff_of_true ⟨u, i, v, code, by simp⟩ this
  | some x =>
    obtain ⟨u', j, v', code'⟩ := exists_split (live' x rfl)
    have there := getElem?_places nodup code'
    refine ⟨u.length, u'.length, by rw [boundaryPosition, here], by rw [boundaryPosition, there], ?_⟩
    constructor
    · rintro ⟨u₁, i₁, v₁, code₁, behind⟩
      have split : u₁.length = u.length := Option.some.inj ((getElem?_places nodup code₁).symm.trans here)
      obtain ⟨⟨y, k⟩, line, rfl⟩ := List.mem_map.1 (behind x rfl)
      obtain ⟨v₂, v₃, rfl⟩ := List.append_of_mem line
      have code₂ : b.code = (u₁ ++ (h, i₁) :: v₂) ++ (y, k) :: v₃ := by simpa using code₁
      have := Option.some.inj ((getElem?_places nodup code₂).symm.trans there)
      simp at this
      omega
    · intro lt
      refine ⟨u, i, v, code, ?_⟩
      rintro _ ⟨⟩
      have line : b.code[u'.length]? = some (x, j) := by rw [code']; simp
      rw [code, List.getElem?_append_right (Nat.le_of_lt lt)] at line
      obtain ⟨k, eq⟩ : ∃ k, u'.length - u.length = k + 1 := ⟨u'.length - u.length - 1, by omega⟩
      rw [eq, List.getElem?_cons_succ] at line
      exact List.mem_map_of_mem (List.mem_of_getElem? line)

theorem checkRegion_eq_ok (nodup : b.handles.Nodup) {r : Region} (live : ∀ h ∈ r.boundaries, h ∈ b.handles) :
    b.checkRegion b.places r = .ok () ↔
      b.Precedes r.tryStart r.tryEnd ∧ b.Precedes r.handlerStart r.handlerEnd := by
  obtain ⟨m, n, h₁, h₂, first⟩ := precedes_iff nodup (h := r.tryStart) (e := r.tryEnd)
    (live _ (by simp [Region.boundaries]))
    fun h found => live h (by simp [Region.boundaries, Option.mem_def.1 found])
  obtain ⟨m', n', h₃, h₄, second⟩ := precedes_iff nodup (h := r.handlerStart) (e := r.handlerEnd)
    (live _ (by simp [Region.boundaries]))
    fun h found => live h (by simp [Region.boundaries, Option.mem_def.1 found])
  obtain ⟨filterStart, h₅⟩ := boundaryPosition_live (b := b) (e := r.filterStart) fun h found =>
    live h (by simp [Region.boundaries, Option.mem_def.1 found])
  unfold checkRegion
  rw [h₁, h₂, h₃, h₄, h₅, first, second]
  simp only [bind, Except.bind]
  by_cases empty : n ≤ m ∨ n' ≤ m'
  · simp [empty, throw, throwThe, MonadExceptOf.throw]
    omega
  · simp [empty, pure, Except.pure]
    omega

theorem Linked.check_eq_ok (linked : b.Linked) (nodup : b.handles.Nodup) : b.check = .ok () ↔ b.Fit := by
  have split : b.check = .ok () ↔ b.code.forM (fun p => b.checkInstr b.places p.1 p.2) = .ok () ∧
      b.regions.forM (b.checkRegion b.places) = .ok () := by
    change (b.code.forM (fun p => b.checkInstr b.places p.1 p.2) >>= fun _ =>
      b.regions.forM (b.checkRegion b.places)) = .ok () ↔ _
    cases b.code.forM fun p => b.checkInstr b.places p.1 p.2 <;> simp [bind, Except.bind]
  rw [split, forM_eq_ok, forM_eq_ok]
  have lines (p : Handle × Instr) (line : p ∈ b.code) := checkInstr_eq_ok (b := b) (h := p.1) (i := p.2)
    fun t ht => contains_places.2 (linked.targets p line t ht)
  have ranges (r : Region) (mem : r ∈ b.regions) :=
    checkRegion_eq_ok nodup (linked.boundaries r mem)
  constructor
  · rintro ⟨first, second⟩
    exact ⟨fun p line => ((lines p line).1 (first p line)).1,
      fun p line => ((lines p line).1 (first p line)).2, fun r mem => (ranges r mem).1 (second r mem)⟩
  · rintro ⟨formed, declared, ordered⟩
    exact ⟨fun p line => (lines p line).2 ⟨formed p line, declared p line⟩,
      fun r mem => (ranges r mem).2 (ordered r mem)⟩

end CilForge.Body
