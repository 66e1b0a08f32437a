import CilForge.Proofs.Body.Check
import CilForge.Proofs.CallSite.Level

/-!
# Bodies with changed sites

A body in which a site has been changed is numbered and linked, passes the check, and has an empty
stack at its boundaries, if all this was so before.
-/

namespace CilForge.CallSite

open Edit Body

def Leveled (b : Body) : Prop :=
  ∀ h, b.isBoundary h = true → ∀ u i v, b.code = u ++ (h, i) :: v → Steady 0 (sight ((h, i) :: v))

theorem sight_append (L L' : Lines) : sight (L ++ L') = sight L ++ sight L' := List.map_append

theorem leveled_of_depths {b : Body} {depths : Depths} (num : b.Numbered) (found : b.depths = .ok depths)
    (empty : ∀ h, b.isBoundary h = true → depths[h]? = some 0) : Leveled b := by
  have steady : ∀ (v u : Lines) (h : Handle) (i : Instr) (d : Nat), b.code = u ++ (h, i) :: v →
      depths[h]? = some d → Steady d (sight ((h, i) :: v)) := by
    intro v
    induction v with
    | nil =>
      intro u h i d code known
      have pops := (depths_onward num found code known).1
      exact ⟨by simpa using pops, fun _ => trivial⟩
    | cons q v ih =>
      intro u h i d code known
      obtain ⟨pops, onward⟩ := depths_onward num found code known
      refine ⟨by simpa using pops, fun straight => ?_⟩
      refine ih (u ++ [(h, i)]) q.1 q.2 _ (by simpa using code) (onward (q.1, _) ?_)
      have flow : i.opcode.flow = .sequential ∨ i.opcode.flow = .call := by
        have straight : i.straight = true := straight
        simpa [Instr.straight] using straight
      rcases flow with flow | flow <;> simp [successors, flow, depthAfter]
  exact fun h boundary u i v code => steady v u h i 0 code (empty h boundary)

theorem locate {α : Type} {pre int post u v : List α} {a t : α}
    (eq : pre ++ a :: (int ++ post) = u ++ t :: v) :
    (∃ c, pre = u ++ t :: c ∧ v = c ++ a :: (int ++ post)) ∨ (t = a ∧ u = pre ∧ v = int ++ post) ∨
      t ∈ int ∨ ∃ w, post = w ++ t :: v ∧ u = pre ++ a :: (int ++ w) := by
  rcases List.append_eq_append_iff.1 eq with ⟨w, rfl, behind⟩ | ⟨c, rfl, behind⟩
  · cases w with
    | nil =>
      obtain ⟨rfl, rfl⟩ := List.cons.inj behind
      exact .inr (.inl ⟨rfl, by simp, rfl⟩)
    | cons x w =>
      obtain ⟨rfl, inside⟩ := List.cons.inj behind
      rcases List.append_eq_append_iff.1 inside with ⟨w', rfl, rfl⟩ | ⟨c, rfl, last⟩
      · exact .inr (.inr (.inr ⟨w', rfl, rfl⟩))
      · cases c with
        | nil => exact .inr (.inr (.inr ⟨[], last.symm, by simp⟩))
        | cons y c =>
          obtain ⟨rfl, -⟩ := List.cons.inj last
          exact .inr (.inr (.inl (by simp)))
  · cases c with
    | nil =>
      obtain ⟨rfl, rfl⟩ := List.cons.inj behind
      exact .inr (.inl ⟨rfl, by simp, rfl⟩)
    | cons y c =>
      obtain ⟨rfl, rfl⟩ := List.cons.inj behind
      exact .inl ⟨c, rfl, rfl⟩

inductive Beside (pre old new post : Lines) (σ : Handle → Handle) : Lines → Lines → Prop where
  | before {u v : Lines} : pre = u ++ v →
    Beside pre old new post σ (v ++ (old ++ post)) ((v ++ (new ++ post)).map (relabel σ))
  | behind {u v : Lines} : post = u ++ v → Beside pre old new post σ v (v.map (relabel σ))

theorem wellFormed_mapTargets (i : Instr) (σ : Handle → Handle) :
    (i.mapTargets σ).wellFormed = i.wellFormed := by
  obtain ⟨opcode, operand⟩ := i
  cases operand <;> rfl

theorem operand_mapTargets {i : Instr} {σ : Handle → Handle} {index : Nat}
    (operand : (i.mapTargets σ).operand = .localVar index) : i.operand = .localVar index := by
  obtain ⟨opcode, o⟩ := i
  cases o <;> simp_all [Instr.mapTargets, Operand.mapTargets]

/-- The new lines have operands that fit, and name no local but the new one. -/
theorem Shape.new_formed {desc : Sig → Option EnumInfo} {r : Recipe} {F V B : List Instr}
    (shape : Shape desc r F V B) (ref : MethodRef) (temp : Nat) :
    ∀ i ∈ r.plan.front r.info ++ r.plan.back ref temp, i.wellFormed = true ∧
      ∀ index, i.operand = .localVar index → index < temp + r.plan.locals := by
  have one {x : Instr} {n : Nat} (formed : x.wellFormed = true) (none : ∀ index, x.operand ≠ .localVar index) :
      ∀ i ∈ [x], i.wellFormed = true ∧ ∀ index, i.operand = .localVar index → index < n := by
    intro i mem
    obtain rfl := List.mem_singleton.1 mem
    exact ⟨formed, fun index eq => absurd eq (none index)⟩
  cases shape with
  | getValues | underlying | definedName | definedConstant | defined | literalText | literalPair | boxText =>
    exact one rfl fun _ eq => by cases eq
  | @pair _ _ _ _ _ p =>
    by_cases flag : p = .hasFlag
    · simp only [flag, if_true]
      intro i mem
      simp only [Plan.front, Plan.back, List.nil_append, List.mem_cons, List.not_mem_nil, or_false] at mem
      rcases mem with rfl | rfl | rfl | rfl | rfl
      all_goals
        refine ⟨rfl, fun index eq => ?_⟩
        cases eq
        try exact Nat.lt_succ_self _
    · simp only [flag, if_false]
      exact one rfl fun _ eq => by cases eq
  | constrained =>
    intro i mem
    rcases List.mem_cons.1 mem with rfl | mem
    · exact ⟨rfl, fun _ eq => by cases eq⟩
    · exact one rfl (fun _ eq => by cases eq) i mem

section
variable {desc : Sig → Option EnumInfo} {b b' : Body} {r : Recipe} {pre front operand back post : Lines}
  {A f : Handle} {F B : Lines} {ref : MethodRef}
  (num : b.Numbered) (stands : Stands desc b r pre front operand back post)
  (head : front.head?.map (·.1) = some A)
  (turned : Turned (fun h => isJoin b h = true) r ref A b pre operand post F B f b')
include num stands head turned

/-- A line that control comes to from elsewhere has its place behind the same ones of these. -/
theorem Turned.place {t : Handle} {i : Instr} {u v : Lines}
    (code : b.code = u ++ (t, i) :: v) (joined : isJoin b t = true) :
    ∃ u' i' v', b'.code = u' ++ (Handle.swap A f t, i') :: v' ∧
      (∀ x ∈ v.map (·.1), isJoin b x = true → Handle.swap A f x ∈ v'.map (·.1)) ∧
      Beside pre (front ++ operand ++ back) (F ++ operand ++ B) post (Handle.swap A f) ((t, i) :: v)
        ((Handle.swap A f t, i') :: v') := by
  obtain ⟨A', a, rest, rfl⟩ := stands.exists_head
  obtain rfl : A' = A := by simpa using head
  obtain ⟨i₀, new, split⟩ := turned.exists_head
  have old : b.code = pre ++ (A', a) :: (rest ++ operand ++ back ++ post) := by
    rw [stands.code]
    simp
  have renewed : b'.code = (pre ++ (f, i₀) :: (new ++ post)).map (relabel (Handle.swap A' f)) := by
    rw [turned.edited.code, split]
    rfl
  have apart := stands.apart num
  -- control comes to no line of the site but the first
  have inner {x : Handle} (mem : x ∈ (rest ++ operand ++ back).map (·.1)) : isJoin b x = false := by
    obtain ⟨p, line, rfl⟩ := List.mem_map.1 mem
    exact stands.alone p (by simpa using line)
  have still {x : Handle} (ne : x ≠ A') : Handle.swap A' f x = x := if_neg ne
  have behind {x : Handle} (mem : x ∈ (rest ++ operand ++ back ++ post).map (·.1))
      (joined : isJoin b x = true) : Handle.swap A' f x ∈ (new ++ post).map (·.1) := by
    obtain ⟨p, line, rfl⟩ := List.mem_map.1 mem
    rw [still (apart.2 p line)]
    rcases List.mem_append.1 line with line | line
    · rw [inner (List.mem_map_of_mem line)] at joined
      cases joined
    · exact List.mem_map_of_mem (List.mem_append_right _ line)
  have handles (L : Lines) : (L.map (relabel (Handle.swap A' f))).map (·.1) = L.map (·.1) := by
    rw [List.map_map]
    rfl
  rw [split]
  rw [old] at code
  -- the line is before the site, its first one, within it, or behind it
  rcases locate code with ⟨c, rfl, rfl⟩ | ⟨same, rfl, rfl⟩ | mem | ⟨w, rfl, rfl⟩
  · rw [still (apart.1 (t, i) (by simp))]
    refine ⟨u.map (relabel (Handle.swap A' f)), i.mapTargets (Handle.swap A' f),
      (c ++ (f, i₀) :: (new ++ post)).map (relabel (Handle.swap A' f)), ?_, fun x mem joined => ?_,
      .before (v := (t, i) :: c) rfl⟩
    · rw [renewed]
      simp [relabel]
    · rw [handles]
      rw [List.map_append, List.map_cons, List.mem_append, List.mem_cons] at mem ⊢
      rcases mem with mem | rfl | mem
      · obtain ⟨p, line, rfl⟩ := List.mem_map.1 mem
        rw [still (apart.1 p (by simp [line]))]
        exact .inl mem
      · exact .inr (.inl (if_pos rfl))
      · exact .inr (.inr (behind mem joined))
  · cases same
    rw [show Handle.swap t f t = f from if_pos rfl]
    refine ⟨u.map (relabel (Handle.swap t f)), i₀.mapTargets (Handle.swap t f),
      (new ++ post).map (relabel (Handle.swap t f)), ?_, fun x mem joined => ?_,
      .before (v := []) (List.append_nil u).symm⟩
    · rw [renewed]
      simp [relabel]
    · rw [handles]
      exact behind mem joined
  · rw [inner (List.mem_map_of_mem mem)] at joined
    cases joined
  · rw [still (apart.2 (t, i) (by simp))]
    refine ⟨(pre ++ (f, i₀) :: (new ++ w)).map (relabel (Handle.swap A' f)),
      i.mapTargets (Handle.swap A' f), v.map (relabel (Handle.swap A' f)), ?_, fun x mem joined => ?_,
      .behind (v := (t, i) :: v) rfl⟩
    · rw [renewed]
      simp [relabel]
    · obtain ⟨p, line, rfl⟩ := List.mem_map.1 mem
      rw [handles, still (apart.2 p (by simp [line]))]
      exact mem

omit num head in
/-- Outside the site, the code from a place on takes no more values than before. -/
theorem Turned.steady (fits : r.Fits ref) {c c' : Lines} {d : Nat}
    (beside : Beside pre (front ++ operand ++ back) (F ++ operand ++ B) post (Handle.swap A f) c c')
    (steady : Steady d (sight c)) : Steady d (sight c') := by
  have same (L : Lines) : sight (L.map (relabel (Handle.swap A f))) = sight L := by
    simp [sight, relabel, Function.comp_def]
  cases beside with
  | @before _ v =>
    have whole : sight (F ++ operand ++ B ++ post) =
        r.newFront ++ sight operand ++ r.newBack ++ sight post := by
      rw [sight_append, sight_append, sight_append, ← Recipe.back_seen fits, ← turned.back,
        Recipe.newFront, ← turned.front]
      simp [sight, Function.comp_def]
    rw [same, sight_append, whole]
    rw [sight_append, sight_append, sight_append, sight_append] at steady
    exact Steady.change (fun _ => stands.shape.steady) steady
  | behind =>
    rw [same]
    exact steady

omit num stands head in
theorem Turned.numbered : b'.Numbered := by
  refine ⟨turned.edited.nodup_handles, fun h mem => ?_⟩
  rw [turned.edited.handles] at mem
  obtain ⟨p, line, rfl⟩ := List.mem_map.1 mem
  exact turned.edited.below p line

theorem Turned.live (linked : b.Linked) {t : Handle} (joined : isJoin b t = true) :
    Handle.swap A f t ∈ b'.handles := by
  obtain ⟨u, i, v, code⟩ := exists_split (live_of_join linked joined)
  obtain ⟨u', i', v', code', -⟩ := turned.place num stands head code joined
  rw [Body.handles, code']
  simp

theorem Turned.linked (linked : b.Linked) : b'.Linked := by
  have ed := turned.edited
  refine ⟨fun p line t ht => ?_, fun q mem h hh => ?_⟩
  · rw [ed.code] at line
    obtain ⟨q, old, rfl⟩ := List.mem_map.1 line
    rw [relabel, Instr.targets_mapTargets] at ht
    obtain ⟨s, named, rfl⟩ := List.mem_map.1 ht
    exact turned.live num stands head linked (ed.targets q old s named)
  · rw [ed.regions] at mem
    obtain ⟨q, old, rfl⟩ := List.mem_map.1 mem
    rw [boundaries_rebound] at hh
    obtain ⟨s, named, rfl⟩ := List.mem_map.1 hh
    exact turned.live num stands head linked (ed.bounds q old s named)

theorem Turned.leveled (leveled : Leveled b) (fits : r.Fits ref) (linked : b.Linked) : Leveled b' := by
  have ed := turned.edited
  intro h boundary u i v code
  obtain ⟨q, mem, hh⟩ := List.any_eq_true.1 boundary
  rw [ed.regions] at mem
  obtain ⟨q, old, rfl⟩ := List.mem_map.1 mem
  rw [List.contains_iff_mem, boundaries_rebound] at hh
  obtain ⟨t, named, rfl⟩ := List.mem_map.1 hh
  obtain ⟨u₀, i₀, v₀, code₀⟩ := exists_split (linked.boundaries q old t named)
  obtain ⟨u', i', v', code', -, beside⟩ := turned.place num stands head code₀ (ed.bounds q old t named)
  have bounds : b.isBoundary t = true := List.any_eq_true.2 ⟨q, old, List.contains_iff_mem.2 named⟩
  obtain ⟨rfl, rfl, rfl⟩ := split_unique turned.numbered.nodup code code'
  exact turned.steady stands fits beside (leveled t bounds u₀ i₀ v₀ code₀)

theorem Turned.precedes {q : Region} (mem : q ∈ b.regions) {h : Handle}
    {e : Option Handle} (bound : h ∈ q.boundaries) (bound' : ∀ x ∈ e, x ∈ q.boundaries)
    (precedes : b.Precedes h e) : b'.Precedes (Handle.swap A f h) (e.map (Handle.swap A f)) := by
  have ed := turned.edited
  obtain ⟨u, i, v, code, behind⟩ := precedes
  obtain ⟨u', i', v', code', order, -⟩ := turned.place num stands head code (ed.bounds q mem h bound)
  refine ⟨u', i', v', code', fun x there => ?_⟩
  obtain ⟨y, rfl, rfl⟩ := Option.map_eq_some_iff.1 there
  exact order y (behind y rfl) (ed.bounds q mem y (bound' y rfl))

theorem Turned.fit (fit : b.Fit) : b'.Fit := by
  have ed := turned.edited
  have lines : ∀ p ∈ b'.code, p.2.wellFormed = true ∧
      ∀ index, p.2.operand = .localVar index → index < b'.locals.size := by
    intro p line
    rw [ed.code] at line
    obtain ⟨q, mem, rfl⟩ := List.mem_map.1 line
    rw [relabel, wellFormed_mapTargets, turned.locals]
    suffices given : q.2.wellFormed = true ∧
        ∀ index, q.2.operand = .localVar index → index < b.locals.size + r.plan.locals from
      ⟨given.1, fun index operand => given.2 index (operand_mapTargets operand)⟩
    by_cases new : q ∈ F ++ B
    · refine stands.shape.new_formed ref b.locals.size q.2 ?_
      rw [← turned.front, ← turned.back, ← List.map_append]
      exact List.mem_map_of_mem new
    · have old : q ∈ b.code := by
        rw [stands.code]
        simp only [List.mem_append] at mem new ⊢
        tauto
      exact ⟨fit.formed q old, fun index operand =>
        Nat.lt_of_lt_of_le (fit.declared q old index operand) (Nat.le_add_right _ _)⟩
  refine ⟨fun p line => (lines p line).1, fun p line => (lines p line).2, fun q mem => ?_⟩
  rw [ed.regions] at mem
  obtain ⟨q, old, rfl⟩ := List.mem_map.1 mem
  obtain ⟨first, second⟩ := fit.ordered q old
  constructor
  · exact turned.precedes num stands head old (by simp [Region.boundaries])
      (fun x there => by simp [Region.boundaries, Option.mem_def.1 there]) first
  · exact turned.precedes num stands head old (by simp [Region.boundaries])
      (fun x there => by simp [Region.boundaries, Option.mem_def.1 there]) second

end

end CilForge.CallSite
