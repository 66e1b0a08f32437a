import CilForge.Proofs.Body.Linked
import Mathlib.Data.List.Nodup

/-!
# Editing a stretch of code

Where control enters a stretch of lines at its first line only, edits of the stretch leave the rest
of the body alone: what named the first line names the first line of what has become of the
stretch.
-/

namespace CilForge

open Body

theorem Region.rebound_rebound {r : Region} {a b c d e f : Handle}
    (same : ∀ h ∈ r.boundaries, Handle.swap c d (Handle.swap a b h) = Handle.swap e f h) :
    (r.rebound a b).rebound c d = r.rebound e f := by
  obtain ⟨flags, tryStart, tryEnd, handlerStart, handlerEnd, catchType, filterStart⟩ := r
  have opt {o : Option Handle} (sub : ∀ h ∈ o, Handle.swap c d (Handle.swap a b h) = Handle.swap e f h) :
      (o.map (Handle.swap a b)).map (Handle.swap c d) = o.map (Handle.swap e f) := by
    cases o with
    | none => rfl
    | some h => exact congrArg some (sub h rfl)
  simp only [Region.boundaries, List.mem_append, List.mem_cons, Option.mem_toList] at same
  have h₁ := same tryStart (by simp)
  have h₂ := opt (o := tryEnd) fun h mem => same h (.inl (.inl (.inr mem)))
  have h₃ := same handlerStart (by simp)
  have h₄ := opt (o := handlerEnd) fun h mem => same h (.inl (.inr (.inr mem)))
  have h₅ := opt (o := filterStart) fun h mem => same h (.inr mem)
  change Region.mk flags (Handle.swap c d (Handle.swap a b tryStart))
    ((tryEnd.map (Handle.swap a b)).map (Handle.swap c d))
    (Handle.swap c d (Handle.swap a b handlerStart))
    ((handlerEnd.map (Handle.swap a b)).map (Handle.swap c d)) catchType
    ((filterStart.map (Handle.swap a b)).map (Handle.swap c d)) = _
  rw [h₁, h₂, h₃, h₄, h₅]
  rfl

theorem Region.openEnds_of_not_mem {r : Region} {h : Handle} (other : h ∉ r.boundaries) :
    r.openEnds h = r := by
  have ends {e : Option Handle} (sub : ∀ x ∈ e, x ∈ r.boundaries) :
      (if e = some h then none else e) = e := by
    refine if_neg ?_
    rintro rfl
    exact other (sub h rfl)
  unfold openEnds
  dsimp only
  rw [ends fun x mem => by simp [boundaries, Option.mem_def.1 mem],
    ends fun x mem => by simp [boundaries, Option.mem_def.1 mem]]

namespace Edit

/-- A body that has come about by edits of a stretch whose first line was `A` and is now `f`. What
branches and regions named is in `J`. -/
structure Edited (J : Handle → Prop) (guards : List Region) (A f : Handle)
    (L : List (Handle × Instr)) (c : Body) : Prop where
  code : c.code = L.map (relabel (Handle.swap A f))
  regions : c.regions = guards.map (·.rebound A f)
  nodup : (L.map (·.1)).Nodup
  below : ∀ p ∈ L, p.1.index < c.nextIndex
  targets : ∀ p ∈ L, ∀ t ∈ p.2.targets, J t
  bounds : ∀ r ∈ guards, ∀ h ∈ r.boundaries, J h
  old : ∀ h, J h → h.index < c.nextIndex
  first : f = A ∨ ¬ J f

namespace Edited

variable {J : Handle → Prop} {guards : List Region} {A f g h : Handle} {i j : Instr}
  {L P Q : List (Handle × Instr)} {c : Body}

theorem handles (ed : Edited J guards A f L c) : c.handles = L.map (·.1) := by
  rw [Body.handles, ed.code, List.map_map]
  rfl

theorem swap_self : Handle.swap A A = fun h => h := by
  funext h
  unfold Handle.swap
  split
  · exact Eq.symm ‹_›
  · rfl

theorem code_self (ed : Edited J guards A A L c) : c.code = L := by
  rw [ed.code, swap_self]
  exact (List.map_congr_left fun p _ => relabel_id p).trans (List.map_id' L)

theorem nodup_handles (ed : Edited J guards A f L c) : c.handles.Nodup := ed.handles ▸ ed.nodup

theorem swap_swap (ed : Edited J guards A f L c) {t : Handle} (joined : J t) :
    Handle.swap f g (Handle.swap A f t) = Handle.swap A g t := by
  unfold Handle.swap
  by_cases same : t = A
  · simp [same]
  · rcases ed.first with rfl | other
    · simp [same]
    · have : t ≠ f := fun eq => other (eq ▸ joined)
      simp [same, this]

theorem swap_other (ne : h ≠ f) (other : ¬ J h) {t : Handle} (joined : J t) :
    Handle.swap h g (Handle.swap A f t) = Handle.swap A f t := by
  unfold Handle.swap
  by_cases same : t = A
  · simp [same, ne.symm]
  · have : t ≠ h := fun eq => other (eq ▸ joined)
    simp [same, this]

theorem code_at (ed : Edited J guards A f (P ++ (h, i) :: Q) c) :
    c.code = P.map (relabel (Handle.swap A f)) ++ (h, i.mapTargets (Handle.swap A f)) ::
      Q.map (relabel (Handle.swap A f)) := by
  rw [ed.code, List.map_append]
  rfl

theorem relabel_relabel {σ τ υ : Handle → Handle} {p : Handle × Instr}
    (same : ∀ t ∈ p.2.targets, σ (τ t) = υ t) : relabel σ (relabel τ p) = relabel υ p := by
  unfold relabel
  rw [Instr.mapTargets_mapTargets, Instr.mapTargets_congr same]

theorem not_named (ed : Edited J guards A f L c) (ne : h ≠ f) (other : ¬ J h) :
    c.isTarget h = false ∧ ∀ r ∈ c.regions, h ∉ r.boundaries := by
  have away {t : Handle} (joined : J t) : Handle.swap A f t ≠ h := by
    unfold Handle.swap
    split
    · exact ne.symm
    · exact fun eq => other (eq ▸ joined)
  refine ⟨Bool.eq_false_iff.2 fun named => ?_, fun r mem named => ?_⟩
  · obtain ⟨q, line, mem⟩ := isTarget_iff.1 named
    rw [ed.code] at line
    obtain ⟨p, hp, rfl⟩ := List.mem_map.1 line
    change h ∈ (p.2.mapTargets _).targets at mem
    rw [Instr.targets_mapTargets] at mem
    obtain ⟨t, ht, eq⟩ := List.mem_map.1 mem
    exact away (ed.targets p hp t ht) eq
  · rw [ed.regions] at mem
    obtain ⟨q, hq, rfl⟩ := List.mem_map.1 mem
    rw [boundaries_rebound] at named
    obtain ⟨t, ht, eq⟩ := List.mem_map.1 named
    exact away (ed.bounds q hq t ht) eq

/-! ## Single edits -/

theorem apart (nodup : ((P ++ (h, i) :: Q).map (·.1)).Nodup) :
    (∀ p ∈ P, p.1 ≠ h) ∧ ∀ p ∈ Q, p.1 ≠ h := by
  rw [List.map_append, List.map_cons, List.nodup_append] at nodup
  refine ⟨fun p mem => nodup.2.2 p.1 (List.mem_map_of_mem mem) h (by simp), fun p mem eq => ?_⟩
  exact (List.nodup_cons.1 nodup.2.1).1 (List.mem_map.2 ⟨p, mem, eq⟩)

theorem map_here (nodup : ((P ++ (h, i) :: Q).map (·.1)).Nodup) {F : Handle × Instr → Handle × Instr} :
    ((P ++ (h, i) :: Q).map fun p => if p.1 = h then F p else p) = P ++ F (h, i) :: Q := by
  obtain ⟨before, behind⟩ := apart nodup
  have keep {l : List (Handle × Instr)} (ne : ∀ p ∈ l, p.1 ≠ h) :
      (l.map fun p => if p.1 = h then F p else p) = l := by
    rw [List.map_congr_left fun p mem => if_neg (ne p mem), List.map_id']
  rw [List.map_append, List.map_cons, keep before, keep behind, if_pos rfl]

theorem filter_here (nodup : ((P ++ (h, i) :: Q).map (·.1)).Nodup) :
    (P ++ (h, i) :: Q).filter (·.1 ≠ h) = P ++ Q := by
  obtain ⟨before, behind⟩ := apart nodup
  rw [List.filter_append, List.filter_cons_of_neg (by simp), List.filter_eq_self.2 (by simpa using before),
    List.filter_eq_self.2 (by simpa using behind)]

theorem flatMap_here (nodup : ((P ++ (h, i) :: Q).map (·.1)).Nodup) {F : Handle × Instr → List (Handle × Instr)} :
    ((P ++ (h, i) :: Q).flatMap fun p => if p.1 = h then F p else [p]) = P ++ (F (h, i) ++ Q) := by
  obtain ⟨before, behind⟩ := apart nodup
  have keep {l : List (Handle × Instr)} (ne : ∀ p ∈ l, p.1 ≠ h) :
      (l.flatMap fun p => if p.1 = h then F p else [p]) = l := by
    rw [List.flatMap_congr fun p mem => if_neg (ne p mem), List.flatMap_singleton']
  rw [List.flatMap_append, List.flatMap_cons, keep before, keep behind, if_pos rfl]

theorem step {n : Handle} {L' : List (Handle × Instr)} {c' : Body} (ed : Edited J guards A f L c)
    (code : c'.code = L'.map (relabel (Handle.swap A n)))
    (regions : c'.regions = guards.map (·.rebound A n)) (nodup : (L'.map (·.1)).Nodup)
    (next : c.nextIndex ≤ c'.nextIndex) (below : ∀ p ∈ L', p.1.index < c'.nextIndex)
    (lines : ∀ p ∈ L', p ∈ L ∨ p.2.targets = []) (first : n = A ∨ ¬ J n) :
    Edited J guards A n L' c' where
  code := code
  regions := regions
  nodup := nodup
  below := below
  targets p mem t ht := by
    rcases lines p mem with old | none
    · exact ed.targets p old t ht
    · rw [none] at ht
      cases ht
  bounds := ed.bounds
  old h joined := Nat.lt_of_lt_of_le (ed.old h joined) next
  first := first

theorem fresh_not_joined (ed : Edited J guards A f L c) : ¬ J c.fresh := fun joined =>
  Nat.lt_irrefl _ (ed.old _ joined)

theorem fresh_ne (ed : Edited J guards A f L c) : ∀ p ∈ L, p.1 ≠ c.fresh := by
  intro p mem eq
  have := ed.below p mem
  rw [eq] at this
  exact Nat.lt_irrefl _ this

theorem contains (ed : Edited J guards A f (P ++ (h, i) :: Q) c) : h ∈ c.handles := by
  rw [ed.handles]
  simp

theorem nodup_at (ed : Edited J guards A f (P ++ (h, i) :: Q) c) :
    ((P.map (relabel (Handle.swap A f)) ++ (h, i.mapTargets (Handle.swap A f)) ::
      Q.map (relabel (Handle.swap A f))).map (·.1)).Nodup := by
  have nodup := ed.nodup_handles
  unfold Body.handles at nodup
  rwa [ed.code_at] at nodup

theorem requireAll (ed : Edited J guards A f (P ++ (h, i) :: Q) c) (plain : j.targets = []) :
    c.requireAll (h :: j.targets) = .ok () := by
  rw [requireAll_eq_ok, plain]
  simpa using ed.contains

theorem nodup_new {n : Handle} (nodup : ((P ++ Q).map (·.1)).Nodup) (fresh : ∀ p ∈ P ++ Q, p.1 ≠ n) :
    ((P ++ (n, j) :: Q).map (·.1)).Nodup := by
  rw [List.map_append, List.map_cons, List.nodup_middle, List.nodup_cons, ← List.map_append]
  refine ⟨fun mem => ?_, nodup⟩
  obtain ⟨p, hp, eq⟩ := List.mem_map.1 mem
  exact fresh p hp eq

theorem nodup_put (ed : Edited J guards A f (P ++ (h, i) :: Q) c) :
    ((P ++ (c.fresh, j) :: Q).map (·.1)).Nodup := by
  refine nodup_new (ed.nodup.sublist ?_) fun p mem => ed.fresh_ne p ?_
  · exact (List.Sublist.append_left (List.sublist_cons_self ..) P).map _
  · rw [List.mem_append] at mem ⊢
    exact mem.imp_right (List.mem_cons_of_mem _)

theorem below_put (ed : Edited J guards A f (P ++ (h, i) :: Q) c) :
    ∀ p ∈ P ++ (c.fresh, j) :: Q, p.1.index < c.nextIndex + 1 := by
  intro p mem
  rw [List.mem_append, List.mem_cons] at mem
  rcases mem with mem | rfl | mem
  · exact Nat.lt_succ_of_lt (ed.below p (by simp [mem]))
  · exact Nat.lt_succ_self _
  · exact Nat.lt_succ_of_lt (ed.below p (by simp [mem]))

theorem lines_put (plain : j.targets = []) :
    ∀ p ∈ P ++ (g, j) :: Q, p ∈ P ++ (h, i) :: Q ∨ p.2.targets = [] := by
  intro p mem
  rw [List.mem_append, List.mem_cons] at mem
  rcases mem with mem | rfl | mem
  · exact .inl (by simp [mem])
  · exact .inr plain
  · exact .inl (by simp [mem])

theorem relabel_plain {σ τ : Handle → Handle} {i : Instr} (none : i.targets = []) :
    relabel σ (h, i) = relabel τ (h, i) := by
  refine congrArg (h, ·) (Instr.mapTargets_congr fun t ht => ?_)
  rw [none] at ht
  cases ht

theorem map_relabel {σ τ υ : Handle → Handle} {l : List (Handle × Instr)}
    (same : ∀ p ∈ l, ∀ t ∈ p.2.targets, σ (τ t) = υ t) :
    (l.map (relabel τ)).map (relabel σ) = l.map (relabel υ) := by
  rw [List.map_map]
  exact List.map_congr_left fun p mem => relabel_relabel (same p mem)

theorem map_rebound {a b c d e f : Handle} {guards : List Region}
    (same : ∀ r ∈ guards, ∀ h ∈ r.boundaries, Handle.swap c d (Handle.swap a b h) = Handle.swap e f h) :
    (guards.map (·.rebound a b)).map (·.rebound c d) = guards.map (·.rebound e f) := by
  rw [List.map_map]
  exact List.map_congr_left fun r mem => Region.rebound_rebound (same r mem)

def Keeps (c c' : Body) : Prop := c'.locals = c.locals ∧ c'.initLocals = c.initLocals

theorem replace_eq (ed : Edited J guards A f (P ++ (h, i) :: Q) c) (plain : j.targets = []) :
    Edit.replace h j c = (.ok c.fresh, { c with
      code := (P.map (relabel (Handle.swap A f)) ++ (c.fresh, j) ::
        Q.map (relabel (Handle.swap A f))).map (relabel (Handle.swap h c.fresh))
      regions := c.regions.map (·.rebound h c.fresh)
      nextIndex := c.nextIndex + 1 }) := by
  unfold Edit.replace
  rw [ed.requireAll plain]
  simp only [Body.rebranch, Body.rebound, ed.code_at, map_here ed.nodup_at]
  rfl

theorem replace_with (ed : Edited J guards A f (P ++ (h, i) :: Q) c) (plain : j.targets = []) {n : Handle}
    (swap : ∀ t, J t → Handle.swap h c.fresh (Handle.swap A f t) = Handle.swap A n t)
    (first : n = A ∨ ¬ J n) : ∃ c', Edit.replace h j c = (.ok c.fresh, c') ∧
      Edited J guards A n (P ++ (c.fresh, j) :: Q) c' ∧ c'.nextIndex = c.nextIndex + 1 ∧
      Keeps c c' := by
  refine ⟨_, ed.replace_eq plain, ed.step ?_ ?_ ed.nodup_put (Nat.le_succ _) ed.below_put
    (lines_put plain) first, rfl, rfl, rfl⟩
  · have part {l : List (Handle × Instr)} (sub : ∀ p ∈ l, p ∈ P ++ (h, i) :: Q) :
        (l.map (relabel (Handle.swap A f))).map (relabel (Handle.swap h c.fresh)) =
          l.map (relabel (Handle.swap A n)) :=
      map_relabel fun p mem t ht => swap t (ed.targets p (sub p mem) t ht)
    dsimp only
    rw [List.map_append, List.map_cons, part (by simp +contextual), part (by simp +contextual),
      List.map_append, List.map_cons, relabel_plain plain]
  · dsimp only
    rw [ed.regions]
    exact map_rebound fun r mem x hx => swap x (ed.bounds r mem x hx)

theorem replace_first (ed : Edited J guards A f (P ++ (f, i) :: Q) c) (plain : j.targets = []) :
    ∃ c', Edit.replace f j c = (.ok c.fresh, c') ∧
      Edited J guards A c.fresh (P ++ (c.fresh, j) :: Q) c' ∧ c'.nextIndex = c.nextIndex + 1 ∧
      Keeps c c' :=
  ed.replace_with plain (fun _ joined => ed.swap_swap joined) (.inr ed.fresh_not_joined)

theorem replace_inner (ed : Edited J guards A f (P ++ (h, i) :: Q) c) (ne : h ≠ f) (other : ¬ J h)
    (plain : j.targets = []) : ∃ c', Edit.replace h j c = (.ok c.fresh, c') ∧
      Edited J guards A f (P ++ (c.fresh, j) :: Q) c' ∧ c'.nextIndex = c.nextIndex + 1 ∧
      Keeps c c' :=
  ed.replace_with plain (fun _ joined => swap_other ne other joined) ed.first

theorem insertAfter (ed : Edited J guards A f (P ++ (h, i) :: Q) c) (plain : j.targets = []) :
    ∃ c', Edit.insertAfter h j c = (.ok c.fresh, c') ∧
      Edited J guards A f (P ++ (h, i) :: (c.fresh, j) :: Q) c' ∧ c'.nextIndex = c.nextIndex + 1 ∧
      Keeps c c' := by
  have done : Edit.insertAfter h j c = (.ok c.fresh, { c with
      code := P.map (relabel (Handle.swap A f)) ++ (h, i.mapTargets (Handle.swap A f)) :: (c.fresh, j) ::
        Q.map (relabel (Handle.swap A f))
      nextIndex := c.nextIndex + 1 }) := by
    rw [Edit.insertAfter, ed.requireAll plain]
    simp only [ed.code_at, flatMap_here ed.nodup_at, List.cons_append, List.nil_append]
  have whole : P ++ (h, i) :: (c.fresh, j) :: Q = (P ++ [(h, i)]) ++ (c.fresh, j) :: Q := by simp
  have lines : P ++ (h, i) :: Q = (P ++ [(h, i)]) ++ Q := by simp
  refine ⟨_, done, ed.step ?_ ed.regions ?_ (Nat.le_succ _) ?_ ?_ ed.first, rfl, rfl, rfl⟩
  · rw [List.map_append, List.map_cons, List.map_cons, relabel_plain (τ := fun h => h) plain, relabel_id]
    rfl
  · rw [whole]
    exact nodup_new (lines ▸ ed.nodup) (lines ▸ ed.fresh_ne)
  · intro p mem
    rw [whole, List.mem_append, List.mem_cons] at mem
    rcases mem with mem | rfl | mem
    · exact Nat.lt_succ_of_lt (ed.below p (lines ▸ List.mem_append_left _ mem))
    · exact Nat.lt_succ_self _
    · exact Nat.lt_succ_of_lt (ed.below p (lines ▸ List.mem_append_right _ mem))
  · intro p mem
    rw [whole, List.mem_append, List.mem_cons] at mem
    rcases mem with mem | rfl | mem
    · exact .inl (lines ▸ List.mem_append_left _ mem)
    · exact .inr plain
    · exact .inl (lines ▸ List.mem_append_right _ mem)

theorem drop (ed : Edited J guards A f (P ++ (h, i) :: Q) c) {n : Handle} {c' : Body}
    (code : c'.code = (P ++ Q).map (relabel (Handle.swap A n)))
    (regions : c'.regions = guards.map (·.rebound A n)) (next : c'.nextIndex = c.nextIndex)
    (first : n = A ∨ ¬ J n) : Edited J guards A n (P ++ Q) c' := by
  have sub : (P ++ Q).Sublist (P ++ (h, i) :: Q) :=
    List.Sublist.append_left (List.sublist_cons_self ..) P
  exact ed.step code regions (ed.nodup.sublist (sub.map _)) (Nat.le_of_eq next.symm)
    (fun p mem => next ▸ ed.below p (sub.subset mem)) (fun p mem => .inl (sub.subset mem)) first

theorem filter_code (ed : Edited J guards A f (P ++ (h, i) :: Q) c) :
    c.code.filter (·.1 ≠ h) = (P ++ Q).map (relabel (Handle.swap A f)) := by
  rw [ed.code_at, filter_here ed.nodup_at, List.map_append]

theorem remove_inner (ed : Edited J guards A f (P ++ (h, i) :: Q) c) (ne : h ≠ f) (other : ¬ J h) :
    ∃ c', Edit.remove h c = (.ok (), c') ∧ Edited J guards A f (P ++ Q) c' ∧
      c'.nextIndex = c.nextIndex ∧ Keeps c c' := by
  obtain ⟨target, bounds⟩ := ed.not_named ne other
  have live : c.get? h = some (i.mapTargets (Handle.swap A f)) := get?_of_append ed.nodup_handles ed.code_at
  have starts : (c.regions.any fun r => r.starts.contains h) = false := by
    rw [List.any_eq_false]
    intro r mem start
    refine bounds r mem ?_
    rw [List.contains_iff_mem] at start
    simp only [Region.starts, Region.boundaries, List.mem_cons, List.mem_append] at start ⊢
    tauto
  rw [Edit.remove, live]
  simp only [target, Edit.unlink]
  cases c.next? h with
  | some next =>
    refine ⟨_, rfl, ed.drop ed.filter_code ?_ rfl ed.first, rfl, rfl, rfl⟩
    show c.regions.map (·.rebound h next) = _
    rw [ed.regions]
    exact map_rebound fun r mem x hx => swap_other ne other (ed.bounds r mem x hx)
  | none =>
    simp only [starts]
    refine ⟨_, rfl, ed.drop ed.filter_code ?_ rfl ed.first, rfl, rfl, rfl⟩
    show c.regions.map (·.openEnds h) = _
    rw [List.map_congr_left fun r mem => Region.openEnds_of_not_mem (bounds r mem), List.map_id', ed.regions]

theorem remove_first (ed : Edited J guards A f (P ++ (f, i) :: (g, j) :: Q) c) (other : ¬ J g)
    (plain : i.opcode ≠ .br ∧ i.opcode ≠ .leave) :
    ∃ c', Edit.remove f c = (.ok (), c') ∧ Edited J guards A g (P ++ (g, j) :: Q) c' ∧
      c'.nextIndex = c.nextIndex ∧ Keeps c c' := by
  have nodup := ed.nodup_handles
  have live : c.get? f = some (i.mapTargets (Handle.swap A f)) := get?_of_append nodup ed.code_at
  have next : c.next? f = some g := by
    rw [next?_of_append nodup ed.code_at]
    rfl
  have ne : g ≠ f := ((apart ed.nodup).2 (g, j) List.mem_cons_self)
  have regions : c.regions.map (·.rebound f g) = guards.map (·.rebound A g) := by
    rw [ed.regions]
    exact map_rebound fun r mem h hh => ed.swap_swap (ed.bounds r mem h hh)
  have relabelled : (c.code.filter (·.1 ≠ f)).map (relabel (Handle.swap f g)) =
      (P ++ (g, j) :: Q).map (relabel (Handle.swap A g)) := by
    rw [ed.filter_code]
    refine map_relabel fun p mem t ht => ed.swap_swap (ed.targets p ?_ t ht)
    rw [List.mem_append] at mem ⊢
    exact mem.imp_right (List.mem_cons_of_mem _)
  rw [Edit.remove, live]
  cases target : c.isTarget f with
  | true =>
    have passes : Edit.passesOnTo c f (i.mapTargets (Handle.swap A f)) = some g := by
      rw [Edit.passesOnTo]
      split
      · exact absurd ‹_› plain.1
      · exact absurd ‹_› plain.2
      · exact next
    have next' : (c.rebranch f g).next? f = some g := by
      rw [next?_rebranch]
      exact next
    simp only [passes, ne, if_true, if_false, Edit.unlink, next']
    refine ⟨_, rfl, ed.drop ?_ regions rfl (.inr other), rfl, rfl, rfl⟩
    rw [← relabelled]
    exact List.filter_map
  | false =>
    simp only [Edit.unlink, next]
    refine ⟨_, rfl, ed.drop ?_ regions rfl (.inr other), rfl, rfl, rfl⟩
    -- no branch names the line, so there is none to move
    refine Eq.trans ?_ relabelled
    have still : ∀ p ∈ c.code.filter (·.1 ≠ f), relabel (Handle.swap f g) p = p := by
      intro p mem
      refine (congrArg (p.1, ·) (Instr.mapTargets_congr fun t ht => ?_)).trans (relabel_id p)
      refine if_neg ?_
      rintro rfl
      rw [isTarget_iff.2 ⟨p, List.mem_of_mem_filter mem, ht⟩] at target
      cases target
    rw [List.map_congr_left still, List.map_id']

end Edited

end Edit

end CilForge
