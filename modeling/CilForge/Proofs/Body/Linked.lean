import CilForge.Body.Check
import CilForge.Proofs.Body.Expand

/-!
# Well linked bodies

Whatever edits are tried on the empty body, and whether they are refused or not, the body stays
well linked: the way forward and the way back meet its instructions once each, and what a branch
or a region names is an instruction of the body.
-/

namespace CilForge

/-- Going on from `start` by `step` meets just these handles, in this order, and then ends. -/
inductive Meets (step : Handle → Option Handle) : Option Handle → List Handle → Prop where
  | done : Meets step none []
  | next {h : Handle} {hs : List Handle} : Meets step (step h) hs → Meets step (some h) (h :: hs)

namespace Body

variable {b : Body}

/-! ## Ways through the code -/

theorem following_of_append {l before behind : List (Handle × Instr)} {h : Handle} {i : Instr}
    (nodup : (l.map (·.1)).Nodup) (code : l = before ++ (h, i) :: behind) :
    following h l = behind.head?.map (·.1) := by
  induction before generalizing l with
  | nil =>
    subst code
    rw [List.nil_append, following, if_pos rfl]
  | cons p before ih =>
    subst code
    rw [List.cons_append, List.map_cons, List.nodup_cons] at nodup
    have other : p.1 ≠ h := by
      rintro rfl
      exact nodup.1 (by simp)
    rw [List.cons_append, following, if_neg other]
    exact ih nodup.2 rfl

theorem next?_of_append (nodup : b.handles.Nodup) {before behind : List (Handle × Instr)}
    {h : Handle} {i : Instr} (code : b.code = before ++ (h, i) :: behind) :
    b.next? h = behind.head?.map (·.1) :=
  following_of_append nodup code

theorem Numbered.lines (num : b.Numbered) {l : List (Handle × Instr)} (code : b.code = l) : (l.map (·.1)).Nodup := by
  rw [← code]
  exact num.nodup

theorem nodup_reverse (nodup : b.handles.Nodup) : (b.code.reverse.map (·.1)).Nodup := by
  rw [List.map_reverse]
  exact List.pairwise_reverse.2 (nodup.imp Ne.symm)

theorem prev?_of_append (nodup : b.handles.Nodup) {before behind : List (Handle × Instr)}
    {h : Handle} {i : Instr} (code : b.code = before ++ (h, i) :: behind) :
    b.prev? h = before.getLast?.map (·.1) := by
  have turned : b.code.reverse = behind.reverse ++ (h, i) :: before.reverse := by
    rw [code, List.reverse_append, List.reverse_cons, List.append_assoc]
    rfl
  rw [prev?, following_of_append (nodup_reverse nodup) turned, List.head?_reverse]

theorem prev?_of_snoc (nodup : b.handles.Nodup) {before behind : List (Handle × Instr)}
    {k h : Handle} {j i : Instr} (code : b.code = before ++ (k, j) :: (h, i) :: behind) :
    b.prev? h = some k := by
  have split : b.code = (before ++ [(k, j)]) ++ (h, i) :: behind := by
    rw [code, List.append_assoc]
    rfl
  rw [prev?_of_append nodup split, List.getLast?_concat]
  rfl

theorem meets_following {l : List (Handle × Instr)} (nodup : (l.map (·.1)).Nodup) :
    ∀ (before : List (Handle × Instr)) {behind : List (Handle × Instr)}, l = before ++ behind →
      Meets (following · l) (behind.head?.map (·.1)) (behind.map (·.1))
  | _, [], _ => .done
  | before, (h, i) :: behind, code => by
    refine .next ?_
    rw [following_of_append nodup code]
    refine meets_following nodup (before ++ [(h, i)]) ?_
    rw [code, List.append_assoc]
    rfl

theorem next?_rebranch (old new h : Handle) : (b.rebranch old new).next? h = b.next? h := by
  have moved {f : Handle × Instr → Handle × Instr} (keeps : ∀ p, (f p).1 = p.1) :
      ∀ l : List (Handle × Instr), following h (l.map f) = following h l := by
    intro l
    induction l with
    | nil => rfl
    | cons p l ih =>
      rw [List.map_cons, following, following, keeps, ih, List.head?_map, Option.map_map]
      have heads : ((·.1) ∘ f : Handle × Instr → Handle) = (·.1) := funext keeps
      rw [heads]
  exact moved (f := relabel (Handle.swap old new)) (fun _ => rfl) b.code

theorem first?_eq : b.first? = b.code.head?.map (·.1) := List.head?_map

theorem last?_eq : b.last? = b.code.reverse.head?.map (·.1) := by
  rw [last?, handles, List.getLast?_map, List.head?_reverse]

theorem meets_next (nodup : b.handles.Nodup) : Meets b.next? b.first? b.handles := by
  rw [first?_eq]
  exact meets_following nodup [] rfl

theorem meets_prev (nodup : b.handles.Nodup) : Meets b.prev? b.last? b.handles.reverse := by
  rw [last?_eq, handles, ← List.map_reverse]
  exact meets_following (nodup_reverse nodup) [] rfl

theorem mem_of_next? {h next : Handle} (found : b.next? h = some next) : next ∈ b.handles := by
  have mem : ∀ {l : List (Handle × Instr)}, following h l = some next → next ∈ l.map (·.1) := by
    intro l
    induction l with
    | nil => nofun
    | cons p rest ih =>
      intro found
      rw [following] at found
      split at found
      · obtain ⟨q, head, rfl⟩ := Option.map_eq_some_iff.1 found
        exact List.mem_map_of_mem (List.mem_cons_of_mem _ (List.mem_of_head? head))
      · exact List.mem_cons_of_mem _ (ih found)
  exact mem found

theorem ne_of_next? (nodup : b.handles.Nodup) {h next : Handle} (live : h ∈ b.handles)
    (found : b.next? h = some next) : next ≠ h := by
  obtain ⟨⟨h, i⟩, line, rfl⟩ := List.mem_map.1 live
  obtain ⟨before, behind, code⟩ := List.append_of_mem line
  rw [next?_of_append nodup code] at found
  obtain ⟨q, head, rfl⟩ := Option.map_eq_some_iff.1 found
  unfold handles at nodup
  rw [code, List.map_append, List.map_cons, List.nodup_append] at nodup
  have apart := (List.nodup_cons.1 nodup.2.1).1
  rintro same
  exact apart (same ▸ List.mem_map_of_mem (List.mem_of_head? head))

theorem mem_of_lookup {h : Handle} {i : Instr} : ∀ {l : List (Handle × Instr)},
    l.lookup h = some i → (h, i) ∈ l
  | [], found => nomatch found
  | (x, j) :: l, found => by
    rw [List.lookup_cons] at found
    split at found
    · rename_i same
      cases found
      rw [eq_of_beq same]
      exact List.mem_cons_self
    · exact List.mem_cons_of_mem _ (mem_of_lookup found)

theorem get?_of_append (nodup : b.handles.Nodup) {pre post : List (Handle × Instr)} {h : Handle} {i : Instr}
    (code : b.code = pre ++ (h, i) :: post) : b.get? h = some i := by
  unfold handles at nodup
  rw [code, List.map_append, List.nodup_append] at nodup
  have other : ∀ p ∈ pre, (h == p.1) = false := by
    intro p hp
    simpa using (nodup.2.2 p.1 (List.mem_map_of_mem hp) h (by simp)).symm
  rw [get?, code]
  clear code nodup
  induction pre with
  | nil => simp
  | cons p pre ih =>
    obtain ⟨x, j⟩ := p
    rw [List.cons_append, List.lookup_cons, other (x, j) List.mem_cons_self]
    exact ih fun q hq => other q (List.mem_cons_of_mem _ hq)

theorem get?_iff (nodup : b.handles.Nodup) {h : Handle} {i : Instr} : b.get? h = some i ↔ (h, i) ∈ b.code := by
  constructor
  · exact mem_of_lookup
  · intro line
    obtain ⟨before, behind, code⟩ := List.append_of_mem line
    exact get?_of_append nodup code

theorem split_unique (nodup : b.handles.Nodup) {pre post pre' post' : List (Handle × Instr)} {h : Handle}
    {i i' : Instr} (code : b.code = pre ++ (h, i) :: post)
    (code' : b.code = pre' ++ (h, i') :: post') : pre = pre' ∧ i = i' ∧ post = post' := by
  have here : b.code[pre.length]? = some (h, i) := by simp [code]
  have there : b.code[pre'.length]? = some (h, i') := by simp [code']
  obtain ⟨same, rfl⟩ := line_unique nodup here there
  have := List.append_inj (code.symm.trans code') same
  exact ⟨this.1, rfl, (List.cons.inj this.2).2⟩

/-! ## What branches and regions name -/

structure Linked (b : Body) : Prop where
  targets : ∀ p ∈ b.code, ∀ t ∈ p.2.targets, t ∈ b.handles
  boundaries : ∀ r ∈ b.regions, ∀ h ∈ r.boundaries, h ∈ b.handles

theorem isTarget_iff {h : Handle} : b.isTarget h = true ↔ ∃ p ∈ b.code, h ∈ p.2.targets := by
  simp [isTarget]

theorem targets_rebranch {old new : Handle} {p : Handle × Instr} (line : p ∈ (b.rebranch old new).code) :
    ∃ q ∈ b.code, p.2.targets = q.2.targets.map (Handle.swap old new) := by
  obtain ⟨q, mem, rfl⟩ := List.mem_map.1 line
  exact ⟨q, mem, Instr.targets_mapTargets q.2 (Handle.swap old new)⟩

theorem boundaries_rebound (r : Region) (old new : Handle) :
    (r.rebound old new).boundaries = r.boundaries.map (Handle.swap old new) := by
  obtain ⟨flags, tryStart, tryEnd, handlerStart, handlerEnd, catchType, filterStart⟩ := r
  cases tryEnd <;> cases handlerEnd <;> cases filterStart <;> rfl

theorem boundaries_openEnds {r : Region} {old h : Handle} (start : old ∉ r.starts)
    (mem : h ∈ (r.openEnds old).boundaries) : h ∈ r.boundaries ∧ h ≠ old := by
  have ends {e : Option Handle} (here : h ∈ (if e = some old then none else e).toList) :
      h ∈ e.toList ∧ h ≠ old := by
    split at here
    · simp at here
    · rename_i other
      refine ⟨here, fun same => other ?_⟩
      exact same ▸ Option.mem_toList.1 here
  have begins {x : Handle} (here : x ∈ r.starts) : x ≠ old := fun same => start (same ▸ here)
  simp only [Region.boundaries, Region.openEnds, List.mem_append, List.mem_cons] at mem ⊢
  rcases mem with ((rfl | mem) | rfl | mem) | mem
  · exact ⟨.inl (.inl (.inl rfl)), begins (by simp [Region.starts])⟩
  · exact ⟨.inl (.inl (.inr (ends mem).1)), (ends mem).2⟩
  · exact ⟨.inl (.inr (.inl rfl)), begins (by simp [Region.starts])⟩
  · exact ⟨.inl (.inr (.inr (ends mem).1)), (ends mem).2⟩
  · exact ⟨.inr mem, begins (by simp [Region.starts, Option.mem_toList.1 mem])⟩

namespace Linked

variable {b' : Body} (linked : b.Linked)
include linked

theorem extend (kept : ∀ h ∈ b.handles, h ∈ b'.handles)
    (code : ∀ p ∈ b'.code, p ∈ b.code ∨ ∀ t ∈ p.2.targets, t ∈ b.handles)
    (regions : ∀ r ∈ b'.regions, r ∈ b.regions ∨ ∀ h ∈ r.boundaries, h ∈ b.handles) :
    b'.Linked where
  targets p line t ht := by
    rcases code p line with old | live
    · exact kept t (linked.targets p old t ht)
    · exact kept t (live t ht)
  boundaries r mem h hh := by
    rcases regions r mem with old | live
    · exact kept h (linked.boundaries r old h hh)
    · exact kept h (live h hh)

/-- An edit after which all that named `old` names `new`. -/
theorem move (old new : Handle) (live : new ∈ b'.handles)
    (kept : ∀ h ∈ b.handles, h ≠ old → h ∈ b'.handles)
    (code : ∀ p ∈ b'.code, ∀ t ∈ p.2.targets, ∃ u ∈ b.handles, t = Handle.swap old new u)
    (regions : b'.regions = b.regions.map (·.rebound old new)) : b'.Linked := by
  have swapped {u : Handle} (hu : u ∈ b.handles) : Handle.swap old new u ∈ b'.handles := by
    unfold Handle.swap
    split
    · exact live
    · exact kept u hu ‹_›
  refine ⟨fun p line t ht => ?_, fun r mem h hh => ?_⟩
  · obtain ⟨u, hu, rfl⟩ := code p line t ht
    exact swapped hu
  · rw [regions] at mem
    obtain ⟨q, hq, rfl⟩ := List.mem_map.1 mem
    rw [boundaries_rebound] at hh
    obtain ⟨u, hu, rfl⟩ := List.mem_map.1 hh
    exact swapped (linked.boundaries q hq u hu)

theorem rebranch {old new : Handle} (live : new ∈ b.handles) : (b.rebranch old new).Linked := by
  refine ⟨fun p line t ht => ?_, fun r mem h hh => ?_⟩
  · obtain ⟨q, hq, targets⟩ := targets_rebranch line
    rw [targets] at ht
    obtain ⟨u, hu, rfl⟩ := List.mem_map.1 ht
    rw [handles_rebranch]
    unfold Handle.swap
    split
    · exact live
    · exact linked.targets q hq u hu
  · rw [handles_rebranch]
    exact linked.boundaries r mem h hh

theorem push (i : Instr) : (Edit.push i b).2.Linked := by
  unfold Edit.push
  split
  · rename_i ok
    refine linked.extend (fun h hh => ?_) (fun p line => ?_) fun r mem => .inl mem
    · unfold handles
      rw [List.map_append]
      exact List.mem_append_left _ hh
    · rcases List.mem_append.1 line with old | new
      · exact .inl old
      · obtain rfl := List.mem_singleton.1 new
        exact .inr (requireAll_eq_ok.1 ok)
  · exact linked

theorem insert {i : Instr} (live : ∀ t ∈ i.targets, t ∈ b.handles)
    {f : Handle × Instr → List (Handle × Instr)} (keeps : ∀ p, p ∈ f p)
    (adds : ∀ p, ∀ q ∈ f p, q = p ∨ q = (b.fresh, i)) :
    Linked { b with code := b.code.flatMap f, nextIndex := b.nextIndex + 1 } := by
  refine linked.extend (fun h hh => ?_) (fun q line => ?_) fun r mem => .inl mem
  · obtain ⟨p, hp, rfl⟩ := List.mem_map.1 hh
    exact List.mem_map_of_mem (List.mem_flatMap.2 ⟨p, hp, keeps p⟩)
  · obtain ⟨p, hp, hq⟩ := List.mem_flatMap.1 line
    rcases adds p q hq with rfl | rfl
    · exact .inl hp
    · exact .inr live

theorem insertAfter (anchor : Handle) (i : Instr) : (Edit.insertAfter anchor i b).2.Linked := by
  unfold Edit.insertAfter
  split
  · rename_i ok
    refine linked.insert (i := i)
      (fun t ht => requireAll_eq_ok.1 ok t (List.mem_cons_of_mem _ ht)) (fun p => ?_) fun p q hq => ?_
    · split <;> simp
    · split at hq <;> simp_all
  · exact linked

theorem insertBefore (anchor : Handle) (i : Instr) : (Edit.insertBefore anchor i b).2.Linked := by
  unfold Edit.insertBefore
  split
  · rename_i ok
    refine linked.insert (i := i)
      (fun t ht => requireAll_eq_ok.1 ok t (List.mem_cons_of_mem _ ht)) (fun p => ?_) fun p q hq => ?_
    · split <;> simp
    · split at hq
      · rcases List.mem_cons.1 hq with new | old
        · exact .inr new
        · exact .inl (List.mem_singleton.1 old)
      · exact .inl (List.mem_singleton.1 hq)
  · exact linked

theorem replace (old : Handle) (i : Instr) : (Edit.replace old i b).2.Linked := by
  unfold Edit.replace
  split
  · rename_i ok
    have live := requireAll_eq_ok.1 ok
    let placed : Body := { b with
      code := b.code.map fun p => if p.1 = old then (b.fresh, i) else p
      nextIndex := b.nextIndex + 1 }
    have handles : ((placed.rebranch old b.fresh).rebound old b.fresh).handles = placed.handles :=
      handles_rebranch old b.fresh
    refine linked.move old b.fresh ?_ (fun h hh other => ?_)
      (fun p line t ht => ?_) rfl
    · obtain ⟨p, line, same⟩ := List.mem_map.1 (live old List.mem_cons_self)
      rw [handles]
      exact List.mem_map.2 ⟨(b.fresh, i), List.mem_map.2 ⟨p, line, if_pos same⟩, rfl⟩
    · obtain ⟨p, line, rfl⟩ := List.mem_map.1 hh
      rw [handles]
      exact List.mem_map.2 ⟨p, List.mem_map.2 ⟨p, line, if_neg other⟩, rfl⟩
    · obtain ⟨q, hq, targets⟩ := targets_rebranch (b := placed) line
      rw [targets] at ht
      obtain ⟨u, hu, rfl⟩ := List.mem_map.1 ht
      refine ⟨u, ?_, rfl⟩
      obtain ⟨p, line, rfl⟩ := List.mem_map.1 hq
      split at hu
      · exact live u (List.mem_cons_of_mem _ hu)
      · exact linked.targets p line u hu
  · exact linked

theorem unlink {h : Handle} (live : h ∈ b.handles) (nodup : b.handles.Nodup)
    (untargeted : ∀ p ∈ b.code, h ∉ p.2.targets) : (Edit.unlink h b).2.Linked := by
  have kept {b' : Body} (code : b'.code = b.code.filter (·.1 ≠ h)) :
      ∀ x ∈ b.handles, x ≠ h → x ∈ b'.handles := by
    intro x hx other
    obtain ⟨p, line, rfl⟩ := List.mem_map.1 hx
    unfold handles
    rw [code]
    exact List.mem_map_of_mem (List.mem_filter.2 ⟨line, decide_eq_true other⟩)
  have named {p : Handle × Instr} (line : p ∈ b.code.filter (·.1 ≠ h)) {t : Handle}
      (ht : t ∈ p.2.targets) : t ∈ b.handles ∧ t ≠ h := by
    have old := List.mem_of_mem_filter line
    exact ⟨linked.targets p old t ht, fun same => untargeted p old (same ▸ ht)⟩
  unfold Edit.unlink
  split
  · rename_i next found
    refine linked.move h next
      (kept rfl next (mem_of_next? found) (ne_of_next? nodup live found)) (kept rfl)
      (fun p line t ht => ?_) rfl
    obtain ⟨here, other⟩ := named line ht
    exact ⟨t, here, (if_neg other).symm⟩
  · split
    · exact linked
    · rename_i starts
      refine ⟨fun p line t ht => ?_, fun r mem x hx => ?_⟩
      · obtain ⟨here, other⟩ := named line ht
        exact kept rfl t here other
      · obtain ⟨q, hq, rfl⟩ := List.mem_map.1 mem
        have start : h ∉ q.starts := by
          intro start
          exact starts (List.any_eq_true.2 ⟨q, hq, List.contains_iff_mem.2 start⟩)
        obtain ⟨here, other⟩ := boundaries_openEnds start hx
        exact kept rfl x (linked.boundaries q hq x here) other

theorem mem_of_passesOnTo {h s : Handle} {i : Instr} (line : (h, i) ∈ b.code)
    (found : Edit.passesOnTo b h i = some s) : s ∈ b.handles := by
  have jump (found : i.target? = some s) : s ∈ b.handles := by
    refine linked.targets (h, i) line s ?_
    unfold Instr.target? at found
    unfold Instr.targets
    split at found
    · rename_i goal operand
      cases found
      rw [operand]
      exact List.mem_singleton_self _
    · cases found
  unfold Edit.passesOnTo at found
  split at found
  · exact jump found
  · exact jump found
  · exact mem_of_next? found

theorem remove (nodup : b.handles.Nodup) (h : Handle) : (Edit.remove h b).2.Linked := by
  unfold Edit.remove
  split
  · exact linked
  · rename_i i found
    have live : h ∈ b.handles := contains_iff.1 (by rw [contains, found]; rfl)
    split
    · split
      · rename_i s passes
        split
        · exact linked
        · rename_i other
          have here := linked.mem_of_passesOnTo (mem_of_lookup found) passes
          refine (linked.rebranch here).unlink ?_ ?_ fun p line => ?_
          · rw [handles_rebranch]
            exact live
          · rw [handles_rebranch]
            exact nodup
          · -- every branch that named `h` names `s` now
            obtain ⟨q, -, targets⟩ := targets_rebranch line
            rw [targets]
            intro mem
            obtain ⟨u, -, swapped⟩ := List.mem_map.1 mem
            unfold Handle.swap at swapped
            split at swapped
            · exact other swapped
            · contradiction
      · exact linked
    · rename_i untargeted
      refine linked.unlink live nodup fun p line mem => untargeted ?_
      exact isTarget_iff.2 ⟨p, line, mem⟩

theorem setOperand (h : Handle) (o : Operand) : (Edit.setOperand h o b).2.Linked := by
  unfold Edit.setOperand
  split
  · rename_i ok
    refine linked.extend (fun x hx => ?_) (fun q line => ?_) fun r mem => .inl mem
    · obtain ⟨p, line, rfl⟩ := List.mem_map.1 hx
      refine List.mem_map.2 ⟨_, List.mem_map_of_mem line, ?_⟩
      split
      · rename_i same
        exact same.symm
      · rfl
    · obtain ⟨p, old, rfl⟩ := List.mem_map.1 line
      split
      · exact .inr fun t ht => requireAll_eq_ok.1 ok t (List.mem_append_left _ ht)
      · exact .inl old
  · exact linked

theorem retarget (old new : Handle) : (Edit.retarget old new b).2.Linked := by
  unfold Edit.retarget
  split
  · rename_i ok
    have live : new ∈ b.handles := requireAll_eq_ok.1 ok new (by simp)
    have handles : ((b.rebranch old new).rebound old new).handles = b.handles :=
      handles_rebranch old new
    refine linked.move old new (handles ▸ live) (fun h hh _ => handles ▸ hh)
      (fun p line t ht => ?_) rfl
    obtain ⟨q, hq, targets⟩ := targets_rebranch (b := b) line
    rw [targets] at ht
    obtain ⟨u, hu, rfl⟩ := List.mem_map.1 ht
    exact ⟨u, linked.targets q hq u hu, rfl⟩
  · exact linked

theorem addRegion (r : Region) : (Edit.addRegion r b).2.Linked := by
  unfold Edit.addRegion
  split
  · rename_i ok
    refine linked.extend (fun h hh => hh) (fun p line => .inl line) fun q mem => ?_
    rcases List.mem_append.1 mem with old | new
    · exact .inl old
    · obtain rfl := List.mem_singleton.1 new
      exact .inr (requireAll_eq_ok.1 ok)
  · exact linked

/-- Every edit, refused or not, keeps a body linked. -/
theorem apply (nodup : b.handles.Nodup) (op : Edit.Op) : (op.apply b).Linked := by
  have same {b' : Body} (code : b'.code = b.code) (regions : b'.regions = b.regions) : b'.Linked := by
    have handles : b'.handles = b.handles := by rw [Body.handles, code]; rfl
    exact linked.extend (fun h hh => handles ▸ hh) (fun p line => .inl (code ▸ line))
      fun r mem => .inl (regions ▸ mem)
  cases op with
  | push i => exact linked.push i
  | insertAfter anchor i => exact linked.insertAfter anchor i
  | insertBefore anchor i => exact linked.insertBefore anchor i
  | replace old i => exact linked.replace old i
  | remove h => exact linked.remove nodup h
  | setOperand h o => exact linked.setOperand h o
  | retarget old new => exact linked.retarget old new
  | addRegion r => exact linked.addRegion r
  | clearRegions =>
    exact linked.extend (fun h hh => hh) (fun p line => .inl line) fun r mem => absurd mem List.not_mem_nil
  | addLocal sig =>
    change (Edit.addLocal sig b).2.Linked
    unfold Edit.addLocal
    split <;> exact same rfl rfl
  | setInitLocals flag => exact same rfl rfl

end Linked

theorem Reachable.linked (reach : b.Reachable) : b.Linked := by
  induction reach with
  | empty => exact ⟨by simp, by simp⟩
  | edit op reach ih => exact ih.apply reach.numbered.nodup op

/-! ## What the check can find -/

theorem contains_places {h : Handle} : b.places.contains h = true ↔ h ∈ b.handles := by
  rw [places, Std.HashMap.contains_ofList, List.zipIdx_map_fst, List.contains_iff_mem]

theorem forM_error {α : Type} {f : α → Except Fault Unit} {e : Fault} :
    ∀ {l : List α}, l.forM f = .error e → ∃ x ∈ l, f x = .error e
  | [], h => nomatch h
  | x :: l, h => by
    cases step : f x with
    | error e' =>
      have same : e' = e := by
        simpa [List.forM, step, bind, Except.bind] using h
      exact ⟨x, List.mem_cons_self, by rw [step, same]⟩
    | ok _ =>
      have rest : l.forM f = .error e := by
        simpa [List.forM, step, bind, Except.bind] using h
      obtain ⟨y, mem, refused⟩ := forM_error rest
      exact ⟨y, List.mem_cons_of_mem _ mem, refused⟩

theorem checkTargets_live {places : Places} {h : Handle} : ∀ {ts : List Handle},
    (∀ t ∈ ts, places.contains t = true) → checkTargets places h ts = .ok ()
  | [], _ => rfl
  | t :: ts, live => by
    rw [List.forall_mem_cons] at live
    rw [checkTargets, if_pos live.1, checkTargets_live live.2]

theorem boundaryPosition_live {e : Option Handle} (live : ∀ h ∈ e, h ∈ b.handles) :
    ∃ n, b.boundaryPosition b.places e = .ok n := by
  cases e with
  | none => exact ⟨b.size, rfl⟩
  | some h =>
    have found := contains_places.2 (live h rfl)
    rw [Std.HashMap.contains_eq_isSome_getElem?, Option.isSome_iff_exists] at found
    obtain ⟨n, found⟩ := found
    refine ⟨n, ?_⟩
    rw [boundaryPosition, found]

theorem checkInstr_error {places : Places} {h : Handle} {i : Instr} {e : Fault}
    (live : ∀ t ∈ i.targets, places.contains t = true)
    (refused : b.checkInstr places h i = .error e) :
    e = .invariant (.operandKind h i) ∨ ∃ index, e = .invariant (.undeclaredLocal index h) := by
  cases formed : i.wellFormed with
  | false =>
    have first : b.checkInstr places h i = .error (.invariant (.operandKind h i)) := by
      unfold checkInstr
      rw [formed]
      rfl
    exact .inl (Except.error.inj (refused.symm.trans first))
  | true =>
    unfold checkInstr at refused
    rw [checkTargets_live live, formed] at refused
    dsimp only [bind, Except.bind] at refused
    rw [Bool.not_true, if_neg Bool.false_ne_true] at refused
    split at refused
    · rename_i index _
      split at refused
      · exact .inr ⟨index, (Except.error.inj refused).symm⟩
      · cases refused
    · cases refused

theorem checkRegion_error {r : Region} {e : Fault} (live : ∀ h ∈ r.boundaries, h ∈ b.handles)
    (refused : b.checkRegion b.places r = .error e) : e = .invariant (.emptyRegion r.tryStart) := by
  obtain ⟨tryStart, h₁⟩ := boundaryPosition_live (b := b) (e := some r.tryStart) (by
    rintro _ ⟨⟩
    exact live _ (by simp [Region.boundaries]))
  obtain ⟨tryEnd, h₂⟩ := boundaryPosition_live (b := b) (e := r.tryEnd) fun h found =>
    live h (by simp [Region.boundaries, Option.mem_def.1 found])
  obtain ⟨handlerStart, h₃⟩ := boundaryPosition_live (b := b) (e := some r.handlerStart) (by
    rintro _ ⟨⟩
    exact live _ (by simp [Region.boundaries]))
  obtain ⟨handlerEnd, h₄⟩ := boundaryPosition_live (b := b) (e := r.handlerEnd) fun h found =>
    live h (by simp [Region.boundaries, Option.mem_def.1 found])
  obtain ⟨filterStart, h₅⟩ := boundaryPosition_live (b := b) (e := r.filterStart) fun h found =>
    live h (by simp [Region.boundaries, Option.mem_def.1 found])
  unfold checkRegion at refused
  rw [h₁, h₂, h₃, h₄, h₅] at refused
  simp only [bind, Except.bind] at refused
  split at refused
  · exact (Except.error.inj refused).symm
  · cases refused

/-- What the check can hold against a linked body: an operand, a local or a range. -/
theorem Linked.check_error (linked : b.Linked) {e : Fault} (refused : b.check = .error e) :
    (∃ p ∈ b.code, e = .invariant (.operandKind p.1 p.2) ∨
      ∃ index, e = .invariant (.undeclaredLocal index p.1)) ∨
    ∃ r ∈ b.regions, e = .invariant (.emptyRegion r.tryStart) := by
  change (b.code.forM (fun p => b.checkInstr b.places p.1 p.2) >>= fun _ =>
    b.regions.forM (b.checkRegion b.places)) = .error e at refused
  cases lines : b.code.forM fun p => b.checkInstr b.places p.1 p.2 with
  | error e' =>
    rw [lines] at refused
    cases refused
    obtain ⟨p, line, refused⟩ := forM_error lines
    exact .inl ⟨p, line, checkInstr_error (fun t ht =>
      contains_places.2 (linked.targets p line t ht)) refused⟩
  | ok _ =>
    rw [lines] at refused
    change b.regions.forM (b.checkRegion b.places) = .error e at refused
    obtain ⟨r, mem, refused⟩ := forM_error refused
    exact .inr ⟨r, mem, checkRegion_error (linked.boundaries r mem) refused⟩

end Body

end CilForge
