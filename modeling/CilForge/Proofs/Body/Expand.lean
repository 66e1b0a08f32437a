import CilForge.Proofs.Body.Reachable
import Mathlib.Data.List.Basic

/-!
# Code in the place of instructions

A body in which some instructions have been replaced by sequences of others is the old body read
line by line: each line becomes a block, and branches go to the heads of the blocks.
-/

namespace CilForge

namespace Instr

variable (i : Instr)

theorem targets_mapTargets (σ : Handle → Handle) : (i.mapTargets σ).targets = i.targets.map σ := by
  unfold targets mapTargets Operand.mapTargets
  cases i.operand <;> rfl

theorem mapTargets_mapTargets (σ τ : Handle → Handle) :
    (i.mapTargets σ).mapTargets τ = i.mapTargets fun h => τ (σ h) := by
  obtain ⟨o, operand⟩ := i
  cases operand <;> simp [mapTargets, Operand.mapTargets]

theorem mapTargets_congr {i : Instr} {σ τ : Handle → Handle} (h : ∀ t ∈ i.targets, σ t = τ t) :
    i.mapTargets σ = i.mapTargets τ := by
  obtain ⟨o, operand⟩ := i
  cases operand with
  | target goal => simp [mapTargets, Operand.mapTargets, h goal (List.mem_singleton_self _)]
  | switch goals =>
    have goals_eq : goals.map σ = goals.map τ := List.map_congr_left h
    simp [mapTargets, Operand.mapTargets, goals_eq]
  | _ => rfl

end Instr

theorem run_bind {S α β : Type} (x : ExceptT Fault (StateM S) α)
    (k : α → ExceptT Fault (StateM S) β) (s : S) : (x >>= k) s = match x s with
      | (.ok a, s') => k a s'
      | (.error e, s') => (.error e, s') := by
  change ExceptT.bindCont k (x s).1 (x s).2 = _
  obtain ⟨r, s'⟩ := x s
  cases r <;> rfl

namespace Edit

theorem bind_eq_ok {S α β : Type} {x : ExceptT Fault (StateM S) α}
    {k : α → ExceptT Fault (StateM S) β} {b b' : S} {r : β} :
    (x >>= k) b = (.ok r, b') ↔ ∃ a b₁, x b = (.ok a, b₁) ∧ k a b₁ = (.ok r, b') := by
  change (ExceptT.bindCont k (x b).1) (x b).2 = (.ok r, b') ↔ _
  constructor
  · intro h
    cases hx : (x b).1 with
    | error e =>
      rw [hx] at h
      injection h with h _
      cases h
    | ok a =>
      rw [hx] at h
      exact ⟨a, (x b).2, Prod.ext hx rfl, h⟩
  · rintro ⟨a, b₁, hx, hk⟩
    rw [hx]
    exact hk

theorem pure_eq_ok {S α : Type} {b b' : S} {a r : α} :
    (pure a : ExceptT Fault (StateM S) α) b = (.ok r, b') ↔ r = a ∧ b' = b := by
  constructor
  · intro h
    cases h
    exact ⟨rfl, rfl⟩
  · rintro ⟨rfl, rfl⟩
    rfl

end Edit

def Handle.swap (old new h : Handle) : Handle := if h = old then new else h

def relabel (σ : Handle → Handle) (p : Handle × Instr) : Handle × Instr := (p.1, p.2.mapTargets σ)

theorem index_numbered {q : Handle × Instr} : ∀ {n : Nat} {is : List Instr}, q ∈ numbered n is →
    n ≤ q.1.index ∧ q.1.index < n + is.length
  | _, [], h => nomatch h
  | n, i :: is, h => by
    rw [List.length_cons]
    rcases List.mem_cons.1 h with rfl | h
    · exact ⟨Nat.le_refl n, by simp⟩
    · have := index_numbered h
      omega

namespace Edit

theorem flatMap_insertAfter {l : List (Handle × Instr)} {old : Handle} {block : List (Handle × Instr)}
    {q last : Handle × Instr} (other : ∀ p ∈ l, p.1 ≠ q.1) (front : ∀ p ∈ block, p.1 ≠ q.1) :
    (l.flatMap fun p => if p.1 = old then block ++ [q] else [p]).flatMap
        (fun p => if p.1 = q.1 then [p, last] else [p]) =
      l.flatMap fun p => if p.1 = old then block ++ [q] ++ [last] else [p] := by
  rw [List.flatMap_assoc]
  refine List.flatMap_congr fun p hp => ?_
  by_cases eq : p.1 = old
  · have keep : block.flatMap (fun p => if p.1 = q.1 then [p, last] else [p]) = block := by
      rw [List.flatMap_congr fun p hp => if_neg (front p hp), List.flatMap_singleton']
    rw [if_pos eq, if_pos eq, List.flatMap_append, List.flatMap_singleton, if_pos rfl, keep,
      List.append_assoc]
    rfl
  · rw [if_neg eq, if_neg eq, List.flatMap_singleton, if_neg (other p hp)]

/-- A body in which the block that stands for `old` in the lines `l` ends with the newest one. -/
structure Open (l : List (Handle × Instr)) (old : Handle) (block : List (Handle × Instr))
    (q : Handle × Instr) (b : Body) : Prop where
  code : b.code = l.flatMap fun p => if p.1 = old then block ++ [q] else [p]
  newest : q.1.index + 1 = b.nextIndex
  lines : ∀ p ∈ l, p.1.index < q.1.index
  front : ∀ p ∈ block, p.1.index < q.1.index

theorem Open.insertAfter {l : List (Handle × Instr)} {old h : Handle} {block : List (Handle × Instr)}
    {q : Handle × Instr} {b b' : Body} {i : Instr} (opens : Open l old block q b)
    (done : Edit.insertAfter q.1 i b = (.ok h, b')) :
    h = b.fresh ∧ Open l old (block ++ [q]) (b.fresh, i) b' ∧ b'.locals = b.locals ∧
      b'.initLocals = b.initLocals ∧ ∀ t ∈ i.targets, t ∈ b.handles := by
  unfold Edit.insertAfter at done
  split at done
  · rename_i ok
    cases done
    have older {p : Handle × Instr} (lt : p.1.index < q.1.index) : p.1 ≠ q.1 := by
      intro eq
      rw [eq] at lt
      exact Nat.lt_irrefl _ lt
    refine ⟨rfl, ⟨?_, rfl, ?_, ?_⟩, rfl, rfl, fun t ht => ?_⟩
    · simp only
      rw [opens.code]
      exact flatMap_insertAfter (fun p hp => older (opens.lines p hp))
        fun p hp => older (opens.front p hp)
    · intro p hp
      exact Nat.lt_trans (opens.lines p hp) (Nat.lt_of_lt_of_eq (Nat.lt_succ_self _) opens.newest)
    · intro p hp
      have last : q.1.index < b.nextIndex := Nat.lt_of_lt_of_eq (Nat.lt_succ_self _) opens.newest
      rcases List.mem_append.1 hp with hp | hp
      · exact Nat.lt_trans (opens.front p hp) last
      · rw [List.mem_singleton] at hp
        rw [hp]
        exact last
    · exact Body.requireAll_eq_ok.1 ok t (List.mem_cons_of_mem _ ht)
  · cases done

theorem Open.insertAll {l : List (Handle × Instr)} {old : Handle} : ∀ {tail : List Instr}
    {block : List (Handle × Instr)} {q : Handle × Instr} {b b' : Body} {h : Handle},
    Open l old block q b →
    tail.foldlM (fun at' i => Edit.insertAfter at' i) q.1 b = (.ok h, b') →
    b'.code = (l.flatMap fun p =>
        if p.1 = old then block ++ [q] ++ numbered b.nextIndex tail else [p]) ∧
      b'.nextIndex = b.nextIndex + tail.length ∧ b'.locals = b.locals ∧
      b'.initLocals = b.initLocals ∧
      ∀ i ∈ tail, ∀ t ∈ i.targets, t ∈ b.handles ∨ b.nextIndex ≤ t.index
  | [], block, q, b, b', h, opens, done => by
    obtain ⟨-, rfl⟩ := pure_eq_ok.1 done
    refine ⟨?_, rfl, rfl, rfl, fun i hi => nomatch hi⟩
    rw [opens.code]
    simp only [numbered, List.append_nil]
  | i :: tail, block, q, b, b', h, opens, done => by
    obtain ⟨at', b₁, first, rest⟩ := bind_eq_ok.1 done
    obtain ⟨rfl, opens₁, locals₁, init₁, live⟩ := opens.insertAfter first
    have next₁ : b₁.nextIndex = b.nextIndex + 1 := opens₁.newest.symm
    obtain ⟨code, next, locals, init, targets⟩ := opens₁.insertAll rest
    refine ⟨?_, ?_, locals.trans locals₁, init.trans init₁, ?_⟩
    · rw [code, next₁]
      simp only [numbered, List.append_assoc, List.singleton_append]
      rfl
    · rw [next, next₁, List.length_cons]
      omega
    · intro j hj t ht
      rcases List.mem_cons.1 hj with rfl | hj
      · exact .inl (live t ht)
      · rcases targets j hj t ht with live | new
        · -- the handle is an old one or that of the instruction just put in
          have sub : b₁.handles ⊆ b.handles ++ [b.fresh] := by
            intro x hx
            unfold Body.handles at hx ⊢
            rw [opens₁.code, List.map_flatMap] at hx
            rw [opens.code, List.map_flatMap, List.mem_append, List.mem_flatMap]
            obtain ⟨p, hp, hx⟩ := List.mem_flatMap.1 hx
            by_cases eq : p.1 = old
            · rw [if_pos eq, List.map_append, List.mem_append] at hx
              rcases hx with hx | hx
              · exact .inl ⟨p, hp, by rw [if_pos eq]; exact hx⟩
              · exact .inr hx
            · rw [if_neg eq] at hx
              exact .inl ⟨p, hp, by rw [if_neg eq]; exact hx⟩
          rcases List.mem_append.1 (sub live) with live | new
          · exact .inl live
          · rw [List.mem_singleton] at new
            rw [new]
            exact .inr (Nat.le_refl _)
        · exact .inr (by omega)

theorem replace_eq_ok {b b' : Body} {old first : Handle} {i : Instr} (num : b.Numbered)
    (done : Edit.replace old i b = (.ok first, b')) :
    first = b.fresh ∧ (∀ t ∈ old :: i.targets, t ∈ b.handles) ∧ b'.locals = b.locals ∧
      b'.initLocals = b.initLocals ∧
      Open (b.code.map (relabel (Handle.swap old first))) old []
        (relabel (Handle.swap old first) (first, i)) b' := by
  unfold Edit.replace at done
  split at done
  · rename_i ok
    cases done
    refine ⟨rfl, Body.requireAll_eq_ok.1 ok, rfl, rfl, ?_, rfl, ?_, fun p hp => nomatch hp⟩
    · show (b.code.map fun p => if p.1 = old then (b.fresh, i) else p).map
        (relabel (Handle.swap old b.fresh)) = _
      rw [List.map_map, List.map_eq_flatMap, List.flatMap_map]
      refine List.flatMap_congr fun p _ => ?_
      by_cases eq : p.1 = old
      · simp [eq, relabel]
      · simp [eq, relabel]
    · intro p hp
      obtain ⟨q, hq, rfl⟩ := List.mem_map.1 hp
      exact num.below q.1 (List.mem_map_of_mem hq)
  · cases done

/-- What putting a sequence in the place of an instruction makes of a body. -/
structure Expansion (b : Body) (old : Handle) (head : Instr) (tail : List Instr) (b' : Body) : Prop where
  live : ∀ t ∈ old :: head.targets, t ∈ b.handles
  behind : ∀ i ∈ tail, ∀ t ∈ i.targets, t ≠ old ∧ (t ∈ b.handles ∨ b.nextIndex ≤ t.index)
  code : b'.code = b.code.flatMap fun p =>
    if p.1 = old then numbered b.nextIndex (head.mapTargets (Handle.swap old b.fresh) :: tail)
    else [relabel (Handle.swap old b.fresh) p]
  next : b'.nextIndex = b.nextIndex + (tail.length + 1)
  locals : b'.locals = b.locals
  initLocals : b'.initLocals = b.initLocals

theorem expand_eq_ok {b b' : Body} {old first : Handle} {head : Instr} {tail : List Instr}
    (num : b.Numbered) (done : Edit.expand old head tail b = (.ok first, b')) :
    first = b.fresh ∧ Expansion b old head tail b' := by
  obtain ⟨_, b₁, replaced, done⟩ := bind_eq_ok.1 done
  obtain ⟨_, b₂, inserted, done⟩ := bind_eq_ok.1 done
  obtain ⟨rfl, rfl⟩ := pure_eq_ok.1 done
  obtain ⟨rfl, live, locals₁, init₁, opens⟩ := replace_eq_ok num replaced
  have next₁ : b₁.nextIndex = b.nextIndex + 1 := opens.newest.symm
  obtain ⟨code, next, locals, init, targets⟩ := opens.insertAll inserted
  refine ⟨rfl, live, ?_, ?_, ?_, locals.trans locals₁, init.trans init₁⟩
  · intro i hi t ht
    have oldLive := live old (List.mem_cons_self ..)
    rcases targets i hi t ht with seen | new
    · unfold Body.handles at seen
      rw [opens.code, List.map_flatMap, List.flatMap_map] at seen
      obtain ⟨p, hp, seen⟩ := List.mem_flatMap.1 seen
      by_cases eq : p.1 = old
      · -- the handle of the replacement itself
        have fresh : t = b.fresh := by simpa [relabel, eq] using seen
        subst fresh
        exact ⟨fun eq => num.ne_fresh oldLive eq.symm, .inr (Nat.le_refl _)⟩
      · have same : t = p.1 := by simpa [relabel, eq] using seen
        exact ⟨same ▸ eq, .inl (same ▸ List.mem_map_of_mem hp)⟩
    · have := num.below old oldLive
      refine ⟨?_, .inr (by omega)⟩
      rintro rfl
      omega
  · rw [code, next₁, List.flatMap_map]
    refine List.flatMap_congr fun p _ => ?_
    by_cases eq : p.1 = old
    · simp [relabel, eq, numbered, Body.fresh]
    · simp [relabel, eq]
  · rw [next, next₁]
    omega

end Edit

namespace Body

theorem Numbered.insertAll : ∀ {tail : List Instr} {at' h : Handle} {b b' : Body}, b.Numbered →
    tail.foldlM (fun at' i => Edit.insertAfter at' i) at' b = (.ok h, b') → b'.Numbered
  | [], _, _, _, _, num, done => by
    obtain ⟨-, rfl⟩ := Edit.pure_eq_ok.1 done
    exact num
  | i :: tail, at', h, b, b', num, done => by
    obtain ⟨h₁, b₁, first, rest⟩ := Edit.bind_eq_ok.1 done
    have num₁ := num.insertAfter at' i
    rw [show Edit.insertAfter at' i b = (.ok h₁, b₁) from first] at num₁
    exact num₁.insertAll rest

theorem Numbered.expand {b b' : Body} {old first : Handle} {head : Instr} {tail : List Instr}
    (num : b.Numbered) (done : Edit.expand old head tail b = (.ok first, b')) : b'.Numbered := by
  obtain ⟨_, b₁, replaced, done⟩ := Edit.bind_eq_ok.1 done
  obtain ⟨_, b₂, inserted, done⟩ := Edit.bind_eq_ok.1 done
  obtain ⟨-, rfl⟩ := Edit.pure_eq_ok.1 done
  have num₁ := num.replace old head
  rw [replaced] at num₁
  exact num₁.insertAll inserted

/-! ## Many places -/

def Extends (σ τ : Handle → Handle) : Prop := ∀ h, τ h = σ h ∨ σ h = h

theorem Extends.refl (σ : Handle → Handle) : Extends σ σ := fun _ => .inl rfl

theorem Extends.trans {σ τ υ : Handle → Handle} (h : Extends σ τ) (h' : Extends τ υ) :
    Extends σ υ := by
  intro x
  rcases h x with eq | same
  · rcases h' x with eq' | same'
    · exact .inl (eq'.trans eq)
    · exact .inr (eq.symm.trans same')
  · exact .inr same

theorem Extends.moves {σ τ : Handle → Handle} (ext : Extends σ τ) {h : Handle} (moves : σ h ≠ h) :
    τ h ≠ h := by
  rcases ext h with eq | same
  · rw [eq]
    exact moves
  · exact absurd same moves

/-- The block of a line: the line itself if its handle stays, else code that may stand there. -/
structure Block (Stands : Handle → List Instr → Prop) (σ : Handle → Handle) (fence : Nat)
    (p : Handle × Instr) (block : List (Handle × Instr)) : Prop where
  stays : σ p.1 = p.1 → block = [relabel σ p]
  moves : σ p.1 ≠ p.1 → ∃ code, Stands p.1 code ∧ block.map (·.2) = code.map (·.mapTargets σ) ∧
    ∀ q ∈ block, fence ≤ q.1.index
  first : block.head?.map (·.1) = some (σ p.1)

/-- A body in which code stands in the place of the instructions that `σ` moves. -/
structure Expanded (Stands : Handle → List Instr → Prop) (b : Body) (σ : Handle → Handle)
    (b' : Body) : Prop where
  numbered : b'.Numbered
  next : b.nextIndex ≤ b'.nextIndex
  moved : ∀ h, σ h ≠ h → h ∈ b.handles ∧ b.nextIndex ≤ (σ h).index
  code : ∃ E, b'.code = b.code.flatMap E ∧ ∀ p ∈ b.code, Block Stands σ b.nextIndex p (E p)
  locals : b'.locals = b.locals
  initLocals : b'.initLocals = b.initLocals

variable {Stands : Handle → List Instr → Prop} {b : Body} {σ : Handle → Handle} {b' : Body}

theorem relabel_id (p : Handle × Instr) : relabel (fun h => h) p = p := by
  obtain ⟨h, o, operand⟩ := p
  cases operand <;> simp [relabel, Instr.mapTargets, Operand.mapTargets]

theorem Expanded.refl (num : b.Numbered) : Expanded Stands b (fun h => h) b := by
  refine ⟨num, Nat.le_refl _, fun h ne => absurd rfl ne, ⟨fun p => [p], ?_, fun p _ => ?_⟩, rfl, rfl⟩
  · rw [List.flatMap_singleton']
  · refine ⟨fun _ => ?_, fun ne => absurd rfl ne, rfl⟩
    rw [relabel_id]

theorem Expanded.not_mem (ex : Expanded Stands b σ b') (num : b.Numbered) {h : Handle}
    (moves : σ h ≠ h) : h ∉ b'.handles := by
  intro mem
  obtain ⟨E, whole, blocks⟩ := ex.code
  unfold handles at mem
  rw [whole, List.map_flatMap] at mem
  obtain ⟨p, hp, mem⟩ := List.mem_flatMap.1 mem
  obtain ⟨q, hq, rfl⟩ := List.mem_map.1 mem
  have low := num.below q.1 (ex.moved q.1 moves).1
  by_cases stays : σ p.1 = p.1
  · rw [(blocks p hp).stays stays, List.mem_singleton] at hq
    subst hq
    exact moves stays
  · obtain ⟨_, _, _, high⟩ := (blocks p hp).moves stays
    have := high q hq
    omega

theorem Expanded.stays (ex : Expanded Stands b σ b') (num : b.Numbered) {h : Handle}
    (live : h ∈ b'.handles) : σ h = h :=
  Classical.byContradiction fun moves => ex.not_mem num moves live

/-- A handle that an older renaming leads to, if it is still there, is what the newer one gives. -/
theorem Expanded.eq_of_extends (ex : Expanded Stands b σ b') (num : b.Numbered)
    {τ : Handle → Handle} (ext : Extends τ σ) {h : Handle}
    (live : τ h ∈ b'.handles ∨ b'.nextIndex ≤ (τ h).index) : τ h = σ h := by
  rcases ext h with eq | same
  · exact eq.symm
  · rw [same] at live ⊢
    rcases live with live | high
    · exact (ex.stays num live).symm
    · by_cases stays : σ h = h
      · exact stays.symm
      · have := num.below h (ex.moved h stays).1
        have := ex.next
        omega

def redirect (σ : Handle → Handle) (old new h : Handle) : Handle := if h = old then new else σ h

theorem redirect_old (σ : Handle → Handle) (old new : Handle) : redirect σ old new old = new :=
  if_pos rfl

theorem redirect_of_ne (σ : Handle → Handle) {old new h : Handle} (ne : h ≠ old) :
    redirect σ old new h = σ h :=
  if_neg ne

theorem Extends.renamed {τ : Handle → Handle} (ext : Extends τ σ) {old : Handle} (new : Handle)
    (stays : σ old = old) : Extends τ (redirect σ old new) := by
  intro h
  by_cases eq : h = old
  · subst eq
    rcases ext h with same | same
    · exact .inr (same ▸ stays)
    · exact .inr same
  · rw [redirect_of_ne σ eq]
    exact ext h

section
variable {old new : Handle} {fence : Nat} {p : Handle × Instr} {block : List (Handle × Instr)}

theorem Block.ne (bl : Block Stands σ fence p block) (low : old.index < fence) (ne : p.1 ≠ old) :
    ∀ q ∈ block, q.1 ≠ old := by
  intro q hq
  by_cases same : σ p.1 = p.1
  · rw [bl.stays same, List.mem_singleton] at hq
    rw [hq]
    exact ne
  · obtain ⟨_, _, _, high⟩ := bl.moves same
    have := high q hq
    rintro rfl
    omega

theorem Block.renamed (bl : Block Stands σ fence p block) (ne : p.1 ≠ old)
    (swap : ∀ t, Handle.swap old new (σ t) = redirect σ old new t) :
    Block Stands (redirect σ old new) fence p (block.map (relabel (Handle.swap old new))) := by
  have instrs (l : List Instr) : (l.map (·.mapTargets σ)).map (·.mapTargets (Handle.swap old new)) =
      l.map (·.mapTargets (redirect σ old new)) := by
    rw [List.map_map]
    refine List.map_congr_left fun i _ => ?_
    simp only [Function.comp, Instr.mapTargets_mapTargets, swap]
  constructor
  · intro same
    rw [redirect_of_ne σ ne] at same
    rw [bl.stays same, List.map_singleton, relabel, relabel, Instr.mapTargets_mapTargets]
    simp only [swap, relabel]
  · intro moves
    rw [redirect_of_ne σ ne] at moves
    obtain ⟨code, stands, eq, high⟩ := bl.moves moves
    refine ⟨code, stands, ?_, fun q hq => ?_⟩
    · rw [← instrs, ← eq, List.map_map, List.map_map]
      rfl
    · obtain ⟨r, hr, rfl⟩ := List.mem_map.1 hq
      exact high r hr
  · rw [redirect_of_ne σ ne, ← bl.first, List.head?_map, Option.map_map]
    rfl

theorem Block.fill {n : Nat} {code : List Instr} (old_eq : p.1 = old) (ne : (⟨n⟩ : Handle) ≠ old)
    (high : fence ≤ n) (nonempty : code ≠ []) (stands : Stands old code) :
    Block Stands (redirect σ old ⟨n⟩) fence p
      (CilForge.numbered n (code.map (·.mapTargets (redirect σ old ⟨n⟩)))) := by
  subst old_eq
  constructor
  · intro same
    rw [redirect_old] at same
    exact absurd same ne
  · intro _
    refine ⟨code, stands, instrs_numbered _ _, fun q hq => ?_⟩
    exact Nat.le_trans high (index_numbered hq).1
  · cases code with
    | nil => exact absurd rfl nonempty
    | cons i rest =>
      rw [redirect_old]
      rfl

end

theorem Expanded.expand (ex : Expanded Stands b σ b') (num : b.Numbered) {τ : Handle → Handle}
    (ext : Extends τ σ) {old first : Handle} {head : Instr} {tail : List Instr} {b'' : Body}
    (mem : old ∈ b.handles) (stands : Stands old (head :: tail))
    (done : Edit.expand old (head.mapTargets τ) (tail.map (·.mapTargets τ)) b' = (.ok first, b'')) :
    σ old = old ∧ first ≠ old ∧ Expanded Stands b (redirect σ old first) b'' := by
  obtain ⟨rfl, live, behind, code, next, locals, init⟩ := Edit.expand_eq_ok ex.numbered done
  have stays : σ old = old := ex.stays num (live old (List.mem_cons_self ..))
  have low := num.below old mem
  have fence : b.nextIndex ≤ b'.nextIndex := ex.next
  have freshNe : b'.fresh ≠ old := by
    rintro rfl
    exact Nat.lt_irrefl _ (Nat.lt_of_lt_of_le low fence)
  -- the block takes a new handle, and what led to the instruction now leads there
  have swap (t : Handle) : Handle.swap old b'.fresh (σ t) = redirect σ old b'.fresh t := by
    unfold Handle.swap
    by_cases eq : t = old
    · rw [eq, stays, if_pos rfl, redirect_old]
    · rw [redirect_of_ne σ eq, if_neg]
      by_cases same : σ t = t
      · rw [same]
        exact eq
      · have := (ex.moved t same).2
        rintro rfl
        omega
  -- the targets of the block go on to where the expansions so far have led them
  have headCode : (head.mapTargets τ).mapTargets (Handle.swap old b'.fresh) =
      head.mapTargets (redirect σ old b'.fresh) := by
    rw [Instr.mapTargets_mapTargets]
    refine Instr.mapTargets_congr fun t ht => ?_
    have there : τ t ∈ b'.handles := by
      apply live
      rw [Instr.targets_mapTargets]
      exact List.mem_cons_of_mem _ (List.mem_map_of_mem ht)
    rw [ex.eq_of_extends num ext (.inl there), swap]
  have tailCode : tail.map (·.mapTargets τ) = tail.map (·.mapTargets (redirect σ old b'.fresh)) := by
    refine List.map_congr_left fun i hi => Instr.mapTargets_congr fun t ht => ?_
    have there := behind (i.mapTargets τ) (List.mem_map_of_mem hi) (τ t) (by
      rw [Instr.targets_mapTargets]
      exact List.mem_map_of_mem ht)
    have eq := ex.eq_of_extends num ext there.2
    rw [eq] at there ⊢
    rw [redirect_of_ne σ]
    rintro rfl
    exact there.1 stays
  refine ⟨stays, freshNe, ex.numbered.expand done, by rw [next]; omega, ?_, ?_, locals.trans ex.locals,
    init.trans ex.initLocals⟩
  · intro h moves
    by_cases eq : h = old
    · rw [eq, redirect_old]
      exact ⟨mem, fence⟩
    · rw [redirect_of_ne σ eq] at moves ⊢
      exact ex.moved h moves
  · obtain ⟨E, whole, blocks⟩ := ex.code
    refine ⟨fun p => if p.1 = old then CilForge.numbered b'.nextIndex ((head :: tail).map
      (·.mapTargets (redirect σ old b'.fresh))) else
        (E p).map (relabel (Handle.swap old b'.fresh)), ?_, fun p hp => ?_⟩
    · rw [code, whole, List.flatMap_assoc, headCode, tailCode]
      refine List.flatMap_congr fun p hp => ?_
      by_cases eq : p.1 = old
      · rw [(blocks p hp).stays (by rw [eq, stays]), List.flatMap_singleton, relabel, if_pos eq,
          if_pos eq, List.map_cons]
      · have other := (blocks p hp).ne low eq
        rw [if_neg eq, List.flatMap_congr fun q hq => if_neg (other q hq), ← List.map_eq_flatMap]
    · by_cases eq : p.1 = old
      · simp only [if_pos eq]
        exact .fill eq freshNe fence (List.cons_ne_nil _ _) stands
      · simp only [if_neg eq]
        exact (blocks p hp).renamed eq swap

/-! ## Code from an instruction on -/

theorem codeFrom_of_append (nodup : b.handles.Nodup) {before behind : List (Handle × Instr)}
    {h : Handle} {i : Instr} (code : b.code = before ++ (h, i) :: behind) :
    b.codeFrom h = (h, i) :: behind := by
  unfold codeFrom
  unfold handles at nodup
  rw [code, List.map_append, List.nodup_append] at nodup
  rw [code, List.dropWhile_append_of_pos]
  · simp
  · intro p hp
    have ne := nodup.2.2 p.1 (List.mem_map_of_mem hp) h (by simp)
    simpa using ne

theorem get_of_position? {h : Handle} {n : Nat} (there : b.position? h = some n) :
    ∃ i, b.code[n]? = some (h, i) := by
  obtain ⟨lt, eq, -⟩ := List.findIdx?_eq_some_iff_getElem.1 there
  rw [decide_eq_true_eq] at eq
  exact ⟨b.code[n].2, by rw [List.getElem?_eq_getElem lt, ← eq]⟩

theorem position?_of_get (nodup : b.handles.Nodup) {h : Handle} {i : Instr} {n : Nat}
    (code : b.code[n]? = some (h, i)) : b.position? h = some n := by
  obtain ⟨lt, eq⟩ := List.getElem?_eq_some_iff.1 code
  refine List.findIdx?_eq_some_iff_getElem.2 ⟨lt, by simp [eq], fun m hm same => ?_⟩
  have ne := List.pairwise_iff_getElem.1 nodup m n (by simp [handles]; omega)
    (by simpa [handles] using lt) hm
  simp only [handles, List.getElem_map, eq] at ne
  exact ne (of_decide_eq_true same)

theorem line_unique (nodup : b.handles.Nodup) {h : Handle} {i i' : Instr} {n n' : Nat}
    (code : b.code[n]? = some (h, i)) (code' : b.code[n']? = some (h, i')) : n = n' ∧ i = i' := by
  have here := position?_of_get nodup code
  rw [position?_of_get nodup code', Option.some.injEq] at here
  subst here
  rw [code, Option.some.injEq, Prod.mk.injEq] at code'
  exact ⟨rfl, code'.2⟩

theorem get_of_codeFrom {h : Handle} (live : b.codeFrom h ≠ []) :
    ∃ (n : Nat) (i : Instr), b.code[n]? = some (h, i) := by
  cases there : b.codeFrom h with
  | nil => exact absurd there live
  | cons p rest =>
    have mem : p ∈ b.code := (List.dropWhile_sublist _).subset (there ▸ List.mem_cons_self ..)
    have head := List.head?_dropWhile_not (fun p : Handle × Instr => decide (p.1 ≠ h)) b.code
    rw [← codeFrom, there] at head
    obtain ⟨n, lt, eq⟩ := List.mem_iff_getElem.1 mem
    have same : p.1 = h := by simpa using head
    exact ⟨n, p.2, by rw [List.getElem?_eq_getElem lt, eq, ← same]⟩

theorem codeFrom_of_get (nodup : b.handles.Nodup) {h : Handle} {i : Instr} {n : Nat}
    (code : b.code[n]? = some (h, i)) : b.codeFrom h = b.code.drop n := by
  obtain ⟨lt, eq⟩ := List.getElem?_eq_some_iff.1 code
  rw [List.drop_eq_getElem_cons lt, eq]
  refine codeFrom_of_append nodup (?_ : _ = b.code.take n ++ _)
  rw [← eq, ← List.drop_eq_getElem_cons lt, List.take_append_drop]

theorem codeFrom_blocks {E : Handle × Instr → List (Handle × Instr)} (nodup : b'.handles.Nodup)
    (whole : b'.code = b.code.flatMap E) {n : Nat} {p : Handle × Instr} (code : b.code[n]? = some p)
    {h : Handle} (first : (E p).head?.map (·.1) = some h) :
    b'.codeFrom h = (b.code.drop n).flatMap E ∧ b'.codeFrom h ≠ [] := by
  obtain ⟨lt, eq⟩ := List.getElem?_eq_some_iff.1 code
  have drop : b.code.drop n = p :: b.code.drop (n + 1) := by
    rw [List.drop_eq_getElem_cons lt, eq]
  cases hE : E p with
  | nil =>
    rw [hE] at first
    cases first
  | cons q rest =>
    rw [hE] at first
    injection first with first
    have there : b'.codeFrom h = (b.code.drop n).flatMap E := by
      rw [drop, List.flatMap_cons, hE, ← first]
      refine codeFrom_of_append nodup (?_ : _ = (b.code.take n).flatMap E ++ _)
      have split : b.code.flatMap E = (b.code.take n).flatMap E ++ (p :: b.code.drop (n + 1)).flatMap E := by
        rw [← drop, ← List.flatMap_append, List.take_append_drop]
      rw [whole, split, List.flatMap_cons, hE]
      rfl
    refine ⟨there, ?_⟩
    rw [there, drop, List.flatMap_cons, hE]
    exact List.cons_ne_nil _ _

end Body

end CilForge
