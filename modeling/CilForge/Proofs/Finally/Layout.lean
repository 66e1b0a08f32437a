import CilForge.Proofs.Body.Depth
import CilForge.Proofs.Finally.Nesting
import CilForge.Proofs.Results
import Mathlib.Data.List.Nodup
import Mathlib.Data.List.Pairwise
import Mathlib.Data.List.Perm.Subperm

/-!
# What a layout says of its body

Every `endfinally` and every `leave` of the body is in its layout, with the handler it ends or the
nodes it leaves. Nodes whose ranges overlap have different state variables.
-/

namespace CilForge

theorem Body.Numbered.size_le {b : Body} (num : b.Numbered) : b.size ≤ b.nextIndex := by
  have nodup : (b.handles.map (·.index)).Nodup := by
    refine num.nodup.map fun x y (eq : x.index = y.index) => ?_
    cases x
    cases y
    cases eq
    rfl
  have sub : b.handles.map (·.index) ⊆ List.range b.nextIndex := by
    intro n hn
    obtain ⟨h, hh, rfl⟩ := List.mem_map.1 hn
    exact List.mem_range.2 (num.below h hh)
  have := (List.subperm_of_subset nodup sub).length_le
  simpa [Body.handles, Body.size] using this

namespace Finally

variable {b : Body} {regions : List Ranges} {p : Layout} {depths : Body.Depths}

def Spans (b : Body) (regions : List Ranges) : Prop :=
  List.Forall₂ (fun x r => regionSpans b x.1 x.2 = .ok r) b.regions.zipIdx regions

/-- The layout of a body with these regions and depths. -/
structure Reads (b : Body) (regions : List Ranges) (depths : Body.Depths) (p : Layout) : Prop where
  spans : Spans b regions
  fits : regions.Pairwise fun r s => r.trySpan.Fits s.trySpan
  nesting : p.nesting = .ofRegions regions
  found : b.depths = .ok depths
  ends : ∀ {e h}, e ∈ p.ends → h ∈ e.2 → ∃ place i r, b.code[place]? = some (h, i) ∧
    i.opcode = .endfinally ∧ ownerOf regions place = some r ∧ r.region = e.1
  allEnds : ∀ {place : Nat} {h i}, b.code[place]? = some (h, i) → i.opcode = .endfinally →
    ∃ e ∈ p.ends, h ∈ e.2
  leaves : ∀ {l}, l ∈ p.leaves → ∃ place goal i, b.code[place]? = some (l.at', i) ∧
    i.opcode = .leave ∧ i.target? = some l.target ∧ b.position? l.target = some goal ∧
    l.exits = p.nesting.exits place goal ∧ ∀ d, depths[l.at']? = some d → d = 0
  allLeaves : ∀ {place : Nat} {h i}, b.code[place]? = some (h, i) → i.opcode = .leave →
    ∃ l ∈ p.leaves, l.at' = h

theorem mem_zipIdx_filter {α : Type} {l : List α} {f : α × Nat → Bool} {a : α} {n : Nat} :
    (a, n) ∈ l.zipIdx.filter f ↔ l[n]? = some a ∧ f (a, n) = true := by
  rw [List.mem_filter, List.mem_zipIdx_iff_getElem?]

theorem checkPair_eq_ok {x y : Span} : checkPair x y = .ok () ↔ x.Fits y := by
  unfold checkPair Span.Fits
  by_cases same : x = y
  · rw [if_pos same]
    exact ⟨nofun, fun fits => absurd same fits.1⟩
  · rw [if_neg same]
    cases x.overlaps y <;> cases x.encloses y <;> cases y.encloses x <;>
      simp [same, pure, Except.pure, throw, throwThe, MonadExceptOf.throw]

theorem checkNesting_eq_ok : ∀ {regions : List Ranges}, checkNesting regions = .ok () ↔
    regions.Pairwise fun r s => r.trySpan.Fits s.trySpan
  | [] => iff_of_true rfl .nil
  | r :: rest => by
    rw [List.pairwise_cons, ← checkNesting_eq_ok]
    simp only [← checkPair_eq_ok, ← forM_eq_ok]
    exact Except.unit_bind_eq_ok

theorem shortest_of_foldl {g : Option Ranges → Ranges → Option Ranges} (first : ∀ r, g none r = some r)
    (next : ∀ s r, g (some s) r =
      if r.handlerSpan.len < s.handlerSpan.len then some r else some s) {r : Ranges} :
    ∀ {l : List Ranges} {best : Option Ranges}, l.foldl g best = some r →
      r ∈ best.toList ++ l ∧ ∀ s ∈ best.toList ++ l, r.handlerSpan.len ≤ s.handlerSpan.len
  | [], best, h => by
    rw [List.foldl_nil] at h
    simp [h]
  | s :: l, none, h => by
    rw [List.foldl_cons, first] at h
    have shortest := shortest_of_foldl first next h
    simpa using shortest
  | s :: l, some q, h => by
    rw [List.foldl_cons, next] at h
    split at h
    · obtain ⟨mem, least⟩ := shortest_of_foldl first next h
      have := least s (List.mem_append_left _ (List.mem_singleton_self s))
      refine ⟨List.mem_cons_of_mem _ mem, fun x hx => ?_⟩
      rcases List.mem_cons.1 hx with rfl | hx
      · omega
      · exact least x hx
    · obtain ⟨mem, least⟩ := shortest_of_foldl first next h
      have := least q (List.mem_append_left _ (List.mem_singleton_self q))
      refine ⟨?_, fun x hx => ?_⟩
      · rcases List.mem_cons.1 mem with rfl | mem
        · exact List.mem_cons_self ..
        · exact List.mem_cons_of_mem _ (List.mem_cons_of_mem _ mem)
      · rcases List.mem_cons.1 hx with rfl | hx
        · exact this
        · rcases List.mem_cons.1 hx with rfl | hx
          · omega
          · exact least x (List.mem_cons_of_mem _ hx)

theorem ownerOf_eq_some {r : Ranges} {place : Nat} (h : ownerOf regions place = some r) :
    r ∈ regions ∧ r.handlerSpan.contains place = true ∧ ∀ s ∈ regions,
      s.handlerSpan.contains place = true → r.handlerSpan.len ≤ s.handlerSpan.len := by
  obtain ⟨mem, least⟩ := shortest_of_foldl (fun _ => rfl) (fun _ _ => rfl) h
  rw [Option.toList_none, List.nil_append, List.mem_filter] at mem
  refine ⟨mem.1, mem.2, fun s hs inside => least s ?_⟩
  rw [Option.toList_none, List.nil_append, List.mem_filter]
  exact ⟨hs, inside⟩

theorem handlerEnds_eq_ok {owned : List (Nat × Handle)} {r : Ranges} {e : Nat × List Handle}
    (h : handlerEnds owned r = .ok e) :
    e = (r.region, (owned.filter (·.1 = r.region)).map (·.2)) := by
  unfold handlerEnds at h
  split at h
  · cases h
  · cases h
    rfl

theorem handlerEnds_ne_nil {owned : List (Nat × Handle)} {r : Ranges} {e : Nat × List Handle}
    (h : handlerEnds owned r = .ok e) : e.2 ≠ [] := by
  unfold handlerEnds at h
  split at h
  · cases h
  · rename_i some
    cases h
    exact some

theorem mem_ownedEnds {owned : List (Nat × Handle)} (h : ownedEnds b regions = .ok owned)
    {x : Nat × Handle} (hx : x ∈ owned) : ∃ place i r, b.code[place]? = some (x.2, i) ∧
      i.opcode = .endfinally ∧ ownerOf regions place = some r ∧ r.region = x.1 := by
  obtain ⟨⟨⟨h', i⟩, place⟩, mem, eq⟩ := mem_right_of_forall₂ (forall₂_of_mapM h) hx
  obtain ⟨code, opcode⟩ := mem_zipIdx_filter.1 mem
  simp only at eq
  split at eq
  · rename_i r owner
    cases eq
    exact ⟨place, i, r, code, of_decide_eq_true opcode, owner, rfl⟩
  · cases eq

theorem ownedEnds_mem {owned : List (Nat × Handle)} (h : ownedEnds b regions = .ok owned)
    {place : Nat} {at' : Handle} {i : Instr} (code : b.code[place]? = some (at', i))
    (opcode : i.opcode = .endfinally) : ∃ r ∈ regions, (r.region, at') ∈ owned := by
  have line : ((at', i), place) ∈ b.code.zipIdx.filter fun x => decide (x.1.2.opcode = .endfinally) :=
    mem_zipIdx_filter.2 ⟨code, decide_eq_true opcode⟩
  obtain ⟨x, mem, eq⟩ := mem_left_of_forall₂ (forall₂_of_mapM h) line
  simp only at eq
  split at eq
  · rename_i r owner
    cases eq
    exact ⟨r, (ownerOf_eq_some owner).1, mem⟩
  · cases eq

theorem readLeave_eq_ok {nesting : Nesting} {h : Handle} {i : Instr} {place : Nat} {l : Leave}
    (eq : readLeave b nesting depths h i place = .ok l) : l.at' = h ∧ i.target? = some l.target ∧
      (∃ goal, b.position? l.target = some goal ∧ l.exits = nesting.exits place goal) ∧
      ∀ d, depths[h]? = some d → d = 0 := by
  unfold readLeave at eq
  by_cases loaded : depths[h]?.any (· ≠ 0) = true
  · rw [if_pos loaded] at eq
    cases eq
  · rw [if_neg loaded] at eq
    have empty (d : Nat) (hd : depths[h]? = some d) : d = 0 := by
      rw [hd] at loaded
      simpa using loaded
    cases ht : i.target? with
    | none =>
      rw [ht] at eq
      cases eq
    | some target =>
      rw [ht] at eq
      obtain ⟨goal, hg, eq⟩ := Except.bind_eq_ok.1 eq
      cases eq
      refine ⟨rfl, rfl, ⟨goal, ?_, rfl⟩, empty⟩
      unfold position at hg
      split at hg
      · rename_i place there
        cases hg
        exact there
      · cases hg

theorem reads_of_ofBody (h : Layout.ofBody b = .ok p) :
    ∃ regions depths, b.regions.zipIdx.mapM (fun x => regionSpans b x.1 x.2) = .ok regions ∧
      Reads b regions depths p := by
  unfold Layout.ofBody at h
  obtain ⟨regions, hr, h⟩ := Except.bind_eq_ok.1 h
  obtain ⟨hn, h⟩ := Except.unit_bind_eq_ok.1 h
  obtain ⟨owned, ho, h⟩ := Except.bind_eq_ok.1 h
  obtain ⟨ends, he, h⟩ := Except.bind_eq_ok.1 h
  obtain ⟨depths, hd, h⟩ := Except.bind_eq_ok.1 h
  obtain ⟨leaves, hl, h⟩ := Except.bind_eq_ok.1 h
  cases h
  have he := forall₂_of_mapM he
  have hl := forall₂_of_mapM hl
  refine ⟨regions, depths, hr, forall₂_of_mapM hr, checkNesting_eq_ok.1 hn, rfl, hd, ?_, ?_, ?_, ?_⟩
  · intro e h mem hh
    obtain ⟨r, -, eq⟩ := mem_right_of_forall₂ he mem
    rw [handlerEnds_eq_ok eq] at hh ⊢
    obtain ⟨x, hx, rfl⟩ := List.mem_map.1 hh
    obtain ⟨hx, same⟩ := List.mem_filter.1 hx
    rw [decide_eq_true_eq] at same
    rw [← same]
    exact mem_ownedEnds ho hx
  · intro place h i code opcode
    obtain ⟨r, mem, owned⟩ := ownedEnds_mem ho code opcode
    obtain ⟨e, mem, eq⟩ := mem_left_of_forall₂ he mem
    refine ⟨e, mem, ?_⟩
    rw [handlerEnds_eq_ok eq]
    exact List.mem_map.2 ⟨_, List.mem_filter.2 ⟨owned, decide_eq_true rfl⟩, rfl⟩
  · intro l mem
    obtain ⟨⟨⟨h, i⟩, place⟩, line, eq⟩ := mem_right_of_forall₂ hl mem
    obtain ⟨code, opcode⟩ := mem_zipIdx_filter.1 line
    obtain ⟨rfl, target, ⟨goal, there, exits⟩, empty⟩ := readLeave_eq_ok eq
    exact ⟨place, goal, i, code, of_decide_eq_true opcode, target, there, exits, empty⟩
  · intro place h i code opcode
    have line : ((h, i), place) ∈ b.code.zipIdx.filter fun x => decide (x.1.2.opcode = .leave) :=
      mem_zipIdx_filter.2 ⟨code, decide_eq_true opcode⟩
    obtain ⟨l, mem, eq⟩ := mem_left_of_forall₂ hl line
    exact ⟨l, mem, (readLeave_eq_ok eq).1⟩

theorem exists_end (h : Layout.ofBody b = .ok p)
    (spans : b.regions.zipIdx.mapM (fun x => regionSpans b x.1 x.2) = .ok regions) {r : Ranges}
    (mem : r ∈ regions) : ∃ e ∈ p.ends, e.1 = r.region ∧ e.2 ≠ [] := by
  unfold Layout.ofBody at h
  obtain ⟨_, hr, h⟩ := Except.bind_eq_ok.1 h
  cases spans.symm.trans hr
  obtain ⟨_, -, h⟩ := Except.bind_eq_ok.1 h
  obtain ⟨owned, -, h⟩ := Except.bind_eq_ok.1 h
  obtain ⟨ends, he, h⟩ := Except.bind_eq_ok.1 h
  obtain ⟨_, -, h⟩ := Except.bind_eq_ok.1 h
  obtain ⟨_, -, h⟩ := Except.bind_eq_ok.1 h
  cases h
  obtain ⟨e, line, eq⟩ := mem_left_of_forall₂ (forall₂_of_mapM he) mem
  exact ⟨e, line, by rw [handlerEnds_eq_ok eq], handlerEnds_ne_nil eq⟩

/-! ## Bodies that have a layout -/

theorem readLeave_of_empty {nesting : Nesting} {h target : Handle} {i : Instr} {place goal : Nat}
    (empty : ∀ d, depths[h]? = some d → d = 0) (goes : i.target? = some target)
    (there : b.position? target = some goal) :
    readLeave b nesting depths h i place = .ok ⟨h, target, nesting.exits place goal⟩ := by
  have unloaded : ¬ depths[h]?.any (· ≠ 0) = true := by
    cases known : depths[h]? with
    | none => simp
    | some d => simp [empty d known]
  unfold readLeave
  rw [if_neg unloaded, goes]
  simp only [position, there]
  rfl

theorem ofBody_eq_ok {owned : List (Nat × Handle)} {ends : List (Nat × List Handle)}
    {leaves : List Leave}
    (spans : b.regions.zipIdx.mapM (fun x => regionSpans b x.1 x.2) = .ok regions)
    (nested : checkNesting regions = .ok ()) (owns : ownedEnds b regions = .ok owned)
    (each : regions.mapM (handlerEnds owned) = .ok ends) (found : b.depths = .ok depths)
    (read : List.Forall₂ (fun x l => readLeave b (.ofRegions regions) depths x.1.1 x.1.2 x.2 = .ok l)
      (b.code.zipIdx.filter fun x => x.1.2.opcode = .leave) leaves) :
    Layout.ofBody b = .ok ⟨.ofRegions regions, ends, leaves⟩ := by
  unfold Layout.ofBody
  refine Except.bind_eq_ok.2 ⟨_, spans, ?_⟩
  refine Except.bind_eq_ok.2 ⟨_, nested, ?_⟩
  refine Except.bind_eq_ok.2 ⟨_, owns, ?_⟩
  refine Except.bind_eq_ok.2 ⟨_, each, ?_⟩
  refine Except.bind_eq_ok.2 ⟨_, found, ?_⟩
  exact Except.bind_eq_ok.2 ⟨_, mapM_of_forall₂ read, rfl⟩

/-- The rules in a form that can be checked line by line. -/
theorem rules_of_consistent (num : b.Numbered) {D : Handle → Nat} (consistent : b.Consistent D)
    (checks : (∀ r ∈ regions, r.Proper) ∧ regions.Pairwise Ranges.Nested ∧
      (∀ r ∈ regions, r.handlerSpan.contains 0 = false) ∧
      (∀ p < b.size, ∀ q < b.size, Flows b p q →
        ∀ r ∈ regions, r.handlerSpan.contains p = r.handlerSpan.contains q) ∧
      (∀ p ∈ b.code, p.2.opcode = .endfinally → D p.1 = 0) ∧ ∀ p ∈ b.code, p.2.counts.1 ≤ 255) :
    Rules b regions := by
  obtain ⟨proper, nested, entry, flow, ends, pops⟩ := checks
  refine ⟨proper, nested, entry, fun p q flows => flow p flows.lt.1 q flows.lt.2 flows, ?_, pops⟩
  intro depths found h i d mem opcode known
  obtain ⟨depths', found', agree⟩ := Body.depths_of_consistent num consistent
  rw [found, Except.ok.injEq] at found'
  subst found'
  exact (agree h d known).trans (ends _ mem opcode)

/-! ## Regions and nodes -/

theorem position_eq_ok {h : Handle} {n : Nat} (eq : position b h = .ok n) : b.position? h = some n := by
  unfold position at eq
  split at eq
  · rename_i n' there
    cases eq
    exact there
  · cases eq

theorem position_lt {h : Handle} {n : Nat} (eq : position b h = .ok n) : n < b.size :=
  (List.findIdx?_eq_some_iff_getElem.1 (position_eq_ok eq)).1

theorem endPosition_le {e : Option Handle} {n : Nat} (eq : endPosition b e = .ok n) : n ≤ b.size := by
  cases e with
  | none =>
    cases eq
    exact Nat.le_refl _
  | some h => exact Nat.le_of_lt (position_lt eq)

structure Placed (b : Body) (reg : Region) (n : Nat) (r : Ranges) : Prop where
  isFinally : reg.isFinally = true
  region : r.region = n
  handler : r.handlerStart = reg.handlerStart
  tryStart : position b reg.tryStart = .ok r.trySpan.start
  tryStop : endPosition b reg.tryEnd = .ok r.trySpan.stop
  handlerStart : position b reg.handlerStart = .ok r.handlerSpan.start
  handlerStop : endPosition b reg.handlerEnd = .ok r.handlerSpan.stop

theorem regionSpans_eq_ok {reg : Region} {n : Nat} {r : Ranges} (h : regionSpans b reg n = .ok r) :
    Placed b reg n r := by
  unfold regionSpans at h
  by_cases isFinally : reg.isFinally = true
  · rw [isFinally] at h
    obtain ⟨_, tryStart, h⟩ := Except.bind_eq_ok.1 h
    obtain ⟨_, tryStop, h⟩ := Except.bind_eq_ok.1 h
    obtain ⟨_, handlerStart, h⟩ := Except.bind_eq_ok.1 h
    obtain ⟨_, handlerStop, h⟩ := Except.bind_eq_ok.1 h
    cases h
    exact ⟨isFinally, rfl, rfl, tryStart, tryStop, handlerStart, handlerStop⟩
  · rw [Bool.not_eq_true] at isFinally
    rw [isFinally] at h
    cases h

theorem Spans.placed (spans : Spans b regions) {r : Ranges} (mem : r ∈ regions) :
    ∃ reg ∈ b.regions, Placed b reg r.region r := by
  obtain ⟨⟨reg, n⟩, line, eq⟩ := mem_right_of_forall₂ spans mem
  have placed := regionSpans_eq_ok eq
  refine ⟨reg, List.mem_of_getElem? (List.mem_zipIdx_iff_getElem?.1 line), ?_⟩
  rw [placed.region]
  exact placed

theorem Spans.nodup (spans : Spans b regions) : (regions.map (·.region)).Nodup := by
  have numbers {l : List (Region × Nat)} {regions : List Ranges}
      (h : List.Forall₂ (fun x r => regionSpans b x.1 x.2 = .ok r) l regions) :
      regions.map (·.region) = l.map (·.2) := by
    induction h with
    | nil => rfl
    | cons h _ ih => rw [List.map_cons, List.map_cons, ih, (regionSpans_eq_ok h).region]
  rw [numbers spans, List.zipIdx_map_snd]
  exact List.nodup_range'

namespace Reads

variable (reads : Reads b regions depths p)
include reads

theorem perm : (p.nesting.toList.map (·.toRanges)).Perm regions := by
  rw [reads.nesting]
  exact Nesting.perm_ofRegions regions

theorem rangesAt_mem {n : Nat} (lt : n < p.nesting.size) : p.nesting.rangesAt n ∈ regions :=
  reads.perm.mem_iff.1 (Nesting.rangesAt_mem lt)

theorem exists_node {r : Ranges} (mem : r ∈ regions) :
    ∃ n < p.nesting.size, p.nesting.rangesAt n = r := by
  obtain ⟨x, hx, rfl⟩ := List.mem_map.1 (reads.perm.mem_iff.2 mem)
  obtain ⟨n, lt, rfl⟩ := Array.mem_iff_getElem.1 (Array.mem_toList_iff.1 hx)
  refine ⟨n, lt, ?_⟩
  simp [Nesting.rangesAt, lt]

theorem node_unique {m n : Nat} (hm : m < p.nesting.size) (hn : n < p.nesting.size)
    (eq : (p.nesting.rangesAt m).region = (p.nesting.rangesAt n).region) : m = n := by
  have nodup : (p.nesting.toList.map (·.region)).Nodup := by
    have := (reads.perm.map (·.region)).nodup_iff.2 reads.spans.nodup
    rwa [List.map_map] at this
  have hm' : m < (p.nesting.toList.map (·.region)).length := by simpa using hm
  have hn' : n < (p.nesting.toList.map (·.region)).length := by simpa using hn
  refine nodup.getElem_inj_iff.1 (?_ : (p.nesting.toList.map (·.region))[m] =
    (p.nesting.toList.map (·.region))[n])
  simpa [Nesting.rangesAt, hm, hn] using eq

theorem nodeOf?_region {n : Nat} (lt : n < p.nesting.size) :
    p.nesting.nodeOf? (p.nesting.rangesAt n).region = some n := by
  unfold Nesting.nodeOf?
  rw [Array.findIdx?_eq_some_iff_getElem]
  refine ⟨lt, ?_, ?_⟩
  · simp [Nesting.rangesAt, lt]
  · intro m hm same
    have hm' := Nat.lt_trans hm lt
    have := reads.node_unique hm' lt (by simpa [Nesting.rangesAt, lt, hm'] using same)
    omega

section
variable (num : b.Numbered) (short : b.nextIndex ≤ 0x100000000)
include num short

theorem span_short {r : Ranges} (mem : r ∈ regions) :
    r.trySpan.stop ≤ 0x100000000 ∧ r.handlerSpan.stop ≤ 0x100000000 := by
  obtain ⟨reg, -, placed⟩ := reads.spans.placed mem
  have := endPosition_le placed.tryStop
  have := endPosition_le placed.handlerStop
  have := num.size_le
  omega

theorem arranged : p.nesting.Arranged := by
  rw [reads.nesting]
  exact Nesting.arranged_ofRegions reads.fits fun r hr => (reads.span_short num short hr).1

end

end Reads

structure Laid (b : Body) (regions : List Ranges) (depths : Body.Depths) (p : Layout) : Prop
    extends Reads b regions depths p where
  numbered : b.Numbered
  short : b.nextIndex ≤ 0x100000000
  rules : Rules b regions
  starts : StartsOwn regions

namespace Laid

variable (laid : Laid b regions depths p)
include laid

theorem arranged : p.nesting.Arranged := laid.toReads.arranged laid.numbered laid.short

theorem proper {n : Nat} (lt : n < p.nesting.size) : (p.nesting.rangesAt n).Proper :=
  laid.rules.proper _ (laid.rangesAt_mem lt)

theorem nested {m n : Nat} (hm : m < p.nesting.size) (hn : n < p.nesting.size) (ne : m ≠ n) :
    (p.nesting.rangesAt m).Nested (p.nesting.rangesAt n) := by
  have : Std.Symm Ranges.Nested := ⟨fun _ _ h => h.symm⟩
  refine laid.rules.nested.forall (laid.rangesAt_mem hm) (laid.rangesAt_mem hn) fun same => ne ?_
  exact laid.node_unique hm hn (congrArg (·.region) same)

theorem liesIn {m n place : Nat} (lt : m < n)
    (hm : (p.nesting.rangesAt m).trySpan.contains place = true)
    (hn : (p.nesting.rangesAt n).trySpan.contains place = true) :
    (p.nesting.rangesAt n).LiesIn (p.nesting.rangesAt m).trySpan := by
  have ltM := p.nesting.lt_size (.inl hm)
  have ltN := p.nesting.lt_size (.inl hn)
  rcases (laid.nested ltM ltN (Nat.ne_of_lt lt)).of_try_try (laid.proper ltM) (laid.proper ltN) hm hn
    with inner | outer
  · have shorter := (laid.arranged.inside lt hm hn).shorter (laid.proper ltN).tryNonempty
    have := ((laid.proper ltM).shorter inner).1
    omega
  · exact outer

theorem pairwise_exits (source goal : Nat) : (p.nesting.exits source goal).Pairwise
    fun m n => n < m ∧ (p.nesting.rangesAt m).LiesIn (p.nesting.rangesAt n).trySpan := by
  refine (laid.arranged.pairwise_exits source goal).imp_of_mem fun {m n} hm hn h => ⟨h.1, ?_⟩
  exact laid.liesIn h.1 (laid.arranged.mem_exits.1 hn).1 (laid.arranged.mem_exits.1 hm).1

end Laid

end Finally

end CilForge
