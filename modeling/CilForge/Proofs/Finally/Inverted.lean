import CilForge.Proofs.Body.Check
import CilForge.Proofs.Finally.Layout

/-!
# Ranges that stop before they start

The boundaries of a region may come in any order, and only the check of a body asks whether a range stops behind
its start. Here is what becomes of the other ones where a layout is made: what their lengths come to, which of the
tests they pass and where they end up among the nodes.
-/

namespace CilForge.Finally

namespace Span

def Inverted (s : Span) : Prop := s.stop < s.start

instance (s : Span) : Decidable s.Inverted := inferInstanceAs (Decidable (s.stop < s.start))

variable {s t : Span}

theorem len_eq_iff (short : s.stop ≤ 0x100000000) : (s.len : Int) = s.stop - s.start ↔ ¬ s.Inverted := by
  unfold Inverted
  constructor
  · omega
  · intro le
    rw [len_eq (Nat.le_of_not_lt le) short]
    omega

theorem Inverted.le_len (inverted : s.Inverted) (short : s.start ≤ 0x100000000) : 0xffffffff00000000 ≤ s.len := by
  unfold Inverted at inverted
  unfold len
  rw [BitVec.toNat_sub, BitVec.toNat_ofNat, BitVec.toNat_ofNat]
  omega

theorem fits_of_hollow (ne : s ≠ t) (hollow : s.stop ≤ s.start) : s.Fits t := by
  refine ⟨ne, fun overlap => .inr ?_⟩
  rw [overlaps_iff] at overlap
  rw [encloses_iff]
  omega

end Span

variable {b : Body} {regions : List Ranges} {depths : Body.Depths} {p : Layout}

/-- Of ranges without places the check sees no more than whether they are different. -/
theorem checkNesting_iff : checkNesting regions = .ok () ↔ (regions.map (·.trySpan)).Nodup ∧
    (regions.filter fun r => r.trySpan.start < r.trySpan.stop).Pairwise
      fun r s => r.trySpan.Fits s.trySpan := by
  rw [checkNesting_eq_ok, List.Nodup, List.pairwise_map, List.pairwise_filter, ← List.pairwise_and_iff]
  refine List.Pairwise.iff fun r s => ?_
  simp only [decide_eq_true_eq]
  constructor
  · exact fun fits => ⟨fits.1, fun _ _ => fits⟩
  · rintro ⟨ne, fits⟩
    by_cases hr : r.trySpan.start < r.trySpan.stop
    · by_cases hs : s.trySpan.start < s.trySpan.stop
      · exact fits hr hs
      · exact (Span.fits_of_hollow ne.symm (Nat.le_of_not_lt hs)).symm
    · exact Span.fits_of_hollow ne (Nat.le_of_not_lt hr)

theorem lt_of_precedes (nodup : b.handles.Nodup) {h : Handle} {e : Option Handle} {m n : Nat}
    (precedes : b.Precedes h e) (start : position b h = .ok m) (stop : endPosition b e = .ok n) : m < n := by
  obtain ⟨u, i, v, code, behind⟩ := precedes
  have here : b.position? h = some u.length := Body.position?_of_get nodup (i := i) (by simp [code])
  cases here.symm.trans (position_eq_ok start)
  cases e with
  | none =>
    cases stop
    simp [Body.size, code]
  | some x =>
    obtain ⟨⟨y, j⟩, line, rfl⟩ := List.mem_map.1 (behind x rfl)
    obtain ⟨v₁, v₂, rfl⟩ := List.append_of_mem line
    have code' : b.code = (u ++ (h, i) :: v₁) ++ (y, j) :: v₂ := by simp [code]
    have there : b.position? y = some (u ++ (h, i) :: v₁).length :=
      Body.position?_of_get nodup (i := j) (by rw [code']; simp)
    cases there.symm.trans (position_eq_ok stop)
    simp

/-- A body that passes the check has no inverted ranges, nor empty ones. -/
theorem Spans.lt_of_check (spans : Spans b regions) (reachable : b.Reachable) (checked : b.check = .ok ())
    {r : Ranges} (mem : r ∈ regions) :
    r.trySpan.start < r.trySpan.stop ∧ r.handlerSpan.start < r.handlerSpan.stop := by
  have nodup := reachable.numbered.nodup
  obtain ⟨reg, there, placed⟩ := spans.placed mem
  obtain ⟨first, second⟩ := ((reachable.linked.check_eq_ok nodup).1 checked).ordered reg there
  exact ⟨lt_of_precedes nodup first placed.tryStart placed.tryStop,
    lt_of_precedes nodup second placed.handlerStart placed.handlerStop⟩

namespace Reads

variable (reads : Reads b regions depths p) (num : b.Numbered) (short : b.nextIndex ≤ 0x100000000) {m n : Nat}
include reads num short

/-- The length of an inverted range takes its node to the front. -/
theorem inverted_front (bound : n < p.nesting.size) (inverted : (p.nesting.rangesAt n).trySpan.Inverted)
    (lt : m < n) : (p.nesting.rangesAt m).trySpan.Inverted := by
  have memM := reads.rangesAt_mem (Nat.lt_trans lt bound)
  have memN := reads.rangesAt_mem bound
  obtain ⟨_, -, placed⟩ := reads.spans.placed memN
  have start := position_lt placed.tryStart
  have size := num.size_le
  have long := inverted.le_len (by omega)
  have order : Nesting.before (p.nesting.rangesAt m) (p.nesting.rangesAt n) = true := by
    rw [reads.nesting] at bound ⊢
    exact Nesting.before_rangesAt lt bound
  simp only [Nesting.before, Bool.or_eq_true, Bool.and_eq_true, decide_eq_true_eq] at order
  apply Classical.byContradiction
  intro other
  have stop := (reads.span_short num short memM).1
  rw [Span.len_eq (Nat.le_of_not_lt other) stop] at order
  omega

/-- No `leave` runs through the handler of an inverted range. -/
theorem not_entered (inverted : (p.nesting.rangesAt n).trySpan.Inverted) : p.isEntered n = false := by
  have exits (l : Leave) (mem : l ∈ p.leaves) : n ∉ l.exits := by
    obtain ⟨place, goal, i, -, -, -, -, eq, -⟩ := reads.leaves mem
    rw [eq, (reads.arranged num short).mem_exits, Span.contains_iff]
    unfold Span.Inverted at inverted
    omega
  have last : p.destinations n = [] := by
    have none : (p.leaves.filter fun l => l.exits.getLast? = some n) = [] := by
      rw [List.filter_eq_nil_iff]
      intro l mem last
      exact exits l mem (List.mem_of_getLast? (of_decide_eq_true last))
    rw [Layout.destinations, none]
    rfl
  have inner : p.forwards n = false := by
    rw [Layout.forwards, List.any_eq_false]
    intro l mem inner
    exact exits l mem ((List.dropLast_sublist _).subset (List.contains_iff_mem.1 inner))
  rw [Layout.isEntered, last, inner]
  rfl

end Reads

/-- The regions of a body as a layout takes them. Ranges without places pass unless two are the same, and the
length of a range wraps just where it is inverted; but no handler range around a place is, nor any range of a
body that passes the check. Where there is a layout, the inverted ranges stand in front of all others and their
handlers are never entered. -/
theorem lengths_exact (reachable : b.Reachable) (short : b.nextIndex ≤ 0x100000000)
    (read : b.regions.zipIdx.mapM (fun x => regionSpans b x.1 x.2) = .ok regions) :
    (checkNesting regions = .ok () ↔ (regions.map (·.trySpan)).Nodup ∧
      (regions.filter fun r => r.trySpan.start < r.trySpan.stop).Pairwise
        fun r s => r.trySpan.Fits s.trySpan) ∧
    (∀ r ∈ regions, ((r.trySpan.len : Int) = r.trySpan.stop - r.trySpan.start ↔ ¬ r.trySpan.Inverted) ∧
      ∀ place, r.handlerSpan.contains place = true →
        (r.handlerSpan.len : Int) = r.handlerSpan.stop - r.handlerSpan.start) ∧
    (b.check = .ok () → ∀ r ∈ regions, ¬ r.trySpan.Inverted ∧ ¬ r.handlerSpan.Inverted) ∧
    ∀ p, Layout.ofBody b = .ok p → ∀ n < p.nesting.size, (p.nesting.rangesAt n).trySpan.Inverted →
      (∀ m < n, (p.nesting.rangesAt m).trySpan.Inverted) ∧ p.isEntered n = false := by
  have num := reachable.numbered
  have spans : Spans b regions := forall₂_of_mapM read
  refine ⟨checkNesting_iff, fun r mem => ?_, fun checked r mem => ?_, fun p found n bound inverted => ?_⟩
  · obtain ⟨_, -, placed⟩ := spans.placed mem
    have size := num.size_le
    have tryStop := endPosition_le placed.tryStop
    have handlerStop := endPosition_le placed.handlerStop
    refine ⟨Span.len_eq_iff (by omega), fun place inside => (Span.len_eq_iff (by omega)).2 ?_⟩
    rw [Span.contains_iff] at inside
    unfold Span.Inverted
    omega
  · obtain ⟨first, second⟩ := spans.lt_of_check reachable checked mem
    exact ⟨Nat.lt_asymm first, Nat.lt_asymm second⟩
  · obtain ⟨regions', depths, read', reads⟩ := reads_of_ofBody found
    exact ⟨fun m lt => reads.inverted_front num short bound inverted lt, reads.not_entered num short inverted⟩

/-- The protected range of the first region stops where that of the second one starts, in front of its own
start. -/
def backwards : Body where
  code := [(⟨0⟩, .branch .leave ⟨4⟩), (⟨1⟩, ⟨.nop, .none⟩), (⟨2⟩, ⟨.endfinally, .none⟩),
    (⟨3⟩, ⟨.endfinally, .none⟩), (⟨4⟩, ⟨.ret, .none⟩)]
  nextIndex := 5
  regions := [
    { tryStart := ⟨1⟩, tryEnd := some ⟨0⟩, handlerStart := ⟨2⟩, handlerEnd := some ⟨3⟩ },
    { tryStart := ⟨0⟩, tryEnd := some ⟨2⟩, handlerStart := ⟨3⟩, handlerEnd := some ⟨4⟩ }]

def backwardsEdits : List Edit.Op := [
  .push ⟨.leave, .none⟩, .push ⟨.nop, .none⟩, .push ⟨.endfinally, .none⟩, .push ⟨.endfinally, .none⟩,
  .push ⟨.ret, .none⟩, .setOperand ⟨0⟩ (.target ⟨4⟩),
  .addRegion { tryStart := ⟨1⟩, tryEnd := some ⟨0⟩, handlerStart := ⟨2⟩, handlerEnd := some ⟨3⟩ },
  .addRegion { tryStart := ⟨0⟩, tryEnd := some ⟨2⟩, handlerStart := ⟨3⟩, handlerEnd := some ⟨4⟩ }]

theorem backwards_reachable : backwards.Reachable := .of_edits backwardsEdits rfl

def backwardsRegions : List Ranges := [⟨0, ⟨1, 0⟩, ⟨2, 3⟩, ⟨2⟩⟩, ⟨1, ⟨0, 2⟩, ⟨3, 4⟩, ⟨3⟩⟩]

def backwardsLayout : Layout where
  nesting := #[⟨⟨0, ⟨1, 0⟩, ⟨2, 3⟩, ⟨2⟩⟩, none⟩, ⟨⟨1, ⟨0, 2⟩, ⟨3, 4⟩, ⟨3⟩⟩, none⟩]
  ends := [(0, [⟨2⟩]), (1, [⟨3⟩])]
  leaves := [⟨⟨0⟩, ⟨4⟩, [1]⟩]

theorem ofBody_backwards : Layout.ofBody backwards = .ok backwardsLayout := by
  have consistent : backwards.Consistent fun _ => 0 := by decide
  obtain ⟨depths, found, agree⟩ := Body.depths_of_consistent backwards_reachable.numbered consistent
  have nesting : Nesting.ofRegions backwardsRegions = backwardsLayout.nesting := by
    have sorted : backwardsRegions.mergeSort Nesting.before = backwardsRegions :=
      List.mergeSort_of_pairwise (by decide)
    rw [Nesting.ofRegions, sorted]
    rfl
  have exits : backwardsLayout.nesting.exits 0 4 = [1] := by
    have inner : backwardsLayout.nesting.innermost 0 = some 1 := rfl
    have outwards : backwardsLayout.nesting.outwards 1 = [1] := by
      rw [Nesting.outwards]
      rfl
    simp only [Nesting.exits, inner, outwards]
    rfl
  have leave : readLeave backwards (.ofRegions backwardsRegions) depths ⟨0⟩ (.branch .leave ⟨4⟩) 0 =
      .ok ⟨⟨0⟩, ⟨4⟩, [1]⟩ := by
    rw [readLeave_of_empty (agree ⟨0⟩) rfl (rfl : backwards.position? ⟨4⟩ = some 4), nesting, exits]
  have layout : Layout.ofBody backwards =
      .ok ⟨.ofRegions backwardsRegions, backwardsLayout.ends, backwardsLayout.leaves⟩ :=
    ofBody_eq_ok rfl rfl rfl rfl found (.cons leave .nil)
  rw [layout, nesting]

theorem lengths_exact_backwards : backwards.Reachable ∧ backwards.nextIndex ≤ 0x100000000 ∧
    backwards.regions.zipIdx.mapM (fun x => regionSpans backwards x.1 x.2) = .ok backwardsRegions ∧
    checkNesting backwardsRegions = .ok () ∧
    (∀ r ∈ backwardsRegions,
      ((r.trySpan.len : Int) = r.trySpan.stop - r.trySpan.start ↔ ¬ r.trySpan.Inverted)) ∧
    backwards.check ≠ .ok () ∧
    ∃ p, Layout.ofBody backwards = .ok p ∧ (p.nesting.rangesAt 0).trySpan.Inverted ∧ p.isEntered 0 = false := by
  have short : backwards.nextIndex ≤ 0x100000000 := by decide
  have read : backwards.regions.zipIdx.mapM (fun x => regionSpans backwards x.1 x.2) = .ok backwardsRegions := rfl
  have inverted : (backwardsLayout.nesting.rangesAt 0).trySpan.Inverted := by decide
  obtain ⟨nested, lengths, checked, layout⟩ := lengths_exact backwards_reachable short read
  refine ⟨backwards_reachable, short, read, nested.2 (by decide), fun r mem => (lengths r mem).1, fun check => ?_,
    backwardsLayout, ofBody_backwards, inverted, (layout _ ofBody_backwards 0 (by decide) inverted).2⟩
  exact (checked check _ List.mem_cons_self).1 (by decide)

/-- A layout is made of a body with an inverted range. The length of that comes to the greatest word, so that its
node is the first one. -/
theorem ofBody_inverted : backwards.Reachable ∧
    backwards.regions.zipIdx.mapM (fun x => regionSpans backwards x.1 x.2) = .ok backwardsRegions ∧
    checkNesting backwardsRegions = .ok () ∧ Layout.ofBody backwards = .ok backwardsLayout ∧
    (∃ r ∈ backwardsRegions, r.trySpan.stop < r.trySpan.start ∧ r.trySpan.len = 0xffffffffffffffff) ∧
    backwardsLayout.nesting.toList.map (·.trySpan.len) = [0xffffffffffffffff, 2] :=
  ⟨backwards_reachable, rfl, rfl, ofBody_backwards, ⟨_, List.mem_cons_self, by decide, rfl⟩, rfl⟩

end CilForge.Finally
