import CilForge.Machine.Frame
import CilForge.Proofs.Body.Linked
import CilForge.Proofs.Finally.Layout

/-!
# The handlers a leave runs

A `leave` runs the handlers of the nodes it leaves, the innermost first. While one of them runs,
the handlers around are those around the `leave` and this one.
-/

namespace CilForge.Finally

theorem mergeSort_eq {α : Type} {key : α → Nat} {l l' : List α} (perm : l'.Perm l)
    (sorted : l'.Pairwise fun x y => key x < key y) :
    l.mergeSort (fun x y => decide (key x ≤ key y)) = l' := by
  have le : l'.Pairwise fun x y => decide (key x ≤ key y) = true :=
    sorted.imp fun lt => decide_eq_true (Nat.le_of_lt lt)
  refine List.Perm.eq_of_pairwise ?_ (List.pairwise_mergeSort ?_ ?_ l) le
    ((List.mergeSort_perm l _).trans perm.symm)
  · intro x y hx hy xy yx
    have hx := perm.mem_iff.2 ((List.mergeSort_perm l _).mem_iff.1 hx)
    have same : key x = key y := Nat.le_antisymm (of_decide_eq_true xy) (of_decide_eq_true yx)
    have nodup : (l'.map key).Nodup := List.pairwise_map.2 (sorted.imp Nat.ne_of_lt)
    exact List.inj_on_of_nodup_map nodup hx hy same
  · intro x y z xy yz
    rw [decide_eq_true_eq] at *
    omega
  · intro x y
    rw [Bool.or_eq_true, decide_eq_true_eq, decide_eq_true_eq]
    omega

def tryRange (b : Body) (r : Region) : Span :=
  ⟨(b.position? r.tryStart).getD 0, r.tryEnd.elim b.size fun h => (b.position? h).getD 0⟩

def leaving (b : Body) (source goal : Nat) : List Region :=
  (b.regions.filter (·.isFinally)).filter fun r =>
    (tryRange b r).contains source && !(tryRange b r).contains goal

def leftAt (source goal : Nat) (r : Ranges) : Option (Nat × Handle) :=
  if r.trySpan.contains source && !r.trySpan.contains goal then
    some (r.trySpan.stop - r.trySpan.start, r.handlerStart) else none

section
variable {f : Frame} {b : Body}

theorem frame_position (body : f.body = b) {h : Handle} {n : Nat} (there : position b h = .ok n) :
    f.position h = .ok n := by
  unfold Frame.position
  rw [body, position_eq_ok there]

theorem frame_endPosition (body : f.body = b) {e : Option Handle} {n : Nat}
    (there : endPosition b e = .ok n) : f.endPosition e = .ok n := by
  cases e with
  | none =>
    cases there
    rw [← body]
    rfl
  | some h => exact frame_position body there

theorem Placed.left? {reg : Region} {n : Nat} {r : Ranges} (placed : Placed b reg n r)
    (body : f.body = b) (source goal : Nat) :
    f.left? source goal reg = .ok (leftAt source goal r) := by
  unfold Frame.left?
  rw [frame_position body placed.tryStart, frame_endPosition body placed.tryStop]
  unfold leftAt
  rw [placed.handler]
  rfl

end

theorem exists_position {b : Body} {h : Handle} (mem : h ∈ b.handles) : ∃ n, b.position? h = some n := by
  obtain ⟨p, line, rfl⟩ := List.mem_map.1 mem
  exact Option.isSome_iff_exists.1 (List.findIdx?_isSome.trans
    (List.any_eq_true.2 ⟨p, line, decide_eq_true rfl⟩))

/-- Of a linked body, a `leave` runs the handlers of the regions that it leaves, those of the smallest
regions first. -/
theorem leftHandlers_of_linked {b : Body} (linked : b.Linked) {f : Frame} (body : f.body = b) {h target : Handle}
    {source goal : Nat} (here : b.position? h = some source) (there : b.position? target = some goal) :
    f.leftHandlers h target = .ok (((leaving b source goal).mergeSort fun r s =>
      (tryRange b r).stop - (tryRange b r).start ≤ (tryRange b s).stop - (tryRange b s).start).map
        (·.handlerStart)) := by
  have pos {x : Handle} {n : Nat} (known : b.position? x = some n) : f.position x = .ok n := by
    unfold Frame.position
    rw [body, known]
  have each (r : Region) (mem : r ∈ f.body.regions.filter (·.isFinally)) : f.left? source goal r =
      .ok (if (tryRange b r).contains source && !(tryRange b r).contains goal then
        some ((tryRange b r).stop - (tryRange b r).start, r.handlerStart) else none) := by
    rw [body] at mem
    have mem := (List.mem_filter.1 mem).1
    obtain ⟨low, start⟩ := exists_position (linked.boundaries r mem r.tryStart (by simp [Region.boundaries]))
    obtain ⟨high, stop, range⟩ : ∃ high, f.endPosition r.tryEnd = .ok high ∧ tryRange b r = ⟨low, high⟩ := by
      unfold tryRange
      rw [start]
      cases last : r.tryEnd with
      | none => exact ⟨b.size, by rw [← body]; rfl, rfl⟩
      | some x =>
        obtain ⟨high, known⟩ := exists_position (linked.boundaries r mem x (by simp [Region.boundaries, last]))
        exact ⟨high, pos known, by rw [Option.elim_some, known]; rfl⟩
    rw [range, Frame.left?, pos start, stop]
    rfl
  have exits : (f.body.regions.filter (·.isFinally)).mapM (f.left? source goal) =
      .ok ((b.regions.filter (·.isFinally)).map fun r =>
        if (tryRange b r).contains source && !(tryRange b r).contains goal then
          some ((tryRange b r).stop - (tryRange b r).start, r.handlerStart) else none) := by
    refine mapM_of_forall₂ ?_
    rw [List.forall₂_map_right_iff, ← body]
    exact List.forall₂_same.2 (body ▸ each)
  have left : ((b.regions.filter (·.isFinally)).map fun r =>
      if (tryRange b r).contains source && !(tryRange b r).contains goal then
        some ((tryRange b r).stop - (tryRange b r).start, r.handlerStart) else none).filterMap id =
      (leaving b source goal).map fun r => ((tryRange b r).stop - (tryRange b r).start, r.handlerStart) := by
    rw [leaving]
    generalize b.regions.filter (·.isFinally) = guards
    rw [List.filterMap_map, ← List.filterMap_eq_map, List.filterMap_filter]
    rfl
  unfold Frame.leftHandlers
  rw [pos here, pos there]
  show (_ >>= _ : Except _ _) = _
  simp only [bind, Except.bind, exits, pure, Except.pure, left]
  rw [← List.map_mergeSort (r := fun r s => decide ((tryRange b r).stop - (tryRange b r).start ≤
    (tryRange b s).stop - (tryRange b s).start)) fun _ _ _ _ => rfl, List.map_map]
  rfl

variable {b : Body} {regions : List Ranges} {p : Layout} {depths : Body.Depths}

namespace Reads

variable (reads : Reads b regions depths p) (num : b.Numbered) (short : b.nextIndex ≤ 0x100000000)
include reads num short

theorem exits_perm (source goal : Nat) :
    ((p.nesting.exits source goal).map p.nesting.rangesAt).Perm
      (regions.filter fun r => r.trySpan.contains source && !r.trySpan.contains goal) := by
  have arranged := reads.arranged num short
  have nodes : (List.range p.nesting.size).map p.nesting.rangesAt =
      p.nesting.toList.map (·.toRanges) := by
    apply List.ext_getElem
    · simp
    · intro n h _
      rw [List.length_map, List.length_range] at h
      simp [Nesting.rangesAt, h]
  rw [arranged.exits_eq, List.filter_reverse, List.filter_filter, List.map_reverse]
  refine (List.reverse_perm _).trans ?_
  have perm := reads.perm.filter fun r => r.trySpan.contains source && !r.trySpan.contains goal
  rw [← nodes, List.filter_map] at perm
  refine Eq.subst (motive := fun l => List.Perm l _) ?_ perm
  congr 2
  funext n
  exact Bool.and_comm ..

theorem leftHandlers_eq {f : Frame} (body : f.body = b) {h target : Handle} {source goal : Nat}
    (here : b.position? h = some source) (there : b.position? target = some goal) :
    f.leftHandlers h target =
      .ok ((p.nesting.exits source goal).map fun n => (p.nesting.rangesAt n).handlerStart) := by
  have pos {x : Handle} {n : Nat} (h : b.position? x = some n) : f.position x = .ok n := by
    unfold Frame.position
    rw [body, h]
  have all : f.body.regions.filter (·.isFinally) = b.regions.zipIdx.map (·.1) := by
    rw [List.zipIdx_map_fst, body, List.filter_eq_self]
    intro reg mem
    obtain ⟨n, lt, rfl⟩ := List.mem_iff_getElem.1 mem
    have line : (b.regions[n], n) ∈ b.regions.zipIdx :=
      List.mem_zipIdx_iff_getElem?.2 (List.getElem?_eq_getElem lt)
    obtain ⟨r, -, eq⟩ := mem_left_of_forall₂ reads.spans line
    exact (regionSpans_eq_ok eq).isFinally
  have each : (f.body.regions.filter (·.isFinally)).mapM (f.left? source goal) =
      .ok (regions.map (leftAt source goal)) := by
    rw [all]
    refine mapM_of_forall₂ ?_
    rw [List.forall₂_map_left_iff, List.forall₂_map_right_iff]
    exact reads.spans.imp fun x r eq => (regionSpans_eq_ok eq).left? body source goal
  have left : (regions.map (leftAt source goal)).filterMap id =
      (regions.filter fun r => r.trySpan.contains source && !r.trySpan.contains goal).map
        fun r => (r.trySpan.stop - r.trySpan.start, r.handlerStart) := by
    rw [List.filterMap_map, ← List.filterMap_eq_map, List.filterMap_filter]
    rfl
  have sorted : ((regions.map (leftAt source goal)).filterMap id).mergeSort
      (fun x y => decide (x.1 ≤ y.1)) = (p.nesting.exits source goal).map fun n =>
        ((p.nesting.rangesAt n).trySpan.stop - (p.nesting.rangesAt n).trySpan.start,
          (p.nesting.rangesAt n).handlerStart) := by
    refine mergeSort_eq ?_ ?_
    · rw [left]
      have := (reads.exits_perm num short source goal).map
        fun r => (r.trySpan.stop - r.trySpan.start, r.handlerStart)
      rwa [List.map_map] at this
    · rw [List.pairwise_map]
      have arranged := reads.arranged num short
      refine (arranged.pairwise_exits source goal).imp_of_mem fun {m n} hm _ h => h.2.shorter ?_
      have here := (arranged.mem_exits.1 hm).1
      rw [Span.contains_iff] at here
      omega
  unfold Frame.leftHandlers
  rw [pos here, pos there]
  show (_ >>= _ : Except _ _) = _
  simp only [bind, Except.bind, each, pure, Except.pure, sorted, List.map_map]
  rfl

end Reads

namespace Laid

variable (laid : Laid b regions depths p)
include laid

/-! ## The handlers around a place -/

section
variable {source goal n : Nat} (flows : Flows b source goal)
  (mem : n ∈ p.nesting.exits source goal)
include flows mem

theorem liesIn_handler {m : Nat} (around : (p.nesting.rangesAt m).handlerSpan.contains source = true) :
    m ≠ n ∧ (p.nesting.rangesAt n).LiesIn (p.nesting.rangesAt m).handlerSpan := by
  have exit := laid.arranged.mem_exits.1 mem
  have hn := p.nesting.lt_size (.inl exit.1)
  have hm := p.nesting.lt_size (.inr around)
  have ne : m ≠ n := by
    rintro rfl
    have := (laid.proper hm).not_both exit.1
    rw [around] at this
    cases this
  refine ⟨ne, ?_⟩
  rcases (laid.nested hn hm ne.symm).of_try_handler (laid.proper hn)
    (laid.proper hm) exit.1 around with inside | outside
  · exact inside
  · -- the jump would leave the handler
    have goes := laid.rules.flow source goal flows _ (laid.rangesAt_mem hm)
    rw [around] at goes
    have := Span.contains_of_encloses outside.2 goes.symm
    rw [exit.2] at this
    cases this

/-- Where the handler of a node that is left starts, the handlers around the jump and this one are
around. -/
theorem around_start (m : Nat) : (p.nesting.rangesAt m).handlerSpan.contains
      (p.nesting.rangesAt n).handlerSpan.start = true ↔
    m = n ∨ (p.nesting.rangesAt m).handlerSpan.contains source = true := by
  have exit := laid.arranged.mem_exits.1 mem
  have hn := p.nesting.lt_size (.inl exit.1)
  have first : (p.nesting.rangesAt n).handlerSpan.contains
      (p.nesting.rangesAt n).handlerSpan.start = true := by
    rw [Span.contains_iff]
    exact ⟨Nat.le_refl _, (laid.proper hn).handlerNonempty⟩
  constructor
  · intro there
    by_cases eq : m = n
    · exact .inl eq
    · have hm := p.nesting.lt_size (.inr there)
      rcases (laid.nested hm hn eq).of_handler_handler (laid.proper hm)
        (laid.proper hn) there first with inside | around
      · -- no handler inside this one starts with it
        have := laid.starts _ (laid.rangesAt_mem hn) _ (laid.rangesAt_mem hm) inside
        rw [there] at this
        cases this
      · exact .inr (Span.contains_of_encloses around.1 exit.1)
  · rintro (rfl | around)
    · exact first
    · exact Span.contains_of_encloses (laid.liesIn_handler flows mem around).2.2 first

/-- In the handler of a node that is left, with only the handlers around the jump around, an
`endfinally` ends that handler. -/
theorem owner_eq {place : Nat} {r : Ranges} (owner : ownerOf regions place = some r)
    (here : (p.nesting.rangesAt n).handlerSpan.contains place = true)
    (others : ∀ m, (p.nesting.rangesAt m).handlerSpan.contains place = true →
      m = n ∨ (p.nesting.rangesAt m).handlerSpan.contains source = true) :
    r = p.nesting.rangesAt n := by
  obtain ⟨memR, inside, least⟩ := ownerOf_eq_some owner
  obtain ⟨m, hm, rfl⟩ := laid.exists_node memR
  rcases others m inside with rfl | around
  · rfl
  · have hn := p.nesting.lt_size (.inr here)
    have memN := laid.rangesAt_mem hn
    have shorter := (laid.proper hn).shorter (laid.liesIn_handler flows mem around).2
    have le := least _ memN here
    rw [Span.len_eq (Nat.le_of_lt (laid.proper hm).handlerNonempty) (laid.span_short laid.numbered laid.short memR).2,
      Span.len_eq (Nat.le_of_lt (laid.proper hn).handlerNonempty)
        (laid.span_short laid.numbered laid.short memN).2] at le
    omega

end

/-- A jump within the handler of a node `n` that another jump has left leaves none of the nodes
that this one still has to run, but is protected by them. -/
theorem pending_ne {source goal place goal' n m x : Nat} {before behind : List Nat}
    (exits : p.nesting.exits source goal = before ++ n :: behind) (pending : m ∈ n :: behind)
    (here : (p.nesting.rangesAt n).handlerSpan.contains place = true) (flows : Flows b place goal')
    (leaves : x ∈ p.nesting.exits place goal') :
    x ≠ m ∧ ((p.nesting.rangesAt m).trySpan.contains place = true ∨
      (p.nesting.rangesAt m).handlerSpan.contains place = true) := by
  have exit := laid.arranged.mem_exits.1 leaves
  have hn := p.nesting.lt_size (.inr here)
  rcases List.mem_cons.1 pending with rfl | later
  · refine ⟨?_, .inr here⟩
    rintro rfl
    have := (laid.proper hn).not_both exit.1
    rw [here] at this
    cases this
  · have pairs := laid.pairwise_exits source goal
    rw [exits, List.pairwise_append, List.pairwise_cons] at pairs
    have lies := (pairs.2.1.1 m later).2
    refine ⟨?_, .inl (Span.contains_of_encloses lies.2 here)⟩
    rintro rfl
    -- the jump stays in the handler and so in the range around
    have goes := laid.rules.flow place goal' flows _ (laid.rangesAt_mem hn)
    rw [here] at goes
    have := Span.contains_of_encloses lies.2 goes.symm
    rw [exit.2] at this
    cases this

end Laid

end CilForge.Finally
