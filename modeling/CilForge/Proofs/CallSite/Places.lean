import CilForge.Proofs.CallSite.Upkeep
import CilForge.Proofs.Finally.Exits

/-!
# Places around a site

Outside a site that has been changed every line has its counterpart, and counterparts stand in the same
order. So a `leave` leaves the same regions as before. Where no two regions overlap in part, it runs
their handlers in the same order too.
-/

namespace CilForge

open Finally

def Body.Nested (b : Body) : Prop := ∀ r ∈ b.regions, ∀ s ∈ b.regions,
  r.isFinally = true → s.isFinally = true → (tryRange b r).overlaps (tryRange b s) = true →
    (tryRange b r).encloses (tryRange b s) = true ∨ (tryRange b s).encloses (tryRange b r) = true

instance (b : Body) : Decidable b.Nested :=
  inferInstanceAs (Decidable (∀ r ∈ b.regions, ∀ s ∈ b.regions, _ → _ → _ → _))

structure SameOrder (r s r' s' : Span) : Prop where
  starts : r.start ≤ s.start ↔ r'.start ≤ s'.start
  starts' : s.start ≤ r.start ↔ s'.start ≤ r'.start
  stops : r.stop ≤ s.stop ↔ r'.stop ≤ s'.stop
  stops' : s.stop ≤ r.stop ↔ s'.stop ≤ r'.stop
  before : s.stop ≤ r.start ↔ s'.stop ≤ r'.start
  behind : r.stop ≤ s.start ↔ r'.stop ≤ s'.start

namespace SameOrder

variable {r s r' s' : Span} (order : SameOrder r s r' s')
include order

theorem overlaps : r'.overlaps s' = r.overlaps s := by
  have := order.before
  have := order.behind
  rw [Bool.eq_iff_iff, Span.overlaps_iff, Span.overlaps_iff]
  omega

theorem encloses : r'.encloses s' = r.encloses s := by
  simp only [Span.encloses, order.starts, order.stops']

theorem size_le {p p' : Nat} (nested : r.encloses s = true ∨ s.encloses r = true)
    (inside : r.contains p = true ∧ s.contains p = true)
    (inside' : r'.contains p' = true ∧ s'.contains p' = true) :
    r.stop - r.start ≤ s.stop - s.start ↔ r'.stop - r'.start ≤ s'.stop - s'.start := by
  obtain ⟨starts, starts', stops, stops', -, -⟩ := order
  rw [Span.encloses_iff, Span.encloses_iff] at nested
  rw [Span.contains_iff, Span.contains_iff] at inside inside'
  omega

end SameOrder

namespace Body

variable {b : Body}

theorem length_codeFrom_le (h : Handle) : (b.codeFrom h).length ≤ b.size :=
  (List.dropWhile_sublist _).length_le

theorem position?_of_codeFrom (nodup : b.handles.Nodup) {h : Handle} (live : b.codeFrom h ≠ []) :
    b.position? h = some (b.size - (b.codeFrom h).length) := by
  obtain ⟨n, i, code⟩ := get_of_codeFrom live
  have lt : n < b.code.length := (List.getElem?_eq_some_iff.1 code).1
  rw [position?_of_get nodup code, codeFrom_of_get nodup code, List.length_drop, size]
  congr 1
  omega

theorem codeFrom_ne_nil (nodup : b.handles.Nodup) {h : Handle} (mem : h ∈ b.handles) : b.codeFrom h ≠ [] := by
  obtain ⟨u, i, v, code⟩ := exists_split mem
  rw [codeFrom_of_append nodup code]
  exact List.cons_ne_nil _ _

def codeBehind (b : Body) (e : Option Handle) : List (Handle × Instr) := e.elim [] b.codeFrom

theorem length_codeBehind_le (e : Option Handle) : (b.codeBehind e).length ≤ b.size := by
  cases e with
  | none => exact Nat.zero_le _
  | some h => exact length_codeFrom_le h

theorem tryRange_eq (nodup : b.handles.Nodup) (linked : b.Linked) {r : Region} (mem : r ∈ b.regions) :
    tryRange b r = ⟨b.size - (b.codeFrom r.tryStart).length, b.size - (b.codeBehind r.tryEnd).length⟩ := by
  have live {x : Handle} (bound : x ∈ r.boundaries) :=
    position?_of_codeFrom nodup (codeFrom_ne_nil nodup (linked.boundaries r mem x bound))
  unfold tryRange
  rw [live (by simp [Region.boundaries])]
  cases last : r.tryEnd with
  | none => rfl
  | some x =>
    rw [Option.elim_some, live (by simp [Region.boundaries, last])]
    rfl

/-- A place lies in a range if less lies ahead of it than of the start, and more than of the end. -/
theorem contains_tryRange (nodup : b.handles.Nodup) (linked : b.Linked) {r : Region} (mem : r ∈ b.regions)
    {n : Nat} (le : n ≤ b.size) : (tryRange b r).contains (b.size - n) = true ↔
      n ≤ (b.codeFrom r.tryStart).length ∧ (b.codeBehind r.tryEnd).length < n := by
  have := b.length_codeFrom_le r.tryStart
  have := b.length_codeBehind_le r.tryEnd
  rw [tryRange_eq nodup linked mem, Span.contains, Bool.and_eq_true, decide_eq_true_eq, decide_eq_true_eq]
  dsimp only
  omega

end Body

namespace CallSite

open Body

/-- What is before another place stays before it. -/
theorem Beside.le_iff {pre old new post : Lines} {σ : Handle → Handle} {c c' d d' : Lines}
    (left : Beside pre old new post σ c c') (right : Beside pre old new post σ d d') (some : old ≠ [])
    (some' : new ≠ []) : c.length ≤ d.length ↔ c'.length ≤ d'.length := by
  have := List.length_pos_iff.2 some
  have := List.length_pos_iff.2 some'
  cases left with
  | @before u v eq =>
    cases right with
    | @before u' v' eq' =>
      simp only [List.length_append, List.length_map]
      omega
    | @behind u' v' eq' =>
      have := congrArg List.length eq'
      simp only [List.length_append, List.length_map] at this ⊢
      omega
  | @behind u v eq =>
    have := congrArg List.length eq
    cases right with
    | @before u' v' eq' =>
      simp only [List.length_append, List.length_map] at this ⊢
      omega
    | @behind u' v' eq' => simp only [List.length_map]

theorem Beside.ne_nil {pre old new post : Lines} {σ : Handle → Handle} {c c' : Lines}
    (beside : Beside pre old new post σ c c') (some' : new ≠ []) (live : c ≠ []) : c' ≠ [] := by
  cases beside with
  | before => simp [some']
  | behind => simpa using live

section
variable {desc : Sig → Option EnumInfo} {b b' : Body} {r : Recipe} {pre front operand back post : Lines}
  {A f : Handle} {F B : Lines} {ref : MethodRef}
  (num : b.Numbered) (linked : b.Linked) (stands : Stands desc b r pre front operand back post)
  (head : front.head?.map (·.1) = some A)
  (turned : Turned (fun h => isJoin b h = true) r ref A b pre operand post F B f b')
include num linked stands head turned

theorem Turned.codeFrom {t : Handle} (joined : isJoin b t = true) :
    Beside pre (front ++ operand ++ back) (F ++ operand ++ B) post (Handle.swap A f) (b.codeFrom t)
      (b'.codeFrom (Handle.swap A f t)) ∧ b.codeFrom t ≠ [] ∧ b'.codeFrom (Handle.swap A f t) ≠ [] := by
  obtain ⟨u, i, v, code⟩ := exists_split (live_of_join linked joined)
  obtain ⟨u', i', v', code', -, beside⟩ := turned.place num stands head code joined
  rw [codeFrom_of_append num.nodup code, codeFrom_of_append turned.edited.nodup_handles code']
  exact ⟨beside, List.cons_ne_nil _ _, List.cons_ne_nil _ _⟩

theorem Turned.codeBehind {e : Option Handle} (joined : ∀ t ∈ e, isJoin b t = true) :
    Beside pre (front ++ operand ++ back) (F ++ operand ++ B) post (Handle.swap A f) (b.codeBehind e)
      (b'.codeBehind (e.map (Handle.swap A f))) := by
  cases e with
  | none => exact .behind (List.append_nil post).symm
  | some t => exact (turned.codeFrom num linked stands head (joined t rfl)).1

omit num linked in
theorem Turned.lines_ne_nil : front ++ operand ++ back ≠ [] ∧ F ++ operand ++ B ≠ [] := by
  obtain ⟨A', a, rest, rfl⟩ := stands.exists_head
  obtain ⟨i, new, split⟩ := turned.exists_head
  rw [split]
  exact ⟨List.cons_ne_nil _ _, List.cons_ne_nil _ _⟩

theorem Turned.order {q : Region} (mem : q ∈ b.regions) {c c' : Lines}
    (beside : Beside pre (front ++ operand ++ back) (F ++ operand ++ B) post (Handle.swap A f) c c') :
    (c.length ≤ (b.codeFrom q.tryStart).length ↔
      c'.length ≤ (b'.codeFrom (q.rebound A f).tryStart).length) ∧
    ((b.codeFrom q.tryStart).length ≤ c.length ↔
      (b'.codeFrom (q.rebound A f).tryStart).length ≤ c'.length) ∧
    (c.length ≤ (b.codeBehind q.tryEnd).length ↔
      c'.length ≤ (b'.codeBehind (q.rebound A f).tryEnd).length) ∧
    ((b.codeBehind q.tryEnd).length ≤ c.length ↔
      (b'.codeBehind (q.rebound A f).tryEnd).length ≤ c'.length) := by
  obtain ⟨some, some'⟩ := turned.lines_ne_nil stands head
  have bound := turned.edited.bounds q mem
  have start := (turned.codeFrom num linked stands head (bound q.tryStart (by simp [Region.boundaries]))).1
  have stop := turned.codeBehind num linked stands head (e := q.tryEnd)
    fun t there => bound t (by simp [Region.boundaries, Option.mem_def.1 there])
  exact ⟨beside.le_iff start some some', start.le_iff beside some some', beside.le_iff stop some some',
    stop.le_iff beside some some'⟩

theorem Turned.contains {q : Region} (mem : q ∈ b.regions) {h h' : Handle}
    (beside : Beside pre (front ++ operand ++ back) (F ++ operand ++ B) post (Handle.swap A f)
      (b.codeFrom h) (b'.codeFrom h')) :
    (tryRange b' (q.rebound A f)).contains (b'.size - (b'.codeFrom h').length) =
      (tryRange b q).contains (b.size - (b.codeFrom h).length) := by
  have mem' : q.rebound A f ∈ b'.regions := turned.edited.regions ▸ List.mem_map_of_mem mem
  obtain ⟨upper, -, lower, -⟩ := turned.order num linked stands head mem beside
  rw [Bool.eq_iff_iff, contains_tryRange num.nodup linked mem (b.length_codeFrom_le h),
    contains_tryRange turned.numbered.nodup (turned.linked num stands head linked) mem'
      (b'.length_codeFrom_le h'), ← Nat.not_le, ← Nat.not_le, upper, lower]

theorem Turned.sameOrder {q s : Region} (here : q ∈ b.regions) (there : s ∈ b.regions) :
    SameOrder (tryRange b q) (tryRange b s) (tryRange b' (q.rebound A f)) (tryRange b' (s.rebound A f)) := by
  have mem' {r : Region} (mem : r ∈ b.regions) : r.rebound A f ∈ b'.regions :=
    turned.edited.regions ▸ List.mem_map_of_mem mem
  have linked' := turned.linked num stands head linked
  have bound := turned.edited.bounds s there
  have start := (turned.codeFrom num linked stands head (bound s.tryStart (by simp [Region.boundaries]))).1
  have stop := turned.codeBehind num linked stands head (e := s.tryEnd)
    fun t there => bound t (by simp [Region.boundaries, Option.mem_def.1 there])
  obtain ⟨ss, ss', se, -⟩ := turned.order num linked stands head here start
  obtain ⟨-, es', ee, ee'⟩ := turned.order num linked stands head here stop
  rw [tryRange_eq num.nodup linked here, tryRange_eq num.nodup linked there,
    tryRange_eq turned.numbered.nodup linked' (mem' here), tryRange_eq turned.numbered.nodup linked' (mem' there)]
  -- a place is earlier if more code lies ahead of it
  have flip {n m k : Nat} (hn : n ≤ k) (hm : m ≤ k) : k - n ≤ k - m ↔ m ≤ n := by omega
  have from' (r : Region) := b.length_codeFrom_le r.tryStart
  have behind (r : Region) := b.length_codeBehind_le r.tryEnd
  have from₁ (r : Region) := b'.length_codeFrom_le (r.rebound A f).tryStart
  have behind₁ (r : Region) := b'.length_codeBehind_le (r.rebound A f).tryEnd
  refine ⟨?_, ?_, ?_, ?_, ?_, ?_⟩
  · exact (flip (from' q) (from' s)).trans (ss.trans (flip (from₁ q) (from₁ s)).symm)
  · exact (flip (from' s) (from' q)).trans (ss'.trans (flip (from₁ s) (from₁ q)).symm)
  · exact (flip (behind q) (behind s)).trans (ee.trans (flip (behind₁ q) (behind₁ s)).symm)
  · exact (flip (behind s) (behind q)).trans (ee'.trans (flip (behind₁ s) (behind₁ q)).symm)
  · exact (flip (behind s) (from' q)).trans (es'.trans (flip (behind₁ s) (from₁ q)).symm)
  · exact (flip (behind q) (from' s)).trans (se.trans (flip (behind₁ q) (from₁ s)).symm)

theorem Turned.nested (nested : b.Nested) : b'.Nested := by
  intro q' here' s' there' finally_q finally_s crossing
  rw [turned.edited.regions] at here' there'
  obtain ⟨q, here, rfl⟩ := List.mem_map.1 here'
  obtain ⟨s, there, rfl⟩ := List.mem_map.1 there'
  have order := turned.sameOrder num linked stands head here there
  have back := turned.sameOrder num linked stands head there here
  rw [order.overlaps] at crossing
  rw [order.encloses, back.encloses]
  exact nested q here s there finally_q finally_s crossing

/-- A `leave` runs the same handlers in the same order. -/
theorem Turned.leftHandlers (nested : b.Nested) {g g' : Frame} (body : g.body = b) (body' : g'.body = b')
    {h h' target : Handle} (beside : Beside pre (front ++ operand ++ back) (F ++ operand ++ B) post
      (Handle.swap A f) (b.codeFrom h) (b'.codeFrom h')) (live : b.codeFrom h ≠ [])
    (joined : isJoin b target = true) : ∃ handlers, g.leftHandlers h target = .ok handlers ∧
      g'.leftHandlers h' (Handle.swap A f target) = .ok (handlers.map (Handle.swap A f)) ∧
      ∀ x ∈ handlers, isJoin b x = true := by
  have num' := turned.numbered
  have linked' := turned.linked num stands head linked
  obtain ⟨goal, there, there'⟩ := turned.codeFrom num linked stands head joined
  have live' : b'.codeFrom h' ≠ [] := beside.ne_nil (turned.lines_ne_nil stands head).2 live
  refine ⟨_, leftHandlers_of_linked linked body (position?_of_codeFrom num.nodup live)
    (position?_of_codeFrom num.nodup there), ?_, ?_⟩
  · rw [leftHandlers_of_linked linked' body' (position?_of_codeFrom num'.nodup live')
      (position?_of_codeFrom num'.nodup there')]
    have same : leaving b' (b'.size - (b'.codeFrom h').length)
        (b'.size - (b'.codeFrom (Handle.swap A f target)).length) =
        (leaving b (b.size - (b.codeFrom h).length) (b.size - (b.codeFrom target).length)).map
          (·.rebound A f) := by
      unfold leaving
      rw [turned.edited.regions, List.filter_map, List.filter_map]
      congr 1
      refine List.filter_congr fun r mem => ?_
      have mem := (List.mem_filter.1 mem).1
      simp only [Function.comp]
      rw [turned.contains num linked stands head mem beside, turned.contains num linked stands head mem goal]
    rw [same, ← List.map_mergeSort (r := fun r s => decide ((tryRange b r).stop - (tryRange b r).start ≤
      (tryRange b s).stop - (tryRange b s).start)), List.map_map, List.map_map]
    · rfl
    · intro r hr s hs
      obtain ⟨guard_r, left_r⟩ := List.mem_filter.1 hr
      obtain ⟨guard_s, left_s⟩ := List.mem_filter.1 hs
      obtain ⟨mem_r, finally_r⟩ := List.mem_filter.1 guard_r
      obtain ⟨mem_s, finally_s⟩ := List.mem_filter.1 guard_s
      have inside := And.intro (Bool.and_eq_true_iff.1 left_r).1 (Bool.and_eq_true_iff.1 left_s).1
      have inside' := inside
      rw [← turned.contains num linked stands head mem_r beside,
        ← turned.contains num linked stands head mem_s beside] at inside'
      refine decide_eq_decide.2 ((turned.sameOrder num linked stands head mem_r mem_s).size_le ?_ inside inside')
      exact nested r mem_r s mem_s finally_r finally_s (Span.overlaps_of_contains inside.1 inside.2)
  · intro x mem
    obtain ⟨r, left, rfl⟩ := List.mem_map.1 mem
    have left := List.mem_mergeSort.1 left
    exact turned.edited.bounds r (List.mem_filter.1 (List.mem_filter.1 left).1).1 _
      (by simp [Region.boundaries])

end

end CallSite

end CilForge
