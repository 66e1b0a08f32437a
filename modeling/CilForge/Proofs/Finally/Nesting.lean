import CilForge.Proofs.Finally.Rules
import Mathlib.Data.List.Induction

/-!
# Regions around a place

Nodes of a nesting come in the order of their length, so that of the regions around a place the
innermost is the last one, and the way outwards meets them backwards.
-/

namespace CilForge.Finally

def lastBelow (n : Nat) (test : Nat → Bool) : Option Nat := ((List.range n).filter test).getLast?

theorem filter_range_succ (n : Nat) (test : Nat → Bool) : (List.range (n + 1)).filter test =
    (List.range n).filter test ++ if test n then [n] else [] := by
  rw [List.range_succ, List.filter_append]
  cases h : test n <;> simp [h]

theorem lastBelow_succ (n : Nat) (test : Nat → Bool) :
    lastBelow (n + 1) test = if test n then some n else lastBelow n test := by
  unfold lastBelow
  rw [filter_range_succ]
  cases test n <;> simp

theorem lastBelow_congr {n : Nat} {test test' : Nat → Bool} (h : ∀ k < n, test k = test' k) :
    lastBelow n test = lastBelow n test' := by
  unfold lastBelow
  rw [List.filter_congr fun k hk => h k (List.mem_range.1 hk)]

theorem lastBelow_eq_some {n k : Nat} {test : Nat → Bool} (h : lastBelow n test = some k) :
    k < n ∧ test k = true := by
  have mem := List.mem_of_getLast? h
  rw [List.mem_filter, List.mem_range] at mem
  exact mem

theorem filter_range_of_lastBelow {n : Nat} {test : Nat → Bool} :
    (List.range n).filter test =
      (lastBelow n test).elim [] fun k => (List.range (k + 1)).filter test := by
  induction n with
  | zero => rfl
  | succ n ih =>
    rw [lastBelow_succ]
    cases passes : test n with
    | true => rfl
    | false =>
      rw [filter_range_succ, passes]
      simpa using ih

theorem takeWhile_eq_filter {α : Type} {q : α → Bool} : ∀ {l : List α},
    l.Pairwise (fun x y => q x = false → q y = false) → l.takeWhile q = l.filter q
  | [], _ => rfl
  | x :: l, h => by
    obtain ⟨hx, h⟩ := List.pairwise_cons.1 h
    cases passes : q x with
    | true => rw [List.takeWhile_cons_of_pos passes, List.filter_cons_of_pos passes,
        takeWhile_eq_filter h]
    | false =>
      have none : l.filter q = [] := by
        rw [List.filter_eq_nil_iff]
        intro y hy
        rw [hx y hy passes]
        exact Bool.false_ne_true
      simp [passes, none]

namespace Span

def Inside (s t : Span) : Prop := t.encloses s = true ∧ s ≠ t

theorem Inside.shorter {s t : Span} (inside : s.Inside t) (nonempty : s.start < s.stop) :
    s.stop - s.start < t.stop - t.start := by
  obtain ⟨enclosed, ne⟩ := inside
  obtain ⟨start, stop⟩ := s
  obtain ⟨start', stop'⟩ := t
  rw [encloses_iff] at enclosed
  rw [ne_eq, Span.mk.injEq] at ne
  simp only at enclosed nonempty ⊢
  omega

def Fits (s t : Span) : Prop :=
  s ≠ t ∧ (s.overlaps t = true → s.encloses t = true ∨ t.encloses s = true)

instance (s t : Span) : Decidable (s.Fits t) :=
  inferInstanceAs (Decidable (s ≠ t ∧ (s.overlaps t = true → s.encloses t = true ∨ t.encloses s = true)))

theorem Fits.symm {s t : Span} (fits : s.Fits t) : t.Fits s := by
  refine ⟨fits.1.symm, fun overlap => (fits.2 ?_).symm⟩
  rw [overlaps_iff] at overlap ⊢
  exact ⟨overlap.2, overlap.1⟩

theorem Fits.inside {s t : Span} {p : Nat} (fits : s.Fits t) (hs : s.contains p = true)
    (ht : t.contains p = true) (le : t.stop - t.start ≤ s.stop - s.start) : t.Inside s := by
  rcases fits.2 (overlaps_of_contains hs ht) with outer | inner
  · exact ⟨outer, fits.1.symm⟩
  · have proper : s.Inside t := ⟨inner, fits.1⟩
    rw [contains_iff] at hs
    have := proper.shorter (by omega)
    omega

end Span

namespace Nesting

variable (t : Nesting) {test : Node → Bool}

def rangesAt (n : Nat) : Ranges :=
  (t[n]?.map (·.toRanges)).getD ⟨0, ⟨0, 0⟩, ⟨0, 0⟩, default⟩

def parentOf (n : Nat) : Option Nat := t[n]?.bind (·.parent)

theorem any_eq (P : Ranges → Bool) (none : P ⟨0, ⟨0, 0⟩, ⟨0, 0⟩, default⟩ = false) (n : Nat) :
    (t[n]?).any (fun x => P x.toRanges) = P (t.rangesAt n) := by
  unfold rangesAt
  cases t[n]? with
  | none => exact none.symm
  | some x => rfl

theorem lt_size {n p : Nat} (h : (t.rangesAt n).trySpan.contains p = true ∨
    (t.rangesAt n).handlerSpan.contains p = true) : n < t.size := by
  apply Classical.byContradiction
  intro ge
  unfold rangesAt at h
  rw [Array.getElem?_eq_none (by omega)] at h
  simp [Span.contains] at h

theorem descend_lt {test : Node → Bool} {n : Nat} (found : t.descend test = some n) : n < t.size := by
  have walk : ∀ (l : List (Node × Nat)) (acc : Option Nat), l.foldl
      (fun current p => if p.1.parent = current && test p.1 then some p.2 else current) acc = some n →
      acc = some n ∨ ∃ x, (x, n) ∈ l := by
    intro l
    induction l with
    | nil => exact fun acc eq => .inl eq
    | cons y l ih =>
      intro acc eq
      rw [List.foldl_cons] at eq
      rcases ih _ eq with here | ⟨x, mem⟩
      · obtain ⟨x, i⟩ := y
        dsimp only at here
        by_cases down : (x.parent = acc && test x) = true
        · rw [if_pos down] at here
          cases here
          exact .inr ⟨x, List.mem_cons_self⟩
        · rw [if_neg down] at here
          exact .inl here
      · exact .inr ⟨x, List.mem_cons_of_mem _ mem⟩
  rcases walk _ none found with none | ⟨x, mem⟩
  · cases none
  · have := (List.getElem?_eq_some_iff.1 (List.mem_zipIdx_iff_getElem?.1 mem)).1
    simpa using this

theorem le_of_mem_outwards {i n : Nat} (mem : n ∈ t.outwards i) : n ≤ i := by
  induction i using Nat.strongRecOn with
  | ind i ih =>
    rw [outwards] at mem
    rcases List.mem_cons.1 mem with rfl | mem
    · exact Nat.le_refl _
    · split at mem
      · split at mem
        · rename_i lt
          exact Nat.le_trans (ih _ lt mem) (Nat.le_of_lt lt)
        · cases mem
      · cases mem

theorem exits_lt {source goal n : Nat} (mem : n ∈ t.exits source goal) : n < t.size := by
  unfold exits at mem
  split at mem
  · cases mem
  · rename_i i inner
    exact Nat.lt_of_le_of_lt (t.le_of_mem_outwards (List.takeWhile_subset _ mem)) (t.descend_lt inner)

/-- Going down ends at the last node that passes, if each node that passes hangs below the last
one before it. -/
theorem descend_eq (parents : ∀ n x, t[n]? = some x → test x = true →
      x.parent = lastBelow n fun k => (t[k]?).any test) :
    t.descend test = lastBelow t.size fun k => (t[k]?).any test := by
  obtain ⟨l⟩ := t
  have below : ∀ l : List Node, (∀ n x, l[n]? = some x → test x = true →
      x.parent = lastBelow n fun k => (l[k]?).any test) →
      l.zipIdx.foldl (fun current x => if x.1.parent = current && test x.1 then some x.2 else current)
        none = lastBelow l.length fun k => (l[k]?).any test := by
    intro l
    induction l using List.reverseRecOn with
    | nil => intro _; rfl
    | append_singleton l x ih =>
      intro parents
      have front {k : Nat} (lt : k < l.length) : (l ++ [x])[k]? = l[k]? :=
        List.getElem?_append_left lt
      have same {n : Nat} (le : n ≤ l.length) : (lastBelow n fun k => ((l ++ [x])[k]?).any test) =
          lastBelow n fun k => (l[k]?).any test :=
        lastBelow_congr fun k hk => by rw [front (by omega)]
      have last : (l ++ [x])[l.length]? = some x := by simp
      rw [List.zipIdx_append, List.foldl_append, ih, List.length_append, List.length_singleton,
        lastBelow_succ, last, same (Nat.le_refl _)]
      · have hangs := parents _ _ last
        rw [same (Nat.le_refl _)] at hangs
        cases passes : test x with
        | true => simp [passes, hangs passes]
        | false => simp [passes]
      · intro n y hy passes
        obtain ⟨lt, -⟩ := List.getElem?_eq_some_iff.1 hy
        rw [← same (Nat.le_of_lt lt)]
        exact parents n y ((front lt).trans hy) passes
  have := below l (by simpa using parents)
  simpa [descend] using this

/-- A nesting in which a range around a place is inside those around it that come first, and each
node around some place hangs below the last one that encloses it. -/
structure Arranged : Prop where
  inside : ∀ {m n p}, m < n → (t.rangesAt m).trySpan.contains p = true →
    (t.rangesAt n).trySpan.contains p = true → (t.rangesAt n).trySpan.Inside (t.rangesAt m).trySpan
  parents : ∀ {n p}, (t.rangesAt n).trySpan.contains p = true → t.parentOf n =
    lastBelow n fun k => (t.rangesAt k).trySpan.encloses (t.rangesAt n).trySpan

variable {t} (a : t.Arranged)
include a

theorem Arranged.descend_eq {P : Ranges → Bool} {p : Nat} (none : P ⟨0, ⟨0, 0⟩, ⟨0, 0⟩, default⟩ = false)
    (around : ∀ n, P (t.rangesAt n) = true → (t.rangesAt n).trySpan.contains p = true)
    (up : ∀ m n, (t.rangesAt m).trySpan.encloses (t.rangesAt n).trySpan = true →
      P (t.rangesAt n) = true → P (t.rangesAt m) = true) :
    t.descend (fun x => P x.toRanges) = lastBelow t.size fun k => P (t.rangesAt k) := by
  rw [t.descend_eq]
  · exact lastBelow_congr fun k _ => t.any_eq P none k
  · intro n x hx passes
    have here : t.rangesAt n = x.toRanges := by simp [rangesAt, hx]
    rw [← here] at passes
    have parent := a.parents (around n passes)
    unfold parentOf at parent
    rw [hx, Option.bind_some] at parent
    rw [parent]
    refine lastBelow_congr fun k hk => ?_
    rw [t.any_eq P none, Bool.eq_iff_iff]
    constructor
    · exact fun encloses => up k n encloses passes
    · exact fun passes' => (a.inside hk (around k passes') (around n passes)).1

theorem Arranged.innermost_eq (p : Nat) : t.innermost p =
    lastBelow t.size fun k => (t.rangesAt k).trySpan.contains p :=
  a.descend_eq (P := fun r => r.trySpan.contains p) rfl (fun _ h => h)
    fun _ _ => Span.contains_of_encloses

theorem Arranged.outwards_eq {p n : Nat} (here : (t.rangesAt n).trySpan.contains p = true) :
    t.outwards n =
      ((List.range (n + 1)).filter fun k => (t.rangesAt k).trySpan.contains p).reverse := by
  induction n using Nat.strongRecOn with
  | ind n ih =>
    have parent : t[n]?.bind (·.parent) =
        lastBelow n fun k => (t.rangesAt k).trySpan.contains p := by
      rw [← parentOf, a.parents here]
      refine lastBelow_congr fun k hk => ?_
      rw [Bool.eq_iff_iff]
      constructor
      · exact fun encloses => Span.contains_of_encloses encloses here
      · exact fun there => (a.inside hk there here).1
    rw [outwards, parent, filter_range_succ, here, filter_range_of_lastBelow]
    cases hk : lastBelow n fun k => (t.rangesAt k).trySpan.contains p with
    | none => rfl
    | some k =>
      obtain ⟨lt, there⟩ := lastBelow_eq_some hk
      simp [lt, ih k lt there]

theorem Arranged.pairwise_around (p : Nat) :
    ((List.range t.size).filter fun k => (t.rangesAt k).trySpan.contains p).reverse.Pairwise
      fun m n => n < m ∧ (t.rangesAt m).trySpan.Inside (t.rangesAt n).trySpan := by
  rw [List.pairwise_reverse]
  refine (List.pairwise_lt_range.filter _).imp_of_mem ?_
  intro m n hm hn lt
  exact ⟨lt, a.inside lt (List.mem_filter.1 hm).2 (List.mem_filter.1 hn).2⟩

/-- A jump leaves the nodes around its source that are not around its target. -/
theorem Arranged.exits_eq (source target : Nat) : t.exits source target =
    ((List.range t.size).filter fun k => (t.rangesAt k).trySpan.contains source).reverse.filter
      fun k => !(t.rangesAt k).trySpan.contains target := by
  have outwards : t.exits source target =
      ((List.range t.size).filter fun k => (t.rangesAt k).trySpan.contains source).reverse.takeWhile
        fun k => !(t.rangesAt k).trySpan.contains target := by
    unfold exits
    rw [a.innermost_eq, filter_range_of_lastBelow]
    cases h : lastBelow t.size fun k => (t.rangesAt k).trySpan.contains source with
    | none => rfl
    | some n =>
      simp only [Option.elim_some]
      rw [a.outwards_eq (lastBelow_eq_some h).2]
      congr 1
      funext k
      rw [t.any_eq (fun r => r.trySpan.contains target) rfl]
  rw [outwards]
  refine takeWhile_eq_filter ((a.pairwise_around source).imp fun lies => ?_)
  simp only [Bool.not_eq_false']
  exact Span.contains_of_encloses lies.2.1

theorem Arranged.mem_exits {source target n : Nat} : n ∈ t.exits source target ↔
    (t.rangesAt n).trySpan.contains source = true ∧
      (t.rangesAt n).trySpan.contains target = false := by
  rw [a.exits_eq, List.mem_filter, List.mem_reverse, List.mem_filter, List.mem_range]
  have := fun h => t.lt_size (n := n) (p := source) (.inl h)
  simp only [Bool.not_eq_true']
  constructor
  · exact fun h => ⟨h.1.2, h.2⟩
  · exact fun h => ⟨⟨this h.1, h.1⟩, h.2⟩

theorem Arranged.pairwise_exits (source target : Nat) : (t.exits source target).Pairwise
    fun m n => n < m ∧ (t.rangesAt m).trySpan.Inside (t.rangesAt n).trySpan := by
  rw [a.exits_eq]
  exact (a.pairwise_around source).filter _

omit a in
theorem parentOf_of_outwards {i m n : Nat} {before behind : List Nat}
    (h : t.outwards i = before ++ n :: m :: behind) : t.parentOf n = some m := by
  induction i using Nat.strongRecOn generalizing before with
  | ind i ih =>
    rw [outwards] at h
    cases hp : t[i]?.bind (·.parent) with
    | none =>
      rw [hp] at h
      cases before with
      | nil => simp at h
      | cons _ before => simp at h
    | some p =>
      simp only [hp] at h
      by_cases lt : p < i
      · rw [if_pos lt] at h
        cases before with
        | nil =>
          injection h with head tail
          subst head
          rw [outwards] at tail
          injection tail with head
          subst head
          exact hp
        | cons _ before =>
          injection h with _ tail
          exact ih p lt tail
      · rw [if_neg lt] at h
        cases before with
        | nil => simp at h
        | cons _ before => simp at h

omit a in
/-- Of two nodes that follow each other on the way out, the second is the parent of the first. -/
theorem parentOf_of_exits {source target m n : Nat} {before behind : List Nat}
    (h : t.exits source target = before ++ n :: m :: behind) : t.parentOf n = some m := by
  unfold exits at h
  cases hi : t.innermost source with
  | none =>
    rw [hi] at h
    simp at h
  | some i =>
    simp only [hi] at h
    obtain ⟨rest, whole⟩ := List.takeWhile_prefix (l := t.outwards i)
      fun n => !(t[n]?).any (·.trySpan.contains target)
    rw [h, List.append_assoc] at whole
    exact parentOf_of_outwards whole.symm

/-! ## How nestings come about -/

omit a in
theorem rangesAt_insert (r : Ranges) (n : Nat) :
    (t.insert r).rangesAt n = if n = t.size then r else t.rangesAt n := by
  unfold rangesAt insert
  rw [Array.getElem?_push]
  split <;> rfl

omit a in
theorem parentOf_insert (r : Ranges) (n : Nat) : (t.insert r).parentOf n =
    if n = t.size then t.descend (·.trySpan.encloses r.trySpan) else t.parentOf n := by
  unfold parentOf insert
  rw [Array.getElem?_push]
  split <;> rfl

omit a in
theorem size_insert (r : Ranges) : (t.insert r).size = t.size + 1 := Array.size_push _

/-- A region behind another: where both protect a place, it is inside. -/
def Follows (r s : Ranges) : Prop := ∀ p, r.trySpan.contains p = true →
  s.trySpan.contains p = true → s.trySpan.Inside r.trySpan

theorem Arranged.insert {r : Ranges} (follows : ∀ n < t.size, Follows (t.rangesAt n) r) :
    (t.insert r).Arranged := by
  have old {n : Nat} (lt : n < t.size) : (t.insert r).rangesAt n = t.rangesAt n := by
    rw [rangesAt_insert, if_neg (Nat.ne_of_lt lt)]
  have new : (t.insert r).rangesAt t.size = r := by rw [rangesAt_insert, if_pos rfl]
  constructor
  · intro m n p lt hm hn
    have bound := (t.insert r).lt_size (.inl hn)
    rw [size_insert] at bound
    rw [old (n := m) (by omega)] at hm ⊢
    rcases Nat.lt_succ_iff_lt_or_eq.1 bound with bound | rfl
    · rw [old bound] at hn ⊢
      exact a.inside lt hm hn
    · rw [new] at hn ⊢
      exact follows m lt p hm hn
  · intro n p hn
    have bound := (t.insert r).lt_size (.inl hn)
    rw [size_insert] at bound
    rw [parentOf_insert]
    rcases Nat.lt_succ_iff_lt_or_eq.1 bound with lt | rfl
    · rw [old lt] at hn
      rw [if_neg (Nat.ne_of_lt lt), a.parents hn, old lt]
      exact lastBelow_congr fun k hk => by rw [old (Nat.lt_trans hk lt)]
    · rw [new, Span.contains_iff] at hn
      rw [if_pos rfl, new, a.descend_eq (P := fun x => x.trySpan.encloses r.trySpan)
        (p := r.trySpan.start)]
      · exact lastBelow_congr fun k hk => by rw [old hk]
      · rw [Bool.eq_false_iff]
        intro h
        rw [Span.encloses_iff] at h
        simp only at h
        omega
      · intro n h
        rw [Span.encloses_iff] at h
        rw [Span.contains_iff]
        omega
      · intro m n outer inner
        rw [Span.encloses_iff] at outer inner ⊢
        omega

omit a in
theorem rangesAt_mem {n : Nat} (lt : n < t.size) : t.rangesAt n ∈ t.toList.map (·.toRanges) := by
  unfold rangesAt
  rw [Array.getElem?_eq_getElem lt]
  exact List.mem_map_of_mem (Array.getElem_mem_toList lt)

omit a in
theorem toRanges_insert (t : Nesting) (r : Ranges) :
    (t.insert r).toList.map (·.toRanges) = t.toList.map (·.toRanges) ++ [r] := by
  simp [Nesting.insert]

omit a in
theorem Arranged.foldl : ∀ {rs : List Ranges} {t : Nesting}, t.Arranged →
    (t.toList.map (·.toRanges) ++ rs).Pairwise Follows → (rs.foldl Nesting.insert t).Arranged
  | [], t, a, _ => a
  | r :: rs, t, a, ordered => by
    have next := a.insert fun n lt =>
      (List.pairwise_append.1 ordered).2.2 _ (rangesAt_mem lt) r (List.mem_cons_self ..)
    rw [List.foldl_cons]
    exact Arranged.foldl next (by rw [toRanges_insert, List.append_assoc]; exact ordered)

omit a in
theorem before_trans (r s u : Ranges) (h : before r s = true) (h' : before s u = true) :
    before r u = true := by
  simp only [before, Bool.or_eq_true, Bool.and_eq_true, decide_eq_true_eq] at *
  omega

omit a in
theorem before_total (r s : Ranges) : (before r s || before s r) = true := by
  simp only [before, Bool.or_eq_true, Bool.and_eq_true, decide_eq_true_eq]
  omega

omit a in
theorem toRanges_ofRegions (regions : List Ranges) :
    (ofRegions regions).toList.map (·.toRanges) = regions.mergeSort before := by
  have lines : ∀ (rs : List Ranges) (t : Nesting),
      (rs.foldl insert t).toList.map (·.toRanges) = t.toList.map (·.toRanges) ++ rs := by
    intro rs
    induction rs with
    | nil => simp
    | cons r rs ih =>
      intro t
      rw [List.foldl_cons, ih, toRanges_insert, List.append_assoc]
      rfl
  unfold ofRegions
  rw [lines]
  rfl

omit a in
theorem perm_ofRegions (regions : List Ranges) :
    ((ofRegions regions).toList.map (·.toRanges)).Perm regions := by
  rw [toRanges_ofRegions]
  exact List.mergeSort_perm regions before

omit a in
theorem before_rangesAt {regions : List Ranges} {m n : Nat} (lt : m < n)
    (bound : n < (ofRegions regions).size) :
    before ((ofRegions regions).rangesAt m) ((ofRegions regions).rangesAt n) = true := by
  have sorted := List.pairwise_mergeSort before_trans before_total regions
  rw [← toRanges_ofRegions] at sorted
  have pair := List.pairwise_iff_getElem.1 sorted m n (by simp; omega) (by simpa using bound) lt
  simpa [rangesAt, bound, Nat.lt_trans lt bound] using pair

omit a in
theorem arranged_ofRegions {regions : List Ranges}
    (fits : regions.Pairwise fun r s => r.trySpan.Fits s.trySpan)
    (short : ∀ r ∈ regions, r.trySpan.stop ≤ 0x100000000) : (ofRegions regions).Arranged := by
  have perm := List.mergeSort_perm regions before
  have sorted := List.pairwise_mergeSort before_trans before_total regions
  have ordered : (regions.mergeSort before).Pairwise Follows := by
    have fits' := (perm.pairwise_iff fun h => h.symm).2 fits
    refine (sorted.and fits').imp_of_mem fun {r s} hr hs h p pr ps => h.2.inside pr ps ?_
    have longer := h.1
    rw [Span.contains_iff] at pr ps
    simp only [before, Bool.or_eq_true, Bool.and_eq_true, decide_eq_true_eq] at longer
    rw [Span.len_eq (by omega) (short r (perm.mem_iff.1 hr)),
      Span.len_eq (by omega) (short s (perm.mem_iff.1 hs))] at longer
    omega
  have empty : Arranged #[] := by
    refine ⟨fun {m n p} _ _ h => ?_, fun {n p} h => ?_⟩
    · exact absurd (Nesting.lt_size #[] (.inl h)) (Nat.not_lt_zero n)
    · exact absurd (Nesting.lt_size #[] (.inl h)) (Nat.not_lt_zero n)
  exact Arranged.foldl empty (by simpa using ordered)

end Nesting

end CilForge.Finally
