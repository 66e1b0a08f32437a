import CilForge.Proofs.CallSite.Sweep

/-!
# Cells that agree on their sites

Two lists of cells are aligned if they have the same lines, but for lines that end straight code, in
the place of which there may be other code without calls, and but for places with an empty stack, where
one of them may be entered from elsewhere and the other not. Such lists have the same sites, and a
sweep over one that fails for want of locals fails over the other, too.
-/

namespace CilForge.CallSite

open Body

def instrs (cs : List Cell) : List Instr := cs.map (·.instr)

@[simp] theorem instrs_cons (c : Cell) (cs : List Cell) : instrs (c :: cs) = c.instr :: instrs cs := rfl

@[simp] theorem instrs_append (cs cs' : List Cell) : instrs (cs ++ cs') = instrs cs ++ instrs cs' :=
  List.map_append

@[simp] theorem instrs_map (is : List Instr) : instrs (is.map (⟨·, false⟩)) = is := by
  simp [instrs, Function.comp_def]

/-- Code without calls that does not pass on control. -/
structure Inert (block : List Cell) : Prop where
  uncalled : ∀ c ∈ block, called? c.instr = none
  ends : ∃ init z, block = init ++ [z] ∧ z.instr.straight = false

/-- Whether control comes to a line from elsewhere is the same, or else the stack is empty here. -/
def Joins (j j' : Bool) (P : List Instr) : Prop := j = j' ∨ j = true ∧ j' = false ∧ Steady 0 P

inductive Aligned : List Cell → List Cell → Prop where
  | nil : Aligned [] []
  | line {i : Instr} {j j' : Bool} {post post' : List Cell} : Joins j j' (i :: instrs post) →
    Aligned post post' → Aligned (⟨i, j⟩ :: post) (⟨i, j'⟩ :: post')
  | stop {c : Cell} {block post post' : List Cell} : c.instr.straight = false → Inert block →
    Aligned post post' → Aligned (c :: post) (block ++ post')

/-- The same for the cells before some code, listed from the last one on. -/
inductive Along : List Instr → List Cell → List Cell → Prop where
  | nil {P : List Instr} : Along P [] []
  | line {P : List Instr} {i : Instr} {j j' : Bool} {before before' : List Cell} : Joins j j' (i :: P) →
    Along (i :: P) before before' → Along P (⟨i, j⟩ :: before) (⟨i, j'⟩ :: before')
  | stop {P : List Instr} {c : Cell} {block before before' : List Cell} : c.instr.straight = false →
    Inert block → Along (c.instr :: P) before before' → Along P (c :: before) (block.reverse ++ before')

variable {desc : Sig → Option EnumInfo} {r : Recipe} {F V B T P : List Instr}
  {before before' post post' : List Cell}

theorem Joins.change {j j' : Bool} {Q : List Instr} (joins : Joins j j' P)
    (change : Steady 0 P → Steady 0 Q) : Joins j j' Q :=
  joins.imp_right fun ⟨yes, no, steady⟩ => ⟨yes, no, change steady⟩

theorem Along.change {Q : List Instr} (along : Along P before before')
    (change : ∀ d, Steady d P → Steady d Q) : Along Q before before' := by
  induction along generalizing Q with
  | nil => exact .nil
  | @line P i j j' before before' joins along ih =>
    have longer (d : Nat) (steady : Steady d (i :: P)) : Steady d (i :: Q) :=
      ⟨steady.1, fun straight => change _ (steady.2 straight)⟩
    exact .line (joins.change (longer 0)) (ih longer)
  | @stop P c block before before' stops inert along ih =>
    refine .stop stops inert (ih fun d steady => ⟨steady.1, fun straight => change _ (steady.2 straight)⟩)

/-! ## Sites in aligned cells -/

structure Calling (T : List Instr) : Prop where
  straight : ∀ i ∈ T, i.straight = true
  last : ∃ L c, T = L ++ [c] ∧ (called? c).isSome = true

theorem Calling.tail {i j : Instr} (calling : Calling (i :: j :: T)) : Calling (j :: T) := by
  refine ⟨fun k mem => calling.straight k (List.mem_cons_of_mem _ mem), ?_⟩
  obtain ⟨L, c, eq, called⟩ := calling.last
  cases L with
  | nil => cases eq
  | cons x L => exact ⟨L, c, (List.cons.inj eq).2, called⟩

theorem Shape.calling (shape : Shape desc r F V B) : Calling (F ++ V ++ B) := by
  have any {c : Instr} {test : MethodRef → Bool} (yes : (called? c).any test = true) :
      (called? c).isSome = true := by
    obtain ⟨m, called, -⟩ := (Option.any_eq_true ..).1 yes
    rw [called]
    rfl
  have call {c : Instr} {o : Opcode} {test : MethodRef → Bool} (yes : calls c o test = true)
      (opcode : o = .call ∨ o = .callvirt) : (called? c).isSome = true := by
    obtain ⟨rfl, m, method, -⟩ := calls_iff.1 yes
    rw [called?, if_pos (by simpa [isCall] using opcode), method]
    rfl
  have pair {c : Instr} {p : Pattern} (yes : pairPattern? c = some p) : (called? c).isSome = true := by
    cases called : called? c with
    | none => simp [pairPattern?, called] at yes
    | some m => rfl
  refine ⟨shape.straight, ?_⟩
  cases shape with
  | getValues _ _ _ values => exact ⟨_, _, rfl, any values⟩
  | underlying _ _ _ _ underlying => exact ⟨_, _, rfl, any underlying⟩
  | definedName _ _ _ _ _ test => exact ⟨_, _, rfl, call test (.inl rfl)⟩
  | definedConstant _ _ _ _ _ _ test => exact ⟨_, _, rfl, call test (.inl rfl)⟩
  | @defined a r l c _ _ V _ _ _ _ _ _ _ _ _ test =>
    exact ⟨[a, r] ++ V ++ [l], c, by simp, call test (.inl rfl)⟩
  | literalText _ _ _ text => exact ⟨_, _, rfl, call text (.inr rfl)⟩
  | literalPair _ _ _ _ _ pattern => exact ⟨_, _, rfl, pair pattern⟩
  | boxText _ _ text => exact ⟨_, _, rfl, call text (.inr rfl)⟩
  | @pair a s c _ _ _ V _ _ _ _ _ _ pattern =>
    exact ⟨[a] ++ V ++ [s], c, by simp, pair pattern⟩
  | constrained _ _ text => exact ⟨_, _, rfl, call text (.inr rfl)⟩

/-- Code that does not pass on control has no part of such code. -/
theorem Inert.apart {block : List Cell} (inert : Inert block) (calling : Calling T) {R : List Instr} :
    instrs block ++ P ≠ T ++ R := by
  intro eq
  rcases List.append_eq_append_iff.1 eq with ⟨t, rfl, -⟩ | ⟨t, split, -⟩
  · obtain ⟨init, z, rfl, stops⟩ := inert.ends
    have := calling.straight z.instr (by simp)
    rw [stops] at this
    cases this
  · obtain ⟨L, c, rfl, called⟩ := calling.last
    have mem : c ∈ instrs block := by simp [split]
    obtain ⟨x, line, rfl⟩ := List.mem_map.1 mem
    rw [inert.uncalled x line] at called
    cases called

theorem Aligned.back {v v' rest' : List Cell} (aligned : Aligned v v')
    (eq : v' = T.map (⟨·, false⟩) ++ rest') (calling : T = [] ∨ Calling T) :
    ∃ rest, Aligned rest rest' ∧ instrs v = T ++ instrs rest ∧
      (Hungry (instrs rest) T → v = T.map (⟨·, false⟩) ++ rest) := by
  induction T generalizing v v' with
  | nil =>
    cases eq
    exact ⟨v, aligned, rfl, fun _ => rfl⟩
  | cons t T ih =>
    have calling := calling.resolve_left (List.cons_ne_nil _ _)
    cases aligned with
    | nil => cases eq
    | @line i j j' post post' joins aligned =>
      obtain ⟨same, rfl⟩ := List.cons.inj eq
      cases same
      have shorter : T = [] ∨ Calling T := by
        cases T with
        | nil => exact .inl rfl
        | cons u T => exact .inr calling.tail
      obtain ⟨rest, aligned, whole, cells⟩ := ih aligned rfl shorter
      refine ⟨rest, aligned, by rw [instrs_cons, whole, List.cons_append], fun hungry => ?_⟩
      rcases joins with rfl | ⟨-, -, steady⟩
      · rw [cells hungry.2, List.map_cons, List.cons_append]
      · rw [whole] at steady
        exact absurd steady hungry.1
    | @stop c block post post' stops inert aligned =>
      have := congrArg instrs eq
      rw [instrs_append, instrs_append, instrs_map] at this
      exact absurd this (inert.apart calling)

theorem Aligned.forth {v v' rest : List Cell} (aligned : Aligned v v')
    (eq : v = T.map (⟨·, false⟩) ++ rest) (straight : ∀ i ∈ T, i.straight = true) :
    ∃ rest', Aligned rest rest' ∧ v' = T.map (⟨·, false⟩) ++ rest' := by
  induction T generalizing v v' with
  | nil =>
    cases eq
    exact ⟨v', aligned, rfl⟩
  | cons t T ih =>
    cases aligned with
    | nil => cases eq
    | @line i j j' post post' joins aligned =>
      obtain ⟨same, rfl⟩ := List.cons.inj eq
      cases same
      obtain ⟨rest', behind, rfl⟩ := ih aligned rfl fun i mem => straight i (List.mem_cons_of_mem _ mem)
      rcases joins with rfl | ⟨yes, -⟩
      · exact ⟨rest', behind, rfl⟩
      · cases yes
    | @stop c block post post' stops inert aligned =>
      obtain ⟨rfl, rfl⟩ := List.cons.inj eq
      have := straight t List.mem_cons_self
      rw [stops] at this
      cases this

section
variable {v v' rest rest' : List Cell} {join : Bool} (aligned : Aligned v v') (shape : Shape desc r F V B)
include aligned shape

theorem Aligned.site_back (eq : v' = stretch join (F ++ V ++ B) ++ rest') :
    ∃ j rest, v = stretch j (F ++ V ++ B) ++ rest ∧ Aligned rest rest' ∧
      Joins j join (F ++ V ++ B ++ instrs rest) := by
  have hungry := shape.hungry
  have calling := shape.calling
  obtain ⟨a, F, rfl, -⟩ := shape.opens
  cases aligned with
  | nil => cases eq
  | @line i j j' post post' joins aligned =>
    obtain ⟨same, rfl⟩ := List.cons.inj eq
    cases same
    have shorter : F ++ V ++ B = [] ∨ Calling (F ++ V ++ B) := by
      cases h : F ++ V ++ B with
      | nil => exact .inl rfl
      | cons u T =>
        rw [List.cons_append, List.cons_append, h] at calling
        exact .inr calling.tail
    obtain ⟨rest, aligned, whole, cells⟩ := aligned.back rfl shorter
    refine ⟨j, rest, ?_, aligned, ?_⟩
    · rw [cells (hungry _)]
      rfl
    · rw [whole] at joins
      exact joins
  | @stop c block post post' stops inert aligned =>
    have := congrArg instrs eq
    rw [instrs_append, instrs_append] at this
    have same : instrs (stretch join (a :: F ++ V ++ B)) = a :: F ++ V ++ B := instrs_stretch join _
    rw [same] at this
    exact absurd this (inert.apart calling)

theorem Aligned.site_forth (eq : v = stretch join (F ++ V ++ B) ++ rest) :
    ∃ j' rest', v' = stretch j' (F ++ V ++ B) ++ rest' ∧ Aligned rest rest' ∧
      Joins join j' (F ++ V ++ B ++ instrs rest) := by
  have straight := shape.straight
  obtain ⟨a, F, rfl, -⟩ := shape.opens
  cases aligned with
  | nil => cases eq
  | @line i j j' post post' joins aligned =>
    have tail : post = (F ++ V ++ B).map (⟨·, false⟩) ++ rest := (List.cons.inj eq).2
    cases (List.cons.inj eq).1
    subst tail
    obtain ⟨rest', behind, rfl⟩ := aligned.forth rfl fun i mem => straight i (List.mem_cons_of_mem _ mem)
    refine ⟨j', rest', rfl, behind, ?_⟩
    rw [instrs_append, instrs_map] at joins
    exact joins
  | @stop c block post post' stops inert aligned =>
    obtain ⟨rfl, rfl⟩ := List.cons.inj eq
    have := straight a List.mem_cons_self
    rw [stops] at this
    cases this

end

theorem Aligned.starts_iff {v v' : List Cell} (aligned : Aligned v v') : Starts desc v ↔ Starts desc v' := by
  constructor
  · rintro ⟨r, F, V, B, join, rest, shape, eq⟩
    obtain ⟨j', rest', eq', -⟩ := aligned.site_forth shape eq
    exact ⟨r, F, V, B, j', rest', shape, eq'⟩
  · rintro ⟨r, F, V, B, join, rest', shape, eq⟩
    obtain ⟨j, rest, eq', -⟩ := aligned.site_back shape eq
    exact ⟨r, F, V, B, j, rest, shape, eq'⟩

theorem Inert.not_starts {block : List Cell} (inert : Inert block) : ¬ Starts desc (block ++ post) := by
  rintro ⟨r, F, V, B, join, rest, shape, eq⟩
  have := congrArg instrs eq
  rw [instrs_append, instrs_append] at this
  have same : instrs (stretch join (F ++ V ++ B)) = F ++ V ++ B := instrs_stretch join _
  rw [same] at this
  exact inert.apart shape.calling this

theorem Inert.suffix {u v : List Cell} (inert : Inert (u ++ v)) (some : v ≠ []) : Inert v := by
  refine ⟨fun c mem => inert.uncalled c (List.mem_append_right _ mem), ?_⟩
  obtain ⟨init, z, eq, stops⟩ := inert.ends
  refine ⟨v.dropLast, z, ?_, stops⟩
  have last := congrArg List.getLast? eq
  rw [List.getLast?_append_of_ne_nil _ some, List.getLast?_concat] at last
  exact (List.dropLast_append_getLast? z last).symm

theorem not_constant_of_stops {c : Cell} (stops : c.instr.straight = false) :
    ¬ (constant? c.instr).isSome = true := by
  intro constant
  obtain ⟨w, constant⟩ := Option.isSome_iff_exists.1 constant
  rw [straight_of_constant constant] at stops
  cases stops

theorem Along.found_iff {c c' : Cell} (along : Along (c.instr :: instrs post) before before')
    (aligned : Aligned (c :: post) (c' :: post')) : Found desc before c post ↔ Found desc before' c' post' := by
  refine and_congr aligned.starts_iff (not_congr ?_)
  cases along with
  | nil => simp
  | line joins _ =>
    have longer : Starts desc _ ↔ Starts desc _ := (Aligned.line joins aligned).starts_iff
    constructor
    · rintro ⟨k, rest, eq, constant, starts⟩
      cases eq
      exact ⟨_, _, rfl, constant, longer.1 starts⟩
    · rintro ⟨k, rest, eq, constant, starts⟩
      cases eq
      exact ⟨_, _, rfl, constant, longer.2 starts⟩
  | stop stops inert _ =>
    obtain ⟨init, z, rfl, stops'⟩ := inert.ends
    constructor
    · rintro ⟨k, rest, eq, constant, -⟩
      cases eq
      exact absurd constant (not_constant_of_stops stops)
    · rintro ⟨k, rest, eq, constant, -⟩
      rw [List.reverse_concat] at eq
      cases eq
      exact absurd constant (not_constant_of_stops stops')

/-- Where a site starts in the second list there is a place of the first one. -/
theorem Along.place (along : Along P before before') (aligned : Aligned post post') (whole : P = instrs post)
    {X Y : List Cell} (eq : before' = X ++ Y) (some : X ≠ []) (starts : Starts desc (X.reverse ++ post')) :
    ∃ X₀ Y₀, before = X₀ ++ Y₀ ∧ Along (instrs (X₀.reverse ++ post)) Y₀ Y ∧
      Aligned (X₀.reverse ++ post) (X.reverse ++ post') := by
  induction along generalizing post post' X with
  | nil =>
    obtain ⟨rfl, -⟩ := List.append_eq_nil_iff.1 eq.symm
    exact absurd rfl some
  | @line P i j j' before before' joins along ih =>
    subst whole
    obtain ⟨x, X, rfl⟩ := List.exists_cons_of_ne_nil some
    obtain ⟨rfl, rfl⟩ := List.cons.inj eq
    have longer := Aligned.line joins aligned
    by_cases none : X = []
    · subst none
      exact ⟨[⟨i, j⟩], before, rfl, along, longer⟩
    · obtain ⟨X₀, Y₀, rfl, along, aligned⟩ := ih longer rfl rfl none (by simpa using starts)
      exact ⟨⟨i, j⟩ :: X₀, Y₀, rfl, by simpa using along, by simpa using aligned⟩
  | @stop P c block before before' stops inert along ih =>
    subst whole
    have longer := Aligned.stop stops inert aligned
    rcases List.append_eq_append_iff.1 eq with ⟨t, rfl, rfl⟩ | ⟨t, split, rfl⟩
    · by_cases none : t = []
      · subst none
        exact ⟨[c], before, rfl, along, by simpa using longer⟩
      · obtain ⟨X₀, Y₀, rfl, along, aligned⟩ := ih longer rfl rfl none (by simpa using starts)
        exact ⟨c :: X₀, Y₀, rfl, by simpa using along, by simpa using aligned⟩
    · -- no site starts in the code that stands for a line
      have part : block = t.reverse ++ X.reverse := by
        rw [← List.reverse_append, ← split, List.reverse_reverse]
      rw [part] at inert
      exact absurd starts (inert.suffix (by simpa using some)).not_starts

theorem Silent.align {cs cs' : List Cell} (silent : Silent desc cs) (along : Along [] cs.reverse cs'.reverse) :
    Silent desc cs' := by
  rintro u v rfl starts
  by_cases none : v = []
  · subst none
    exact silent_nil [] [] rfl starts
  · obtain ⟨X₀, Y₀, eq, -, aligned⟩ := along.place .nil rfl (List.reverse_append ..) (by simpa using none)
      (by simpa using starts)
    refine silent Y₀.reverse X₀.reverse ?_ ?_
    · rw [← List.reverse_append, ← eq, List.reverse_reverse]
    · simpa using aligned.starts_iff.2 (by simpa using starts)

theorem Wants.align {cs cs' : List Cell} {ask : Operation × EnumInfo} (wants : Wants desc cs' ask)
    (along : Along [] cs.reverse cs'.reverse) : Wants desc cs ask := by
  obtain ⟨u, c, v, rfl, found, r, F, V, B, join, rest, shape, eq, mem⟩ := wants
  obtain ⟨X₀, Y₀, split, along, aligned⟩ := along.place .nil rfl (List.reverse_append ..)
    (by simp) (by simpa using found.1)
  simp only [List.reverse_reverse, List.append_nil] at aligned along
  obtain ⟨j, rest₀, site, -, -⟩ := aligned.site_back shape eq
  have opens := shape.opens
  obtain ⟨a, F, rfl, -⟩ := opens
  rw [site] at along aligned
  refine ⟨Y₀.reverse, ⟨a, j⟩, (F ++ V ++ B).map (⟨·, false⟩) ++ rest₀, ?_, ?_, r, _, V, B, j, rest₀, shape, rfl, mem⟩
  · have := congrArg List.reverse split
    rw [List.reverse_reverse, List.reverse_append, site] at this
    exact this
  · rw [List.reverse_reverse]
    exact (along.found_iff aligned).2 found

/-! ## Sweeps in step -/

theorem Inert.sweeps {block : List Cell} (inert : Inert block) {n : Nat}
    {asks : List (Operation × EnumInfo)} {out : Option (List Cell)}
    (sweeps : Sweeps desc before (block ++ post) n asks out) :
    Sweeps desc (block.reverse ++ before) post n asks out := by
  suffices part : ∀ X Y, block = X.reverse ++ Y → Sweeps desc (X ++ before) (Y ++ post) n asks out from
    part block.reverse [] (by simp)
  intro X
  induction X with
  | nil =>
    rintro Y rfl
    exact sweeps
  | cons x X ih =>
    intro Y eq
    have rest : block = X.reverse ++ (x :: Y) := by simpa using eq
    refine .pass (fun found => ?_) (ih (x :: Y) rest)
    rw [rest] at inert
    exact (inert.suffix (List.cons_ne_nil _ _)).not_starts found.1

theorem aligned_stretch {join j' : Bool} {rest rest' : List Cell} (aligned : Aligned rest rest')
    (joins : Joins join j' (T ++ instrs rest)) :
    Aligned (stretch join T ++ rest) (stretch j' T ++ rest') := by
  have inner (T : List Instr) : Aligned (T.map (⟨·, false⟩) ++ rest) (T.map (⟨·, false⟩) ++ rest') := by
    induction T with
    | nil => exact aligned
    | cons t T ih => exact .line (.inl rfl) ih
  cases T with
  | nil => exact aligned
  | cons t T => exact .line (by simpa using joins) (inner T)

theorem Found.straight {c : Cell} (found : Found desc before c post) : c.instr.straight = true := by
  obtain ⟨r, F, V, B, join, rest, shape, eq⟩ := found.1
  have straight := shape.straight
  obtain ⟨a, F, rfl, -⟩ := shape.opens
  obtain ⟨rfl, -⟩ := List.cons.inj eq
  exact straight a List.mem_cons_self

/-- A sweep that fails over one list fails over the other. -/
theorem Sweeps.step {n n' : Nat} {asks : List (Operation × EnumInfo)}
    (sweeps : Sweeps desc before post n asks none) (along : Along (instrs post) before before')
    (aligned : Aligned post post') (le : n ≤ n') :
    ∃ asks', asks' ⊆ asks ∧ Sweeps desc before' post' n' asks' none := by
  -- on the old sweep: a line added by the new list is inert, and the new sweep goes past it
  generalize failed : none = out at sweeps
  induction sweeps generalizing before' post' n' with
  | done => cases failed
  | @pass before post c n asks out other sweeps ih =>
    cases along with
    | @line P i j j' before before' joins along =>
      have longer := Aligned.line joins aligned
      obtain ⟨asks', sub, sweeps'⟩ := ih along longer le failed
      exact ⟨asks', sub, .pass (fun found => other ((along.found_iff longer).2 found)) sweeps'⟩
    | @stop P c block before before' stops inert along =>
      obtain ⟨asks', sub, sweeps'⟩ := ih along (.stop stops inert aligned) le failed
      exact ⟨asks', sub, inert.sweeps sweeps'⟩
  | @turn before post rest c n asks out r F V B join found shape cells enough sweeps ih =>
    cases along with
    | @line P i j j' before before' joins along =>
      have longer := Aligned.line joins aligned
      have found' := (along.found_iff longer).1 found
      obtain ⟨k, rest', cells', behind, joins'⟩ := longer.site_forth shape cells
      have instrs_old : i :: instrs post = F ++ V ++ B ++ instrs rest := by
        have := congrArg instrs cells
        rw [instrs_append] at this
        have same : instrs (stretch join (F ++ V ++ B)) = F ++ V ++ B := instrs_stretch join _
        rwa [same] at this
      have instrs_new : instrs (stretch join (r.newFront ++ V ++ r.newBack) ++ rest) =
          r.newFront ++ V ++ r.newBack ++ instrs rest := by
        rw [instrs_append]
        exact congrArg (· ++ _) (instrs_stretch join _)
      -- with more locals the new sweep may already fail at this site
      by_cases full : r.plan = .hasFlag ∧ room ≤ n'
      · cases failed
        exact ⟨[], List.nil_subset _, .full found' shape cells' full.1 full.2⟩
      · obtain ⟨asks', sub, sweeps'⟩ := ih (by
            rw [instrs_new]
            rw [instrs_old] at along
            exact along.change fun d steady => shape.steady steady)
          (aligned_stretch behind (joins'.change shape.steady)) (Nat.add_le_add_right le r.plan.locals)
          failed
        refine ⟨r.requests ++ asks', ?_, .turn found' shape cells' (fun flag => ?_) sweeps'⟩
        · exact List.append_subset.2 ⟨List.subset_append_left _ _,
            List.Subset.trans sub (List.subset_append_right _ _)⟩
        · exact Nat.not_le.1 fun le => full ⟨flag, le⟩
    | @stop P c block before before' stops inert along =>
      rw [found.straight] at stops
      cases stops
  | @full before post rest c n r F V B join found shape cells flag many =>
    cases along with
    | @line P i j j' before before' joins along =>
      have longer := Aligned.line joins aligned
      obtain ⟨k, rest', cells', -⟩ := longer.site_forth shape cells
      refine ⟨[], List.nil_subset _, ?_⟩
      exact .full ((along.found_iff longer).1 found) shape cells' flag (Nat.le_trans many le)
    | @stop P c block before before' stops inert along =>
      rw [found.straight] at stops
      cases stops

end CilForge.CallSite
