import CilForge.Proofs.CallSite.Level

/-!
# Going through cells

`Sweeps` is the way from the last cell to the first on which every site that is found is changed, with
the generated methods that are asked for on the way. It comes to an end before the first cell only for
want of locals, and if it does not, no site is left.
-/

namespace CilForge.CallSite

open Body

variable {desc : Sig → Option EnumInfo} {before post : List Cell} {c : Cell} {n : Nat}
  {asks : List (Operation × EnumInfo)} {out : Option (List Cell)}

def Found (desc : Sig → Option EnumInfo) (before : List Cell) (c : Cell) (post : List Cell) : Prop :=
  Starts desc (c :: post) ∧ ¬ ∃ k rest, before = k :: rest ∧ (constant? k.instr).isSome = true ∧
    Starts desc (k :: c :: post)

def Recipe.requests (r : Recipe) : List (Operation × EnumInfo) := r.operation?.toList.map (·, r.info)

def WantsAt (desc : Sig → Option EnumInfo) (before : List Cell) (c : Cell) (post : List Cell)
    (ask : Operation × EnumInfo) : Prop :=
  Found desc before c post ∧ ∃ r F V B join rest, Shape desc r F V B ∧
    c :: post = stretch join (F ++ V ++ B) ++ rest ∧ ask ∈ r.requests

/-- The sites of these cells, as they are, ask for this. -/
def Wants (desc : Sig → Option EnumInfo) (cs : List Cell) (ask : Operation × EnumInfo) : Prop :=
  ∃ u c v, cs = u ++ c :: v ∧ WantsAt desc u.reverse c v ask

theorem Silent.not_wants {cs : List Cell} (silent : Silent desc cs) (ask : Operation × EnumInfo) :
    ¬ Wants desc cs ask :=
  fun ⟨u, c, v, eq, found, _⟩ => silent u (c :: v) eq found.1

def room : Nat := 65536

/-- The cells `before`, from the last one on, are gone through, with `n` locals at first; `post` is
what has been gone through. -/
inductive Sweeps (desc : Sig → Option EnumInfo) : List Cell → List Cell → Nat →
    List (Operation × EnumInfo) → Option (List Cell) → Prop where
  | done {post : List Cell} {n : Nat} : Sweeps desc [] post n [] (some post)
  | pass {before post : List Cell} {c : Cell} {n : Nat} {asks : List (Operation × EnumInfo)}
      {out : Option (List Cell)} :
    ¬ Found desc before c post → Sweeps desc before (c :: post) n asks out →
    Sweeps desc (c :: before) post n asks out
  | turn {before post rest : List Cell} {c : Cell} {n : Nat} {asks : List (Operation × EnumInfo)}
      {out : Option (List Cell)} {r : Recipe} {F V B : List Instr} {join : Bool} :
    Found desc before c post → Shape desc r F V B → c :: post = stretch join (F ++ V ++ B) ++ rest →
    (r.plan = .hasFlag → n < room) →
    Sweeps desc before (stretch join (r.newFront ++ V ++ r.newBack) ++ rest) (n + r.plan.locals) asks out →
    Sweeps desc (c :: before) post n (r.requests ++ asks) out
  | full {before post rest : List Cell} {c : Cell} {n : Nat} {r : Recipe} {F V B : List Instr}
      {join : Bool} :
    Found desc before c post → Shape desc r F V B → c :: post = stretch join (F ++ V ++ B) ++ rest →
    r.plan = .hasFlag → room ≤ n → Sweeps desc (c :: before) post n [] none

theorem exists_sweeps (before post : List Cell) (n : Nat) : ∃ asks out, Sweeps desc before post n asks out := by
  induction before generalizing post n with
  | nil => exact ⟨_, _, .done⟩
  | cons c before ih =>
    by_cases found : Found desc before c post
    · obtain ⟨r, F, V, B, join, rest, shape, cells⟩ := found.1
      by_cases full : r.plan = .hasFlag ∧ room ≤ n
      · exact ⟨_, _, .full found shape cells full.1 full.2⟩
      · obtain ⟨asks, out, sweeps⟩ := ih (stretch join (r.newFront ++ V ++ r.newBack) ++ rest)
          (n + r.plan.locals)
        refine ⟨_, _, .turn found shape cells (fun flag => ?_) sweeps⟩
        exact Nat.not_le.1 fun le => full ⟨flag, le⟩
    · obtain ⟨asks, out, sweeps⟩ := ih (c :: post) n
      exact ⟨_, _, .pass found sweeps⟩

/-! ## No site is left -/

theorem Starts.box_behind {k : Cell} (starts : Starts desc (k :: c :: post))
    (constant : (constant? k.instr).isSome = true) : c.instr.opcode = .box := by
  obtain ⟨r, F, V, B, join, rest, shape, eq⟩ := starts
  obtain ⟨w, constant⟩ := Option.isSome_iff_exists.1 constant
  have opcode := opcode_of_constant constant
  cases shape with
  | literalText _ boxes =>
    cases eq
    exact boxes
  | literalPair _ boxes =>
    cases eq
    exact boxes
  | getValues token | underlying token | definedName token | definedConstant token | defined token =>
    obtain ⟨rfl, -⟩ := List.cons.inj eq
    rcases opcode with opcode | opcode <;> cases token.symm.trans opcode
  | boxText boxes | pair boxes | constrained boxes =>
    obtain ⟨rfl, -⟩ := List.cons.inj eq
    rcases opcode with opcode | opcode <;> cases boxes.symm.trans opcode

theorem Quiet.pass (quiet : Quiet desc (c :: before) post) (none : ¬ Found desc before c post) :
    Quiet desc before (c :: post) := by
  have covered (starts : Starts desc (c :: post)) : ∃ k rest, before = k :: rest ∧
      (constant? k.instr).isSome = true ∧ Starts desc (k :: c :: post) :=
    Classical.byContradiction fun bare => none ⟨starts, bare⟩
  intro u v eq starts
  cases u with
  | nil =>
    obtain rfl : c :: post = v := eq
    exact ⟨rfl, covered starts⟩
  | cons x u =>
    obtain ⟨rfl, rfl⟩ := List.cons.inj eq
    -- a constant of a site that is not found would have to be a box
    obtain ⟨-, k, rest, same, constant, starts⟩ := quiet u v rfl starts
    cases same
    obtain ⟨k, rest, -, constant', starts'⟩ := covered starts
    have boxes := starts'.box_behind constant'
    obtain ⟨w, constant⟩ := Option.isSome_iff_exists.1 constant
    rcases opcode_of_constant constant with opcode | opcode <;> cases boxes.symm.trans opcode

theorem answers_of_opcode {i : Instr} (opcode : i.opcode ≠ .call) : Answers i :=
  fun yes => absurd (calls_iff.1 yes).1 opcode

theorem Shape.new_answers {r : Recipe} {F V B : List Instr} (shape : Shape desc r F V B) :
    ∀ i ∈ r.newFront ++ r.newBack, Answers i := by
  have called (op : Operation) (e : Sig) : Answers (Instr.call .call ⟨⟨"", ""⟩, "", op.sig e⟩).seen :=
    fun _ => by
      rw [Instr.effect_seen]
      cases op <;> rfl
  have one {x : Instr} (x_answers : Answers x) : ∀ i ∈ [x], Answers i := by
    simpa using x_answers
  cases shape with
  | getValues => exact one (called .getValues _)
  | defined => exact one (called .isDefined _)
  | boxText => exact one (called .toString _)
  | underlying | definedName | definedConstant | literalText | literalPair =>
    exact one (answers_of_opcode nofun)
  | @pair _ _ _ _ _ p =>
    by_cases flag : p = .hasFlag
    · simp only [flag, if_true]
      intro i mem
      refine answers_of_opcode fun call => ?_
      have opcode : i.opcode ∈ [Opcode.stloc, .ldloc, .and, .ldloc, .ceq] := List.mem_map_of_mem mem
      rw [call] at opcode
      simp at opcode
    · simp only [flag, if_false]
      exact one (called .equals _)
  | constrained =>
    intro i mem
    rcases List.mem_cons.1 mem with rfl | mem
    · exact answers_of_opcode nofun
    · exact one (called .toString _) i mem

theorem Sweeps.silent {cs : List Cell} (sweeps : Sweeps desc before post n asks (some cs))
    (quiet : Quiet desc before post) (answers : ∀ c ∈ before ++ post, Answers c.instr) : Silent desc cs := by
  generalize result : some cs = out at sweeps
  induction sweeps with
  | done =>
    cases result
    intro u v eq starts
    obtain ⟨-, k, rest, none, -⟩ := quiet u v eq starts
    cases none
  | @pass before post c n asks out none sweeps ih =>
    refine ih (quiet.pass none) (fun c mem => answers c ?_) result
    simp only [List.cons_append, List.mem_cons, List.mem_append] at mem ⊢
    tauto
  | @turn before post rest c n asks out r F V B join found shape cells enough sweeps ih =>
    obtain ⟨a, F, rfl, -⟩ := shape.opens
    obtain ⟨rfl, rfl⟩ := List.cons.inj cells
    have kept : ∀ i ∈ V, Answers i := fun i mem => answers ⟨i, false⟩ (by simp [mem])
    refine ih ((shape.silent kept quiet).quiet before) (fun c mem => ?_) result
    rcases List.mem_append.1 mem with mem | mem
    · exact answers c (by simp [mem])
    rcases List.mem_append.1 mem with mem | mem
    · have line : c.instr ∈ r.newFront ++ V ++ r.newBack := by
        rw [← instrs_stretch join (r.newFront ++ V ++ r.newBack)]
        exact List.mem_map_of_mem mem
      by_cases old : c.instr ∈ V
      · exact kept _ old
      · refine shape.new_answers _ ?_
        simp only [List.mem_append] at line ⊢
        tauto
    · exact answers c (by simp [mem])
  | full => cases result

end CilForge.CallSite
