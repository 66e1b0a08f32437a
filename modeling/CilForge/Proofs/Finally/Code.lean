import CilForge.Finally.Flatten
import CilForge.Proofs.Body.Expand

/-!
# The code of a flattened body

Flattening puts code in the place of every `endfinally` and every `leave`. What stands there is
`dispatchCode` and `leaveCode`, with branches renamed to where their destinations have moved.
-/

namespace CilForge.Finally

open Body

theorem Renaming.apply_cons (r : Renaming) (old new : Handle) :
    Renaming.apply ((old, new) :: r) = redirect r.apply old new := by
  funext h
  unfold apply redirect
  rw [List.lookup_cons]
  by_cases eq : h = old
  · rw [if_pos eq, beq_iff_eq.2 eq]
    rfl
  · rw [if_neg eq, beq_eq_false_iff_ne.2 eq]

def whole (code : Instr × List Instr) : List Instr := code.1 :: code.2

namespace Layout

variable (p : Layout) (vars : StateVars)

def renamed (σ : Handle → Handle) (code : Instr × List Instr) : Instr × List Instr :=
  (code.1.mapTargets σ, code.2.map (·.mapTargets σ))

theorem map_apply_nil (hs : List Handle) : hs.map (Renaming.apply []) = hs := List.map_id' hs

theorem dispatchCode_renamed (r : Renaming) (node : Nat) :
    p.dispatchCode vars r node = renamed r.apply (p.dispatchCode vars [] node) := by
  unfold dispatchCode
  rw [map_apply_nil]
  cases p.continuations node with
  | nil => rfl
  | cons first rest => rfl

theorem stores_mapTargets (σ : Handle → Handle) (l : Leave) :
    (p.stores vars l).map (·.mapTargets σ) = p.stores vars l := by
  unfold stores
  rw [List.map_flatMap]
  rfl

def entry (l : Leave) : Handle := (l.exits.head?.bind p.handlerStart?).getD l.target

theorem whole_leaveCode (l : Leave) :
    whole (p.leaveCode vars [] l) = p.stores vars l ++ [.branch .br (p.entry l)] := by
  unfold leaveCode
  cases p.stores vars l with
  | nil => rfl
  | cons first rest => rfl

theorem leaveCode_renamed (r : Renaming) (l : Leave) :
    p.leaveCode vars r l = renamed r.apply (p.leaveCode vars [] l) := by
  have stores := p.stores_mapTargets vars r.apply l
  unfold leaveCode
  cases h : p.stores vars l with
  | nil => rfl
  | cons first rest =>
    rw [h, List.map_cons, List.cons.injEq] at stores
    simp only [renamed, stores.1, List.map_append, stores.2]
    rfl

theorem whole_dispatchCode {node : Nat} {goal : Handle} {state : Nat}
    (way : (p.continuations node)[state]? = some goal) :
    ∃ rest, whole (p.dispatchCode vars [] node) =
      .ldloc (vars.ofNode node) :: .switch (p.continuations node) :: rest := by
  unfold dispatchCode
  rw [map_apply_nil]
  cases h : p.continuations node with
  | nil =>
    rw [h] at way
    cases way
  | cons first rest => exact ⟨_, rfl⟩

/-- What stands in the place of an instruction that is gone. -/
def Stands (h : Handle) (code : List Instr) : Prop :=
  (∃ l ∈ p.leaves, l.at' = h ∧ code = whole (p.leaveCode vars [] l)) ∨
    ∃ e ∈ p.ends, h ∈ e.2 ∧ code = whole (p.dispatchCode vars [] ((p.nesting.nodeOf? e.1).getD 0))

/-- The instructions of new code: states are stored and loaded, places are gone to, and where there is
none to go to an exception is thrown. -/
inductive Written : Instr → Prop where
  | state (c : BitVec 32) : Written (.ldcI4 c)
  | store {l : Leave} {n : Nat} : l ∈ p.leaves → n ∈ l.exits → Written (.stloc (vars.ofNode n))
  | enter {l : Leave} : l ∈ p.leaves → Written (.branch .br (p.entry l))
  | load {n : Nat} : p.continuations n ≠ [] → Written (.ldloc (vars.ofNode n))
  | select (n : Nat) : Written (.switch (p.continuations n))
  | go {n : Nat} {h : Handle} : h ∈ p.continuations n → Written (.branch .br h)
  | missing : Written (.call .newobj Platform.invalidOperation)
  | throw : Written ⟨.throw, .none⟩

variable {p vars} {b : Body} {Holds : Handle → List Instr → Prop}

theorem Stands.written {h : Handle} {code : List Instr} (stands : p.Stands vars h code) :
    ∀ i ∈ code, p.Written vars i := by
  intro i mem
  rcases stands with ⟨l, leave, -, rfl⟩ | ⟨e, -, -, rfl⟩
  · rw [whole_leaveCode, List.mem_append] at mem
    rcases mem with mem | mem
    · obtain ⟨n, exit, mem⟩ := List.mem_flatMap.1 mem
      simp only [List.mem_cons, List.not_mem_nil, or_false] at mem
      rcases mem with rfl | rfl
      · exact .state _
      · exact .store leave exit
    · rw [List.mem_singleton.1 mem]
      exact .enter leave
  · generalize (p.nesting.nodeOf? e.1).getD 0 = n at mem
    unfold dispatchCode whole at mem
    rw [map_apply_nil] at mem
    cases continuations : p.continuations n with
    | nil =>
      simp only [continuations, List.mem_cons, List.not_mem_nil, or_false] at mem
      rcases mem with rfl | rfl
      · exact .missing
      · exact .throw
    | cons first rest =>
      simp only [continuations, List.mem_cons, List.not_mem_nil, or_false] at mem
      rcases mem with rfl | rfl | rfl
      · exact .load (by rw [continuations]; exact List.cons_ne_nil _ _)
      · exact continuations ▸ .select n
      · exact .go (by rw [continuations]; exact List.mem_cons_self)

theorem replaceEnds_expanded (num : b.Numbered) {code : Instr × List Instr} {τ : Handle → Handle} :
    ∀ {ends : List Handle} {r r' : Renaming} {b₁ b₂ : Body}, Expanded Holds b r.apply b₁ →
      Extends τ r.apply → (∀ h ∈ ends, h ∈ b.handles ∧ Holds h (whole code)) →
      replaceEnds (renamed τ code) ends r b₁ = (.ok r', b₂) →
      Expanded Holds b r'.apply b₂ ∧ Extends r.apply r'.apply ∧ ∀ h ∈ ends, r'.apply h ≠ h
  | [], r, r', b₁, b₂, ex, _, _, done => by
    obtain ⟨rfl, rfl⟩ := Edit.pure_eq_ok.1 done
    exact ⟨ex, .refl _, nofun⟩
  | h :: ends, r, r', b₁, b₂, ex, ext, holds, done => by
    obtain ⟨first, b', expand, done⟩ := Edit.bind_eq_ok.1 done
    have here := holds h (List.mem_cons_self ..)
    obtain ⟨stays, ne, ex'⟩ := ex.expand num ext here.1 here.2 expand
    have grows : Extends r.apply (Renaming.apply ((h, first) :: r)) := by
      rw [Renaming.apply_cons]
      exact (Extends.refl _).renamed first stays
    rw [← Renaming.apply_cons] at ex'
    obtain ⟨ex'', ext', moves⟩ := replaceEnds_expanded num ex' (ext.trans grows)
      (fun x hx => holds x (List.mem_cons_of_mem _ hx)) done
    refine ⟨ex'', grows.trans ext', fun x hx => ?_⟩
    rcases List.mem_cons.1 hx with rfl | hx
    · refine ext'.moves ?_
      rw [Renaming.apply_cons, redirect_old]
      exact ne
    · exact moves x hx

theorem replaceHandlers_expanded (num : b.Numbered) :
    ∀ {ends : List (Nat × List Handle)} {r r' : Renaming} {b₁ b₂ : Body},
      Expanded Holds b r.apply b₁ →
      (∀ e ∈ ends, ∀ h ∈ e.2, h ∈ b.handles ∧
        Holds h (whole (p.dispatchCode vars [] ((p.nesting.nodeOf? e.1).getD 0)))) →
      p.replaceHandlers vars ends r b₁ = (.ok r', b₂) →
      Expanded Holds b r'.apply b₂ ∧ Extends r.apply r'.apply ∧
        ∀ e ∈ ends, ∀ h ∈ e.2, r'.apply h ≠ h
  | [], r, r', b₁, b₂, ex, _, done => by
    obtain ⟨rfl, rfl⟩ := Edit.pure_eq_ok.1 done
    exact ⟨ex, .refl _, nofun⟩
  | e :: ends, r, r', b₁, b₂, ex, holds, done => by
    obtain ⟨region, hs⟩ := e
    obtain ⟨r₁, b', first, done⟩ := Edit.bind_eq_ok.1 done
    rw [dispatchCode_renamed] at first
    obtain ⟨ex', ext, moves⟩ := replaceEnds_expanded num ex (.refl _)
      (holds _ (List.mem_cons_self ..)) first
    obtain ⟨ex'', ext', moves'⟩ := replaceHandlers_expanded num ex'
      (fun e he => holds e (List.mem_cons_of_mem _ he)) done
    refine ⟨ex'', ext.trans ext', fun e he h hh => ?_⟩
    rcases List.mem_cons.1 he with rfl | he
    · exact ext'.moves (moves h hh)
    · exact moves' e he h hh

theorem replaceLeaves_expanded (num : b.Numbered) :
    ∀ {leaves : List Leave} {r : Renaming} {b₁ b₂ : Body}, Expanded Holds b r.apply b₁ →
      (∀ l ∈ leaves, l.at' ∈ b.handles ∧ Holds l.at' (whole (p.leaveCode vars [] l))) →
      p.replaceLeaves vars leaves r b₁ = (.ok (), b₂) →
      ∃ σ, Expanded Holds b σ b₂ ∧ Extends r.apply σ ∧ ∀ l ∈ leaves, σ l.at' ≠ l.at'
  | [], r, b₁, b₂, ex, _, done => by
    obtain ⟨-, rfl⟩ := Edit.pure_eq_ok.1 done
    exact ⟨_, ex, .refl _, nofun⟩
  | l :: leaves, r, b₁, b₂, ex, holds, done => by
    obtain ⟨first, b', expand, done⟩ := Edit.bind_eq_ok.1 done
    rw [leaveCode_renamed] at expand
    have here := holds l (List.mem_cons_self ..)
    obtain ⟨stays, ne, ex'⟩ := ex.expand num (.refl _) here.1 here.2 expand
    have grows : Extends r.apply (Renaming.apply ((l.at', first) :: r)) := by
      rw [Renaming.apply_cons]
      exact (Extends.refl _).renamed first stays
    rw [← Renaming.apply_cons] at ex'
    obtain ⟨σ, ex'', ext, moves⟩ := replaceLeaves_expanded num ex'
      (fun x hx => holds x (List.mem_cons_of_mem _ hx)) done
    refine ⟨σ, ex'', grows.trans ext, fun x hx => ?_⟩
    rcases List.mem_cons.1 hx with rfl | hx
    · refine ext.moves ?_
      rw [Renaming.apply_cons, redirect_old]
      exact ne
    · exact moves x hx

end Layout

end CilForge.Finally
