import CilForge.Module.Basic
import CilForge.Proofs.Results
import CilForge.Proofs.Unroll
import Mathlib.Data.Finset.Range

/-!
# Visits along the lists

A module is visited along the lists of nested types that it keeps. That comes to an end just if no list leads back
to a type above it, and only the lists matter for what is met.
-/

namespace CilForge

namespace ModuleDef

variable {m m' : ModuleDef} {id : Nat}

theorem unrolls_visitBy (m : ModuleDef) : Unrolls m.visitBy (Finset.range m.types.size) where
  mono {f g} under id visits given := by
    obtain ⟨parts, each, given⟩ := Option.bind_eq_some_iff.1 given
    exact Option.bind_eq_some_iff.2 ⟨parts, mapM_mono (fun c _ => under c) each, given⟩
  leaf {id} out f g := by
    have row : m.types[id]? = none := Array.getElem?_eq_none (Nat.not_lt.1 fun lt => out (Finset.mem_range.2 lt))
    simp [visitBy, nestedIn, row]

theorem visit?_eq (m : ModuleDef) : m.visit? = m.visitBy m.visit? :=
  m.unrolls_visitBy.eq (card_range_lt _)

/-- A visit comes to an end just where no way down the lists goes on for ever. -/
theorem visit?_isSome_iff : (m.visit? id).isSome ↔ Acc (fun c p => c ∈ m.nestedIn p) id := by
  constructor
  · intro ended
    obtain ⟨visits, ended⟩ := Option.isSome_iff_exists.1 ended
    refine unroll_induct (P := fun id _ => Acc (fun c p => c ∈ m.nestedIn p) id) ?_ _ id visits ended
    intro visit down id visits ended
    obtain ⟨parts, each, -⟩ := Option.bind_eq_some_iff.1 ended
    have each := mapM_isSome_iff.1 (Option.isSome_of_eq_some each)
    refine ⟨id, fun c mem => ?_⟩
    obtain ⟨part, ended⟩ := Option.isSome_iff_exists.1 (each c mem)
    exact down c part ended
  · intro acc
    induction acc with
    | intro id _ ih =>
      obtain ⟨parts, each⟩ := Option.isSome_iff_exists.1 (mapM_isSome_iff.2 ih)
      rw [visit?_eq, visitBy, each]
      rfl

theorem order?_isSome_iff : m.order?.isSome ↔ ∀ r ∈ m.roots, Acc (fun c p => c ∈ m.nestedIn p) r := by
  have visits : m.order?.isSome = (m.roots.mapM m.visit?).isSome := by
    rw [order?]
    cases m.roots.mapM m.visit? <;> rfl
  rw [visits, mapM_isSome_iff]
  exact forall₂_congr fun _ _ => visit?_isSome_iff

theorem visit?_leaf (leaf : m.nestedIn id = []) : m.visit? id = some [id] := by
  rw [visit?_eq, visitBy, leaf]
  rfl

theorem order_of_leaves (leaves : ∀ r ∈ m.roots, m.nestedIn r = []) : m.order = m.roots := by
  rw [order, order?, mapM_eq_some fun r mem => visit?_leaf (leaves r mem)]
  simp [← List.flatMap_def]

theorem visit?_congr (lists : m'.nestedIn = m.nestedIn) (more : m.types.size ≤ m'.types.size) :
    m'.visit? = m.visit? := by
  have body : m'.visitBy = m.visitBy := by
    funext visit id
    rw [visitBy, visitBy, lists]
  rw [visit?, visit?, body]
  exact m.unrolls_visitBy.stable (card_range_lt _) (Nat.succ_le_succ more)

end ModuleDef

end CilForge
