import CilForge.Unroll
import Mathlib.Data.Finset.Card

/-!
# Unrolling a recursion

If a function calls itself for finitely many arguments only, then unrolling it once more than there are of them
gives a function that calls itself without being cut off (`Unrolls.eq`), and the one that is least defined
(`Unrolls.least`): it has a value just where the calls come to an end.
-/

namespace CilForge

variable {α β : Type} {body : (α → Option β) → α → Option β} {args : Finset α} {n k : Nat}

theorem card_range_lt (n : Nat) : (Finset.range n).card < n + 1 := (Finset.card_range n).trans_lt (Nat.lt_succ_self n)

/-- What the one function gives the other gives as well. -/
def Under (f g : α → Option β) : Prop := ∀ x y, f x = some y → g x = some y

/-- Calls inside that give more only give more, and they are made for some arguments only. -/
structure Unrolls (body : (α → Option β) → α → Option β) (args : Finset α) : Prop where
  mono : ∀ {f g}, Under f g → Under (body f) (body g)
  leaf : ∀ {x}, x ∉ args → ∀ f g, body f x = body g x

/-- The arguments for which there is a value with `n` calls inside each other below the first. -/
def solved (body : (α → Option β) → α → Option β) (args : Finset α) (n : Nat) : Finset α :=
  args.filter fun x => (unroll body (n + 1) x).isSome

/-- What holds of all values, if it does whenever it holds of those of the calls inside. -/
theorem unroll_induct {P : α → β → Prop}
    (step : ∀ f, (∀ x y, f x = some y → P x y) → ∀ x y, body f x = some y → P x y) (n : Nat) :
    ∀ x y, unroll body n x = some y → P x y := by
  induction n with
  | zero => exact nofun
  | succ n ih => exact step _ ih

theorem unroll_persists (same : unroll body n = unroll body (n + 1)) :
    unroll body (n + 1) = unroll body (n + 2) :=
  funext fun x => congrFun (congrArg body same) x

namespace Unrolls

variable (u : Unrolls body args)
include u

theorem under_succ (n : Nat) : Under (unroll body n) (unroll body (n + 1)) := by
  induction n with
  | zero => exact nofun
  | succ n ih => exact u.mono ih

theorem under_of_le (le : n ≤ k) : Under (unroll body n) (unroll body k) := by
  induction k, le using Nat.le_induction with
  | base => exact fun _ _ => id
  | succ k _ ih => exact fun x y given => u.under_succ k x y (ih x y given)

theorem solved_subset (n : Nat) : solved body args n ⊆ solved body args (n + 1) := by
  intro x mem
  obtain ⟨arg, given⟩ := Finset.mem_filter.1 mem
  obtain ⟨y, given⟩ := Option.isSome_iff_exists.1 given
  exact Finset.mem_filter.2 ⟨arg, Option.isSome_of_eq_some (u.under_succ _ x y given)⟩

theorem eq_of_solved (same : solved body args n = solved body args (n + 1)) :
    unroll body (n + 1) = unroll body (n + 2) := by
  funext x
  by_cases arg : x ∈ args
  · cases more : unroll body (n + 2) x with
    | none =>
      cases given : unroll body (n + 1) x with
      | none => rfl
      | some y => exact (u.under_succ _ x y given).symm.trans more
    | some y =>
      have mem : x ∈ solved body args n := same ▸ Finset.mem_filter.2 ⟨arg, Option.isSome_of_eq_some more⟩
      obtain ⟨z, given⟩ := Option.isSome_iff_exists.1 (Finset.mem_filter.1 mem).2
      rw [given, ← more, u.under_succ _ x z given]
  · exact u.leaf arg _ _

/-- Unrolling goes on to give more only as long as it gives values for more arguments. -/
theorem settles (n : Nat) :
    unroll body (n + 1) = unroll body (n + 2) ∨ n < (solved body args (n + 1)).card := by
  induction n with
  | zero =>
    by_cases same : solved body args 0 = solved body args 1
    · exact .inl (u.eq_of_solved same)
    · have grows := Finset.card_lt_card ((u.solved_subset 0).ssubset_of_ne same)
      exact .inr (by omega)
  | succ n ih =>
    by_cases same : solved body args (n + 1) = solved body args (n + 2)
    · exact .inl (u.eq_of_solved same)
    · have grows := Finset.card_lt_card ((u.solved_subset (n + 1)).ssubset_of_ne same)
      rcases ih with settled | many
      · exact .inl (unroll_persists settled)
      · exact .inr (by omega)

theorem fixed (room : args.card < n) : unroll body n = unroll body (n + 1) := by
  induction n, room using Nat.le_induction with
  | base =>
    rcases u.settles args.card with settled | many
    · exact settled
    · exact absurd (Finset.card_filter_le ..) (Nat.not_le.2 many)
  | succ n _ ih => exact unroll_persists ih

theorem eq (room : args.card < n) : unroll body n = body (unroll body n) :=
  (u.fixed room).trans (funext fun _ => rfl)

theorem stable (room : args.card < n) (le : n ≤ k) : unroll body k = unroll body n := by
  induction k, le using Nat.le_induction with
  | base => rfl
  | succ k le ih => rw [← u.fixed (Nat.lt_of_lt_of_le room le), ih]

theorem least (room : args.card < n) (k : Nat) : Under (unroll body k) (unroll body n) := by
  rcases Nat.le_total k n with le | le
  · exact u.under_of_le le
  · exact u.stable room le ▸ fun _ _ => id

end Unrolls

end CilForge
