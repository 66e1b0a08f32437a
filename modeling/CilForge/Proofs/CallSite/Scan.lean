import CilForge.Proofs.CallSite.Search
import CilForge.Proofs.Machine.Callers
import CilForge.Proofs.Machine.Depth
import CilForge.Proofs.Machine.Straight

/-!
# Runs over what a walk has passed

A walk counts the values on the stack without running anything. A run that starts where the walk starts,
on a stack with at least as many values, goes over the same lines one after the other; it leaves the values
alone that the walk leaves alone, and the walk counts right (`walk_sound`).
-/

namespace CilForge

open CallSite

namespace Machine

variable {m : Machine} {callee : Executor} {f : Frame} {w w' : World} {h : Handle} {i : Instr}
  {lines rest behind : List (Handle × Instr)} {below : List Value} {floor d e : Nat}

/-- A frame that comes to these lines with `d - floor` values on top of those below. -/
structure Faces (lines : List (Handle × Instr)) (below : List Value) (floor d : Nat) (f : Frame) : Prop where
  ahead : f.ahead = lines
  stack : ∃ top, f.stack = top ++ below ∧ top.length + floor = d

theorem Faces.turn (faces : Faces ((h, i) :: behind) below floor d f) (straight : i.straight = true)
    (enough : i.effect.pops + floor ≤ d) (narrow : i.counts.1 ≤ 255) {r : Frame ⊕ Outcome}
    (turn : m.turn callee f w = (.ok r, w')) : ∃ g, r = .inl g ∧ g.body = f.body ∧
      Faces behind below floor (Body.depthAfter i d) g := by
  obtain ⟨ahead, top, stack, depth⟩ := faces
  have plain := Instr.plain_of_straight straight
  have room : w.executed < m.limits.maxInstructions := by
    by_contra full
    rw [turn_limit ahead (Nat.not_lt.1 full)] at turn
    cases turn
  rw [turn_step ahead room] at turn
  cases r with
  | inr o =>
    obtain ⟨-, g, a, acts, out⟩ := acts_of_stop ahead turn
    rw [acts.goes_on ahead straight] at out
    cases out
  | inl g =>
    obtain ⟨k, mem', step⟩ := step_of_run ahead turn
    obtain ⟨pops, after⟩ := Body.depthAfter_eq narrow d
    -- the instruction does the same on the top of the stack alone
    have whole : f = Frame.above { f with stack := top } below := by rw [Frame.above, ← stack]
    rw [whole] at step
    obtain ⟨g', step', rfl⟩ := step.above (f := { f with stack := top }) ahead plain (by simp only; omega)
    obtain ⟨next, keeps, -, length⟩ := step'.straight ahead straight
    refine ⟨_, rfl, keeps.body, next, g'.stack, rfl, ?_⟩
    rw [length, after]
    simp only
    omega

theorem Faces.turns (faces : Faces (lines ++ rest) below floor d f) (runs : Runs floor d (sight lines) e)
    (narrow : ∀ p ∈ lines, p.2.counts.1 ≤ 255) {n : Nat} (le : n ≤ lines.length) {r : Frame ⊕ Outcome}
    (turns : m.turns callee n f w = (.ok r, w')) : ∃ g k, r = .inl g ∧ g.body = f.body ∧
      Faces (lines.drop n ++ rest) below floor k g ∧ Runs floor k (sight (lines.drop n)) e := by
  induction n generalizing lines d f w with
  | zero =>
    cases turns
    exact ⟨f, d, rfl, rfl, faces, runs⟩
  | succ n ih =>
    cases lines with
    | nil => cases le
    | cons p lines =>
      obtain ⟨h, i⟩ := p
      obtain ⟨straight, enough, runs⟩ := runs_sight.1 runs
      have first := narrow (h, i) List.mem_cons_self
      rw [Machine.turns] at turns
      obtain ⟨x, w₁, turn⟩ : ∃ x w₁, m.turn callee f w = (x, w₁) := ⟨_, _, rfl⟩
      rw [turn] at turns
      cases x with
      | error e => cases turns
      | ok x =>
        obtain ⟨g, rfl, body, faces⟩ := faces.turn straight enough first turn
        obtain ⟨g', k, eq, body', faces, runs⟩ := ih faces runs
          (fun p mem => narrow p (List.mem_cons_of_mem _ mem)) (Nat.le_of_succ_le_succ le) turns
        exact ⟨g', k, eq, body'.trans body, faces, runs⟩

end Machine

open Machine in
/-- A walk that finds an instruction has passed lines to which control comes in no other way, and `e` is the
depth at which it has stopped. A run that comes to the first of these lines with at least as many values on
the stack as the walk starts with fails or comes to a limit, or goes over the lines one after the other; at
each of them the lowest values are those that were there before, and when it comes to the instruction the
stack has grown or shrunk by as much as the walk has counted. -/
theorem walk_sound {b : Body} (reachable : b.Reachable) (narrow : ∀ p ∈ b.code, p.2.counts.1 ≤ 255)
    {start id : Handle} {d floor : Nat} (low : floor ≤ d) {stop : Handle → Instr → Nat → Bool}
    (found : walk b start d floor stop = some id) : ∃ lines i rest e,
      b.codeFrom start = lines ++ (id, i) :: rest ∧
      walk b start d floor (fun h i depth => stop h i depth && depth = e) = some id ∧
      (∀ p ∈ lines ++ [(id, i)], b.isTarget p.1 = false ∧ b.isBoundary p.1 = false) ∧
      ∀ (m : Machine) (callee : Executor) (f : Frame) (w : World), f.body = b → f.ahead = b.codeFrom start →
        d ≤ f.stack.length → ∀ n r w', n ≤ lines.length → m.turns callee n f w = (.ok r, w') →
          ∃ g, r = .inl g ∧ g.body = b ∧ g.ahead = lines.drop n ++ (id, i) :: rest ∧
            f.stack.drop (d - floor) <:+ g.stack ∧
            (n = lines.length → g.stack.length + d = f.stack.length + e) ∧
            ∀ fuel, m.runFrame callee (n + fuel) f w = m.runFrame callee fuel g w' := by
  have nodup := reachable.numbered.nodup
  obtain ⟨i₀, got, -⟩ := Option.bind_eq_some_iff.1 (show walkFrom b floor stop (63 + 1) start d = some id from found)
  obtain ⟨pre, behind, code⟩ := List.append_of_mem (Body.mem_of_lookup got)
  obtain ⟨V, i, rest, e, eq, short, trail⟩ := trail_of_walkFrom nodup code found
  have whole : b.code = pre ++ V ++ (id, i) :: rest := by rw [code, eq, List.append_assoc]
  have there : b.codeFrom start = V ++ (id, i) :: rest := (Body.codeFrom_of_append nodup code).trans eq
  refine ⟨V, i, rest, e, there, ?_, fun p mem => ?_, fun m callee f w body ahead enough n r w' le turns => ?_⟩
  · have first : (V.head?.map (·.1)).getD id = start := by
      cases V <;> cases eq <;> rfl
    have same : Trail b floor (fun h i depth => stop h i depth && depth = e) d V id i e :=
      ⟨trail.alone, trail.runs, by simp [trail.here], fun V₁ y V₂ k eq reached => by
        simp [trail.first V₁ y V₂ k eq reached]⟩
    have again := walkFrom_of_trail nodup whole short same
    rw [first] at again
    exact again
  · simpa [isJoin] using trail.alone p mem
  · have faces : Faces (V ++ (id, i) :: rest) (f.stack.drop (d - floor)) floor d f := by
      refine ⟨ahead.trans there, f.stack.take (d - floor), (List.take_append_drop ..).symm, ?_⟩
      rw [List.length_take]
      omega
    obtain ⟨g, k, rfl, body', ⟨ahead', top, stack, depth⟩, runs⟩ := faces.turns trail.runs
      (fun p mem => narrow p (whole ▸ by simp [mem])) le turns
    refine ⟨g, rfl, body'.trans body, ahead', ⟨top, stack.symm⟩, fun last => ?_, fun fuel => ?_⟩
    · rw [last, List.drop_length] at runs
      obtain rfl : k = e := runs
      rw [stack, List.length_append, List.length_drop]
      omega
    · rw [runFrame_turns, turns]

def squared : Body where
  code := [(⟨0⟩, .ldcI4 1), (⟨1⟩, .ldcI4 2), (⟨2⟩, ⟨.dup, .none⟩), (⟨3⟩, ⟨.mul, .none⟩), (⟨4⟩, ⟨.add, .none⟩),
    (⟨5⟩, ⟨.ret, .none⟩)]
  nextIndex := 6

def squaredEdits : List Edit.Op := [
  .push (.ldcI4 1), .push (.ldcI4 2), .push ⟨.dup, .none⟩, .push ⟨.mul, .none⟩, .push ⟨.add, .none⟩,
  .push ⟨.ret, .none⟩]

theorem squared_reachable : squared.Reachable := .of_edits squaredEdits rfl

theorem walk_sound_squared :
    let stop := fun (_ : Handle) (i : Instr) (depth : Nat) => i.opcode = .add && depth = 2
    let f : Frame := { body := squared, ahead := squared.codeFrom ⟨1⟩, stack := [.i32 1], locals := #[], args := #[] }
    squared.Reachable ∧ (∀ p ∈ squared.code, p.2.counts.1 ≤ 255) ∧ 1 ≤ 1 ∧
    walk squared ⟨1⟩ 1 1 stop = some ⟨4⟩ ∧
    (∃ g, Finally.quiet.turns (Finally.quiet.executeWithin 0) 3 f {} = (.ok (.inl g), { executed := 3 }) ∧
      g.stack = [.i32 4, .i32 1]) ∧
    ∃ lines i rest e,
      squared.codeFrom ⟨1⟩ = lines ++ (⟨4⟩, i) :: rest ∧
      walk squared ⟨1⟩ 1 1 (fun h i depth => stop h i depth && depth = e) = some ⟨4⟩ ∧
      (∀ p ∈ lines ++ [(⟨4⟩, i)], squared.isTarget p.1 = false ∧ squared.isBoundary p.1 = false) ∧
      ∀ (m : Machine) (callee : Executor) (f : Frame) (w : World), f.body = squared →
        f.ahead = squared.codeFrom ⟨1⟩ → 1 ≤ f.stack.length →
          ∀ n r w', n ≤ lines.length → m.turns callee n f w = (.ok r, w') →
            ∃ g, r = .inl g ∧ g.body = squared ∧ g.ahead = lines.drop n ++ (⟨4⟩, i) :: rest ∧
              f.stack.drop (1 - 1) <:+ g.stack ∧
              (n = lines.length → g.stack.length + 1 = f.stack.length + e) ∧
              ∀ fuel, m.runFrame callee (n + fuel) f w = m.runFrame callee fuel g w' := by
  intro stop f
  have narrow : ∀ p ∈ squared.code, p.2.counts.1 ≤ 255 := by decide
  have found : walk squared ⟨1⟩ 1 1 stop = some ⟨4⟩ := by decide
  exact ⟨squared_reachable, narrow, Nat.le_refl 1, found, ⟨_, rfl, rfl⟩,
    walk_sound squared_reachable narrow (Nat.le_refl 1) found⟩

end CilForge
