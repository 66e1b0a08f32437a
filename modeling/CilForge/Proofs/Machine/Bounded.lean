import CilForge.Proofs.Machine.Callers
import Mathlib

/-!
# Runs within their limits

A run comes to its end within the limits of the machine (`execute_bounded`), unless it comes to the text of an
array that leads to itself (`knot_endless`) or has a limit that its counter cannot exceed (`spin_endless`).
-/

namespace CilForge

namespace Machine

/-! ## Whole runs -/

section
variable {m : Machine} {s s' : Interpreter}

theorem isDone_iff : s.isDone ↔ s.callers = [] ∧ ∃ r, s.control = .back r := by
  obtain ⟨control, callers, d, n, heap, trace⟩ := s
  cases control <;> cases callers <;> simp [Interpreter.isDone]

theorem advance_of_isDone (done : s.isDone) : m.advance s = s := by
  obtain ⟨none, r, control⟩ := isDone_iff.1 done
  simp only [advance, control, none]

theorem advance_of_stuck (stuck : s.control = .stuck) : m.advance s = s := by
  simp only [advance, stuck]

theorem advance_iterate_of_isDone (done : s.isDone) (n : Nat) : m.advance^[n] s = s :=
  Function.iterate_fixed (advance_of_isDone done) n

theorem run?_eq_some_iff {n : Nat} : m.run? n s = some s' ↔ (∃ k < n, m.advance^[k] s = s') ∧ s'.isDone := by
  induction n generalizing s with
  | zero => exact ⟨nofun, fun ⟨⟨_, lt, _⟩, _⟩ => absurd lt (Nat.not_lt_zero _)⟩
  | succ n ih =>
    rw [run?]
    by_cases done : s.isDone
    · rw [if_pos done]
      constructor
      · rintro ⟨⟩
        exact ⟨⟨0, Nat.succ_pos n, rfl⟩, done⟩
      · rintro ⟨⟨k, -, rfl⟩, -⟩
        rw [advance_iterate_of_isDone done]
    · rw [if_neg done, ih]
      constructor
      · rintro ⟨⟨k, lt, rfl⟩, done⟩
        exact ⟨⟨k + 1, Nat.succ_lt_succ lt, rfl⟩, done⟩
      · rintro ⟨⟨k, lt, rfl⟩, ended⟩
        cases k with
        | zero => exact absurd ended done
        | succ k => exact ⟨⟨k, Nat.lt_of_succ_lt_succ lt, rfl⟩, ended⟩

theorem run?_of_stuck (leads : m.Leads s s') (stuck : s'.control = .stuck) (n : Nat) : m.run? n s = none := by
  cases run : m.run? n s with
  | none => rfl
  | some ended =>
    obtain ⟨⟨k, -, rfl⟩, done⟩ := run?_eq_some_iff.1 run
    obtain ⟨j, rfl⟩ := leads
    -- neither of the two goes on, so that the one met first is met for ever
    have same : m.advance^[j] s = m.advance^[k] s := by
      rcases Nat.le_total j k with le | le
      · obtain ⟨i, rfl⟩ := Nat.exists_eq_add_of_le' le
        rw [Function.iterate_add_apply, Function.iterate_fixed (advance_of_stuck stuck)]
      · obtain ⟨i, rfl⟩ := Nat.exists_eq_add_of_le' le
        rw [Function.iterate_add_apply, advance_iterate_of_isDone done]
    obtain ⟨-, r, control⟩ := isDone_iff.1 done
    cases (same ▸ stuck).symm.trans control

theorem execute?_eq_some_iff {n : Nat} {body : Body} {args : List Value} {r : Except MachineFault Outcome} :
    m.execute? n body args s = some (r, s') ↔
      (∃ k < n, m.advance^[k] { s with control := .enter body args } = s') ∧ s'.callers = [] ∧ s'.control = .back r := by
  rw [execute?, Option.bind_eq_bind, Option.bind_eq_some_iff]
  constructor
  · rintro ⟨s', run, result⟩
    obtain ⟨leads, done⟩ := run?_eq_some_iff.1 run
    obtain ⟨none, r, control⟩ := isDone_iff.1 done
    simp only [control] at result
    cases result
    exact ⟨leads, none, control⟩
  · rintro ⟨leads, none, control⟩
    refine ⟨s', run?_eq_some_iff.2 ⟨leads, isDone_iff.2 ⟨none, r, control⟩⟩, ?_⟩
    simp only [control]
    rfl

end

/-! ## Larger limits -/

/-- A fault is on its way out through the callers. -/
def Fails (e : MachineFault) (s : Interpreter) : Prop := s.control = .leave (.error e) ∨ s.control = .back (.error e)

def AtLimit (r : Except MachineFault Outcome) : Prop := r = .error .instructionLimit ∨ r = .error .callDepthLimit

section
variable {m : Machine} {s s' : Interpreter} {limits : Limits}

theorem Fails.advance {e : MachineFault} (told : e ≠ .endless) (fails : Fails e s) : Fails e (m.advance s) := by
  obtain ⟨control, callers, d, n, heap, trace⟩ := s
  obtain rfl | rfl := fails
  · exact .inr rfl
  · cases callers with
    | nil => exact .inr rfl
    | cons c callers => exact .inl (Control.after_error told)

theorem Fails.leads {e : MachineFault} {r : Except MachineFault Outcome} (told : e ≠ .endless) (fails : Fails e s)
    (leads : m.Leads s s') (control : s'.control = .back r) : r = .error e := by
  obtain ⟨n, rfl⟩ := leads
  have fails : Fails e (m.advance^[n] s) := Function.Iterate.rec _ fails (fun _ => Fails.advance told) n
  rw [Fails, control] at fails
  rcases fails with leaves | back
  · cases leaves
  · exact Control.back.inj back

/-- A move is the same within larger limits, unless it goes beyond the smaller ones. -/
theorem advance_of_le (more : m.limits.maxInstructions ≤ limits.maxInstructions)
    (deeper : m.limits.maxCallDepth ≤ limits.maxCallDepth) (s : Interpreter) :
    advance { m with limits } s = m.advance s ∨ Fails .instructionLimit (m.advance s) ∨
      Fails .callDepthLimit (m.advance s) := by
  obtain ⟨control, callers, d, n, heap, trace⟩ := s
  cases control with
  | enter body args =>
    by_cases full : m.limits.maxCallDepth ≤ d
    · exact .inr (.inr (.inr (by simp only [advance, if_pos full])))
    · have free : ¬ limits.maxCallDepth ≤ d := fun le => full (Nat.le_trans deeper le)
      exact .inl (by simp only [advance, if_neg full, if_neg free])
  | run f =>
    cases ahead : f.ahead with
    | nil => exact .inl (by simp only [advance, ahead])
    | cons line behind =>
      by_cases full : m.limits.maxInstructions < (n + 1).toNat
      · exact .inr (.inl (.inl (by simp only [advance, ahead, if_pos full])))
      · have free : ¬ limits.maxInstructions < (n + 1).toNat := fun lt => full (Nat.lt_of_le_of_lt more lt)
        refine .inl ?_
        simp only [advance, ahead, if_neg full, if_neg free]
        rfl
  | _ => exact .inl rfl

theorem iterate_of_le (more : m.limits.maxInstructions ≤ limits.maxInstructions)
    (deeper : m.limits.maxCallDepth ≤ limits.maxCallDepth) {n : Nat} {r : Except MachineFault Outcome}
    (control : (m.advance^[n] s).control = .back r) (free : ¬ AtLimit r) :
    (advance { m with limits })^[n] s = m.advance^[n] s := by
  induction n generalizing s with
  | zero => rfl
  | succ n ih =>
    rw [Function.iterate_succ_apply] at control ⊢
    rcases advance_of_le more deeper s with same | full | full
    · rw [same]
      exact ih control
    · exact absurd (.inl (full.leads nofun ⟨n, rfl⟩ control)) free
    · exact absurd (.inr (full.leads nofun ⟨n, rfl⟩ control)) free

end

/-- A run comes to its end, with the result that `execute` has, unless it has to make the text of a value that
leads to itself. On its way it stays within the limits and counts the open frames, and every body that is entered
comes back to the callers and the count of before. Larger limits change no result but that of a limit. -/
theorem execute_bounded (m : Machine) (answers : m.Answers) (narrow : m.limits.maxInstructions < 2 ^ 64 - 1)
    (body : Body) (args : List Value) (heap : Heap) (trace : Array HostCall) :
    let start : Interpreter := { control := .enter body args, heap, trace }
    let out := m.execute body args { heap, trace }
    ((∃ n, ∀ k, n ≤ k → m.execute? k body args start = some (out.1, start.reach (.back out.1) out.2)) ∨
      (∀ k, m.execute? k body args start = none) ∧ ∃ n v,
        (m.advance^[n] start).control = .stuck ∧ ¬ (m.advance^[n] start).heap.Ends v) ∧
    (∀ n, let s := m.advance^[n] start
      s.executed.toNat ≤ m.limits.maxInstructions + 1 ∧ s.frames ≤ m.limits.maxCallDepth ∧ s.depth = s.frames) ∧
    (∀ n body' args', let s := m.advance^[n] start
      s.control = .enter body' args' →
        ∃ k, (∃ r w, m.advance^[k] s = s.reach (.back r) w) ∨ (m.advance^[k] s).control = .stuck) ∧
    ∀ limits : Limits, m.limits.maxInstructions ≤ limits.maxInstructions →
      m.limits.maxCallDepth ≤ limits.maxCallDepth → ∀ k r s, m.execute? k body args start = some (r, s) →
        ¬ AtLimit r → execute? { m with limits } k body args start = some (r, s) := by
  intro start out
  have sound : m.Sound start := ⟨rfl, Nat.zero_le _, Nat.zero_le _, trivial⟩
  refine ⟨?_, fun n => ?_, fun n body' args' enter => ?_, fun limits more deeper k r s ended free => ?_⟩
  · rcases returns narrow m.limits.maxCallDepth start body args sound rfl (Nat.zero_add _) with
      ⟨-, s', ⟨n, rfl⟩, stuck⟩ | ⟨-, ⟨n, ended⟩, -⟩
    · refine .inr ⟨fun k => ?_, n, ?_⟩
      · rw [execute?, run?_of_stuck ⟨n, rfl⟩ stuck]
        rfl
      · obtain ⟨v, circle⟩ := held_iterate answers narrow sound nofun n stuck
        exact ⟨v, stuck, circle⟩
    · exact .inl ⟨n + 1, fun k le => execute?_eq_some_iff.2 ⟨⟨n, le, ended⟩, rfl, rfl⟩⟩
  · obtain ⟨depth, room, count, -⟩ := sound_iterate narrow sound n
    have excess (c : Control) : c.excess ≤ 1 := by
      unfold Control.excess
      split <;> omega
    exact ⟨Nat.le_trans count (Nat.add_le_add_left (excess _) _), depth ▸ room, depth⟩
  · have sound := sound_iterate narrow sound n
    rcases returns narrow (m.limits.maxCallDepth - Interpreter.depth _) _ body' args' sound enter
        (Nat.add_sub_of_le sound.room) with ⟨-, s', ⟨k, rfl⟩, stuck⟩ | ⟨-, ⟨k, back⟩, -⟩
    · exact ⟨k, .inr stuck⟩
    · exact ⟨k, .inl ⟨_, _, back⟩⟩
  · obtain ⟨⟨n, lt, rfl⟩, none, control⟩ := execute?_eq_some_iff.1 ended
    exact execute?_eq_some_iff.2 ⟨⟨n, lt, iterate_of_le more deeper control free⟩, none, control⟩

def bare : Machine where
  scope := { module := { name := "" } }

theorem bare_answers : bare.Answers := fun _ _ _ _ held => by cases held

def brief : Machine := { bare with limits := { maxInstructions := 20, maxCallDepth := 1 } }

/-- A branch to itself. -/
def spin : Body where
  code := [(⟨0⟩, .branch .br ⟨0⟩)]
  nextIndex := 1

theorem execute_bounded_spin :
    let start : Interpreter := { control := .enter spin [] }
    brief.Answers ∧ brief.limits.maxInstructions < 2 ^ 64 - 1 ∧
    brief.execute? 24 spin [] start = some (.error .instructionLimit,
      { control := .back (.error .instructionLimit), executed := 21 }) ∧
    (∀ n, let s := brief.advance^[n] start
      s.executed.toNat ≤ 21 ∧ s.frames ≤ 1 ∧ s.depth = s.frames) := by
  have answers : brief.Answers := bare_answers
  have narrow : brief.limits.maxInstructions < 2 ^ 64 - 1 := by decide
  have ended : brief.execute? 24 spin [] { control := .enter spin [] } = some (.error .instructionLimit,
      { control := .back (.error .instructionLimit), executed := 21 }) :=
    execute?_eq_some_iff.2 ⟨⟨23, by decide, by cbv⟩, rfl, rfl⟩
  obtain ⟨-, within, -⟩ := execute_bounded brief answers narrow spin [] #[] #[]
  exact ⟨answers, narrow, ended, within⟩

/-! ## Runs without an end -/

/-- The widest limit on instructions is never reached: the counter goes back to zero. -/
theorem spin_endless :
    let wide : Machine := { bare with limits := { maxInstructions := 2 ^ 64 - 1 } }
    ∀ n, wide.execute? n spin [] { control := .enter spin [] } = none := by
  intro wide n
  have goes (n : Nat) : ∃ f, (wide.advance^[n + 1] { control := .enter spin [] }).control = .run f ∧
      f.body = spin ∧ f.ahead = spin.code := by
    induction n with
    | zero => exact ⟨.start spin [], rfl, rfl, rfl⟩
    | succ n ih =>
      rw [Function.iterate_succ_apply']
      generalize wide.advance^[n + 1] _ = s at ih
      obtain ⟨control, callers, d, n, heap, trace⟩ := s
      obtain ⟨f, rfl, body, ahead⟩ := ih
      have free : ¬ 2 ^ 64 - 1 < (n + 1).toNat := Nat.not_lt.2 (Nat.le_pred_of_lt (n + 1).isLt)
      obtain ⟨_, _, stack, locals, args, leaves, constrained⟩ := f
      subst body ahead
      refine ⟨⟨spin, spin.code, stack, locals, args, leaves, none⟩, ?_, rfl, rfl⟩
      change Interpreter.control (ite _ _ _) = _
      rw [if_neg free]
      rfl
  cases ended : wide.execute? n spin [] _ with
  | none => rfl
  | some x =>
    obtain ⟨r, s⟩ := x
    obtain ⟨⟨k, -, rfl⟩, -, control⟩ := execute?_eq_some_iff.1 ended
    cases k with
    | zero => cases control
    | succ k =>
      obtain ⟨f, runs, -⟩ := goes k
      cases runs.symm.trans control

/-- An array is stored in itself, and then taken for an address. -/
def knot : Body where
  code := [(⟨0⟩, .ldcI4 1), (⟨1⟩, .typed .newarr .object), (⟨2⟩, .stloc 0), (⟨3⟩, .ldloc 0), (⟨4⟩, .ldcI4 0),
    (⟨5⟩, .ldloc 0), (⟨6⟩, .typed .stelem .object), (⟨7⟩, .ldloc 0), (⟨8⟩, .typed .ldobj .object), (⟨9⟩, ⟨.ret, .none⟩)]
  nextIndex := 10
  locals := #[.object]

/-- The interpreter of `knot` when the array leads to itself. -/
def tied : Interpreter where
  control := .run { Frame.start knot [] with ahead := knot.code.drop 8, stack := [.array 0], locals := #[.array 0] }
  depth := 1
  executed := 8
  heap := #[⟨.object, #[.array 0]⟩]

theorem tied_text : tied.heap.text? (.array 0) = none := by
  have circle {ref : Nat} (acc : Acc tied.heap.Holds ref) : ¬ tied.heap.Holds ref ref := by
    induction acc with
    | intro ref _ ih => exact fun self => ih ref self self
  refine Option.not_isSome_iff_eq_none.1 fun ended => ?_
  exact circle (Heap.text?_isSome_iff.1 ended 0 rfl) ⟨_, .array 0, rfl, .head _, rfl⟩

theorem knot_endless : bare.Answers ∧ bare.limits.maxInstructions < 2 ^ 64 - 1 ∧
    ∀ n, bare.execute? n knot [] { control := .enter knot [] } = none := by
  have leads : bare.Leads { control := .enter knot [] } tied := ⟨9, by cbv⟩
  have held : bare.advance tied =
      { tied with control := .after (.error (tied.heap.fault .notAddress (.array 0))), executed := 9 } := rfl
  rw [Heap.fault, tied_text] at held
  refine ⟨bare_answers, by decide, fun n => ?_⟩
  rw [execute?, run?_of_stuck (leads.trans (.move held)) rfl]
  rfl

end Machine

end CilForge
