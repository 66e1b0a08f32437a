import CilForge.Machine.Run

/-!
# Runs without limits

`Ends` relates a frame to the way its method ends, and counts the instructions on the way. It does
not know the limits of a machine: `execute_eq_ok_iff` says that a machine reaches an end exactly if
there is one within its limits.
-/

namespace CilForge

/-- What methods share: the heap and the calls that the host has answered. -/
structure Memory where
  heap : Heap
  trace : Array HostCall

def World.memory (w : World) : Memory := ⟨w.heap, w.trace⟩

def World.later (w : World) (n : Nat) (mem : Memory) : World := ⟨w.executed + n, mem.heap, mem.trace⟩

@[simp] theorem World.memory_later (w : World) (n : Nat) (mem : Memory) :
    (w.later n mem).memory = mem := rfl

@[simp] theorem World.executed_later (w : World) (n : Nat) (mem : Memory) :
    (w.later n mem).executed = w.executed + n := rfl

theorem World.later_later (w : World) (n k : Nat) (mem mem' : Memory) :
    (w.later n mem).later k mem' = w.later (n + k) mem' := by
  simp [World.later, Nat.add_assoc]

/-! ## Actions -/

def Frame.perform (f : Frame) (mem : Memory) : Action → Option (Frame × Memory)
  | .next => some (f, mem)
  | .jump goal => (f.goTo goal).toOption.map (·, mem)
  | .alloc element count =>
    let (ref, heap) := mem.heap.alloc element (Array.replicate count (.default element))
    some (f.push ref, { mem with heap })
  | .store ref index v => some (f, { mem with heap := mem.heap.store ref index v })
  | _ => none

def Action.outcome? : Action → Option Outcome
  | .ret v => some (.returned v)
  | .throw v => some (.threw v)
  | _ => none

/-! ## Steps and ends -/

/-- How methods of the module end: instructions counted, memory before and after. -/
abbrev Carries := Body → List Value → Memory → Nat → Outcome → Memory → Prop

namespace Machine

def outside? (m : Machine) (ref : MethodRef) (args : List Value) (mem : Memory) :
    Option (Option Value × Memory) :=
  match Intrinsic.invoke? m.scope mem.heap ref args with
  | some (.ok (v, heap)) => some (some v, { mem with heap })
  | some (.error _) => none
  | none =>
    match m.host.answer mem.trace mem.heap ref args with
    | .ok (v, heap) => some (v, ⟨heap, mem.trace.push ⟨ref, args⟩⟩)
    | .error _ => none

def Acts (f : Frame) (mem : Memory) (f' : Frame) (a : Action) : Prop :=
  ∃ h i behind, f.ahead = (h, i) :: behind ∧
    Frame.act { f with ahead := behind } mem.heap h i = .ok (f', a)

inductive Step (m : Machine) (carries : Carries) (f : Frame) (mem : Memory) :
    Nat → Frame → Memory → Prop where
  | move {f₁ a f' mem'} : Acts f mem f₁ a → f₁.perform mem a = some (f', mem') →
      Step m carries f mem 1 f' mem'
  | call {f₁ a ref args body k v mem' f'} : Acts f mem f₁ a → a.callee? = some (ref, args) →
      m.body? ref = .ok (some body) → carries body args mem k (.returned v) mem' →
      a.resume f₁ ref v = .ok f' → Step m carries f mem (k + 1) f' mem'
  | ask {f₁ a ref args v mem' f'} : Acts f mem f₁ a → a.callee? = some (ref, args) →
      m.body? ref = .ok none → m.outside? ref args mem = some (v, mem') →
      a.resume f₁ ref v = .ok f' → Step m carries f mem 1 f' mem'

/-- The way a frame runs to the end of its method. -/
inductive Ends (m : Machine) (carries : Carries) :
    Frame → Memory → Nat → Outcome → Memory → Prop where
  | stop {f mem f₁ a o} : Acts f mem f₁ a → a.outcome? = some o → Ends m carries f mem 1 o mem
  | step {f mem k f' mem' n o mem''} : Step m carries f mem k f' mem' →
      Ends m carries f' mem' n o mem'' → Ends m carries f mem (k + n) o mem''

/-- How bodies end with room for `depth` frames. -/
def Within (m : Machine) : Nat → Carries
  | 0 => fun _ _ _ _ _ _ => False
  | depth + 1 => fun body args mem n o mem' =>
    Ends m (m.Within depth) (.start body args) mem n o mem'

/-! ## Other limits, and room for more frames -/

theorem Step.transfer {m m' : Machine} {R R' : Carries} (scope : m'.scope = m.scope)
    (host : m'.host = m.host) (sub : ∀ {b a mem n o mem'},
    R b a mem n o mem' → R' b a mem n o mem') {f mem k f' mem'}
    (s : Step m R f mem k f' mem') : Step m' R' f mem k f' mem' := by
  have hb : m'.body? = m.body? := by funext ref; simp [body?, scope]
  have ho : m'.outside? = m.outside? := by funext ref args mem; simp [outside?, scope, host]
  cases s with
  | move acts done => exact .move acts done
  | call acts callee body run resume => exact .call acts callee (hb ▸ body) (sub run) resume
  | ask acts callee body answer resume =>
    exact .ask acts callee (hb ▸ body) (ho ▸ answer) resume

theorem Ends.transfer {m m' : Machine} {R R' : Carries} (scope : m'.scope = m.scope)
    (host : m'.host = m.host) (sub : ∀ {b a mem n o mem'},
    R b a mem n o mem' → R' b a mem n o mem') {f mem n o mem'}
    (e : Ends m R f mem n o mem') : Ends m' R' f mem n o mem' := by
  induction e with
  | stop acts out => exact .stop acts out
  | step s _ ih => exact .step (s.transfer scope host sub) ih

theorem within_transfer {m m' : Machine} (scope : m'.scope = m.scope) (host : m'.host = m.host)
    {d : Nat} : ∀ {b a mem n o mem'},
    m.Within d b a mem n o mem' → m'.Within d b a mem n o mem' := by
  induction d with
  | zero => intro _ _ _ _ _ _ h; exact h.elim
  | succ d ih => intro _ _ _ _ _ _ h; exact Ends.transfer scope host ih h

theorem within_succ {m : Machine} {d : Nat} : ∀ {b a mem n o mem'},
    m.Within d b a mem n o mem' → m.Within (d + 1) b a mem n o mem' := by
  induction d with
  | zero => intro _ _ _ _ _ _ h; exact h.elim
  | succ d ih => intro _ _ _ _ _ _ h; exact Ends.transfer rfl rfl ih h

theorem within_mono {m : Machine} {d d' : Nat} (le : d ≤ d') {b a mem n o mem'}
    (h : m.Within d b a mem n o mem') : m.Within d' b a mem n o mem' := by
  induction le with
  | refl => exact h
  | step _ ih => exact within_succ ih

/-! ## Runs that end -/

/-- What an executor finds is an end. -/
def Finds (callee : Executor) (R : Carries) : Prop :=
  ∀ body args w o w', callee body args w = (.ok o, w') →
    ∃ n mem', R body args w.memory n o mem' ∧ w' = w.later n mem'

theorem outside?_of_dispatch {m : Machine} {callee : Executor} {ref args w v w'}
    (none : m.body? ref = .ok none) (h : m.dispatch callee ref args w = (.ok v, w')) :
    ∃ mem', m.outside? ref args w.memory = some (v, mem') ∧ w' = w.later 0 mem' := by
  unfold dispatch at h
  rw [none] at h
  unfold outside? World.memory
  cases hi : Intrinsic.invoke? m.scope w.heap ref args with
  | some r =>
    rw [hi] at h
    cases r with
    | error e => simp at h
    | ok r => simp at h; obtain ⟨rfl, rfl⟩ := h; exact ⟨_, rfl, rfl⟩
  | none =>
    rw [hi] at h
    cases ha : m.host.answer w.trace w.heap ref args with
    | error e => rw [ha] at h; simp at h
    | ok r => rw [ha] at h; simp at h; obtain ⟨rfl, rfl⟩ := h; exact ⟨_, rfl, rfl⟩

theorem body_of_dispatch {m : Machine} {callee : Executor} {R : Carries} (finds : Finds callee R)
    {ref args w v w' body} (some : m.body? ref = .ok (some body))
    (h : m.dispatch callee ref args w = (.ok v, w')) :
    ∃ k mem', R body args w.memory k (.returned v) mem' ∧ w' = w.later k mem' := by
  unfold dispatch at h
  rw [some] at h
  obtain ⟨r, w₁, hc⟩ : ∃ r w₁, callee body args w = (r, w₁) := ⟨_, _, rfl⟩
  simp only [hc] at h
  match r, h with
  | .ok (.returned _), h =>
    simp only [Prod.mk.injEq, Except.ok.injEq] at h
    obtain ⟨rfl, rfl⟩ := h
    exact finds _ _ _ _ _ hc
  | .ok (.threw _), h => simp at h
  | .error _, h => simp at h

/-- All that a step can do: end the method, act on frame and heap, or call. -/
theorem step_cases {m : Machine} {callee : Executor} {f : Frame} {h : Handle} {i : Instr}
    {w w' : World} {r : Frame ⊕ Outcome} (s : m.step callee f h i w = (.ok r, w')) :
    ∃ f₁ a, f.act w.heap h i = .ok (f₁, a) ∧
      ((∃ o, a.outcome? = some o ∧ r = .inr o ∧ w' = w) ∨
        (∃ f' mem', f₁.perform w.memory a = some (f', mem') ∧ r = .inl f' ∧
          w' = w.later 0 mem') ∨
        ∃ ref args v f', a.callee? = some (ref, args) ∧
          m.dispatch callee ref args w = (.ok v, w') ∧ a.resume f₁ ref v = .ok f' ∧
          r = .inl f') := by
  -- an end keeps the world and a call takes what it dispatches to: the rest is done on frame and memory
  unfold step at s
  cases hact : f.act w.heap h i with
  | error e => simp [hact] at s
  | ok p =>
    obtain ⟨f₁, a⟩ := p
    refine ⟨f₁, a, rfl, ?_⟩
    simp only [hact] at s
    cases a with
    | next =>
      simp only [Prod.mk.injEq, Except.ok.injEq] at s
      exact .inr (.inl ⟨f₁, w.memory, rfl, s.1.symm, s.2.symm⟩)
    | jump goal =>
      cases hg : f₁.goTo goal with
      | error e => simp [hg, Except.map] at s
      | ok f' =>
        simp only [hg, Except.map, Prod.mk.injEq, Except.ok.injEq] at s
        exact .inr (.inl ⟨f', w.memory, by simp [Frame.perform, hg, Except.toOption], s.1.symm,
          s.2.symm⟩)
    | alloc element count =>
      simp only [World.alloc, Prod.mk.injEq, Except.ok.injEq] at s
      exact .inr (.inl ⟨_, _, rfl, s.1.symm, s.2.symm⟩)
    | store ref index v =>
      simp only [Prod.mk.injEq, Except.ok.injEq] at s
      exact .inr (.inl ⟨_, _, rfl, s.1.symm, s.2.symm⟩)
    | ret v =>
      simp only [Prod.mk.injEq, Except.ok.injEq] at s
      exact .inl ⟨_, rfl, s.1.symm, s.2.symm⟩
    | throw v =>
      simp only [Prod.mk.injEq, Except.ok.injEq] at s
      exact .inl ⟨_, rfl, s.1.symm, s.2.symm⟩
    | call ref args =>
      refine .inr (.inr ⟨ref, args, ?_⟩)
      obtain ⟨res, w₁, hd⟩ : ∃ res w₁, m.dispatch callee ref args w = (res, w₁) := ⟨_, _, rfl⟩
      simp only [hd] at s
      cases res with
      | error e => simp at s
      | ok v =>
        simp only [Prod.mk.injEq] at s
        cases ha : afterCall f₁ ref v with
        | error e => simp [ha, Except.map] at s
        | ok f' =>
          simp only [ha, Except.map, Except.ok.injEq] at s
          exact ⟨v, f', rfl, by rw [← s.2]; exact hd, ha, s.1.symm⟩
    | new ref args =>
      refine .inr (.inr ⟨ref, args, ?_⟩)
      obtain ⟨res, w₁, hd⟩ : ∃ res w₁, m.dispatch callee ref args w = (res, w₁) := ⟨_, _, rfl⟩
      simp only [hd] at s
      cases res with
      | error e => simp at s
      | ok v =>
        simp only [Prod.mk.injEq] at s
        cases ha : afterNew f₁ ref v with
        | error e => simp [ha, Except.map] at s
        | ok f' =>
          simp only [ha, Except.map, Except.ok.injEq] at s
          exact ⟨v, f', rfl, by rw [← s.2]; exact hd, ha, s.1.symm⟩

theorem step_of_outcome {m : Machine} {callee : Executor} {f f₁ : Frame} {h : Handle} {i : Instr}
    {w : World} {a : Action} {o : Outcome} (act : f.act w.heap h i = .ok (f₁, a))
    (out : a.outcome? = some o) : m.step callee f h i w = (.ok (.inr o), w) := by
  unfold step
  cases a <;> simp_all [Action.outcome?]

theorem step_of_perform {m : Machine} {callee : Executor} {f f₁ f' : Frame} {h : Handle}
    {i : Instr} {w : World} {a : Action} {mem' : Memory} (act : f.act w.heap h i = .ok (f₁, a))
    (done : f₁.perform w.memory a = some (f', mem')) :
    m.step callee f h i w = (.ok (.inl f'), w.later 0 mem') := by
  unfold step
  cases a with
  | jump goal =>
    simp only [act]
    cases hg : f₁.goTo goal with
    | error e => simp [Frame.perform, hg, Except.toOption] at done
    | ok g =>
      simp only [Frame.perform, hg, Except.toOption, Option.map_some, Option.some.injEq,
        Prod.mk.injEq] at done
      obtain ⟨rfl, rfl⟩ := done
      rfl
  | next | alloc _ _ | store _ _ _ => cases done; simp only [act]; rfl
  | ret _ | throw _ | call _ _ | new _ _ => cases done

theorem step_of_call {m : Machine} {callee : Executor} {f f₁ f' : Frame} {h : Handle} {i : Instr}
    {w w' : World} {a : Action} {ref args v} (act : f.act w.heap h i = .ok (f₁, a))
    (call : a.callee? = some (ref, args)) (answer : m.dispatch callee ref args w = (.ok v, w'))
    (resume : a.resume f₁ ref v = .ok f') :
    m.step callee f h i w = (.ok (.inl f'), w') := by
  unfold step
  cases a <;> simp only [Action.callee?, reduceCtorEq, Option.some.injEq, Prod.mk.injEq] at call <;>
    obtain ⟨rfl, rfl⟩ := call <;> simp only [Action.resume] at resume <;>
    simp only [act, answer, resume, Except.map]

theorem step_of_callee? {m : Machine} {callee : Executor} {f g : Frame} {h : Handle} {i : Instr} {w : World}
    {a : Action} {ref : MethodRef} {args : List Value}
    (act : f.act w.heap h i = .ok (g, a)) (target : a.callee? = some (ref, args)) :
    m.step callee f h i w =
      match m.dispatch callee ref args w with
      | (.ok v, w) => ((a.resume g ref v).map .inl, w)
      | (.error e, w) => (.error e, w) := by
  cases a with
  | call | new =>
    cases target
    simp only [step, act, Action.resume]
    generalize m.dispatch callee ref args w = answer
    obtain ⟨e | v, w'⟩ := answer <;> rfl
  | _ => cases target

theorem runFrame_succ {m : Machine} {callee : Executor} {fuel : Nat} {f : Frame} {w : World}
    {h : Handle} {i : Instr} {behind : List (Handle × Instr)} (ahead : f.ahead = (h, i) :: behind)
    (room : w.executed + 1 ≤ m.limits.maxInstructions) :
    m.runFrame callee (fuel + 1) f w =
      match m.step callee { f with ahead := behind } h i (w.later 1 w.memory) with
      | (.error e, w) => (.error e, w)
      | (.ok (.inr outcome), w) => (.ok outcome, w)
      | (.ok (.inl f), w) => m.runFrame callee fuel f w := by
  rw [runFrame]
  simp only [ahead]
  rw [if_neg (by omega)]
  rfl

theorem runFrame_cases {m : Machine} {callee : Executor} {fuel : Nat} {f : Frame} {w w' : World} {o : Outcome}
    (run : m.runFrame callee (fuel + 1) f w = (.ok o, w')) : ∃ h i behind, f.ahead = (h, i) :: behind ∧
      w.executed + 1 ≤ m.limits.maxInstructions ∧
      ((∃ f' w₁, m.step callee { f with ahead := behind } h i (w.later 1 w.memory) = (.ok (.inl f'), w₁) ∧
          m.runFrame callee fuel f' w₁ = (.ok o, w')) ∨
        m.step callee { f with ahead := behind } h i (w.later 1 w.memory) = (.ok (.inr o), w')) := by
  cases ahead : f.ahead with
  | nil =>
    rw [runFrame] at run
    simp only [ahead] at run
    cases run
  | cons line behind =>
    obtain ⟨h, i⟩ := line
    by_cases room : w.executed + 1 ≤ m.limits.maxInstructions
    · rw [runFrame_succ ahead room] at run
      refine ⟨h, i, behind, rfl, room, ?_⟩
      generalize m.step callee { f with ahead := behind } h i (w.later 1 w.memory) = answer at run ⊢
      obtain ⟨e | f' | o', w₁⟩ := answer
      · cases run
      · exact .inl ⟨f', w₁, rfl, run⟩
      · cases run
        exact .inr rfl
    · rw [runFrame] at run
      simp only [ahead] at run
      rw [if_pos (Nat.lt_of_not_le room)] at run
      cases run

section
variable {m : Machine} {callee : Executor} {f f' : Frame} {h : Handle} {i : Instr} {behind : List (Handle × Instr)}
  {w w' : World} {o : Outcome} (ahead : f.ahead = (h, i) :: behind)
include ahead

theorem acts_of_stop
    (last : m.step callee { f with ahead := behind } h i (w.later 1 w.memory) = (.ok (.inr o), w')) :
    w' = w.later 1 w.memory ∧ ∃ g a, Acts f w.memory g a ∧ a.outcome? = some o := by
  obtain ⟨g, a, act, out | done | call⟩ := step_cases last
  · obtain ⟨_, out, eq, rfl⟩ := out
    cases eq
    exact ⟨rfl, g, a, ⟨h, i, behind, ahead, act⟩, out⟩
  · obtain ⟨_, _, _, eq, -⟩ := done
    cases eq
  · obtain ⟨_, _, _, _, _, _, _, eq⟩ := call
    cases eq

theorem step_of_finds {R : Carries} (finds : Finds callee R)
    (next : m.step callee { f with ahead := behind } h i (w.later 1 w.memory) = (.ok (.inl f'), w')) :
    ∃ k mem', Step m R f w.memory k f' mem' ∧ w' = w.later k mem' := by
  obtain ⟨g, a, act, out | done | call⟩ := step_cases next
  · obtain ⟨_, -, eq, -⟩ := out
    cases eq
  · obtain ⟨_, mem', done, eq, rfl⟩ := done
    cases eq
    exact ⟨1, mem', .move ⟨h, i, behind, ahead, act⟩ done, rfl⟩
  · obtain ⟨ref, args, v, _, target, answer, resume, eq⟩ := call
    cases eq
    cases own : m.body? ref with
    | error e => simp [dispatch, own] at answer
    | ok body? =>
      cases body? with
      | none =>
        obtain ⟨mem', ask, rfl⟩ := outside?_of_dispatch own answer
        exact ⟨1, mem', .ask ⟨h, i, behind, ahead, act⟩ target own ask resume, rfl⟩
      | some body =>
        obtain ⟨k, mem', run, rfl⟩ := body_of_dispatch finds own answer
        refine ⟨k + 1, mem', .call ⟨h, i, behind, ahead, act⟩ target own run resume, ?_⟩
        rw [World.later_later, Nat.add_comm]

end

theorem runFrame_ends {m : Machine} {callee : Executor} {R : Carries} (finds : Finds callee R) (fuel : Nat)
    {f : Frame} {w : World} {o : Outcome} {w' : World} (run : m.runFrame callee fuel f w = (.ok o, w')) :
    ∃ n mem', Ends m R f w.memory n o mem' ∧ w' = w.later n mem' ∧
      w.executed + n ≤ m.limits.maxInstructions := by
  induction fuel generalizing f w with
  | zero => cases run
  | succ fuel ih =>
    obtain ⟨h, i, behind, ahead, room, ⟨f', w₁, next, rest⟩ | last⟩ := runFrame_cases run
    · obtain ⟨k, mem₁, step, rfl⟩ := step_of_finds ahead finds next
      obtain ⟨n, mem', ends, rfl, le⟩ := ih rest
      rw [World.later_later]
      rw [World.executed_later, Nat.add_assoc] at le
      exact ⟨k + n, mem', .step step ends, rfl, le⟩
    · obtain ⟨rfl, g, a, acts, out⟩ := acts_of_stop ahead last
      exact ⟨1, w.memory, .stop acts out, rfl, room⟩

theorem executeWithin_finds (m : Machine) : ∀ depth, Finds (m.executeWithin depth) (m.Within depth)
  | 0, body, args, w, o, w', h => by simp [executeWithin] at h
  | depth + 1, body, args, w, o, w', h => by
    obtain ⟨n, mem', e, later, _⟩ := runFrame_ends (executeWithin_finds m depth) _ h
    exact ⟨n, mem', e, later⟩

/-! ## Ends that are found -/

/-- An executor finds the ends that lie within the limit on instructions. -/
def Attains (m : Machine) (callee : Executor) (R : Carries) : Prop :=
  ∀ body args w n o mem', R body args w.memory n o mem' →
    w.executed + n ≤ m.limits.maxInstructions → callee body args w = (.ok o, w.later n mem')

theorem dispatch_of_outside? {m : Machine} {callee : Executor} {ref args w v mem'}
    (none : m.body? ref = .ok none) (h : m.outside? ref args w.memory = some (v, mem')) :
    m.dispatch callee ref args w = (.ok v, w.later 0 mem') := by
  unfold outside? World.memory at h
  unfold dispatch
  rw [none]
  cases hi : Intrinsic.invoke? m.scope w.heap ref args with
  | some r =>
    simp only [hi] at h ⊢
    cases r with
    | error e => simp at h
    | ok r => simp at h; obtain ⟨rfl, rfl⟩ := h; rfl
  | none =>
    simp only [hi] at h ⊢
    cases ha : m.host.answer w.trace w.heap ref args with
    | error e => simp [ha] at h
    | ok r => simp only [ha] at h ⊢; simp at h; obtain ⟨rfl, rfl⟩ := h; rfl

theorem runFrame_of_ends {m : Machine} {callee : Executor} {R : Carries}
    (attains : Attains m callee R) {f : Frame} {mem : Memory} {n : Nat} {o : Outcome}
    {mem' : Memory} (e : Ends m R f mem n o mem') :
    ∀ (fuel : Nat) (w : World), w.memory = mem → n ≤ fuel →
      w.executed + n ≤ m.limits.maxInstructions →
      m.runFrame callee fuel f w = (.ok o, w.later n mem') := by
  induction e with
  | stop acts out =>
    intro fuel w hw hn room
    obtain ⟨at', i, behind, hf, act⟩ := acts
    obtain ⟨fuel, rfl⟩ : ∃ k, fuel = k + 1 := ⟨fuel - 1, by omega⟩
    subst hw
    rw [runFrame_succ hf room, step_of_outcome (w := w.later 1 w.memory) act out]
  | @step f mem k f' mem' n o mem'' s _ ih =>
    intro fuel w hw hn room
    subst hw
    cases s with
    | @move f₁ a _ _ acts done =>
      obtain ⟨at', i, behind, hf, act⟩ := acts
      obtain ⟨fuel, rfl⟩ : ∃ k, fuel = k + 1 := ⟨fuel - 1, by omega⟩
      rw [runFrame_succ hf (by omega), step_of_perform (w := w.later 1 w.memory) act done]
      simp only [World.later_later, Nat.add_zero]
      rw [ih fuel (w.later 1 mem') rfl (by omega) (by simp only [World.executed_later]; omega),
        World.later_later]
    | @call f₁ a ref args body k v _ _ acts callee' hb run resume =>
      obtain ⟨at', i, behind, hf, act⟩ := acts
      obtain ⟨fuel, rfl⟩ : ∃ k, fuel = k + 1 := ⟨fuel - 1, by omega⟩
      have answer : m.dispatch callee ref args (w.later 1 w.memory) =
          (.ok v, w.later (1 + k) mem') := by
        have := attains body args (w.later 1 w.memory) k _ _ run
          (by simp only [World.executed_later]; omega)
        unfold dispatch
        simp only [hb, this, World.later_later]
      rw [runFrame_succ hf (by omega), step_of_call (w := w.later 1 w.memory) act callee' answer resume]
      simp only
      rw [ih fuel (w.later (1 + k) mem') rfl (by omega)
        (by simp only [World.executed_later]; omega), World.later_later]
      rw [show 1 + k + n = k + 1 + n by omega]
    | @ask f₁ a ref args v _ _ acts callee' hb ask resume =>
      obtain ⟨at', i, behind, hf, act⟩ := acts
      obtain ⟨fuel, rfl⟩ : ∃ k, fuel = k + 1 := ⟨fuel - 1, by omega⟩
      have answer : m.dispatch callee ref args (w.later 1 w.memory) = _ :=
        dispatch_of_outside? (w := w.later 1 w.memory) hb ask
      rw [runFrame_succ hf (by omega), step_of_call (w := w.later 1 w.memory) act callee' answer resume]
      simp only [World.later_later, Nat.add_zero]
      rw [ih fuel (w.later 1 mem') rfl (by omega) (by simp only [World.executed_later]; omega),
        World.later_later]

theorem executeWithin_attains (m : Machine) :
    ∀ depth, Attains m (m.executeWithin depth) (m.Within depth)
  | 0, _, _, _, _, _, _, h, _ => h.elim
  | depth + 1, body, args, w, n, o, mem', h, room =>
    runFrame_of_ends (executeWithin_attains m depth) h _ w rfl (by omega) room

/-- A machine carries out a body exactly if the body ends within the limits of the machine. -/
theorem execute_eq_ok_iff {m : Machine} {body : Body} {args : List Value} {w w' : World}
    {o : Outcome} : m.execute body args w = (.ok o, w') ↔ ∃ n mem',
      m.Within m.limits.maxCallDepth body args w.memory n o mem' ∧
        w.executed + n ≤ m.limits.maxInstructions ∧ w' = w.later n mem' := by
  constructor
  · intro h
    unfold execute at h
    cases hd : m.limits.maxCallDepth with
    | zero => simp [hd, executeWithin] at h
    | succ depth =>
      rw [hd] at h
      obtain ⟨n, mem', e, later, le⟩ := runFrame_ends (executeWithin_finds m depth) _ h
      exact ⟨n, mem', e, le, later⟩
  · rintro ⟨n, mem', run, room, rfl⟩
    exact executeWithin_attains m _ body args w n o mem' run room

section
variable {m m' : Machine} {body : Body} {args : List Value} {w w' w'' : World} {o o' : Outcome}
  (scope : m'.scope = m.scope) (host : m'.host = m.host)
include scope host

/-- A run that ends is the same under larger limits. -/
theorem execute_mono (depth : m.limits.maxCallDepth ≤ m'.limits.maxCallDepth)
    (count : m.limits.maxInstructions ≤ m'.limits.maxInstructions)
    (run : m.execute body args w = (.ok o, w')) : m'.execute body args w = (.ok o, w') := by
  obtain ⟨n, mem, within, room, rfl⟩ := execute_eq_ok_iff.1 run
  refine execute_eq_ok_iff.2 ⟨n, mem, ?_, Nat.le_trans room count, rfl⟩
  exact within_transfer scope host (within_mono depth within)

/-- Limits do not decide how a run ends. -/
theorem execute_unique (run : m.execute body args w = (.ok o, w'))
    (run' : m'.execute body args w = (.ok o', w'')) : o = o' ∧ w' = w'' := by
  let top : Machine := { m with limits := {
    maxInstructions := max m.limits.maxInstructions m'.limits.maxInstructions
    maxCallDepth := max m.limits.maxCallDepth m'.limits.maxCallDepth } }
  have first : top.execute body args w = (.ok o, w') :=
    execute_mono (m := m) rfl rfl (Nat.le_max_left ..) (Nat.le_max_left ..) run
  have second : top.execute body args w = (.ok o', w'') :=
    execute_mono scope.symm host.symm (Nat.le_max_right ..) (Nat.le_max_right ..) run'
  rw [first] at second
  cases second
  exact ⟨rfl, rfl⟩

end

end Machine

end CilForge
