import CilForge.Proofs.Finally.Flatten
import CilForge.Proofs.Machine.Enough

/-!
# Runs keep to the depths

The depths of a body say how many values are on the stack whenever a run comes to an instruction.
So no instruction fails for want of a value, and a run that does fail so has failed in a method
that it called.
-/

namespace CilForge

namespace Machine

/-- The frames that the run of a frame comes to, each with the world around it. -/
inductive Comes (m : Machine) (callee : Executor) (f : Frame) (w : World) : Frame → World → Prop where
  | here : Comes m callee f w f w
  | step {g w₁ h i behind g' w₂} : Comes m callee f w g w₁ → g.ahead = (h, i) :: behind →
      w₁.executed < m.limits.maxInstructions →
      m.step callee { g with ahead := behind } h i (w₁.later 1 w₁.memory) = (.ok (.inl g'), w₂) →
      Comes m callee f w g' w₂

/-- The frames that a machine comes to in the body it carries out. -/
def Visits (m : Machine) (b : Body) (args : List Value) (w : World) (g : Frame) (w' : World) : Prop :=
  ∃ depth, m.limits.maxCallDepth = depth + 1 ∧ Comes m (m.executeWithin depth) (.start b args) w g w'

/-- A method that a frame calls fails for want of a value. -/
def FailsInCall (m : Machine) (g : Frame) (w w' : World) : Prop :=
  ∃ depth g₁ a ref args, m.limits.maxCallDepth = depth + 1 ∧ Acts g w.memory g₁ a ∧
    a.callee? = some (ref, args) ∧
    m.dispatch (m.executeWithin depth) ref args (w.later 1 w.memory) = (.error .stackUnderflow, w')

variable {m : Machine} {callee : Executor} {f g : Frame} {w w' w₁ : World} {h : Handle} {i : Instr}
  {behind : List (Handle × Instr)}

theorem step_of_run {f' : Frame} (ahead : f.ahead = (h, i) :: behind)
    (s : m.step callee { f with ahead := behind } h i w = (.ok (.inl f'), w')) :
    ∃ k mem', Step m (fun _ _ _ _ _ _ => True) f w.memory k f' mem' := by
  obtain ⟨g, a, act, out | done | call⟩ := step_cases s
  · obtain ⟨o, -, eq, -⟩ := out
    cases eq
  · obtain ⟨f₁, mem', done, eq, -⟩ := done
    cases eq
    exact ⟨_, _, .move ⟨h, i, behind, ahead, act⟩ done⟩
  · obtain ⟨ref, args, v, f₁, target, answer, resume, eq⟩ := call
    cases eq
    cases hb : m.body? ref with
    | error e =>
      rw [dispatch, hb] at answer
      cases answer
    | ok body? =>
      cases body? with
      | none =>
        obtain ⟨mem', outside, -⟩ := outside?_of_dispatch hb answer
        exact ⟨_, _, .ask ⟨h, i, behind, ahead, act⟩ target hb outside resume⟩
      | some body => exact ⟨1, w.memory, .call ⟨h, i, behind, ahead, act⟩ target hb trivial resume⟩

theorem quietly_afterCall (f : Frame) (ref : MethodRef) (v : Option Value) :
    Quietly (afterCall f ref v) := by
  cases v with
  | none => exact .ite trivial nofun
  | some v => exact .ite trivial nofun

theorem quietly_afterNew (f : Frame) (ref : MethodRef) (v : Option Value) : Quietly (afterNew f ref v) := by
  cases v with
  | none => exact nofun
  | some v => trivial

theorem dispatch_underflow {ref : MethodRef} {args : List Value}
    {after : Option Value → Except MachineFault Frame} (quiet : ∀ v, Quietly (after v))
    (s : (match m.dispatch callee ref args w with
      | (.error e, w) => (.error e, w)
      | (.ok result, w) => ((after result).map .inl, w) : Answer (Frame ⊕ Outcome)) =
        (.error .stackUnderflow, w')) :
    m.dispatch callee ref args w = (.error .stackUnderflow, w') := by
  obtain ⟨r, w₁, eq⟩ : ∃ r w₁, m.dispatch callee ref args w = (r, w₁) := ⟨_, _, rfl⟩
  simp only [eq] at s ⊢
  cases r with
  | error e =>
    cases s
    rfl
  | ok v =>
    cases ha : after v with
    | error e =>
      simp only [ha] at s
      cases s
      exact absurd ha (quiet v).ne
    | ok f' =>
      simp only [ha] at s
      cases s

/-- Two ways for a step to fail for want of a value: in its instruction, or in a method called. -/
theorem step_underflow (s : m.step callee f h i w = (.error .stackUnderflow, w')) :
    f.act w.heap h i = .error .stackUnderflow ∨ ∃ g a ref args, f.act w.heap h i = .ok (g, a) ∧
      a.callee? = some (ref, args) ∧ m.dispatch callee ref args w = (.error .stackUnderflow, w') := by
  unfold step at s
  cases act : f.act w.heap h i with
  | error e =>
    rw [act] at s
    cases s
    exact .inl rfl
  | ok r =>
    obtain ⟨g, a⟩ := r
    refine .inr ⟨g, a, ?_⟩
    simp only [act] at s
    cases a with
    | call ref args => exact ⟨ref, args, rfl, rfl, dispatch_underflow (quietly_afterCall g ref) s⟩
    | new ref args => exact ⟨ref, args, rfl, rfl, dispatch_underflow (quietly_afterNew g ref) s⟩
    | jump goal =>
      cases hg : g.goTo goal with
      | ok f' =>
        simp only [hg] at s
        cases s
      | error e =>
        simp only [hg] at s
        cases s
        exact absurd hg (g.quietly_goTo goal).ne
    | _ => cases s

theorem Comes.fails (comes : Comes m callee f w g w₁) {fuel : Nat} {e : MachineFault}
    (run : m.runFrame callee fuel g w₁ = (.error e, w')) (limit : e ≠ .instructionLimit)
    (inside : e ≠ .fellOffEnd) :
    ∃ g w₁ h i behind, Comes m callee f w g w₁ ∧ g.ahead = (h, i) :: behind ∧
      m.step callee { g with ahead := behind } h i (w₁.later 1 w₁.memory) = (.error e, w') := by
  induction fuel generalizing g w₁ with
  | zero =>
    cases run
    exact absurd rfl limit
  | succ fuel ih =>
    cases ahead : g.ahead with
    | nil =>
      rw [runFrame] at run
      simp only [ahead] at run
      cases run
      exact absurd rfl inside
    | cons line behind =>
      obtain ⟨h, i⟩ := line
      by_cases room : w₁.executed + 1 ≤ m.limits.maxInstructions
      · rw [runFrame_succ ahead room] at run
        obtain ⟨r, w₂, s⟩ : ∃ r w₂,
            m.step callee { g with ahead := behind } h i (w₁.later 1 w₁.memory) = (r, w₂) := ⟨_, _, rfl⟩
        rw [s] at run
        rcases r with e | g' | o
        · cases run
          exact ⟨g, w₁, h, i, behind, comes, ahead, s⟩
        · exact ih (comes.step ahead room s) run
        · cases run
      · rw [runFrame] at run
        simp only [ahead] at run
        rw [if_pos (Nat.lt_of_not_le room)] at run
        cases run
        exact absurd rfl limit

end Machine

/-! ## The depth of a frame -/

/-- A frame of a body with as many values as the depths say. Where a `leave` is on its way, it
will find none. -/
structure Measured (b : Body) (depths : Body.Depths) (f : Frame) : Prop where
  body : f.body = b
  suffix : f.ahead <:+ b.code
  depth : ∀ h i behind, f.ahead = (h, i) :: behind → depths[h]? = some f.stack.length
  leaves : ∀ d ∈ f.leaves, ∀ h ∈ d.target :: d.handlers, depths[h]? = some 0

namespace Frame

theorem leftHandlers_finally {f : Frame} {source target : Handle} {handlers : List Handle}
    (left : f.leftHandlers source target = .ok handlers) {h : Handle} (mem : h ∈ handlers) :
    ∃ r ∈ f.body.regions, r.isFinally = true ∧ r.handlerStart = h := by
  obtain ⟨p, -, left⟩ := Except.bind_eq_ok.1 left
  obtain ⟨q, -, left⟩ := Except.bind_eq_ok.1 left
  obtain ⟨exits, each, left⟩ := Except.bind_eq_ok.1 left
  cases left
  obtain ⟨⟨size, _⟩, exit, rfl⟩ := List.mem_map.1 mem
  have exit := List.mem_filterMap.1 (List.mem_mergeSort.1 exit)
  obtain ⟨_, exit, rfl⟩ := exit
  obtain ⟨r, region, eq⟩ := mem_right_of_forall₂ (forall₂_of_mapM each) exit
  obtain ⟨region, isFinally⟩ := List.mem_filter.1 region
  obtain ⟨low, -, eq⟩ := Except.bind_eq_ok.1 eq
  obtain ⟨high, -, eq⟩ := Except.bind_eq_ok.1 eq
  refine ⟨r, region, isFinally, ?_⟩
  simp only [pure, Except.pure, Except.ok.injEq] at eq
  split at eq
  · cases eq
    rfl
  · cases eq

/-- A `leave` that is carried out has a destination, and its handlers are known. -/
theorem act_leave_cases {f g : Frame} {heap : Heap} {h : Handle} {i : Instr} {a : Action}
    (opcode : i.opcode = .leave) (act : f.act heap h i = .ok (g, a)) :
    ∃ target handlers, i.target? = some target ∧ f.leftHandlers h target = .ok handlers := by
  simp only [Frame.act, opcode, reduceCtorEq, if_false] at act
  obtain ⟨target, needed, act⟩ := Except.bind_eq_ok.1 act
  obtain ⟨handlers, left, -⟩ := Except.bind_eq_ok.1 act
  refine ⟨target, handlers, ?_, left⟩
  unfold Instr.needTarget at needed
  split at needed
  · cases needed
    assumption
  · cases needed

end Frame

namespace Measured

open Body

variable {b : Body} {depths : Depths} {m : Machine} {f f' : Frame} {h : Handle} {i : Instr}
  {behind : List (Handle × Instr)} {k : Nat} {mem mem' : Memory} {R : Carries}

theorem start (found : b.depths = .ok depths) (args : List Value) : Measured b depths (.start b args) := by
  refine ⟨rfl, List.suffix_refl _, ?_, nofun⟩
  intro h i behind ahead
  exact depths_first found ahead

theorem departed (measured : Measured b depths f) {handlers : List Handle} {target : Handle}
    {outer : List Departure} (inner : ∀ h ∈ target :: handlers, depths[h]? = some 0)
    (outers : ∀ d ∈ outer, ∀ h ∈ d.target :: d.handlers, depths[h]? = some 0) :
    Measured b depths (Finally.departed f
      ((handlers.tail?.map fun rest => (⟨rest, target⟩ : Departure)).toList ++ outer)
      (b.codeFrom (handlers.headD target))) := by
  refine ⟨measured.body, List.dropWhile_suffix _, ?_, ?_⟩
  · intro h i behind ahead
    rw [head_codeFrom ahead]
    apply inner
    cases handlers with
    | nil => exact List.mem_cons_self ..
    | cons first rest => exact List.mem_cons_of_mem _ (List.mem_cons_self ..)
  · intro d mem
    cases handlers with
    | nil => exact outers d mem
    | cons first rest =>
      rcases List.mem_cons.1 mem with rfl | mem
      · intro h there
        rcases List.mem_cons.1 there with rfl | there
        · exact inner _ (List.mem_cons_self ..)
        · exact inner h (List.mem_cons_of_mem _ (List.mem_cons_of_mem _ there))
      · exact outers d mem

variable (num : b.Numbered) (found : b.depths = .ok depths) (measured : Measured b depths f)
  (ahead : f.ahead = (h, i) :: behind)
include num found measured ahead

omit num found in
theorem known : depths[h]? = some f.stack.length := measured.depth h i behind ahead

theorem plain (pops : i.counts.1 ≤ 255) (opcode : i.opcode.isPlain = true)
    (step : Machine.Step m R f mem k f' mem') : Measured b depths f' := by
  obtain ⟨way, lands, -⟩ := step.plain ahead opcode
  obtain ⟨before, code⟩ := measured.suffix
  rw [ahead] at code
  refine ⟨lands.body.trans measured.body, ?_, ?_, lands.leaves ▸ measured.leaves⟩
  · rw [lands.ahead, measured.body]
    cases way with
    | none => exact ⟨before ++ [(h, i)], by rw [← code]; simp [onward]⟩
    | some goal => exact List.dropWhile_suffix _
  · intro h' i' rest there
    exact depths_lands num found code.symm measured.body opcode pops lands (measured.known ahead) there

theorem leave (opcode : i.opcode = .leave) (step : Machine.Step m R f mem k f' mem') :
    Measured b depths f' := by
  obtain ⟨g, a, acts, -⟩ := step.acts
  obtain ⟨target, handlers, goes, left⟩ := Frame.act_leave_cases opcode (acts.eq ahead)
  have acted : Frame.act { f with ahead := behind } mem.heap h i = _ :=
    Finally.act_leave opcode goes fun _ => left
  obtain ⟨-, rfl, -⟩ := Finally.step_of_jump ahead acted step
  have line : (h, i) ∈ b.code := measured.suffix.subset (ahead ▸ List.mem_cons_self ..)
  have gone : ∀ x ∈ target :: handlers, depths[x]? = some 0 := by
    intro x there
    rcases List.mem_cons.1 there with rfl | there
    · exact depths_leave num found line opcode goes (measured.known ahead)
    · obtain ⟨r, region, isFinally, rfl⟩ := Frame.leftHandlers_finally left there
      exact depths_handler found (measured.body ▸ region) isFinally
  have after := measured.departed gone measured.leaves
  rw [← measured.body] at after
  exact measured.body ▸ after

omit num found in
theorem endfinally (opcode : i.opcode = .endfinally) (step : Machine.Step m R f mem k f' mem') :
    Measured b depths f' := by
  obtain ⟨g, a, acts, -⟩ := step.acts
  have act := acts.eq ahead
  cases waiting : f.leaves with
  | nil =>
    have stray : Frame.act { f with ahead := behind } mem.heap h i = _ := Finally.act_stray opcode waiting
    cases stray.symm.trans act
  | cons d outer =>
    obtain ⟨handlers, target⟩ := d
    have acted : Frame.act { f with ahead := behind } mem.heap h i = _ :=
      Finally.act_endfinally opcode waiting
    obtain ⟨-, rfl, -⟩ := Finally.step_of_jump ahead acted step
    have leaves := measured.leaves
    rw [waiting] at leaves
    have after := measured.departed (leaves _ (List.mem_cons_self ..)) fun d there =>
      leaves d (List.mem_cons_of_mem _ there)
    rw [← measured.body] at after
    exact measured.body ▸ after

theorem step (pops : ∀ p ∈ b.code, p.2.counts.1 ≤ 255) (step : Machine.Step m R f mem k f' mem') :
    Measured b depths f' := by
  have line : (h, i) ∈ b.code := measured.suffix.subset (ahead ▸ List.mem_cons_self ..)
  by_cases leave : i.opcode = .leave
  · exact measured.leave num found ahead leave step
  · by_cases endfinally : i.opcode = .endfinally
    · exact measured.endfinally ahead endfinally step
    · by_cases ret : i.opcode = .ret
      · obtain ⟨g, a, acts, going⟩ := step.acts
        have returns : Frame.act { f with ahead := behind } mem.heap h i = _ := Finally.act_ret ret
        cases returns.symm.trans (acts.eq ahead)
        cases going
      · have plain : i.opcode.isPlain = true := by simp [Opcode.isPlain, leave, endfinally, ret]
        exact measured.plain num found ahead (pops _ line) plain step

omit num in
theorem act_ne (num : b.Numbered) (pops : ∀ p ∈ b.code, p.2.counts.1 ≤ 255) (heap : Heap) :
    Frame.act { f with ahead := behind } heap h i ≠ .error .stackUnderflow := by
  obtain ⟨before, code⟩ := measured.suffix
  rw [ahead] at code
  have enough := (depths_onward num found code.symm (measured.known ahead)).1
  rw [(depthAfter_eq (pops (h, i) (code ▸ by simp)) 0).1] at enough
  exact (act_spares { f with ahead := behind } heap h i enough).ne

end Measured

theorem Machine.Comes.measured {m : Machine} {callee : Executor} {b : Body} {depths : Body.Depths}
    {f g : Frame} {w w' : World} (num : b.Numbered) (found : b.depths = .ok depths)
    (pops : ∀ p ∈ b.code, p.2.counts.1 ≤ 255) (start : Measured b depths f)
    (comes : Comes m callee f w g w') : Measured b depths g := by
  induction comes with
  | here => exact start
  | step comes ahead room s ih =>
    obtain ⟨k, mem', step⟩ := step_of_run ahead s
    exact ih.step num found ahead pops step

/-- Whenever a run comes to an instruction, the depth of the instruction is known and is that of the
stack. The instruction does not fail for want of a value; where a run fails so, it has come to a
call and the method called has failed. -/
theorem depths_sound {b : Body} {depths : Body.Depths} (reachable : b.Reachable)
    (found : b.depths = .ok depths) (pops : ∀ p ∈ b.code, p.2.counts.1 ≤ 255) (m : Machine)
    (args : List Value) (w : World) :
    (∀ g w₁, m.Visits b args w g w₁ → ∀ h i behind, g.ahead = (h, i) :: behind →
      depths[h]? = some g.stack.length ∧
        Frame.act { g with ahead := behind } w₁.heap h i ≠ .error .stackUnderflow) ∧
    ∀ w', m.execute b args w = (.error .stackUnderflow, w') →
      ∃ g w₁, m.Visits b args w g w₁ ∧ m.FailsInCall g w₁ w' := by
  have num := reachable.numbered
  have start := Measured.start found args
  constructor
  · rintro g w₁ ⟨depth, -, comes⟩ h i behind ahead
    have measured := comes.measured num found pops start
    exact ⟨measured.known ahead, measured.act_ne found ahead num pops w₁.heap⟩
  · intro w' run
    rw [Machine.execute] at run
    cases room : m.limits.maxCallDepth with
    | zero =>
      rw [room] at run
      cases run
    | succ depth =>
      rw [room, Machine.executeWithin] at run
      obtain ⟨g, w₁, h, i, behind, comes, ahead, s⟩ := Machine.Comes.here.fails run (by simp) (by simp)
      have measured := comes.measured num found pops start
      refine ⟨g, w₁, ⟨depth, room, comes⟩, ?_⟩
      rcases Machine.step_underflow s with act | ⟨g₁, a, ref, args', act, callee, answer⟩
      · exact absurd act (measured.act_ne found ahead num pops _)
      · exact ⟨depth, g₁, a, ref, args', room, ⟨h, i, behind, ahead, act⟩, callee, answer⟩

/-! ## A stack that is cleared twice -/

/-- A `leave` and an `endfinally` with a value on the stack. -/
def cluttered : Body where
  code := [(⟨0⟩, .ldcI4 1), (⟨1⟩, .branch .leave ⟨4⟩), (⟨2⟩, .ldcI4 2), (⟨3⟩, ⟨.endfinally, .none⟩),
    (⟨4⟩, .ldcI4 3), (⟨5⟩, ⟨.ret, .none⟩)]
  nextIndex := 6
  regions := [{ tryStart := ⟨0⟩, tryEnd := some ⟨2⟩, handlerStart := ⟨2⟩, handlerEnd := some ⟨4⟩ }]

def clutteredEdits : List Edit.Op := [
  .push (.ldcI4 1), .push ⟨.leave, .none⟩, .push (.ldcI4 2), .push ⟨.endfinally, .none⟩,
  .push (.ldcI4 3), .push ⟨.ret, .none⟩, .setOperand ⟨1⟩ (.target ⟨4⟩),
  .addRegion { tryStart := ⟨0⟩, tryEnd := some ⟨2⟩, handlerStart := ⟨2⟩, handlerEnd := some ⟨4⟩ }]

theorem cluttered_reachable : cluttered.Reachable := .of_edits clutteredEdits rfl

theorem cluttered_consistent : cluttered.Consistent fun h => h.index % 2 := by decide

theorem depths_sound_cluttered : ∃ depths, cluttered.Reachable ∧ cluttered.depths = .ok depths ∧
    (∀ p ∈ cluttered.code, p.2.counts.1 ≤ 255) ∧
    (∃ w', Finally.quiet.execute cluttered [] {} = (.ok (.returned (some (.i32 3))), w')) ∧
    (∀ g w₁, Finally.quiet.Visits cluttered [] {} g w₁ → ∀ h i behind, g.ahead = (h, i) :: behind →
      depths[h]? = some g.stack.length ∧
        Frame.act { g with ahead := behind } w₁.heap h i ≠ .error .stackUnderflow) ∧
    ∀ w', Finally.quiet.execute cluttered [] {} = (.error .stackUnderflow, w') →
      ∃ g w₁, Finally.quiet.Visits cluttered [] {} g w₁ ∧ Finally.quiet.FailsInCall g w₁ w' := by
  obtain ⟨depths, found, -⟩ := Body.depths_of_consistent cluttered_reachable.numbered cluttered_consistent
  have pops : ∀ p ∈ cluttered.code, p.2.counts.1 ≤ 255 := by decide
  have run : Finally.quiet.execute cluttered [] {} = (.ok (.returned (some (.i32 3))), { executed := 6 }) := by cbv
  exact ⟨depths, cluttered_reachable, found, pops, ⟨_, run⟩,
    depths_sound cluttered_reachable found pops Finally.quiet [] {}⟩

end CilForge
