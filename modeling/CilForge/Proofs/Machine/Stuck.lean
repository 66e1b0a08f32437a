import CilForge.Proofs.CallSite.Lines
import CilForge.Proofs.Draft.Play

/-!
# Runs that come to no end

An instruction that faults ends the run without an end of the method, and so does whatever leads to it.
No limits help: what is stuck is not carried out by any machine (`execute_ne_ok_of_stuck`).
-/

namespace CilForge

namespace Machine

def Stuck (m : Machine) (R : Carries) (f : Frame) (mem : Memory) : Prop :=
  ∀ n o mem', ¬ Ends m R f mem n o mem'

section
variable {m : Machine} {R : Carries} {f g : Frame} {mem : Memory} {h : Handle} {i : Instr}
  {behind : List (Handle × Instr)} (ahead : f.ahead = (h, i) :: behind)
include ahead

theorem Stuck.of_fault {e : MachineFault} (act : Frame.act { f with ahead := behind } mem.heap h i = .error e) :
    Stuck m R f mem := by
  have none {g : Frame} {a : Action} (acts : Acts f mem g a) : False := by
    cases (acts.eq ahead).symm.trans act
  intro n o mem' ends
  cases ends with
  | stop acts _ => exact none acts
  | step s _ =>
    obtain ⟨_, _, acts, -⟩ := s.acts
    exact none acts

theorem Stuck.of_next (act : Frame.act { f with ahead := behind } mem.heap h i = .ok (g, .next))
    (stuck : Stuck m R g mem) : Stuck m R f mem := by
  intro n o mem' ends
  cases ends with
  | stop acts out =>
    cases (acts.eq ahead).symm.trans act
    cases out
  | step s ends =>
    obtain ⟨rfl, rfl⟩ := s.eq_of_next ahead act
    exact stuck _ _ _ ends

theorem Stuck.of_call {ref : MethodRef} {args : List Value} {b : Body}
    (act : Frame.act { f with ahead := behind } mem.heap h i = .ok (g, .call ref args))
    (body : m.body? ref = .ok (some b)) (never : ∀ k o mem', ¬ R b args mem k o mem') : Stuck m R f mem := by
  intro n o mem' ends
  cases ends with
  | stop acts out =>
    cases (acts.eq ahead).symm.trans act
    cases out
  | step s ends =>
    cases s with
    | move acts done =>
      cases (acts.eq ahead).symm.trans act
      cases done
    | call acts callee body' run =>
      cases (acts.eq ahead).symm.trans act
      cases callee
      cases body'.symm.trans body
      exact never _ _ _ run
    | ask acts callee body' =>
      cases (acts.eq ahead).symm.trans act
      cases callee
      cases body'.symm.trans body

end

theorem execute_ne_ok_of_stuck {m : Machine} {body : Body} {args : List Value} {w : World}
    (stuck : ∀ depth, Stuck m (m.Within depth) (.start body args) w.memory) (o : Outcome) (w' : World) :
    m.execute body args w ≠ (.ok o, w') := by
  intro run
  obtain ⟨n, mem', within, -⟩ := execute_eq_ok_iff.1 run
  cases frames : m.limits.maxCallDepth with
  | zero =>
    rw [frames] at within
    exact within
  | succ depth =>
    rw [frames] at within
    exact stuck depth _ _ _ within

end Machine

namespace Script

/-- Run from the lines of `back` on, the method of a script comes to no end. -/
def Jams (m : Machine) (R : Carries) (s : Script) (args : Array Value) (back : Script) (stack : List Value)
    (mem : Memory) : Prop :=
  back <:+ s → m.Stuck R (s.frame args back stack) mem

variable {m : Machine} {R : Carries} {s : Script} {args : Array Value} {back : Script}
  {stack stack' : List Value} {mem : Memory} {p : Pending}

theorem Jams.next (act : ∀ h, (s.frame args back stack).act mem.heap h (s.resolve p) =
      .ok (s.frame args back stack', .next))
    (jams : Jams m R s args back stack' mem) : Jams m R s args (.code p :: back) stack mem := by
  intro suffix
  obtain ⟨h, ahead⟩ := ahead_code suffix
  exact .of_next ahead (act h) (jams ((List.suffix_cons _ _).trans suffix))

theorem Jams.fault (act : ∀ h, ∃ e, (s.frame args back stack).act mem.heap h (s.resolve p) = .error e) :
    Jams m R s args (.code p :: back) stack mem := by
  intro suffix
  obtain ⟨h, ahead⟩ := ahead_code suffix
  obtain ⟨e, act⟩ := act h
  exact .of_fault ahead act

/-- A script that jams is the body of a method that comes to no end, however many frames there are. -/
theorem Jams.not_within {args : List Value} (jams : ∀ R, Jams m R s args.toArray s [] mem) :
    ∀ depth k o mem', ¬ m.Within depth s.body args mem k o mem'
  | 0, _, _, _, within => within
  | depth + 1, k, o, mem', within => by
    have start : s.frame args.toArray s [] = .start s.body args := by
      simp [frame, ahead, Frame.start, body]
    have stuck := jams (m.Within depth) (List.suffix_refl s)
    rw [start] at stuck
    exact stuck k o mem' within

end Script

end CilForge
