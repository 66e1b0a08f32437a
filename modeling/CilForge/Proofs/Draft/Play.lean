import CilForge.Proofs.Draft.Script
import CilForge.Proofs.Machine.Ends

/-!
# Running scripts

The body of a script is run by reading the script: an instruction goes on with the lines behind it,
and a jump goes on behind its label. Handles and places do not occur any more.
-/

namespace CilForge

open Script

theorem dropWhile_numbered (back : List Instr) : ∀ (front : List Instr) (start : Nat),
    (numbered start (front ++ back)).dropWhile (·.1 ≠ ⟨start + front.length⟩) =
      numbered (start + front.length) back
  | [], start => by
    cases back with
    | nil => rfl
    | cons i is => simp [numbered]
  | i :: front, start => by
    have ih := dropWhile_numbered back front (start + 1)
    rw [List.cons_append, numbered, List.dropWhile_cons_of_pos (by simp)]
    rw [List.length_cons, show start + (front.length + 1) = start + 1 + front.length by omega]
    exact ih

namespace Script

def ahead (s back : Script) : List (Handle × Instr) :=
  numbered (s.code.length - back.code.length) (back.code.map s.resolve)

def frame (s : Script) (args : Array Value) (back : Script) (stack : List Value) : Frame :=
  { body := s.body, ahead := s.ahead back, stack, locals := #[], args }

theorem length_code_of_suffix {s back : Script} {p : Pending} (suffix : .code p :: back <:+ s) :
    back.code.length + 1 ≤ s.code.length := by
  obtain ⟨front, rfl⟩ := suffix
  simp only [code_append, code_code, List.length_append, List.length_cons]
  omega

theorem ahead_code {s back : Script} {p : Pending} (suffix : .code p :: back <:+ s) :
    ∃ h, s.ahead (.code p :: back) = (h, s.resolve p) :: s.ahead back := by
  have len := length_code_of_suffix suffix
  refine ⟨⟨s.code.length - (back.code.length + 1)⟩, ?_⟩
  rw [ahead, code_code, List.map_cons, numbered, ahead, List.length_cons]
  rw [show s.code.length - (back.code.length + 1) + 1 = s.code.length - back.code.length by omega]

theorem codeFrom_place {s : Script} {l : String} (mem : l ∈ s.labels) :
    s.body.codeFrom ⟨s.place l⟩ = s.ahead (s.after l) := by
  obtain ⟨front, hs, hp⟩ := split_at mem
  have cut : s.code = front.code ++ (s.after l).code := by
    have := congrArg code hs
    simpa using this
  have len := congrArg List.length cut
  rw [List.length_append] at len
  have := dropWhile_numbered ((s.after l).code.map s.resolve) (front.code.map s.resolve) 0
  rw [← List.map_append, ← cut, List.length_map, Nat.zero_add, ← hp] at this
  rw [Body.codeFrom, body, this, ahead, hp]
  congr 1
  omega

theorem after_suffix {s : Script} {l : String} (mem : l ∈ s.labels) : s.after l <:+ s := by
  obtain ⟨front, hs, -⟩ := split_at mem
  exact ⟨front ++ [.label l], by rw [List.append_assoc, List.singleton_append, ← hs]⟩

/-- Run from the lines of `back` on, the method of a script ends within `n` instructions. -/
def Plays (m : Machine) (carries : Carries) (s : Script) (args : Array Value) (back : Script)
    (stack : List Value) (mem : Memory) (n : Nat) (o : Outcome) : Prop :=
  back <:+ s → ∃ k ≤ n, m.Ends carries (s.frame args back stack) mem k o mem

variable {m : Machine} {R : Carries} {s : Script} {args : Array Value} {back : Script}
  {stack stack' : List Value} {mem : Memory} {n : Nat} {o : Outcome} {p : Pending} {l : String}

theorem Plays.mono {n' : Nat} (h : Plays m R s args back stack mem n o) (le : n ≤ n') :
    Plays m R s args back stack mem n' o := fun suffix =>
  have ⟨k, hk, e⟩ := h suffix
  ⟨k, by omega, e⟩

theorem Plays.label (h : Plays m R s args back stack mem n o) :
    Plays m R s args (.label l :: back) stack mem n o := fun suffix =>
  h ((List.suffix_cons _ _).trans suffix)

/-- The frame stands before the first instruction, and `act` says what that does. -/
theorem acts_code {f : Frame} {a : Action} (suffix : .code p :: back <:+ s)
    (act : ∀ h, (s.frame args back stack).act mem.heap h (s.resolve p) = .ok (f, a)) :
    Machine.Acts (s.frame args (.code p :: back) stack) mem f a := by
  obtain ⟨h, hahead⟩ := ahead_code suffix
  exact ⟨h, s.resolve p, s.ahead back, hahead, act h⟩

theorem Plays.next (act : ∀ h, (s.frame args back stack).act mem.heap h (s.resolve p) =
      .ok (s.frame args back stack', .next))
    (h : Plays m R s args back stack' mem n o) :
    Plays m R s args (.code p :: back) stack mem (n + 1) o := by
  intro suffix
  obtain ⟨k, hk, e⟩ := h ((List.suffix_cons _ _).trans suffix)
  exact ⟨1 + k, by omega, .step (.move (acts_code suffix act) rfl) e⟩

theorem goTo_place (mem : l ∈ s.labels) (ne : s.ahead (s.after l) ≠ []) :
    (s.frame args back stack).goTo ⟨s.place l⟩ = .ok (s.frame args (s.after l) stack) := by
  unfold Frame.goTo frame
  simp only
  rw [codeFrom_place mem]
  cases hc : s.ahead (s.after l) with
  | nil => exact absurd hc ne
  | cons _ _ => rfl

theorem ahead_ne_nil {f : Frame} {k : Nat} {mem' : Memory} (e : m.Ends R f mem k o mem') :
    f.ahead ≠ [] := by
  have acts {g a} (h : Machine.Acts f mem g a) : f.ahead ≠ [] := by
    obtain ⟨_, _, _, hf, -⟩ := h
    simp [hf]
  cases e with
  | stop h _ => exact acts h
  | step s _ =>
    cases s with
    | move h _ => exact acts h
    | call h _ _ _ _ => exact acts h
    | ask h _ _ _ _ => exact acts h

theorem Plays.jump (bound : l ∈ s.labels)
    (act : ∀ h, (s.frame args back stack).act mem.heap h (s.resolve p) =
      .ok (s.frame args back stack', .jump ⟨s.place l⟩))
    (h : Plays m R s args (s.after l) stack' mem n o) :
    Plays m R s args (.code p :: back) stack mem (n + 1) o := by
  intro suffix
  obtain ⟨k, hk, e⟩ := h (after_suffix bound)
  have goes : (s.frame args back stack').perform mem (.jump ⟨s.place l⟩) =
      some (s.frame args (s.after l) stack', mem) := by
    simp only [Frame.perform, goTo_place bound (ahead_ne_nil e)]
    rfl
  exact ⟨1 + k, by omega, .step (.move (acts_code suffix act) goes) e⟩

theorem Plays.stop {f : Frame} {a : Action}
    (act : ∀ h, (s.frame args back stack).act mem.heap h (s.resolve p) = .ok (f, a))
    (out : a.outcome? = some o) : Plays m R s args (.code p :: back) stack mem 1 o :=
  fun suffix => ⟨1, Nat.le_refl 1, .stop (acts_code suffix act) out⟩

theorem Plays.ask {f : Frame} {a : Action} {ref : MethodRef} {as : List Value} {v : Option Value}
    (act : ∀ h, (s.frame args back stack).act mem.heap h (s.resolve p) = .ok (f, a))
    (callee : a.callee? = some (ref, as)) (body : m.body? ref = .ok none)
    (answer : m.outside? ref as mem = some (v, mem))
    (resume : a.resume f ref v = .ok (s.frame args back stack'))
    (h : Plays m R s args back stack' mem n o) :
    Plays m R s args (.code p :: back) stack mem (n + 1) o := by
  intro suffix
  obtain ⟨k, hk, e⟩ := h ((List.suffix_cons _ _).trans suffix)
  exact ⟨1 + k, by omega, .step (.ask (acts_code suffix act) callee body answer resume) e⟩

theorem Plays.within {args : List Value} {d : Nat}
    (h : Plays m (m.Within d) s args.toArray s [] mem n o) :
    ∃ k ≤ n, m.Within (d + 1) s.body args mem k o mem := by
  obtain ⟨k, hk, e⟩ := h (List.suffix_refl s)
  refine ⟨k, hk, ?_⟩
  have start : s.frame args.toArray s [] = .start s.body args := by
    simp [frame, ahead, Frame.start, body]
  rw [start] at e
  exact e

end Script

end CilForge
