import CilForge.Proofs.Draft.Finish
import CilForge.Proofs.Draft.Linked

/-!
# Calls of an assembler

An assembler is called again and again until its draft is finished. If no call is refused, the calls
read as a script, with locals and regions beside it, and the draft can be finished exactly if each
name that is used is bound in front of an instruction, or for the end of a region anywhere.
-/

namespace CilForge

namespace Asm

inductive Call where
  | declareLocal (sig : Sig)
  | label (name : String)
  | emit (i : Instr)
  | op (opcode : Opcode)
  | typed (opcode : Opcode) (sig : Sig)
  | branch (opcode : Opcode) (label : String)
  | switch (labels : List String)
  | tryFinally (r : LabelledRegion)

namespace Call

def act : Call → Asm Unit
  | .declareLocal sig => Asm.declareLocal sig
  | .label name => Asm.label name
  | .emit i => Asm.emit i
  | .op opcode => Asm.op opcode
  | .typed opcode sig => Asm.typed opcode sig
  | .branch opcode l => Asm.branch opcode l
  | .switch ls => Asm.switch ls
  | .tryFinally r => Asm.tryFinally r

/-- What a call gives that has led to a draft: for a local its index, in sixteen bits. -/
def gives (a : Draft) : Call → Option Nat
  | .declareLocal _ => some ((a.locals.size - 1) % 65536)
  | _ => none

def line? : Call → Option Line
  | .label name => some (.label name)
  | .emit i => some (.code (.plain i))
  | .op opcode => some (.code (.plain ⟨opcode, .none⟩))
  | .typed opcode sig => some (.code (.plain (.typed opcode sig)))
  | .branch opcode l => some (.code (.branch opcode l))
  | .switch ls => some (.code (.switch ls))
  | .declareLocal _ | .tryFinally _ => none

def local? : Call → Option Sig
  | .declareLocal sig => some sig
  | _ => none

def region? : Call → Option LabelledRegion
  | .tryFinally r => some r
  | _ => none

/-- An instruction that the call writes is one that an assembly takes. -/
def Fits (c : Call) : Prop := ∀ p, c.line? = some (.code p) → p.Proper

end Call

def written (cs : List Call) : Script := cs.filterMap Call.line?

def declared (cs : List Call) : List Sig := cs.filterMap Call.local?

def guarded (cs : List Call) : List LabelledRegion := cs.filterMap Call.region?

end Asm

namespace Draft

open Asm

def call (a : Draft) (c : Call) : Draft := (c.act a).2

def after (a : Draft) (cs : List Call) : Draft := cs.foldl call a

def answer (a : Draft) (c : Call) : Except Fault (Option Nat) := (c.act a).1.map fun _ => c.gives (a.call c)

/-- The answers of calls one after the other, each with the number of instructions by then. -/
def answers (a : Draft) : List Call → List (Except Fault (Option Nat) × Nat)
  | [] => []
  | c :: cs => (a.answer c, (a.call c).pending.size) :: (a.call c).answers cs

def Takes (a : Draft) (cs : List Call) : Prop := ∀ r ∈ a.answers cs, ∃ given, r.1 = .ok given

def add (a : Draft) (ls : List Sig) (rs : List LabelledRegion) : Draft :=
  { a with locals := a.locals ++ ls, regions := a.regions ++ rs }

variable {a : Draft} {c : Call} {cs : List Call}

theorem answer_eq_ok : (∃ given, a.answer c = .ok given) ↔ (c.act a).1 = .ok () := by
  unfold answer
  cases (c.act a).1 with
  | ok _ => exact ⟨fun _ => rfl, fun _ => ⟨_, rfl⟩⟩
  | error e => exact ⟨nofun, nofun⟩

theorem takes_cons : a.Takes (c :: cs) ↔ (c.act a).1 = .ok () ∧ (a.call c).Takes cs := by
  rw [Takes, answers, List.forall_mem_cons, answer_eq_ok]
  rfl

theorem act_eq_ok : (c.act a).1 = .ok () ↔ (∀ l, c = .label l → l ∉ a.labels) ∧ c.Fits := by
  have emitted (i : Instr) : (Asm.emit i a).1 = .ok () ↔ (Pending.plain i).Proper := by
    unfold Asm.emit
    cases branch : i.opcode.isBranch <;> cases formed : i.wellFormed <;>
      simp [Pending.Proper, branch, formed]
  unfold Call.Fits
  cases c with
  | label l =>
    simp only [Call.act, Asm.label]
    by_cases known : l ∈ a.labels <;> simp [known, Call.line?]
  | emit i => simpa [Call.act, Call.line?] using emitted i
  | op opcode => simpa [Call.act, Call.line?, Asm.op] using emitted ⟨opcode, .none⟩
  | typed opcode sig => simpa [Call.act, Call.line?, Asm.typed] using emitted (.typed opcode sig)
  | branch opcode l =>
    by_cases target : opcode.operandKind = .target <;>
      simp [Call.act, Call.line?, Asm.branch, Pending.Proper, target]
  | switch ls => simp [Call.act, Call.line?, Asm.switch, Pending.Proper]
  | declareLocal sig => simp [Call.act, Call.line?, Asm.declareLocal]
  | tryFinally r => simp [Call.act, Call.line?, Asm.tryFinally]

theorem call_of_fits (fits : c.Fits) :
    a.call c = (a.extend c.line?.toList).add c.local?.toList c.region?.toList := by
  have emitted (i : Instr) (proper : (Pending.plain i).Proper) :
      (Asm.emit i a).2 = { a with pending := a.pending.push (.plain i) } := by
    simp [Asm.emit, proper.1, proper.2]
  cases c with
  | emit i => exact emitted i (fits _ rfl)
  | op opcode => exact emitted ⟨opcode, .none⟩ (fits _ rfl)
  | typed opcode sig => exact emitted (.typed opcode sig) (fits _ rfl)
  | branch opcode l =>
    have target : opcode.operandKind = .target := fits _ rfl
    rw [call, Call.act, Asm.branch, if_pos target]
    rfl
  | label l | switch ls | declareLocal sig | tryFinally r => rfl

theorem call_of_not_fits (unfit : ¬ c.Fits) : a.call c = a := by
  have emitted {i : Instr} (unfit : ¬ Call.Fits (.emit i)) : (Asm.emit i a).2 = a := by
    have refused : (i.opcode.isBranch || !i.wellFormed) = true := by
      by_contra proper
      refine unfit fun p line => ?_
      cases line
      simpa [Pending.Proper] using proper
    rw [Asm.emit, if_pos refused]
  cases c with
  | emit i => exact emitted unfit
  | op opcode => exact emitted unfit
  | typed opcode sig => exact emitted unfit
  | branch opcode l =>
    have target : opcode.operandKind ≠ .target := fun target => unfit fun p line => by cases line; exact target
    rw [call, Call.act, Asm.branch, if_neg target]
  | switch ls =>
    refine absurd (fun p line => ?_) unfit
    cases line
    exact True.intro
  | label l | declareLocal sig | tryFinally r =>
    refine absurd (fun p line => ?_) unfit
    cases line

theorem extend_add (ls : List Sig) (rs : List LabelledRegion) : ∀ {s : Script} {a : Draft},
    (a.add ls rs).extend s = (a.extend s).add ls rs
  | [], _ => rfl
  | .label l :: s, a => extend_add ls rs (s := s) (a := { a with labels := a.labels.insert l a.pending.size })
  | .code p :: s, a => extend_add ls rs (s := s) (a := { a with pending := a.pending.push p })

theorem add_add (ls ls' : List Sig) (rs rs' : List LabelledRegion) :
    (a.add ls rs).add ls' rs' = a.add (ls ++ ls') (rs ++ rs') := by
  have join {α : Type} (xs : Array α) (l l' : List α) : xs ++ l ++ l' = xs ++ (l ++ l') := List.foldl_append.symm
  rw [add, add, add, join, join]

theorem filterMap_cons {α β : Type} (f : α → Option β) (x : α) (l : List α) :
    (x :: l).filterMap f = (f x).toList ++ l.filterMap f := by
  rw [List.filterMap_cons]
  cases f x <;> rfl

theorem after_of_takes : ∀ {cs : List Call} {a : Draft}, a.Takes cs →
    a.after cs = (a.extend (written cs)).add (declared cs) (guarded cs) ∧ a.Accepts (written cs) ∧
      ∀ p ∈ (written cs).code, p.Proper
  | [], _, _ => ⟨rfl, ⟨List.nodup_nil, fun _ mem => absurd mem List.not_mem_nil⟩,
      fun _ mem => absurd mem List.not_mem_nil⟩
  | c :: cs, a, takes => by
    obtain ⟨taken, rest⟩ := takes_cons.1 takes
    obtain ⟨eq, ⟨nodup, new⟩, proper⟩ := after_of_takes rest
    obtain ⟨fresh, fits⟩ := act_eq_ok.1 taken
    have step := call_of_fits (a := a) fits
    have labels (l : String) : l ∈ (a.call c).labels ↔ l ∈ a.labels ∨ l ∈ Script.labels c.line?.toList := by
      rw [step]
      exact mem_labels_extend
    rw [written, filterMap_cons, ← written, declared, filterMap_cons, ← declared, guarded, filterMap_cons, ← guarded]
    refine ⟨?_, ⟨?_, ?_⟩, ?_⟩
    · rw [show a.after (c :: cs) = (a.call c).after cs from rfl, eq, step, extend_add, add_add, ← extend_append]
    · rw [Script.labels_append, List.nodup_append]
      refine ⟨?_, nodup, ?_⟩
      · cases c <;> simp [Call.line?]
      · rintro l mine _ others rfl
        exact new l others ((labels l).2 (.inr mine))
    · intro l mem
      rw [Script.labels_append, List.mem_append] at mem
      rcases mem with mine | others
      · refine fresh l ?_
        cases c <;> simp_all [Call.line?]
      · exact fun old => new l others ((labels l).2 (.inl old))
    · intro p mem
      rw [Script.code_append, List.mem_append] at mem
      rcases mem with mine | others
      · refine fits p ?_
        cases c <;> simp_all [Call.line?]
      · exact proper p others

end Draft

namespace Script

/-- The region that names mark off: there is no end if its name stands behind all instructions. -/
def region (s : Script) (r : LabelledRegion) : Region where
  tryStart := ⟨s.place r.tryStart⟩
  tryEnd := if s.place r.tryEnd < s.code.length then some ⟨s.place r.tryEnd⟩ else none
  handlerStart := ⟨s.place r.handlerStart⟩
  handlerEnd := if s.place r.handlerEnd < s.code.length then some ⟨s.place r.handlerEnd⟩ else none

def Reaches (s : Script) (l : String) : Prop := l ∈ s.labels ∧ s.place l < s.code.length

end Script

namespace Asm

/-- Locals can be numbered in sixteen bits, the names of branches and of the starts of regions are
bound in front of instructions, and those of the ends of regions are bound. -/
structure Resolves (cs : List Call) : Prop where
  room : (declared cs).length ≤ 65536
  goals : ∀ p ∈ (written cs).code, ∀ l ∈ p.goals, (written cs).Reaches l
  starts : ∀ r ∈ guarded cs, (written cs).Reaches r.tryStart ∧ (written cs).Reaches r.handlerStart
  ends : ∀ r ∈ guarded cs, r.tryEnd ∈ (written cs).labels ∧ r.handlerEnd ∈ (written cs).labels

section
variable {cs : List Call} (takes : Draft.Takes {} cs)
include takes

theorem pending_after : (Draft.after {} cs).pending.toList = (written cs).code := by
  rw [(Draft.after_of_takes takes).1, Draft.add, Draft.pending_extend]
  rfl

theorem locals_after : (Draft.after {} cs).locals.toList = declared cs := by
  rw [(Draft.after_of_takes takes).1, Draft.add, Draft.locals_extend]
  simp

theorem regions_after : (Draft.after {} cs).regions.toList = guarded cs := by
  rw [(Draft.after_of_takes takes).1, Draft.add, Draft.regions_extend]
  simp

theorem mem_labels_after {l : String} : l ∈ (Draft.after {} cs).labels ↔ l ∈ (written cs).labels := by
  rw [(Draft.after_of_takes takes).1, Draft.add, Draft.mem_labels_extend]
  simp

theorem place_after {l : String} (bound : l ∈ (written cs).labels) :
    (Draft.after {} cs).place l = (written cs).place l := by
  obtain ⟨eq, ⟨nodup, -⟩, -⟩ := Draft.after_of_takes takes
  rw [eq, Draft.place, Draft.add, Draft.getElem?_labels_extend nodup bound, Option.getD_some]
  exact Nat.zero_add _

theorem size_after : (Draft.after {} cs).pending.size = (written cs).code.length := by
  rw [← pending_after takes, Array.length_toList]

theorem stands_after {l : String} : (Draft.after {} cs).Stands l ↔ (written cs).Reaches l := by
  constructor
  · intro stands
    have bound : l ∈ (written cs).labels := by
      obtain ⟨p, -, found⟩ := stands
      rw [← mem_labels_after takes, Std.HashMap.mem_iff_isSome_getElem?, found]
      rfl
    exact ⟨bound, by rw [← place_after takes bound, ← size_after takes]; exact stands.lt⟩
  · rintro ⟨bound, lt⟩
    obtain ⟨eq, ⟨nodup, -⟩, -⟩ := Draft.after_of_takes takes
    refine ⟨_, by rw [size_after takes]; exact lt, ?_⟩
    rw [eq, Draft.add, Draft.getElem?_labels_extend nodup bound]
    exact congrArg some (Nat.zero_add _)

theorem ready_after : (Draft.after {} cs).Ready ↔ Resolves cs := by
  constructor
  · rintro ⟨room, goals, starts, ends⟩
    rw [← Array.length_toList, locals_after takes] at room
    rw [pending_after takes] at goals
    rw [regions_after takes] at starts ends
    exact ⟨room, fun p mem l goes => (stands_after takes).1 (goals p mem l goes),
      fun r mem => (starts r mem).imp (stands_after takes).1 (stands_after takes).1,
      fun r mem => (ends r mem).imp (mem_labels_after takes).1 (mem_labels_after takes).1⟩
  · rintro ⟨room, goals, starts, ends⟩
    refine ⟨by rwa [← Array.length_toList, locals_after takes], ?_, ?_, ?_⟩
    · rw [pending_after takes]
      exact fun p mem l goes => (stands_after takes).2 (goals p mem l goes)
    · rw [regions_after takes]
      exact fun r mem => (starts r mem).imp (stands_after takes).2 (stands_after takes).2
    · rw [regions_after takes]
      exact fun r mem => (ends r mem).imp (mem_labels_after takes).2 (mem_labels_after takes).2

theorem goal_after {l : String} (bound : l ∈ (written cs).labels) :
    (Draft.after {} cs).goal l = ⟨(written cs).place l⟩ := by
  rw [Draft.goal, place_after takes bound]

theorem instr_after {p : Pending} (goals : ∀ l ∈ p.goals, l ∈ (written cs).labels) :
    (Draft.after {} cs).instr p = (written cs).resolve p := by
  cases p with
  | plain i => rfl
  | branch op l => rw [Draft.instr, goal_after takes (goals l (List.mem_singleton_self l))]; rfl
  | switch ls =>
    exact congrArg (fun hs => Instr.mk .switch (.switch hs))
      (List.map_congr_left fun l mem => goal_after takes (goals l mem))

theorem limit_after {l : String} (bound : l ∈ (written cs).labels) : (Draft.after {} cs).limit l =
    if (written cs).place l < (written cs).code.length then some ⟨(written cs).place l⟩ else none := by
  rw [Draft.limit, goal_after takes bound, place_after takes bound, size_after takes]

end

/-- Two names for one instruction, a jump back, a slot forward, and a region to the end. -/
def loop : List Call :=
  [.declareLocal .int32, .label "top", .label "again", .emit (.ldloc 0), .switch ["out", "top"],
    .branch .br "again", .label "out", .op .endfinally, .label "end",
    .tryFinally ⟨"top", "out", "out", "end"⟩]

theorem takes_loop : Draft.Takes {} loop := by
  rw [loop]
  repeat' rw [Draft.takes_cons]
  simp [Draft.call, Call.act, Asm.declareLocal, Asm.label, Asm.emit, Asm.op, Asm.switch, Asm.branch,
    Asm.tryFinally, Instr.ldloc, Opcode.isBranch, Opcode.flow, Opcode.operandKind, Instr.wellFormed, Operand.kind,
    Draft.Takes, Draft.answers]

theorem resolves_loop : Resolves loop where
  room := by decide
  goals := by simp [loop, written, List.filterMap_cons, Call.line?, Pending.goals, Script.Reaches, Script.place]
  starts := by simp [loop, written, List.filterMap_cons, guarded, Call.line?, Call.region?,
    Script.Reaches, Script.place]
  ends := by simp [loop, written, List.filterMap_cons, guarded, Call.line?, Call.region?]

end Asm

end CilForge
