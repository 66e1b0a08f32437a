import CilForge.Proofs.Draft.Calls

/-!
# Refused calls

A refused call leaves a draft as it is, but for one: a label that is bound already is reported and yet
moves to where the draft has got to. No later call tells, since a name that is bound stays bound, but
what the draft is finished to does: a branch may still go there.
-/

namespace CilForge

namespace Draft

open Asm

/-- Two drafts that differ at most in where their names are bound. -/
structure Alike (a b : Draft) : Prop where
  pending : a.pending = b.pending
  regions : a.regions = b.regions
  locals : a.locals = b.locals
  names : ∀ l, l ∈ a.labels ↔ l ∈ b.labels

structure Same (a b : Draft) : Prop extends Alike a b where
  places : ∀ l : String, a.labels[l]? = b.labels[l]?

/-- No name is bound behind where the draft has got to. -/
def Behind (a : Draft) : Prop := ∀ (l : String) (p : Nat), a.labels[l]? = some p → p ≤ a.pending.size

def Proper (a : Draft) : Prop := ∀ p ∈ a.pending.toList, p.Proper

variable {a b : Draft} {c : Call} {l : String}

/-! ## Drafts that are alike -/

theorem Alike.extend : ∀ {s : Script} {a b : Draft}, a.Alike b → (a.extend s).Alike (b.extend s)
  | [], _, _, alike => alike
  | .label n :: s, a, b, alike => by
    refine Alike.extend (s := s) ⟨alike.pending, alike.regions, alike.locals, fun l => ?_⟩
    rw [Std.HashMap.mem_insert, Std.HashMap.mem_insert, alike.names]
  | .code p :: s, a, b, alike =>
    Alike.extend (s := s) ⟨congrArg (Array.push · p) alike.pending, alike.regions, alike.locals, alike.names⟩

theorem Alike.add (alike : a.Alike b) (ls : List Sig) (rs : List LabelledRegion) : (a.add ls rs).Alike (b.add ls rs) :=
  ⟨alike.pending, congrArg (fun x : Array LabelledRegion => x ++ rs) alike.regions,
    congrArg (fun x : Array Sig => x ++ ls) alike.locals, alike.names⟩

theorem Alike.call (alike : a.Alike b) : (a.call c).Alike (b.call c) := by
  by_cases fits : c.Fits
  · rw [call_of_fits fits, call_of_fits fits]
    exact alike.extend.add _ _
  · rwa [call_of_not_fits fits, call_of_not_fits fits]

theorem Alike.act (alike : a.Alike b) : (c.act a).1 = (c.act b).1 := by
  cases c with
  | label l =>
    have known : a.labels.contains l = b.labels.contains l := Bool.eq_iff_iff.2 (by simpa using alike.names l)
    simp only [Call.act, Asm.label, known]
  | emit i | op opcode | typed opcode sig =>
    simp only [Call.act, Asm.op, Asm.typed, Asm.emit]
    split <;> rfl
  | branch opcode l =>
    simp only [Call.act, Asm.branch]
    split <;> rfl
  | switch ls | declareLocal sig | tryFinally r => rfl

theorem Alike.answers : ∀ {cs : List Call} {a b : Draft}, a.Alike b → a.answers cs = b.answers cs
  | [], _, _, _ => rfl
  | c :: cs, a, b, alike => by
    have gives : c.gives (a.call c) = c.gives (b.call c) := by
      cases c <;> simp only [Call.gives, alike.call.locals]
    rw [Draft.answers, Draft.answers, answer, answer, alike.act, gives, alike.call.pending, Alike.answers alike.call]

/-! ## Drafts that are the same -/

theorem Same.extend : ∀ {s : Script} {a b : Draft}, a.Same b → (a.extend s).Same (b.extend s)
  | [], _, _, same => same
  | .label n :: s, a, b, same => by
    refine Same.extend (s := s) ⟨same.toAlike.extend (s := [.label n]), fun l => ?_⟩
    rw [Std.HashMap.getElem?_insert, Std.HashMap.getElem?_insert, same.places, same.pending]
  | .code p :: s, a, b, same => Same.extend (s := s) ⟨same.toAlike.extend (s := [.code p]), same.places⟩

theorem Same.call (same : a.Same b) : (a.call c).Same (b.call c) := by
  by_cases fits : c.Fits
  · rw [call_of_fits fits, call_of_fits fits]
    exact ⟨same.toAlike.extend.add _ _, same.extend.places⟩
  · rwa [call_of_not_fits fits, call_of_not_fits fits]

theorem Same.after : ∀ (cs : List Call) {a b : Draft}, a.Same b → (a.after cs).Same (b.after cs)
  | [], _, _, same => same
  | _ :: cs, _, _, same => Same.after cs same.call

theorem after_append {cs ds : List Call} : a.after (cs ++ ds) = (a.after cs).after ds := List.foldl_append

theorem Same.finish (same : a.Same b) : a.finish = b.finish := by
  have resolve (ids : Array Handle) : a.resolve ids = b.resolve ids := funext fun l => by
    simp only [Draft.resolve, same.places]
  have target (ids : Array Handle) : a.resolveTarget ids = b.resolveTarget ids := funext fun l => by
    rw [Draft.resolveTarget, Draft.resolveTarget, resolve]
  have operand (ids : Array Handle) : a.resolveOperand ids = b.resolveOperand ids := funext fun p => by
    cases p <;> simp only [Draft.resolveOperand, target]
  have region (ids : Array Handle) : a.resolveRegion ids = b.resolveRegion ids := funext fun r => by
    simp only [Draft.resolveRegion, target, resolve]
  have close (ids : Array Handle) : a.close ids Edit.gateway = b.close ids Edit.gateway := funext fun p => by
    rw [Draft.close, Draft.close, operand]
  have protect (ids : Array Handle) : a.protect ids Edit.gateway = b.protect ids Edit.gateway := funext fun r => by
    rw [Draft.protect, Draft.protect, region]
  simp only [Draft.finish, Draft.finishWith, Draft.write, close, protect, same.pending, same.regions, same.locals]

theorem finish_of_full : ∀ (cs : List Call) {a : Draft}, 65536 < a.locals.size →
    (a.after cs).finish = .error (.invariant .tooManyLocals)
  | [], a, full => by
    have refused := forM_declare_full a.locals.toList (b := {}) (Nat.zero_le _) (by simpa using full)
    rw [after, List.foldl_nil, finish, finishWith, write, run_bind]
    cases came : a.locals.toList.forM (declare Edit.gateway) ({} : Body) with
    | mk r b =>
      rw [came] at refused
      subst refused
      rfl
  | c :: cs, a, full => by
    refine finish_of_full cs (a := a.call c) ?_
    by_cases fits : c.Fits
    · have grown : (a.call c).locals = a.locals ++ c.local?.toList := by rw [call_of_fits fits, add, locals_extend]
      rw [grown, ← Array.length_toList, Array.toList_appendList, List.length_append, Array.length_toList]
      exact Nat.lt_add_right _ full
    · rwa [call_of_not_fits fits]

/-! ## Telling apart where a name is bound -/

theorem Behind.extend : ∀ {s : Script} {a : Draft}, a.Behind → (a.extend s).Behind
  | [], _, behind => behind
  | .label n :: s, a, behind => by
    refine Behind.extend (s := s) fun l p found => ?_
    rw [Std.HashMap.getElem?_insert] at found
    split at found
    · exact Nat.le_of_eq (Option.some.inj found).symm
    · exact behind l p found
  | .code q :: s, a, behind => by
    refine Behind.extend (s := s) fun l p found => ?_
    rw [Array.size_push]
    exact Nat.le_succ_of_le (behind l p found)

theorem Behind.after : ∀ (cs : List Call) {a : Draft}, a.Behind → (a.after cs).Behind
  | [], _, behind => behind
  | c :: cs, a, behind => by
    refine Behind.after cs ?_
    by_cases fits : c.Fits
    · rw [call_of_fits fits]
      exact behind.extend
    · rwa [call_of_not_fits fits]

theorem Proper.after : ∀ (cs : List Call) {a : Draft}, a.Proper → (a.after cs).Proper
  | [], _, proper => proper
  | c :: cs, a, proper => by
    refine Proper.after cs ?_
    by_cases fits : c.Fits
    · rw [call_of_fits fits, Proper, add, pending_extend]
      intro p mem
      rcases List.mem_append.1 mem with old | new
      · exact proper p old
      · refine fits p ?_
        cases c <;> simp_all [Call.line?]
    · rwa [call_of_not_fits fits]

def names (a : Draft) : List String :=
  a.pending.toList.flatMap Pending.goals ++
    a.regions.toList.flatMap fun r => [r.tryStart, r.tryEnd, r.handlerStart, r.handlerEnd]

def probe (a : Draft) (l : String) : List Call :=
  (a.names.filter (· ≠ l)).map .label ++ [.op .nop, .branch .br l]

theorem places_label (n : String) :
    (a.call (.label l)).labels[n]? = if l = n then some a.pending.size else a.labels[n]? := by
  rw [call, Call.act, Asm.label, Std.HashMap.getElem?_insert]
  simp only [beq_iff_eq]

theorem after_labels : ∀ (ls : List String) {a : Draft}, ∃ s, a.after (ls.map .label) = { a with labels := s } ∧
    ∀ l : String, s[l]? = if l ∈ ls then some a.pending.size else a.labels[l]?
  | [], a => ⟨a.labels, rfl, fun _ => rfl⟩
  | n :: ls, a => by
    obtain ⟨s, eq, places⟩ := after_labels ls (a := a.call (.label n))
    refine ⟨s, eq, fun l => ?_⟩
    rw [places, places_label]
    by_cases later : l ∈ ls
    · rw [if_pos later, if_pos (List.mem_cons_of_mem _ later)]
      rfl
    · simp only [later, List.mem_cons, if_false, or_false, eq_comm]

/-- Behind its probe a draft can be finished, and its last instruction tells where the name was bound. -/
theorem finish_probe {p : Nat} (proper : a.Proper) (room : a.locals.size ≤ 65536) (bound : a.labels[l]? = some p)
    (le : p ≤ a.pending.size) : ∃ body, (a.after (a.probe l)).finish = .ok body ∧
      (body.code.map (·.2)).getLast? = some (.branch .br ⟨p⟩) := by
  obtain ⟨s, eq, places⟩ := after_labels (a.names.filter (· ≠ l)) (a := a)
  have after : a.after (a.probe l) =
      { a with labels := s, pending := (a.pending.push (.plain ⟨.nop, .none⟩)).push (.branch .br l) } := by
    rw [probe, after_append, eq]
    rfl
  have here : s[l]? = some p := by rw [places, if_neg (by simp), bound]
  have stands (n : String) (mem : n ∈ a.names ∨ n = l) : (a.after (a.probe l)).Stands n := by
    rw [after]
    by_cases is : n = l
    · exact ⟨p, by simp only [Array.size_push]; omega, is ▸ here⟩
    · refine ⟨a.pending.size, by simp only [Array.size_push]; omega, ?_⟩
      exact (places n).trans (if_pos (List.mem_filter.2 ⟨mem.resolve_right is, by simpa using is⟩))
  have named (n : String) (mem : n ∈ a.names) : n ∈ (a.after (a.probe l)).labels := by
    obtain ⟨q, -, found⟩ := stands n (.inl mem)
    rw [Std.HashMap.mem_iff_isSome_getElem?, found]
    rfl
  have marks {r : LabelledRegion} (mem : r ∈ a.regions.toList) {n : String}
      (marked : n ∈ [r.tryStart, r.tryEnd, r.handlerStart, r.handlerEnd]) : n ∈ a.names :=
    List.mem_append_right _ (List.mem_flatMap.2 ⟨r, mem, marked⟩)
  have ready : (a.after (a.probe l)).Ready := by
    refine ⟨by rwa [after], fun q mem n goes => stands n ?_, fun r mem => ?_, fun r mem => ?_⟩
    · rw [after] at mem
      simp only [Array.toList_push, List.append_assoc, List.cons_append, List.nil_append, List.mem_append,
        List.mem_cons, List.not_mem_nil, or_false] at mem
      rcases mem with mem | rfl | rfl
      · exact .inl (List.mem_append_left _ (List.mem_flatMap.2 ⟨q, mem, goes⟩))
      · cases goes
      · exact .inr (List.mem_singleton.1 goes)
    · rw [after] at mem
      exact ⟨stands _ (.inl (marks mem (by simp))), stands _ (.inl (marks mem (by simp)))⟩
    · rw [after] at mem
      exact ⟨named _ (marks mem (by simp)), named _ (marks mem (by simp))⟩
  have proper : (a.after (a.probe l)).Proper := by
    rw [Proper, after]
    simp only [Array.toList_push, List.mem_append, List.mem_singleton]
    rintro q ((old | rfl) | rfl)
    · exact proper q old
    · exact ⟨rfl, rfl⟩
    · exact (rfl : Opcode.br.operandKind = .target)
  refine ⟨_, (finish_eq_ok proper).2 ⟨ready, rfl⟩, ?_⟩
  rw [body, instrs_numbered, after]
  simp [instr, goal, place, here]

/-! ## Refused calls -/

theorem call_of_refused (refused : (c.act a).1 ≠ .ok ()) (other : ∀ l, c ≠ .label l) : a.call c = a :=
  call_of_not_fits fun fits => refused (act_eq_ok.2 ⟨fun l is => absurd is (other l), fits⟩)

theorem mem_of_refused (refused : ((Call.label l).act a).1 ≠ .ok ()) : l ∈ a.labels := by
  by_contra new
  have fits : (Call.label l).Fits := fun p (is : some (Line.label l) = some (.code p)) => by cases is
  exact refused (act_eq_ok.2 ⟨fun n is => Call.label.inj is ▸ new, fits⟩)

theorem alike_label (known : l ∈ a.labels) : (a.call (.label l)).Alike a := by
  refine ⟨rfl, rfl, rfl, fun n => ?_⟩
  rw [call, Call.act, Asm.label, Std.HashMap.mem_insert]
  exact ⟨fun bound => bound.elim (fun is => beq_iff_eq.1 is ▸ known) id, .inr⟩

/-- A draft and the one behind a refused label are finished alike, whatever is called in between, exactly
if the label stood there before or there are too many locals to finish at all. -/
theorem finish_label (proper : a.Proper) (behind : a.Behind) (known : l ∈ a.labels) :
    (∀ cs, ((a.call (.label l)).after cs).finish = (a.after cs).finish) ↔
      a.labels[l]? = some a.pending.size ∨ 65536 < a.locals.size := by
  have alike := alike_label known
  constructor
  · intro finished
    by_cases room : a.locals.size ≤ 65536
    · refine .inl ?_
      obtain ⟨p, bound⟩ := Option.isSome_iff_exists.1 (Std.HashMap.mem_iff_isSome_getElem?.1 known)
      obtain ⟨body, ends, last⟩ := finish_probe proper room bound (behind l p bound)
      obtain ⟨body', ends', last'⟩ := finish_probe (a := a.call (.label l)) (l := l) proper room
        ((places_label l).trans (if_pos rfl)) (Nat.le_refl _)
      have probe : (a.call (.label l)).probe l = a.probe l := rfl
      rw [probe, finished, ends, Except.ok.injEq] at ends'
      rw [← ends', last] at last'
      rw [bound]
      injection last' with is
      injection is with _ goal
      injection goal with at'
      injection at' with eq
      exact congrArg some eq
    · exact .inr (Nat.not_le.1 room)
  · rintro (there | full) cs
    · have same : (a.call (.label l)).Same a := by
        refine ⟨alike, fun n => ?_⟩
        rw [places_label]
        split
        · rename_i is
          rw [← is, there]
        · rfl
      exact (same.after _).finish
    · rw [finish_of_full _ full, finish_of_full _ (a := a.call (.label l)) full]

/-- A call that is refused, whatever was called before, leaves the draft as it is unless it binds a label,
and all later calls answer as if it had not been made. So does finishing in the end, unless the label
stood elsewhere before and the draft has room for its locals: then some calls can follow after which the
draft is finished otherwise than without the refused one. -/
theorem refused_call (before : List Call) (c : Call) (refused : ∃ e, (Draft.after {} before).answer c = .error e) :
    ((∀ l, c ≠ .label l) → (Draft.after {} before).call c = Draft.after {} before) ∧
    (∀ cs, ((Draft.after {} before).call c).answers cs = (Draft.after {} before).answers cs) ∧
    ((∀ cs, (((Draft.after {} before).call c).after cs).finish = ((Draft.after {} before).after cs).finish) ↔
      ∀ l, c = .label l → (Draft.after {} before).labels[l]? = some (Draft.after {} before).pending.size ∨
        65536 < (Draft.after {} before).locals.size) := by
  have behind : (Draft.after {} before).Behind := Behind.after before fun l p found => by simp at found
  have proper : (Draft.after {} before).Proper := Proper.after before (a := {}) nofun
  generalize Draft.after {} before = a at refused behind proper
  have refuses : (c.act a).1 ≠ .ok () := fun taken => by
    obtain ⟨e, answer⟩ := refused
    obtain ⟨given, taken⟩ := answer_eq_ok.2 taken
    cases answer.symm.trans taken
  refine ⟨call_of_refused refuses, ?_⟩
  by_cases binds : ∃ l, c = .label l
  · obtain ⟨l, rfl⟩ := binds
    have known := mem_of_refused refuses
    refine ⟨fun cs => (alike_label known).answers, (finish_label proper behind known).trans ?_⟩
    exact ⟨fun there n is => Call.label.inj is ▸ there, fun there => there l rfl⟩
  · have other : ∀ l, c ≠ .label l := fun l is => binds ⟨l, is⟩
    rw [call_of_refused refuses other]
    exact ⟨fun _ => rfl, iff_of_true (fun _ => rfl) fun l is => absurd is (other l)⟩

/-- A name at the top, with one instruction behind it. -/
def headed : List Call := [.label "top", .op .nop]

theorem after_headed : Draft.after {} headed =
    { pending := #[.plain ⟨.nop, .none⟩], labels := (∅ : Std.HashMap String Nat).insert "top" 0 } := rfl

theorem refuses_headed : (Draft.after {} headed).answer (.label "top") =
    .error (.invariant (.duplicateLabel "top")) := by
  simp [after_headed, answer, Call.act, Asm.label, Except.map]

theorem refused_call_headed : (∃ e, (Draft.after {} headed).answer (.label "top") = .error e) ∧
    (∀ cs, ((Draft.after {} headed).call (.label "top")).answers cs = (Draft.after {} headed).answers cs) ∧
    ∃ cs, (((Draft.after {} headed).call (.label "top")).after cs).finish ≠
      ((Draft.after {} headed).after cs).finish := by
  obtain ⟨-, answers, finishes⟩ := refused_call headed (.label "top") ⟨_, refuses_headed⟩
  refine ⟨⟨_, refuses_headed⟩, answers, ?_⟩
  by_contra alike
  have there := finishes.1 (fun cs => by_contra fun differs => alike ⟨cs, differs⟩) "top" rfl
  simp [after_headed] at there

theorem finish_topped {s : Std.HashMap String Nat} {p : Nat} (bound : s["top"]? = some p) (lt : p < 2) :
    (finish { pending := #[.plain ⟨.nop, .none⟩, .branch .br "top"], labels := s }).map (fun b => b.code.map (·.2)) =
      .ok [⟨.nop, .none⟩, .branch .br ⟨p⟩] := by
  have ready : Draft.Ready { pending := #[.plain ⟨.nop, .none⟩, .branch .br "top"], labels := s } := by
    refine ⟨Nat.zero_le _, fun q mem l goes => ?_, nofun, nofun⟩
    simp only [List.mem_cons, List.not_mem_nil, or_false] at mem
    rcases mem with rfl | rfl
    · cases goes
    · exact ⟨p, lt, List.mem_singleton.1 goes ▸ bound⟩
  have done := (finish_eq_ok (by simp [Pending.Proper, Opcode.isBranch, Opcode.flow, Opcode.operandKind,
    Instr.wellFormed, Operand.kind])).2 ⟨ready, rfl⟩
  rw [done, Except.map, body, instrs_numbered]
  simp [instr, goal, place, bound]

/-- A branch goes to the top, but to itself behind the refused label. -/
theorem branch_headed : (∃ e, (Draft.after {} headed).answer (.label "top") = .error e) ∧
    ((Draft.after {} headed).after [.branch .br "top"]).finish.map (fun b => b.code.map (·.2)) =
      .ok [⟨.nop, .none⟩, .branch .br ⟨0⟩] ∧
    (((Draft.after {} headed).call (.label "top")).after [.branch .br "top"]).finish.map (fun b => b.code.map (·.2)) =
      .ok [⟨.nop, .none⟩, .branch .br ⟨1⟩] := by
  refine ⟨⟨_, refuses_headed⟩, ?_, ?_⟩
  · exact finish_topped (s := (∅ : Std.HashMap String Nat).insert "top" 0) (by simp) Nat.zero_lt_two
  · exact finish_topped (s := ((∅ : Std.HashMap String Nat).insert "top" 0).insert "top" 1) (by simp)
      Nat.one_lt_two

end Draft

end CilForge
