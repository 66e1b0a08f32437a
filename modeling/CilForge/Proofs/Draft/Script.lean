import CilForge.Draft
import CilForge.Proofs.Body.Reachable
import CilForge.Proofs.Results

/-!
# Scripts

A script is the code a draft is written from: names to bind, and instructions. `Writes` says that
an assembly appends a script, and `Script.body` what body a whole script stands for: labels turn
into the number of instructions in front of them.
-/

namespace CilForge

inductive Line where
  | label (name : String)
  | code (p : Pending)

abbrev Script := List Line

def Pending.goals : Pending → List String
  | .plain _ => []
  | .branch _ label => [label]
  | .switch labels => labels

namespace Pending

def Proper : Pending → Prop
  | .plain i => i.opcode.isBranch = false ∧ i.wellFormed = true
  | .branch op _ => op.operandKind = .target
  | .switch _ => True

end Pending

theorem Opcode.isBranch_of_operandKind {op : Opcode} (names : op.operandKind = .target ∨ op.operandKind = .switch) :
    op.isBranch = true := by
  cases op <;> first | rfl | (rcases names with h | h <;> cases h)

theorem Instr.targets_eq_nil {i : Instr} (plain : i.opcode.isBranch = false) (formed : i.wellFormed = true) :
    i.targets = [] := by
  have kind : i.opcode.operandKind = i.operand.kind := of_decide_eq_true formed
  unfold targets Operand.targets
  split
  · rename_i operand
    rw [operand] at kind
    rw [Opcode.isBranch_of_operandKind (.inl kind)] at plain
    cases plain
  · rename_i operand
    rw [operand] at kind
    rw [Opcode.isBranch_of_operandKind (.inr kind)] at plain
    cases plain
  · rfl

theorem Pending.targets_opened {p : Pending} (proper : p.Proper) : p.opened.targets = [] := by
  cases p with
  | plain i => exact Instr.targets_eq_nil proper.1 proper.2
  | branch op l | switch ls => rfl

namespace Script

def labels (s : Script) : List String := s.filterMap fun
  | .label name => some name
  | .code _ => none

def code (s : Script) : List Pending := s.filterMap fun
  | .label _ => none
  | .code p => some p

def goals (s : Script) : List String := s.code.flatMap Pending.goals

@[simp] theorem labels_nil : labels [] = [] := rfl
@[simp] theorem labels_label (l : String) (s : Script) : labels (.label l :: s) = l :: s.labels := rfl
@[simp] theorem labels_code (p : Pending) (s : Script) : labels (.code p :: s) = s.labels := rfl
@[simp] theorem labels_append (s t : Script) : labels (s ++ t) = s.labels ++ t.labels :=
  List.filterMap_append

@[simp] theorem code_nil : code [] = [] := rfl
@[simp] theorem code_label (l : String) (s : Script) : code (.label l :: s) = s.code := rfl
@[simp] theorem code_code (p : Pending) (s : Script) : code (.code p :: s) = p :: s.code := rfl
@[simp] theorem code_append (s t : Script) : code (s ++ t) = s.code ++ t.code :=
  List.filterMap_append

@[simp] theorem goals_nil : goals [] = [] := rfl
@[simp] theorem goals_label (l : String) (s : Script) : goals (.label l :: s) = s.goals := rfl
@[simp] theorem goals_code (p : Pending) (s : Script) : goals (.code p :: s) = p.goals ++ s.goals := rfl
@[simp] theorem goals_append (s t : Script) : goals (s ++ t) = s.goals ++ t.goals := by
  simp [goals]

def after (l : String) : Script → Script
  | [] => []
  | .label x :: s => if x = l then s else after l s
  | .code _ :: s => after l s

def place (l : String) : Script → Nat
  | [] => 0
  | .label x :: s => if x = l then 0 else place l s
  | .code _ :: s => place l s + 1

theorem split_at {l : String} : ∀ {s : Script}, l ∈ s.labels →
    ∃ front, s = front ++ .label l :: s.after l ∧ s.place l = front.code.length
  | .label x :: s, h => by
    by_cases hx : x = l
    · subst hx; exact ⟨[], by simp [after], by simp [place]⟩
    · have mem : l ∈ labels s := by simpa [Ne.symm hx] using h
      obtain ⟨front, hs, hp⟩ := split_at mem
      refine ⟨.label x :: front, ?_, ?_⟩
      · rw [after, if_neg hx, List.cons_append, ← hs]
      · rw [place, if_neg hx, hp, code_label]
  | .code p :: s, h => by
    obtain ⟨front, hs, hp⟩ := split_at (s := s) (by simpa using h)
    refine ⟨.code p :: front, ?_, ?_⟩
    · rw [after, List.cons_append, ← hs]
    · rw [place, hp, code_code, List.length_cons]

theorem after_eq {l : String} {back : Script} : ∀ {front : Script},
    l ∉ front.labels → after l (front ++ .label l :: back) = back
  | [], _ => by simp [after]
  | .label x :: front, h => by
    rw [labels_label, List.mem_cons, not_or] at h
    rw [List.cons_append, after, if_neg (Ne.symm h.1), after_eq h.2]
  | .code p :: front, h => by rw [List.cons_append, after, after_eq (by simpa using h)]

theorem after_of_suffix {s back : Script} {l : String} (nodup : s.labels.Nodup)
    (suffix : .label l :: back <:+ s) : l ∈ s.labels ∧ s.after l = back := by
  obtain ⟨front, rfl⟩ := suffix
  rw [labels_append, labels_label, List.nodup_append] at nodup
  refine ⟨by simp, after_eq fun mem => ?_⟩
  exact nodup.2.2 l mem l (by simp) rfl

end Script

open Script

/-! ## Writing scripts -/

def Draft.extend (a : Draft) : Script → Draft
  | [] => a
  | .label l :: s => Draft.extend { a with labels := a.labels.insert l a.pending.size } s
  | .code p :: s => Draft.extend { a with pending := a.pending.push p } s

theorem Draft.extend_append (s t : Script) : ∀ a : Draft, a.extend (s ++ t) = (a.extend s).extend t := by
  induction s with
  | nil => intro a; rfl
  | cons line s ih => intro a; cases line <;> exact ih _

def Draft.Accepts (a : Draft) (s : Script) : Prop := s.labels.Nodup ∧ ∀ l ∈ s.labels, l ∉ a.labels

theorem Draft.mem_labels_extend {l : String} : ∀ {s : Script} {a : Draft},
    l ∈ (a.extend s).labels ↔ l ∈ a.labels ∨ l ∈ s.labels
  | [], a => by simp [Draft.extend]
  | .label x :: s, a => by
    rw [Draft.extend, mem_labels_extend, labels_label, List.mem_cons, Std.HashMap.mem_insert]
    rw [beq_iff_eq, eq_comm, or_assoc, or_left_comm]
  | .code p :: s, a => by rw [Draft.extend, mem_labels_extend]; rfl

theorem Draft.Accepts.left {a : Draft} {s t : Script} (h : a.Accepts (s ++ t)) : a.Accepts s := by
  obtain ⟨nodup, new⟩ := h
  rw [labels_append] at nodup new
  exact ⟨(List.nodup_append.1 nodup).1, fun l hl => new l (List.mem_append_left _ hl)⟩

theorem Draft.Accepts.right {a : Draft} {s t : Script} (h : a.Accepts (s ++ t)) :
    (a.extend s).Accepts t := by
  obtain ⟨nodup, new⟩ := h
  rw [labels_append] at nodup new
  refine ⟨(List.nodup_append.1 nodup).2.1, fun l hl => ?_⟩
  rw [Draft.mem_labels_extend, not_or]
  exact ⟨new l (List.mem_append_right _ hl), fun hs => (List.nodup_append.1 nodup).2.2 l hs l hl rfl⟩

/-- An assembly that appends a script of proper instructions to every draft that accepts it. -/
structure Asm.Writes (x : Asm Unit) (s : Script) : Prop where
  appends : ∀ a : Draft, a.Accepts s → x a = (.ok (), a.extend s)
  proper : ∀ p ∈ s.code, p.Proper

namespace Asm

theorem Writes.pure : Writes (pure ()) [] := ⟨fun _ _ => rfl, by simp⟩

theorem Writes.bind {x y : Asm Unit} {s t : Script} (hx : Writes x s) (hy : Writes y t) :
    Writes (x >>= fun _ => y) (s ++ t) := by
  refine ⟨fun a h => ?_, fun p mem => ?_⟩
  · have hs := hx.appends a h.left
    have ht := hy.appends _ h.right
    rw [Draft.extend_append, ← ht]
    simp only [Bind.bind, ExceptT.bind, ExceptT.mk, StateT.bind]
    rw [hs]
    rfl
  · rw [code_append, List.mem_append] at mem
    exact mem.elim (hx.proper p) (hy.proper p)

theorem Writes.label (l : String) : Writes (label l) [.label l] := by
  refine ⟨fun a h => ?_, by simp⟩
  have new : l ∉ a.labels := h.2 l (by simp)
  have known : a.labels.contains l = false := by
    rwa [Std.HashMap.contains_eq_false_iff_not_mem]
  simp [Asm.label, known, Draft.extend]

theorem Writes.emit {i : Instr} (plain : i.opcode.isBranch = false) (fits : i.wellFormed = true) :
    Writes (emit i) [.code (.plain i)] :=
  ⟨fun a _ => by simp [Asm.emit, plain, fits, Draft.extend], by simp [Pending.Proper, plain, fits]⟩

theorem Writes.branch {op : Opcode} (l : String) (fits : op.operandKind = .target) :
    Writes (branch op l) [.code (.branch op l)] :=
  ⟨fun a _ => by simp [Asm.branch, fits, Draft.extend], by simp [Pending.Proper, fits]⟩

theorem Writes.switch (ls : List String) : Writes (switch ls) [.code (.switch ls)] :=
  ⟨fun _ _ => rfl, by simp [Pending.Proper]⟩

theorem Writes.forM {α : Type} {x : α → Asm Unit} {s : α → Script} :
    ∀ {l : List α}, (∀ e ∈ l, Writes (x e) (s e)) → Writes (l.forM x) (l.flatMap s)
  | [], _ => Writes.pure
  | e :: l, h => by
    rw [List.flatMap_cons]
    exact (h e (by simp)).bind (Writes.forM fun d hd => h d (by simp [hd]))

end Asm

/-! ## Finishing scripts -/

namespace Draft

theorem pending_extend : ∀ {s : Script} {a : Draft},
    (a.extend s).pending.toList = a.pending.toList ++ s.code
  | [], a => by simp [extend]
  | .label x :: s, a => by rw [extend, pending_extend]; rfl
  | .code p :: s, a => by rw [extend, pending_extend]; simp

theorem regions_extend : ∀ {s : Script} {a : Draft}, (a.extend s).regions = a.regions
  | [], _ => rfl
  | .label _ :: _, _ => by rw [extend, regions_extend]
  | .code _ :: _, _ => by rw [extend, regions_extend]

theorem locals_extend : ∀ {s : Script} {a : Draft}, (a.extend s).locals = a.locals
  | [], _ => rfl
  | .label _ :: _, _ => by rw [extend, locals_extend]
  | .code _ :: _, _ => by rw [extend, locals_extend]

theorem getElem?_labels_extend_of_not_mem {l : String} : ∀ {s : Script} {a : Draft},
    l ∉ s.labels → (a.extend s).labels[l]? = a.labels[l]?
  | [], _, _ => rfl
  | .label x :: s, a, h => by
    rw [labels_label, List.mem_cons, not_or] at h
    rw [extend, getElem?_labels_extend_of_not_mem h.2, Std.HashMap.getElem?_insert,
      if_neg (by simpa using Ne.symm h.1)]
  | .code p :: s, a, h => by rw [extend, getElem?_labels_extend_of_not_mem (by simpa using h)]

theorem getElem?_labels_extend {l : String} : ∀ {s : Script} {a : Draft},
    s.labels.Nodup → l ∈ s.labels → (a.extend s).labels[l]? = some (a.pending.size + s.place l)
  | .label x :: s, a, nodup, mem => by
    rw [labels_label, List.nodup_cons] at nodup
    by_cases hx : x = l
    · subst hx
      rw [extend, getElem?_labels_extend_of_not_mem nodup.1, Std.HashMap.getElem?_insert_self, place,
        if_pos rfl, Nat.add_zero]
    · have mem' : l ∈ Script.labels s := by simpa [Ne.symm hx] using mem
      rw [extend, getElem?_labels_extend nodup.2 mem', place, if_neg hx]
  | .code p :: s, a, nodup, mem => by
    rw [labels_code] at nodup mem
    rw [extend, getElem?_labels_extend nodup mem, place, Array.size_push]
    congr 1
    omega

end Draft

namespace Script

def resolve (s : Script) : Pending → Instr
  | .plain i => i
  | .branch op l => .branch op ⟨s.place l⟩
  | .switch ls => .switch (ls.map fun l => ⟨s.place l⟩)

def body (s : Script) : Body :=
  { code := numbered 0 (s.code.map s.resolve), nextIndex := s.code.length }

/-- Every name is bound once and stands before an instruction, and all names gone to are bound. -/
structure Closed (s : Script) : Prop where
  nodup : s.labels.Nodup
  bound : ∀ l ∈ s.goals, l ∈ s.labels
  ends : ∀ l ∈ s.labels, (s.after l).code ≠ []

theorem Closed.place_lt {s : Script} (closed : s.Closed) {l : String} (mem : l ∈ s.labels) :
    s.place l < s.code.length := by
  obtain ⟨front, hs, hp⟩ := split_at mem
  have pos := List.length_pos_iff.2 (closed.ends l mem)
  have len := congrArg (fun t => (code t).length) hs
  simp only [code_append, code_label, List.length_append] at len
  omega

end Script

end CilForge
