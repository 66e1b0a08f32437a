import CilForge.Proofs.Body.Arrivals
import CilForge.Proofs.Body.Check
import CilForge.Proofs.Draft.Script

/-!
# Level scripts

A script is level if its labels are passed, and jumped to, with nothing on the stack, and if it
returns with one value. The body of a level script passes the check and has depths: they can be read
off the script from its first line to its last.
-/

namespace CilForge

namespace Pending

def shape : Pending → Instr
  | .plain i => i
  | .branch op _ => ⟨op, .none⟩
  | .switch _ => ⟨.switch, .none⟩

/-- The operand fits the opcode, is no local, and names no other instruction unless by a label. -/
def formed : Pending → Bool
  | .plain i => i.wellFormed && i.targets.isEmpty && decide (i.opcode.operandKind ≠ .localVar)
  | .branch op _ => op.operandKind = .target
  | .switch _ => true

/-- The depth for the line behind an instruction, before which there are `d` values. Control does not
pass on to the line behind a branch without a condition or a return, which starts anew. -/
def behind? (p : Pending) (d : Nat) : Option Nat :=
  if p.formed && decide (p.shape.effect.pops ≤ d) &&
      (decide (Body.depthAfter p.shape d = 0) || p.goals.isEmpty) &&
      (decide (p.shape.opcode ≠ .ret) || decide (d = 1)) then
    some (if p.shape.opcode.isTerminal then 0 else Body.depthAfter p.shape d)
  else none

theorem behind?_eq_some {p : Pending} {d d' : Nat} (h : p.behind? d = some d') :
    p.formed = true ∧ p.shape.effect.pops ≤ d ∧ (p.goals ≠ [] → Body.depthAfter p.shape d = 0) ∧
      (p.shape.opcode = .ret → d = 1) ∧
      (p.shape.opcode.isTerminal = false → d' = Body.depthAfter p.shape d) := by
  unfold behind? at h
  split at h
  · rename_i passes
    simp only [Bool.and_eq_true, Bool.or_eq_true, decide_eq_true_eq, List.isEmpty_iff] at passes
    obtain ⟨⟨⟨formed, enough⟩, level⟩, ret⟩ := passes
    refine ⟨formed, enough, fun goes => level.resolve_right goes, fun op => ret.resolve_left (· op), fun on => ?_⟩
    rw [on, if_neg Bool.false_ne_true, Option.some.injEq] at h
    exact h.symm
  · cases h

end Pending

namespace Script

/-- The script can be entered with `d` values, and then leaves `e` behind its last line. -/
inductive Level : Nat → Script → Nat → Prop where
  | nil (d : Nat) : Level d [] d
  | label {l : String} {s : Script} {e : Nat} : Level 0 s e → Level 0 (.label l :: s) e
  | code {p : Pending} {d d' e : Nat} {s : Script} : p.behind? d = some d' → Level d' s e →
    Level d (.code p :: s) e

def heights : Nat → Script → List Nat
  | _, [] => []
  | d, .label _ :: s => heights d s
  | d, .code p :: s => d :: heights ((p.behind? d).getD 0) s

variable {s t front back : Script} {d e n : Nat} {p : Pending} {l : String}

theorem Level.append {f : Nat} (hs : Level d s e) (ht : Level e t f) : Level d (s ++ t) f := by
  induction hs with
  | nil d => exact ht
  | label _ ih => exact .label (ih ht)
  | code behind _ ih => exact .code behind (ih ht)

theorem Level.flatMap {α : Type} {f : α → Script} (each : ∀ a, Level d (f a) d) :
    ∀ as : List α, Level d (as.flatMap f) d
  | [] => .nil d
  | a :: as => by
    rw [List.flatMap_cons]
    exact (each a).append (Level.flatMap each as)

theorem length_heights : ∀ {d : Nat} {s : Script}, (heights d s).length = s.code.length
  | _, [] => rfl
  | _, .label _ :: s => length_heights (s := s)
  | _, .code _ :: s => congrArg (· + 1) (length_heights (s := s))

theorem head_heights : ∀ {d : Nat} {s : Script}, s.code ≠ [] → (heights d s)[0]? = some d
  | _, [], ne => absurd rfl ne
  | _, .label _ :: s, ne => head_heights (s := s) ne
  | _, .code _ :: _, _ => rfl

/-- A level script is level from each of its lines on, with the depth that its front leaves. -/
theorem Level.split {f : Nat} : ∀ {d : Nat} {s : Script}, Level d (s ++ t) f →
    ∃ e, Level e t f ∧ heights d (s ++ t) = heights d s ++ heights e t
  | d, [], level => ⟨d, level, rfl⟩
  | _, .label _ :: s, .label level => level.split (s := s)
  | _, .code p :: s, .code behind level => by
    obtain ⟨e, rest, eq⟩ := level.split (s := s)
    refine ⟨e, rest, ?_⟩
    rw [List.cons_append, heights, behind, Option.getD_some, eq, heights, behind]
    rfl

def depthAt (s : Script) (h : Handle) : Nat := (heights 0 s)[h.index]?.getD 0

theorem depthAt_append (level : Level 0 (front ++ back) e) :
    ∃ d, Level d back e ∧ ∀ n, depthAt (front ++ back) ⟨front.code.length + n⟩ = (heights d back)[n]?.getD 0 := by
  obtain ⟨d, rest, eq⟩ := level.split
  refine ⟨d, rest, fun n => ?_⟩
  rw [depthAt, eq, ← length_heights (d := 0), List.getElem?_append_right (Nat.le_add_right _ _),
    Nat.add_sub_cancel_left]

theorem Level.depthAt_place (level : Level 0 s e) (mem : l ∈ s.labels) : s.depthAt ⟨s.place l⟩ = 0 := by
  obtain ⟨front, cut, place⟩ := split_at mem
  rw [cut] at level
  obtain ⟨d, rest, depth⟩ := depthAt_append level
  have here := depth 0
  rw [← cut, ← place, Nat.add_zero] at here
  cases rest with
  | label rest =>
    rw [here, heights]
    by_cases bare : (s.after l).code = []
    · rw [List.getElem?_eq_none (by rw [length_heights, bare]; exact Nat.zero_le _)]
      rfl
    · rw [head_heights bare]
      rfl

theorem Level.depthAt_code (level : Level 0 (front ++ .code p :: back) e) :
    ∃ d, p.behind? (depthAt (front ++ .code p :: back) ⟨front.code.length⟩) = some d ∧
      (back.code ≠ [] → depthAt (front ++ .code p :: back) ⟨front.code.length + 1⟩ = d) := by
  obtain ⟨d, rest, depth⟩ := depthAt_append level
  cases rest with
  | @code _ _ d' _ _ behind rest =>
    refine ⟨d', ?_, fun more => ?_⟩
    · have here := depth 0
      rw [Nat.add_zero, heights, List.getElem?_cons_zero, Option.getD_some] at here
      rw [here]
      exact behind
    · rw [depth 1, heights, List.getElem?_cons_succ, behind, Option.getD_some, head_heights more]
      rfl

theorem split_code : ∀ {s : Script} {n : Nat}, s.code[n]? = some p →
    ∃ front back : Script, s = front ++ .code p :: back ∧ front.code.length = n
  | [], n, h => nomatch h
  | .label l :: s, n, h => by
    obtain ⟨front, back, cut, len⟩ := split_code (s := s) h
    exact ⟨.label l :: front, back, by rw [cut]; rfl, len⟩
  | .code q :: s, 0, h => ⟨[], s, by rw [code_code, List.getElem?_cons_zero, Option.some.injEq] at h; rw [h]; rfl, rfl⟩
  | .code q :: s, n + 1, h => by
    obtain ⟨front, back, cut, len⟩ := split_code (s := s) h
    exact ⟨.code q :: front, back, by rw [cut]; rfl, congrArg (· + 1) len⟩

/-! ## Bodies of level scripts -/

theorem handles_body (s : Script) : s.body.handles = (List.range s.code.length).map Handle.mk := by
  rw [Body.handles, body, handles_numbered, List.length_map]

theorem mem_handles_body {h : Handle} : h ∈ s.body.handles ↔ h.index < s.code.length := by
  rw [handles_body, mem_handles_range]

theorem numbered_body (s : Script) : s.body.Numbered := Body.numbered_of_range (handles_body s)

theorem exists_of_mem_body {h : Handle} {i : Instr} (line : (h, i) ∈ s.body.code) :
    ∃ (p : Pending) (front back : Script), s = front ++ .code p :: back ∧ h = ⟨front.code.length⟩ ∧
      i = s.resolve p := by
  rw [body, numbered_eq_zipIdx] at line
  obtain ⟨⟨j, n⟩, mem, eq⟩ := List.mem_map.1 line
  rw [List.mk_mem_zipIdx_iff_getElem?, List.getElem?_map] at mem
  obtain ⟨p, hp, rfl⟩ := Option.map_eq_some_iff.1 mem
  obtain ⟨front, back, cut, rfl⟩ := split_code hp
  cases eq
  exact ⟨p, front, back, cut, rfl, rfl⟩

theorem counts_resolve (p : Pending) : (s.resolve p).counts = p.shape.counts := by
  cases p with
  | plain i => rfl
  | branch op l => cases op <;> rfl
  | switch ls => rfl

theorem opcode_resolve (p : Pending) : (s.resolve p).opcode = p.shape.opcode := by
  cases p <;> rfl

theorem depthAfter_resolve (p : Pending) (d : Nat) :
    Body.depthAfter (s.resolve p) d = Body.depthAfter p.shape d := by
  rw [Body.depthAfter, Body.depthAfter, Instr.effect, Instr.effect, counts_resolve]

theorem mem_targets_resolve (formed : p.formed = true) {h : Handle} (mem : h ∈ (s.resolve p).targets) :
    ∃ l ∈ p.goals, h = ⟨s.place l⟩ := by
  cases p with
  | plain i =>
    simp only [Pending.formed, Bool.and_eq_true, List.isEmpty_iff] at formed
    rw [resolve, formed.1.2] at mem
    cases mem
  | branch op l => exact ⟨l, List.mem_singleton_self l, List.mem_singleton.1 mem⟩
  | switch ls =>
    obtain ⟨l, hl, rfl⟩ := List.mem_map.1 (show h ∈ ls.map _ from mem)
    exact ⟨l, hl, rfl⟩

/-- What stands under a handle of the body of a level script. -/
theorem Level.of_mem_body (level : Level 0 s e) {h : Handle} {i : Instr} (line : (h, i) ∈ s.body.code) :
    ∃ p ∈ s.code, ∃ d, i = s.resolve p ∧ p.behind? (s.depthAt h) = some d ∧
      (⟨h.index + 1⟩ ∈ s.body.handles → s.depthAt ⟨h.index + 1⟩ = d) := by
  obtain ⟨p, front, back, rfl, rfl, rfl⟩ := exists_of_mem_body line
  obtain ⟨d, behind, next⟩ := level.depthAt_code
  refine ⟨p, by simp, d, rfl, behind, fun more => next fun bare => ?_⟩
  rw [mem_handles_body] at more
  simp [bare] at more

theorem mem_successors_cases {i : Instr} {next : Option Handle} {after : Nat} {q : Handle × Nat}
    (mem : q ∈ Body.successors i next after) :
    (q.1 ∈ i.targets ∧ (q.2 = after ∨ q.2 = 0)) ∨
      (next = some q.1 ∧ q.2 = after ∧ i.opcode.isTerminal = false) := by
  have one {h : Handle} (target : i.target? = some h) : h ∈ i.targets := Instr.JumpsTo.mem (.inl target)
  unfold Body.successors at mem
  unfold Opcode.isTerminal
  cases flow : i.opcode.flow <;> simp only [flow, List.mem_map, List.mem_append, Option.mem_toList,
    List.not_mem_nil] at mem <;> grind

theorem getElem?_handles_body {n : Nat} {h : Handle} :
    s.body.code[n]?.map (·.1) = some h ↔ n < s.code.length ∧ h = ⟨n⟩ := by
  rw [← List.getElem?_map, show s.body.code.map (·.1) = s.body.handles from rfl, handles_body, List.getElem?_map]
  by_cases lt : n < s.code.length
  · simp [lt, eq_comm]
  · rw [List.getElem?_eq_none (by simpa using lt)]
    simp [lt]

theorem Closed.place_mem (closed : s.Closed) {p : Pending} (mem : p ∈ s.code) {l : String} (goes : l ∈ p.goals) :
    l ∈ s.labels ∧ (⟨s.place l⟩ : Handle) ∈ s.body.handles := by
  have bound := closed.bound l (List.mem_flatMap.2 ⟨p, mem, goes⟩)
  exact ⟨bound, mem_handles_body.2 (closed.place_lt bound)⟩

section
variable (closed : s.Closed) (level : Level 0 s e)
include closed level

theorem Level.linked : s.body.Linked := by
  refine ⟨fun ⟨h, i⟩ line t mem => ?_, fun _ mem => nomatch mem⟩
  obtain ⟨p, code, d, rfl, behind, -⟩ := level.of_mem_body line
  obtain ⟨l, goes, rfl⟩ := mem_targets_resolve (Pending.behind?_eq_some behind).1 mem
  exact (closed.place_mem code goes).2

theorem Level.consistent : s.body.Consistent s.depthAt := by
  constructor
  · rintro ⟨h, d⟩ mem
    obtain ⟨first, rfl⟩ : s.body.first? = some h ∧ d = 0 := by
      rcases Body.mem_entries.1 mem with entry | ⟨r, mem, -⟩
      · exact entry
      · exact nomatch mem
    rw [Body.first?, List.head?_eq_getElem?, Body.handles, List.getElem?_map] at first
    obtain ⟨some, rfl⟩ := getElem?_handles_body.1 first
    refine ⟨?_, mem_handles_body.2 some⟩
    rw [depthAt, head_heights (List.length_pos_iff.1 some)]
    rfl
  · intro n lt
    have here : s.body.code[n].1 = ⟨n⟩ := (getElem?_handles_body.1 (by rw [List.getElem?_eq_getElem lt]; rfl)).2
    have line : (⟨n⟩, s.body.code[n].2) ∈ s.body.code := here ▸ List.getElem_mem lt
    obtain ⟨p, code, d, resolved, behind, next⟩ := level.of_mem_body line
    obtain ⟨formed, enough, jumps, -, on⟩ := Pending.behind?_eq_some behind
    rw [here, resolved, Instr.effect, counts_resolve, depthAfter_resolve]
    refine ⟨enough, fun q mem => ?_⟩
    rcases mem_successors_cases mem with ⟨target, depth⟩ | ⟨follows, depth, straight⟩
    · obtain ⟨l, goes, goal⟩ := mem_targets_resolve formed target
      obtain ⟨bound, live⟩ := closed.place_mem code goes
      have flat := jumps (List.ne_nil_of_mem goes)
      rw [goal, level.depthAt_place bound]
      refine ⟨?_, live⟩
      rcases depth with depth | depth
      · rw [depth, flat]
      · exact depth
    · obtain ⟨lt, eq⟩ := getElem?_handles_body.1 follows
      have live : (⟨n + 1⟩ : Handle) ∈ s.body.handles := mem_handles_body.2 lt
      rw [opcode_resolve] at straight
      rw [eq, next live, depth, on straight]
      exact ⟨rfl, live⟩

end

theorem Level.fit (level : Level 0 s e) : s.body.Fit := by
  have formed {h : Handle} {i : Instr} (line : (h, i) ∈ s.body.code) :
      i.wellFormed = true ∧ i.opcode.operandKind ≠ .localVar := by
    obtain ⟨p, -, d, rfl, behind, -⟩ := level.of_mem_body line
    have formed := (Pending.behind?_eq_some behind).1
    cases p with
    | plain i =>
      simp only [Pending.formed, Bool.and_eq_true, decide_eq_true_eq] at formed
      exact ⟨formed.1.1, formed.2⟩
    | branch op l =>
      have kind := of_decide_eq_true formed
      exact ⟨decide_eq_true kind, fun other => nomatch kind.symm.trans other⟩
    | switch ls => exact ⟨rfl, fun other => nomatch other⟩
  refine ⟨fun p line => (formed line).1, fun p line index operand => ?_, fun _ mem => nomatch mem⟩
  have kind := of_decide_eq_true (formed line).1
  rw [operand] at kind
  exact absurd kind (formed line).2

/-- The body of a level script passes the check, and control finds one value where it returns. -/
theorem Level.verified (closed : s.Closed) (level : Level 0 s e) : s.body.check = .ok () ∧
    ∃ depths, s.body.depths = .ok depths ∧
      ∀ h i, (h, i) ∈ s.body.code → i.opcode = .ret → s.body.Reached h → depths[h]? = some 1 := by
  have num := numbered_body s
  obtain ⟨depths, found, only⟩ := Body.depths_of_consistent num (level.consistent closed)
  refine ⟨((level.linked closed).check_eq_ok num.nodup).2 level.fit, depths, found, fun h i line ret there => ?_⟩
  obtain ⟨d, known⟩ := there.known num found
  obtain ⟨p, -, d', rfl, behind, -⟩ := level.of_mem_body line
  rw [opcode_resolve] at ret
  rw [known, only h d known, (Pending.behind?_eq_some behind).2.2.2.1 ret]

end Script

end CilForge
