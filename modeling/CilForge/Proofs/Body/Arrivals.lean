import CilForge.Proofs.Body.Depth
import CilForge.Proofs.Body.Linked

/-!
# Which bodies have depths

A body has depths exactly if the instructions that control can reach can be given depths that fit together: what an
entry asks for, and what each instruction passes on. There is one way to do so, and the search finds it. Where there
is none the search says which instruction control reaches with two depths, or with too few values.
-/

namespace CilForge.Body

/-- Control passes from one instruction to another, as the flow of the first tells. -/
def Follows (b : Body) (h h' : Handle) : Prop :=
  ∃ i, (h, i) ∈ b.code ∧
    match i.opcode.flow with
    | .sequential | .call => b.next? h = some h'
    | .conditional | .switch => h' ∈ i.targets ∨ b.next? h = some h'
    | .unconditional | .leave => i.target? = some h'
    | .ret | .throw | .endFinally => False

inductive Reached (b : Body) : Handle → Prop where
  | entry {h : Handle} : b.first? = some h → Reached b h
  | handler {r : Region} : r ∈ b.regions → Reached b r.handlerStart
  | filter {r : Region} {h : Handle} : r ∈ b.regions → r.filterStart = some h → Reached b h
  | onward {h h' : Handle} : Reached b h → b.Follows h h' → Reached b h'

/-- Depths of the instructions that control can reach, which fit together. -/
structure Assigns (b : Body) (D : Handle → Option Nat) : Prop where
  domain : ∀ h, (D h).isSome = true ↔ b.Reached h
  entry : ∀ h, b.first? = some h → D h = some 0
  handler : ∀ r ∈ b.regions, D r.handlerStart = some (if r.isFinally then 0 else 1)
  filter : ∀ r ∈ b.regions, ∀ h, r.filterStart = some h → D h = some 1
  enough : ∀ h i d, (h, i) ∈ b.code → D h = some d → i.effect.pops ≤ d
  leave : ∀ h i h' d, (h, i) ∈ b.code → i.opcode = .leave → D h = some d → b.Follows h h' → D h' = some 0
  onward : ∀ h i h' d, (h, i) ∈ b.code → i.opcode ≠ .leave → D h = some d → b.Follows h h' →
    D h' = some (d - i.effect.pops + i.effect.pushes)

/-- Control arrives with so many values, on some way from an entry. -/
inductive Arrives (b : Body) : Handle → Nat → Prop where
  | entry {h : Handle} {d : Nat} : (h, d) ∈ b.entries → Arrives b h d
  | onward {h h' : Handle} {i : Instr} {d : Nat} : Arrives b h d → (h, i) ∈ b.code → i.effect.pops ≤ d →
    b.Follows h h' → Arrives b h' (if i.opcode = .leave then 0 else depthAfter i d)

variable {b : Body} {h h' : Handle} {i : Instr} {d : Nat}

/-! ## What the search looks at -/

theorem mem_entries : (h, d) ∈ b.entries ↔ b.first? = some h ∧ d = 0 ∨
    ∃ r ∈ b.regions, (h = r.handlerStart ∧ d = if r.isFinally then 0 else 1) ∨ r.filterStart = some h ∧ d = 1 := by
  unfold entries
  rw [List.mem_append, List.mem_flatMap]
  apply or_congr
  · simp [eq_comm]
  · simp only [List.mem_cons, Prod.mk.injEq, List.mem_map, Option.mem_toList, @eq_comm _ 1 d]
    simp only [← and_assoc, exists_and_right, exists_eq_right]

theorem flow_eq_leave {o : Opcode} : o.flow = .leave ↔ o = .leave := by
  cases o <;> simp [Opcode.flow]

theorem mem_successors (nodup : b.handles.Nodup) {before behind : List (Handle × Instr)}
    (code : b.code = before ++ (h, i) :: behind) {after : Nat} :
    (h', d) ∈ successors i (behind.head?.map (·.1)) after ↔
      b.Follows h h' ∧ d = if i.opcode = .leave then 0 else after := by
  have here : (h, i) ∈ b.code := by simp [code]
  have alone (j : Instr) (line : (h, j) ∈ b.code) : j = i := by
    obtain ⟨pre, post, code'⟩ := List.append_of_mem line
    exact (split_unique nodup code' code).2.1
  have follows : b.Follows h h' ↔ match i.opcode.flow with
      | .sequential | .call => b.next? h = some h'
      | .conditional | .switch => h' ∈ i.targets ∨ b.next? h = some h'
      | .unconditional | .leave => i.target? = some h'
      | .ret | .throw | .endFinally => False := by
    constructor
    · rintro ⟨j, line, goes⟩
      rw [alone j line] at goes
      exact goes
    · exact fun goes => ⟨i, here, goes⟩
  rw [follows, ← next?_of_append nodup code]
  simp only [← flow_eq_leave]
  unfold successors
  cases i.opcode.flow <;> simp [eq_comm, and_comm, and_or_left]

/-! ## What control finds -/

theorem Arrives.reached (there : b.Arrives h d) : b.Reached h := by
  induction there with
  | entry mem =>
    rcases mem_entries.1 mem with ⟨first, -⟩ | ⟨r, region, ⟨rfl, -⟩ | ⟨start, -⟩⟩
    · exact .entry first
    · exact .handler region
    · exact .filter region start
  | onward _ _ _ follows ih => exact ih.onward follows

theorem Assigns.arrives {D : Handle → Option Nat} (assigns : b.Assigns D) (there : b.Arrives h d) : D h = some d := by
  induction there with
  | entry mem =>
    rcases mem_entries.1 mem with ⟨first, rfl⟩ | ⟨r, region, ⟨rfl, rfl⟩ | ⟨start, rfl⟩⟩
    · exact assigns.entry _ first
    · exact assigns.handler r region
    · exact assigns.filter r region _ start
  | @onward h h' i d _ line _ follows ih =>
    by_cases leave : i.opcode = .leave
    · rw [if_pos leave]
      exact assigns.leave h i h' d line leave ih follows
    · rw [if_neg leave]
      exact assigns.onward h i h' d line leave ih follows

section
variable {depths : Depths} (num : b.Numbered) (found : b.depths = .ok depths)
include num found

theorem depths_follows (line : (h, i) ∈ b.code) (known : depths[h]? = some d) : i.effect.pops ≤ d ∧
    ∀ h', b.Follows h h' → depths[h']? = some (if i.opcode = .leave then 0 else depthAfter i d) := by
  obtain ⟨before, behind, code⟩ := List.append_of_mem line
  obtain ⟨enough, onward⟩ := depths_onward num found code known
  refine ⟨enough, ?_⟩
  intro h' follows
  exact onward (h', _) ((mem_successors num.nodup code).2 ⟨follows, rfl⟩)

theorem Reached.known (there : b.Reached h) : ∃ d, depths[h]? = some d := by
  have start {h : Handle} {d : Nat} (mem : (h, d) ∈ b.entries) : ∃ d, depths[h]? = some d :=
    ⟨d, (depths_settled found).starts (h, d) (List.mem_toArray.2 mem)⟩
  induction there with
  | entry first => exact start (mem_entries.2 (.inl ⟨first, rfl⟩))
  | @handler r mem => exact start (mem_entries.2 (.inr ⟨r, mem, .inl ⟨rfl, rfl⟩⟩))
  | @filter r h mem filter => exact start (mem_entries.2 (.inr ⟨r, mem, .inr ⟨filter, rfl⟩⟩))
  | onward _ follows ih =>
    obtain ⟨d, known⟩ := ih
    obtain ⟨i, line, -⟩ := id follows
    exact ⟨_, (depths_follows num found line known).2 _ follows⟩

end

section
variable (reach : b.Reachable)
include reach

theorem Reached.live (there : b.Reached h) : h ∈ b.handles := by
  have linked := reach.linked
  induction there with
  | entry first => exact List.mem_of_head? first
  | handler mem => exact linked.boundaries _ mem _ (by simp [Region.boundaries])
  | filter mem start => exact linked.boundaries _ mem _ (by simp [Region.boundaries, start])
  | onward _ follows _ =>
    obtain ⟨i, line, goes⟩ := follows
    have jump (t : Handle) (mem : t ∈ i.targets) : t ∈ b.handles := linked.targets _ line t mem
    split at goes
    · exact mem_of_next? goes
    · exact mem_of_next? goes
    · exact goes.elim (jump _) mem_of_next?
    · exact goes.elim (jump _) mem_of_next?
    · exact jump _ (Instr.JumpsTo.mem (.inl goes))
    · exact jump _ (Instr.JumpsTo.mem (.inl goes))
    all_goals exact goes.elim

/-- The search never looks for an instruction in vain, and has control arrive wherever it comes. -/
theorem found_arrivals : Found b.Arrives b.links b.depths := by
  have num := reach.numbered
  apply found_depths
  · intro h d there
    exact links_isSome num (there.reached.live reach)
  · intro h d i next there link enough p mem
    obtain ⟨before, behind, code, rfl⟩ := exists_of_links num link
    obtain ⟨follows, depth⟩ := (mem_successors num.nodup code).1 mem
    rw [depth]
    exact there.onward (by simp [code]) enough follows
  · intro p mem
    exact .entry mem

variable {depths : Depths} (found : b.depths = .ok depths)
include found

theorem assigns_of_depths : b.Assigns (depths[·]?) := by
  have start {h : Handle} {d : Nat} (mem : (h, d) ∈ b.entries) : depths[h]? = some d :=
    (depths_settled found).starts (h, d) (List.mem_toArray.2 mem)
  refine ⟨?domain, ?entry, ?handler, ?filter, ?enough, ?leave, ?onward⟩
  case domain =>
    intro h
    rw [Option.isSome_iff_exists]
    constructor
    · rintro ⟨d, known⟩
      have arrivals := found_arrivals reach
      rw [found] at arrivals
      cases arrivals with
      | depths arrives => exact (arrives h d known).reached
    · exact fun there => there.known reach.numbered found
  case entry => exact fun h first => start (mem_entries.2 (.inl ⟨first, rfl⟩))
  case handler => exact fun r mem => start (mem_entries.2 (.inr ⟨r, mem, .inl ⟨rfl, rfl⟩⟩))
  case filter => exact fun r mem h filter => start (mem_entries.2 (.inr ⟨r, mem, .inr ⟨filter, rfl⟩⟩))
  case enough => exact fun h i d line known => (depths_follows reach.numbered found line known).1
  case leave =>
    intro h i h' d line leave known follows
    have passed := (depths_follows reach.numbered found line known).2 h' follows
    rwa [if_pos leave] at passed
  case onward =>
    intro h i h' d line other known follows
    have passed := (depths_follows reach.numbered found line known).2 h' follows
    rwa [if_neg other] at passed

end

/-- Where depths can be assigned the search finds them and no others, and where they cannot it says so. -/
theorem depths_exact (reach : b.Reachable) :
    (∀ depths, b.depths = .ok depths → b.Assigns (depths[·]?)) ∧
      (∀ D, b.Assigns D → ∃ depths, b.depths = .ok depths ∧ ∀ h, depths[h]? = D h) ∧
      ((¬ ∃ D, b.Assigns D) → ∃ u, b.depths = .error (.unsupported u)) := by
  have arrivals := found_arrivals reach
  have assigned (depths : Depths) (found : b.depths = .ok depths) := assigns_of_depths reach found
  refine ⟨assigned, ?_, ?_⟩
  · intro D assigns
    cases result : b.depths with
    | ok depths =>
      refine ⟨depths, rfl, fun h => ?_⟩
      rw [result] at arrivals
      cases arrivals with
      | depths arrives =>
        cases known : depths[h]? with
        | some d => exact (assigns.arrives (arrives h d known)).symm
        | none =>
          -- both are defined where control comes
          have domain := ((assigned depths result).domain h).trans (assigns.domain h).symm
          simp only [known, Option.isSome_none, Bool.false_eq_true, false_iff, Option.not_isSome_iff_eq_none] at domain
          exact domain.symm
    | error e =>
      rw [result] at arrivals
      cases arrivals with
      | mismatch first second other =>
        have same := (assigns.arrives first).symm.trans (assigns.arrives second)
        exact absurd (Option.some.inj same) other
      | underflow there link short =>
        obtain ⟨before, behind, code, -⟩ := exists_of_links reach.numbered link
        have line := code ▸ List.mem_append_right before List.mem_cons_self
        exact absurd (assigns.enough _ _ _ line (assigns.arrives there)) (Nat.not_le.2 short)
  · intro nowhere
    cases result : b.depths with
    | ok depths => exact absurd ⟨_, assigned depths result⟩ nowhere
    | error e =>
      rw [result] at arrivals
      cases arrivals with
      | mismatch | underflow => exact ⟨_, rfl⟩

/-- Two ways that meet, a handler that joins one of them, and an instruction that control does not reach. -/
def joined : Body :=
  let ops : List Edit.Op := [.push (.ldcI4 1), .push ⟨.brtrue, .none⟩, .push (.ldcI4 2), .push ⟨.br, .none⟩,
    .push (.ldcI4 3), .push ⟨.ret, .none⟩, .push ⟨.pop, .none⟩, .push (.branch .leave ⟨4⟩), .push ⟨.pop, .none⟩,
    .setOperand ⟨1⟩ (.target ⟨4⟩), .setOperand ⟨3⟩ (.target ⟨5⟩),
    .addRegion { flags := ⟨0⟩, tryStart := ⟨0⟩, tryEnd := some ⟨6⟩, handlerStart := ⟨6⟩, handlerEnd := some ⟨8⟩ }]
  ops.foldl Edit.Op.apply {}

/-- Two ways that meet with different depths. -/
def torn : Body :=
  let ops : List Edit.Op := [.push (.ldcI4 1), .push ⟨.brtrue, .none⟩, .push (.ldcI4 2), .push ⟨.ret, .none⟩,
    .setOperand ⟨1⟩ (.target ⟨3⟩)]
  ops.foldl Edit.Op.apply {}

theorem torn_unassigned : ¬ ∃ D, torn.Assigns D := by
  rintro ⟨D, assigns⟩
  have start : D ⟨0⟩ = some 0 := assigns.entry ⟨0⟩ rfl
  have second : D ⟨1⟩ = some 1 :=
    assigns.onward ⟨0⟩ (.ldcI4 1) ⟨1⟩ 0 (by decide) (by decide) start ⟨.ldcI4 1, by decide, rfl⟩
  have branch {h : Handle} (goes : h ∈ ([⟨3⟩] : List Handle) ∨ torn.next? ⟨1⟩ = some h) : D h = some 0 :=
    assigns.onward ⟨1⟩ (.branch .brtrue ⟨3⟩) h 1 (by decide) (by decide) second ⟨.branch .brtrue ⟨3⟩, by decide, goes⟩
  have third : D ⟨3⟩ = some 1 :=
    assigns.onward ⟨2⟩ (.ldcI4 2) ⟨3⟩ 0 (by decide) (by decide) (branch (.inr rfl)) ⟨.ldcI4 2, by decide, rfl⟩
  rw [branch (.inl List.mem_cons_self)] at third
  cases third

theorem depths_exact_joined : joined.Reachable ∧ torn.Reachable ∧
    (∃ depths, joined.depths = .ok depths ∧ joined.Assigns (depths[·]?)) ∧
    ∃ u, torn.depths = .error (.unsupported u) := by
  have reach : joined.Reachable := Reachable.empty.edits
  have reach' : torn.Reachable := Reachable.empty.edits
  have consistent : joined.Consistent fun h => if h.index ∈ [1, 3, 5, 6, 8] then 1 else 0 := by decide
  obtain ⟨depths, found, -⟩ := depths_of_consistent reach.numbered consistent
  exact ⟨reach, reach', ⟨depths, found, (depths_exact reach).1 depths found⟩, (depths_exact reach').2.2 torn_unassigned⟩

end CilForge.Body
