import CilForge.Proofs.CallSite.Flatten
import CilForge.Proofs.Finally.Pending

/-!
# What flattening takes away

A flattened body has neither regions nor the instructions that go with them. All else stays where it
is, except that branches to an instruction that is gone lead to the first one in its place.
-/

namespace CilForge

def Opcode.clears (o : Opcode) : Bool := o = .leave || o = .endfinally

theorem Opcode.clears_iff {o : Opcode} : o.clears = true ↔ o = .leave ∨ o = .endfinally := by
  simp [clears]

theorem Opcode.clears_eq_false {o : Opcode} : o.clears = false ↔ o ≠ .leave ∧ o ≠ .endfinally := by
  simp [clears]

namespace Finally

open Body

/-! ## Locals -/

theorem replace_locals {old first : Handle} {i : Instr} {b b' : Body}
    (done : Edit.replace old i b = (.ok first, b')) : b'.locals = b.locals := by
  unfold Edit.replace at done
  split at done
  · cases done
    rfl
  · cases done

theorem insertAfter_locals {anchor first : Handle} {i : Instr} {b b' : Body}
    (done : Edit.insertAfter anchor i b = (.ok first, b')) : b'.locals = b.locals := by
  unfold Edit.insertAfter at done
  split at done
  · cases done
    rfl
  · cases done

theorem expand_locals {old first : Handle} {head : Instr} {tail : List Instr} {b b' : Body}
    (done : Edit.expand old head tail b = (.ok first, b')) : b'.locals = b.locals := by
  have insertAll : ∀ {tail : List Instr} {anchor last : Handle} {b b' : Body},
      tail.foldlM (fun anchor i => Edit.insertAfter anchor i) anchor b = (.ok last, b') →
        b'.locals = b.locals := by
    intro tail
    induction tail with
    | nil =>
      intro anchor last b b' done
      obtain ⟨-, rfl⟩ := Edit.pure_eq_ok.1 done
      rfl
    | cons i tail ih =>
      intro anchor last b b' done
      rw [List.foldlM_cons] at done
      obtain ⟨_, _, first, done⟩ := Edit.bind_eq_ok.1 done
      exact (ih done).trans (insertAfter_locals first)
  obtain ⟨_, _, replaced, done⟩ := Edit.bind_eq_ok.1 done
  obtain ⟨_, _, inserted, done⟩ := Edit.bind_eq_ok.1 done
  obtain ⟨-, rfl⟩ := Edit.pure_eq_ok.1 done
  exact (insertAll inserted).trans (replace_locals replaced)

theorem addLocals_int32 : ∀ {n : Nat} {b b' : Body} {added : List Nat},
    addLocals n b = (.ok added, b') → b'.locals = b.locals ++ Array.replicate n .int32
  | 0, b, b', added, done => by
    obtain ⟨-, rfl⟩ := Edit.pure_eq_ok.1 done
    simp
  | n + 1, b, b', added, done => by
    obtain ⟨_, b₁, first, done⟩ := Edit.bind_eq_ok.1 done
    obtain ⟨_, b₂, rest, done⟩ := Edit.bind_eq_ok.1 done
    obtain ⟨-, rfl⟩ := Edit.pure_eq_ok.1 done
    unfold Edit.addLocal at first
    split at first
    · cases first
      rw [addLocals_int32 rest]
      apply Array.ext'
      simp [List.replicate_succ]
    · cases first

namespace Layout

variable {p : Layout} {vars : StateVars}

theorem replaceEnds_locals {code : Instr × List Instr} : ∀ {ends : List Handle} {r r' : Renaming}
    {b b' : Body}, replaceEnds code ends r b = (.ok r', b') → b'.locals = b.locals
  | [], _, _, _, _, done => by
    obtain ⟨-, rfl⟩ := Edit.pure_eq_ok.1 done
    rfl
  | _ :: _, _, _, _, _, done => by
    obtain ⟨_, _, first, done⟩ := Edit.bind_eq_ok.1 done
    exact (replaceEnds_locals done).trans (expand_locals first)

theorem replaceHandlers_locals : ∀ {ends : List (Nat × List Handle)} {r r' : Renaming} {b b' : Body},
    p.replaceHandlers vars ends r b = (.ok r', b') → b'.locals = b.locals
  | [], _, _, _, _, done => by
    obtain ⟨-, rfl⟩ := Edit.pure_eq_ok.1 done
    rfl
  | _ :: _, _, _, _, _, done => by
    obtain ⟨_, _, first, done⟩ := Edit.bind_eq_ok.1 done
    exact (replaceHandlers_locals done).trans (replaceEnds_locals first)

theorem replaceLeaves_locals : ∀ {leaves : List Leave} {r : Renaming} {b b' : Body},
    p.replaceLeaves vars leaves r b = (.ok (), b') → b'.locals = b.locals
  | [], _, _, _, done => by
    obtain ⟨-, rfl⟩ := Edit.pure_eq_ok.1 done
    rfl
  | _ :: _, _, _, _, done => by
    obtain ⟨_, _, first, done⟩ := Edit.bind_eq_ok.1 done
    exact (replaceLeaves_locals done).trans (expand_locals first)

theorem apply_locals {b b' : Body} (done : p.apply b = (.ok (), b')) :
    b'.locals = b.locals ++ Array.replicate p.slotCount .int32 := by
  obtain ⟨_, b₁, added, done⟩ := Edit.bind_eq_ok.1 done
  obtain ⟨_, b₂, handlers, done⟩ := Edit.bind_eq_ok.1 done
  obtain ⟨_, b₃, leaves, cleared⟩ := Edit.bind_eq_ok.1 done
  cases cleared
  obtain ⟨_, added, -⟩ := addLocals_of_addStateVars added
  exact (replaceLeaves_locals leaves).trans ((replaceHandlers_locals handlers).trans (addLocals_int32 added))

theorem Written.clears {i : Instr} (written : p.Written vars i) : i.opcode.clears = false := by
  cases written <;> rfl

end Layout

/-! ## The code -/

/-- A body in which code of a layout stands in the place of each `leave` and `endfinally`. The
handle of an instruction that stays is its own under `σ`, that of an instruction that is gone leads
to the first one in its place. -/
structure Replaces (p : Layout) (vars : StateVars) (σ : Handle → Handle)
    (E : Handle × Instr → List (Handle × Instr)) (b b' : Body) : Prop where
  code : b'.code = b.code.flatMap E
  stays : ∀ q ∈ b.code, q.2.opcode.clears = false → σ q.1 = q.1 ∧ E q = [(q.1, q.2.mapTargets σ)]
  first : ∀ q ∈ b.code, (E q).head?.map (·.1) = some (σ q.1)
  /-- New code is the one that the layout has, which names instructions of the old body. -/
  planned : ∀ q ∈ b.code, q.2.opcode.clears = true → ∃ code, p.Stands vars q.1 code ∧
    (E q).map (·.2) = code.map (·.mapTargets σ) ∧ ∀ i ∈ code, ∀ t ∈ i.targets, t ∈ b.handles
  new : ∀ q ∈ b.code, q.2.opcode.clears = true → ∀ x ∈ E q, x.1 ∉ b.handles
  states : ∀ n s, p.slots.lookup n = some s → vars.ofNode n = b.locals.size + s

section
variable {b b' : Body} {p : Layout} {vars : StateVars} {σ : Handle → Handle}
  {E : Handle × Instr → List (Handle × Instr)} {regions : List Ranges} {depths : Depths}

theorem Flattened.moves (flat : Flattened b p vars σ E b') (reads : Reads b regions depths p)
    {q : Handle × Instr} (line : q ∈ b.code) (clears : q.2.opcode.clears = true) : σ q.1 ≠ q.1 := by
  obtain ⟨place, code⟩ := List.getElem?_of_mem line
  rcases Opcode.clears_iff.1 clears with leave | endfinally
  · obtain ⟨l, mem, eq⟩ := reads.allLeaves code leave
    exact eq ▸ flat.leaves l mem
  · obtain ⟨e, mem, inside⟩ := reads.allEnds code endfinally
    exact flat.ends e mem _ inside

theorem Flattened.replaces (flat : Flattened b p vars σ E b') (reads : Reads b regions depths p)
    (num : b.Numbered) (linked : b.Linked) : Replaces p vars σ E b b' := by
  refine ⟨flat.code, ?_, fun q line => (flat.blocks q line).first, ?_, ?_, flat.vars⟩
  · intro q line clears
    obtain ⟨place, code⟩ := List.getElem?_of_mem line
    obtain ⟨leave, endfinally⟩ := Opcode.clears_eq_false.1 clears
    have block := block_plain reads num flat code leave endfinally
    have first := (flat.blocks q line).first
    rw [block] at first
    exact ⟨(Option.some.inj first).symm, block⟩
  · intro q line clears
    obtain ⟨code, stands, instrs, -⟩ := (flat.blocks q line).moves (flat.moves reads line clears)
    exact ⟨code, stands, instrs, fun i mem t names =>
      live_of_named linked (reads.named_written (stands.written i mem) names)⟩
  · intro q line clears x mem live
    obtain ⟨_, -, -, high⟩ := (flat.blocks q line).moves (flat.moves reads line clears)
    exact absurd (num.below x.1 live) (Nat.not_lt.2 (high x mem))

theorem Replaces.clears (r : Replaces p vars σ E b b') : ∀ q ∈ b'.code, q.2.opcode.clears = false := by
  intro x mem
  rw [r.code] at mem
  obtain ⟨q, line, mem⟩ := List.mem_flatMap.1 mem
  cases clears : q.2.opcode.clears with
  | false =>
    rw [(r.stays q line clears).2, List.mem_singleton] at mem
    rw [mem]
    exact clears
  | true =>
    obtain ⟨code, stands, instrs, -⟩ := r.planned q line clears
    have new : x.2 ∈ code.map (·.mapTargets σ) := instrs ▸ List.mem_map_of_mem mem
    obtain ⟨i, there, eq⟩ := List.mem_map.1 new
    rw [← eq]
    exact (stands.written i there).clears

/-- Without the new instructions, the others are left as they were and where they were. -/
theorem Replaces.filter (r : Replaces p vars σ E b b') :
    b'.code.filter (fun x => b.handles.contains x.1) =
      (b.code.filter fun q => !q.2.opcode.clears).map (relabel σ) := by
  have each (q : Handle × Instr) (line : q ∈ b.code) :
      (E q).filter (fun x => b.handles.contains x.1) =
        if !q.2.opcode.clears then [relabel σ q] else [] := by
    cases clears : q.2.opcode.clears with
    | false =>
      obtain ⟨-, block⟩ := r.stays q line clears
      have live : b.handles.contains q.1 = true := List.contains_iff_mem.2 (List.mem_map_of_mem line)
      rw [block, List.filter_cons, if_pos live]
      simp [relabel]
    | true =>
      refine List.filter_eq_nil_iff.2 fun x mem live => ?_
      exact r.new q line clears x mem (List.contains_iff_mem.1 live)
  rw [r.code, List.filter_flatMap, List.flatMap_congr each]
  generalize b.code = code
  induction code with
  | nil => rfl
  | cons q code ih =>
    rw [List.flatMap_cons, ih, List.filter_cons]
    split
    · rfl
    · rfl

end

/-- Flattening takes away the regions, every `leave` and every `endfinally`, and nothing else. -/
theorem flatten_removes {method : Token} {piece piece' : Workpiece} (reachable : piece.body.Reachable)
    (done : Finally.run method piece = (.ok true, piece')) :
    piece'.body.regions = [] ∧ (∀ q ∈ piece'.body.code, q.2.opcode.clears = false) ∧
      (∃ n, piece'.body.locals = piece.body.locals ++ Array.replicate n .int32) ∧
      ∃ p vars σ E, Layout.ofBody piece.body = .ok p ∧ Replaces p vars σ E piece.body piece'.body ∧
        piece'.body.code.filter (fun x => piece.body.handles.contains x.1) =
          (piece.body.code.filter fun q => !q.2.opcode.clears).map (relabel σ) := by
  obtain ⟨p, found, applied⟩ := apply_of_run done
  obtain ⟨regions, depths, -, reads⟩ := reads_of_ofBody found
  obtain ⟨vars, σ, E, flat⟩ := flattened_of_reads reads reachable.numbered applied
  have replaces := flat.replaces reads reachable.numbered reachable.linked
  exact ⟨regions_of_apply applied, replaces.clears, ⟨_, Layout.apply_locals applied⟩, p, vars, σ, E, found,
    replaces, replaces.filter⟩

/-- Handlers that begin with their `endfinally`, and a `leave` to an `endfinally`. -/
theorem flatten_removes_outlying : ∃ piece piece', piece.body = outlying ∧ piece.body.Reachable ∧
    Finally.run (.method 1) piece = (.ok true, piece') ∧ piece'.body.regions = [] ∧
    (∀ q ∈ piece'.body.code, q.2.opcode.clears = false) ∧
    (∃ n, piece'.body.locals = piece.body.locals ++ Array.replicate n .int32) ∧
    ∃ p vars σ E, Layout.ofBody piece.body = .ok p ∧ Replaces p vars σ E piece.body piece'.body ∧
      piece'.body.code.filter (fun x => piece.body.handles.contains x.1) =
        (piece.body.code.filter fun q => !q.2.opcode.clears).map (relabel σ) := by
  have applied : outlyingLayout.apply outlying = (.ok (), (outlyingLayout.apply outlying).2) :=
    Prod.ext (by cbv) rfl
  generalize (outlyingLayout.apply outlying).2 = flat at applied
  let piece : Workpiece := ⟨{ module := { name := "" } }, outlying⟩
  obtain ⟨session, done⟩ : ∃ session, Finally.run (.method 1) piece = (.ok true, ⟨session, flat⟩) :=
    run_of_apply Bool.false_ne_true ofBody_outlying applied
  exact ⟨piece, _, rfl, outlying_reachable, done, flatten_removes outlying_reachable done⟩

end Finally

end CilForge
