import CilForge.Proofs.Finally.Code
import CilForge.Proofs.Finally.Exits
import CilForge.Proofs.Finally.States
import Mathlib

/-!
# Flattening keeps what a body does

A frame of the flattened body has the state variables behind its locals and no `leave` on its way.
For each handler that still has to run for a `leave`, its variable holds the state that the `leave`
has stored.
-/

namespace CilForge.Finally

open Body

/-- A flattened body: the blocks that stand for its lines, and its state variables. -/
structure Flattened (b : Body) (p : Layout) (vars : StateVars) (σ : Handle → Handle)
    (E : Handle × Instr → List (Handle × Instr)) (b' : Body) : Prop where
  numbered : b'.Numbered
  code : b'.code = b.code.flatMap E
  blocks : ∀ q ∈ b.code, Block (p.Stands vars) σ b.nextIndex q (E q)
  locals : ∃ more, b'.locals = b.locals ++ more ∧ more.size = p.slotCount
  vars : ∀ n s, p.slots.lookup n = some s → vars.ofNode n = b.locals.size + s
  ends : ∀ e ∈ p.ends, ∀ h ∈ e.2, σ h ≠ h
  leaves : ∀ l ∈ p.leaves, σ l.at' ≠ l.at'

section
variable {b : Body} {p : Layout} {vars : StateVars} {σ : Handle → Handle}
  {E : Handle × Instr → List (Handle × Instr)} {b' : Body} {regions : List Ranges}
  {depths : Body.Depths}

theorem Flattened.line_cases (flat : Flattened b p vars σ E b') {q : Handle × Instr} (line : q ∈ b'.code) :
    (∃ q₀ ∈ b.code, q.2 = q₀.2.mapTargets σ) ∨ ∃ i, p.Written vars i ∧ q.2 = i.mapTargets σ := by
  rw [flat.code] at line
  obtain ⟨q₀, old, line⟩ := List.mem_flatMap.1 line
  have block := flat.blocks q₀ old
  by_cases stays : σ q₀.1 = q₀.1
  · rw [block.stays stays, List.mem_singleton] at line
    exact .inl ⟨q₀, old, congrArg Prod.snd line⟩
  · obtain ⟨code, stands, instrs, -⟩ := block.moves stays
    have new : q.2 ∈ code.map (·.mapTargets σ) := instrs ▸ List.mem_map_of_mem line
    obtain ⟨i, mem, eq⟩ := List.mem_map.1 new
    exact .inr ⟨i, stands.written i mem, eq.symm⟩

theorem flattened_of_reads (reads : Reads b regions depths p) (num : b.Numbered)
    (done : p.apply b = (.ok (), b')) : ∃ vars σ E, Flattened b p vars σ E b' := by
  have live {place : Nat} {h : Handle} {i : Instr} (code : b.code[place]? = some (h, i)) :
      h ∈ b.handles :=
    List.mem_map_of_mem (List.mem_of_getElem? code)
  obtain ⟨vars, b₀, added, done⟩ := Edit.bind_eq_ok.1 done
  obtain ⟨r, b₁, handlers, done⟩ := Edit.bind_eq_ok.1 done
  obtain ⟨⟨⟩, b₂, jumps, cleared⟩ := Edit.bind_eq_ok.1 done
  cases cleared
  obtain ⟨⟨more, rfl, size⟩, places⟩ := addStateVars_eq_ok added
  have num₀ : Body.Numbered { b with locals := b.locals ++ more } :=
    numbered_of_handles num rfl rfl
  obtain ⟨ex₁, -, ends⟩ := Layout.replaceHandlers_expanded num₀
    (Expanded.refl num₀ : Expanded (p.Stands vars) _ _ _) (by
    intro e he h hh
    obtain ⟨_, _, _, code, -⟩ := reads.ends he hh
    exact ⟨live code, .inr ⟨e, he, hh, rfl⟩⟩) handlers
  obtain ⟨σ, ex₂, ext, leaves⟩ := Layout.replaceLeaves_expanded num₀ ex₁ (by
    intro l hl
    obtain ⟨_, _, _, code, -⟩ := reads.leaves hl
    exact ⟨live code, .inl ⟨l, hl, rfl, rfl⟩⟩) jumps
  obtain ⟨E, whole, blocks⟩ := ex₂.code
  refine ⟨vars, σ, E, numbered_of_handles ex₂.numbered rfl rfl, whole, blocks, ⟨more, ?_, size⟩,
    places, fun e he h hh => ext.moves (ends e he h hh), leaves⟩
  exact ex₂.locals

theorem flattened_of_apply (laid : Laid b regions depths p) (done : p.apply b = (.ok (), b')) :
    ∃ vars σ E, Flattened b p vars σ E b' :=
  flattened_of_reads laid.toReads laid.numbered done

variable (reads : Reads b regions depths p) (num : b.Numbered) (flat : Flattened b p vars σ E b')
include reads num flat

theorem block_plain {place : Nat} {h : Handle} {i : Instr} (code : b.code[place]? = some (h, i))
    (leave : i.opcode ≠ .leave) (endfinally : i.opcode ≠ .endfinally) :
    E (h, i) = [(h, i.mapTargets σ)] := by
  have block := flat.blocks (h, i) (List.mem_of_getElem? code)
  refine block.stays (Classical.byContradiction fun moves => ?_)
  obtain ⟨_, ⟨l, hl, rfl, -⟩ | ⟨e, he, hh, -⟩, -⟩ := block.moves moves
  · obtain ⟨_, _, _, code', opcode, -⟩ := reads.leaves hl
    obtain ⟨-, rfl⟩ := line_unique num.nodup code code'
    exact leave opcode
  · obtain ⟨_, _, _, code', opcode, -⟩ := reads.ends he hh
    obtain ⟨-, rfl⟩ := line_unique num.nodup code code'
    exact endfinally opcode

theorem block_leave {place : Nat} {h : Handle} {i : Instr} (code : b.code[place]? = some (h, i))
    (leave : i.opcode = .leave) : ∃ l ∈ p.leaves, l.at' = h ∧
      (E (h, i)).map (·.2) = (whole (p.leaveCode vars [] l)).map (·.mapTargets σ) := by
  have block := flat.blocks (h, i) (List.mem_of_getElem? code)
  obtain ⟨l, hl, rfl⟩ := reads.allLeaves code leave
  obtain ⟨_, ⟨l', hl', eq, rfl⟩ | ⟨e, he, hh, -⟩, instrs, -⟩ := block.moves (flat.leaves l hl)
  · exact ⟨l', hl', eq, instrs⟩
  · obtain ⟨_, _, _, code', opcode, -⟩ := reads.ends he hh
    obtain ⟨-, rfl⟩ := line_unique num.nodup code code'
    rw [leave] at opcode
    cases opcode

theorem block_end {place : Nat} {h : Handle} {i : Instr} (code : b.code[place]? = some (h, i))
    (endfinally : i.opcode = .endfinally) : ∃ r, ownerOf regions place = some r ∧
      (E (h, i)).map (·.2) =
        (whole (p.dispatchCode vars [] ((p.nesting.nodeOf? r.region).getD 0))).map (·.mapTargets σ) := by
  have block := flat.blocks (h, i) (List.mem_of_getElem? code)
  obtain ⟨e, he, hh⟩ := reads.allEnds code endfinally
  obtain ⟨_, ⟨l, hl, rfl, -⟩ | ⟨e', he', hh', rfl⟩, instrs, -⟩ := block.moves (flat.ends e he h hh)
  · obtain ⟨_, _, _, code', opcode, -⟩ := reads.leaves hl
    obtain ⟨-, rfl⟩ := line_unique num.nodup code code'
    rw [endfinally] at opcode
    cases opcode
  · obtain ⟨_, _, r, code', opcode, owner, region⟩ := reads.ends he' hh'
    obtain ⟨rfl, rfl⟩ := line_unique num.nodup code code'
    exact ⟨r, owner, region ▸ instrs⟩

omit reads num in
theorem codeFrom_flat {place : Nat} {h : Handle} {i : Instr} (code : b.code[place]? = some (h, i)) :
    b'.codeFrom (σ h) = (b.code.drop place).flatMap E ∧ b'.codeFrom (σ h) ≠ [] :=
  codeFrom_blocks flat.numbered.nodup flat.code code
    (flat.blocks (h, i) (List.mem_of_getElem? code)).first

end

/-! ## States in variables -/

namespace Layout

variable (p : Layout)

def slotOf (n : Nat) : Nat := (p.slots.lookup n).getD 0

def stateValue (l : Leave) (n : Nat) : Value := .i32 (BitVec.ofNat 32 (p.stateOf l n))

def stored (l : Leave) : List Nat → Array Value → Array Value
  | [], extra => extra
  | n :: nodes, extra => stored l nodes (extra.setIfInBounds (p.slotOf n) (p.stateValue l n))

variable {p} {l : Leave}

theorem size_stored : ∀ {nodes : List Nat} {extra : Array Value},
    (p.stored l nodes extra).size = extra.size
  | [], _ => rfl
  | _ :: nodes, _ => by rw [stored, size_stored, Array.size_setIfInBounds]

theorem stored_other {slot : Nat} : ∀ {nodes : List Nat} {extra : Array Value},
    (∀ n ∈ nodes, p.slotOf n ≠ slot) → (p.stored l nodes extra)[slot]? = extra[slot]?
  | [], _, _ => rfl
  | n :: nodes, extra, other => by
    rw [stored, stored_other fun n hn => other n (List.mem_cons_of_mem _ hn),
      Array.getElem?_setIfInBounds_ne (other n (List.mem_cons_self ..))]

theorem stored_mem : ∀ {nodes : List Nat} {extra : Array Value}, (nodes.map p.slotOf).Nodup →
    ∀ n ∈ nodes, p.slotOf n < extra.size →
      (p.stored l nodes extra)[p.slotOf n]? = some (p.stateValue l n)
  | n :: nodes, extra, nodup, m, hm, lt => by
    obtain ⟨notin, nodup⟩ := List.nodup_cons.1 nodup
    rw [stored]
    rcases List.mem_cons.1 hm with rfl | hm
    · rw [stored_other, Array.getElem?_setIfInBounds_self_of_lt lt]
      intro k hk eq
      exact notin (eq ▸ List.mem_map_of_mem hk)
    · exact stored_mem nodup m hm (by rwa [Array.size_setIfInBounds])

end Layout

section
variable {b : Body} {p : Layout} {regions : List Ranges} {depths : Body.Depths}
  (laid : Laid b regions depths p)
include laid

theorem Laid.slot_spec {l : Leave} (mem : l ∈ p.leaves) {n : Nat} (exit : n ∈ l.exits) :
    p.slots.lookup n = some (p.slotOf n) ∧ p.slotOf n < p.slotCount := by
  obtain ⟨s, hs⟩ := laid.lookup_slots mem exit
  have eq : p.slotOf n = s := by
    unfold Layout.slotOf
    rw [hs]
    rfl
  rw [eq]
  exact ⟨hs, Layout.lt_slotCount hs⟩

theorem Laid.slot_ne {l l' : Leave} (mem : l ∈ p.leaves) (mem' : l' ∈ p.leaves) {n n' place : Nat}
    (exit : n ∈ l.exits) (exit' : n' ∈ l'.exits) (ne : n ≠ n')
    (here : (p.nesting.rangesAt n).trySpan.contains place = true ∨
      (p.nesting.rangesAt n).handlerSpan.contains place = true)
    (here' : (p.nesting.rangesAt n').trySpan.contains place = true ∨
      (p.nesting.rangesAt n').handlerSpan.contains place = true) : p.slotOf n ≠ p.slotOf n' := by
  intro eq
  have slot := (laid.slot_spec mem exit).1
  rw [eq] at slot
  exact ne (p.assigned_slots.apart n n' _ slot (laid.slot_spec mem' exit').1
    (Span.overlaps_of_contains (Ranges.extent_contains here) (Ranges.extent_contains here')))

theorem Laid.leave_at {l : Leave} (mem : l ∈ p.leaves) : ∃ source goal i,
    b.code[source]? = some (l.at', i) ∧ i.opcode = .leave ∧ i.target? = some l.target ∧
      (∃ j, b.code[goal]? = some (l.target, j)) ∧ l.exits = p.nesting.exits source goal ∧
      Flows b source goal ∧ ∀ d, depths[l.at']? = some d → d = 0 := by
  obtain ⟨source, goal, i, code, opcode, target, there, exits, empty⟩ := laid.leaves mem
  refine ⟨source, goal, i, code, opcode, target, get_of_position? there, exits, ?_, empty⟩
  have named : i.JumpsTo l.target := .inl target
  exact ⟨l.at', i, code, .inr ⟨by rw [opcode]; rfl, l.target, named.mem, there⟩⟩

theorem Laid.nodup_slots {l : Leave} (mem : l ∈ p.leaves) : (l.exits.map p.slotOf).Nodup := by
  obtain ⟨source, goal, _, -, -, -, -, exits, -, -⟩ := laid.leave_at mem
  have around {n : Nat} (exit : n ∈ l.exits) :
      (p.nesting.rangesAt n).trySpan.contains source = true := by
    rw [exits] at exit
    exact (laid.arranged.mem_exits.1 exit).1
  refine List.pairwise_map.2 ((laid.exits_nodup mem).imp_of_mem fun hm hn ne => ?_)
  exact laid.slot_ne mem mem hm hn ne (.inl (around hm)) (.inl (around hn))

end

/-! ## Handlers that wait -/

/-- The `leave`s on their way at a place: the handlers around are those of the nodes in which
they are, and the state variables of the nodes still to come hold their states. -/
inductive Waits (b : Body) (p : Layout) (depths : Body.Depths) (extra : Array Value) :
    Nat → List Departure → Prop where
  | idle {place : Nat} :
    (∀ n, (p.nesting.rangesAt n).handlerSpan.contains place = false) →
    Waits b p depths extra place []
  | busy {place source n : Nat} {before behind : List Nat} {l : Leave} {outer : List Departure}
      {i : Instr} :
    l ∈ p.leaves → b.code[source]? = some (l.at', i) → l.exits = before ++ n :: behind →
    (∀ m, (p.nesting.rangesAt m).handlerSpan.contains place = true ↔
      m = n ∨ (p.nesting.rangesAt m).handlerSpan.contains source = true) →
    (∀ m ∈ n :: behind, extra[p.slotOf m]? = some (p.stateValue l m)) →
    depths[l.target]? = some 0 → Waits b p depths extra source outer →
    Waits b p depths extra place (⟨behind.map p.handlerOf, l.target⟩ :: outer)

section
variable {b : Body} {p : Layout} {regions : List Ranges} {depths : Body.Depths}
  {extra : Array Value} {place place' : Nat} {leaves : List Departure}

theorem Waits.move (waits : Waits b p depths extra place leaves)
    (same : ∀ n, (p.nesting.rangesAt n).handlerSpan.contains place =
      (p.nesting.rangesAt n).handlerSpan.contains place') : Waits b p depths extra place' leaves := by
  cases waits with
  | idle none => exact .idle fun n => (same n).symm.trans (none n)
  | busy mem code exits around states depth outer =>
    exact .busy mem code exits (fun m => (same m) ▸ around m) states depth outer

theorem Waits.flow (waits : Waits b p depths extra place leaves) (laid : Laid b regions depths p)
    (flows : Flows b place place') : Waits b p depths extra place' leaves := by
  refine waits.move fun n => ?_
  by_cases lt : n < p.nesting.size
  · exact laid.rules.flow place place' flows _ (laid.rangesAt_mem lt)
  · have outside (q : Nat) : (p.nesting.rangesAt n).handlerSpan.contains q = false :=
      Bool.eq_false_iff.2 fun h => lt (p.nesting.lt_size (.inr h))
    rw [outside, outside]

/-- A `leave` within the handlers that wait does not touch their states. -/
theorem Waits.store (waits : Waits b p depths extra place leaves) (laid : Laid b regions depths p)
    {l : Leave} (mem : l ∈ p.leaves) {i : Instr} (code : b.code[place']? = some (l.at', i))
    (inside : ∀ n, (p.nesting.rangesAt n).handlerSpan.contains place = true →
      (p.nesting.rangesAt n).handlerSpan.contains place' = true) :
    Waits b p depths (p.stored l l.exits extra) place leaves := by
  induction waits with
  | idle none => exact .idle none
  | @busy place source n before behind l₀ outer i₀ mem₀ code₀ exits around states depth _ ih =>
    refine .busy mem₀ code₀ exits around ?_ depth ?_
    · intro m hm
      rw [Layout.stored_other, states m hm]
      intro x hx
      obtain ⟨place'', goal', _, code', -, -, -, exits', flows, -⟩ := laid.leave_at mem
      obtain ⟨rfl, -⟩ := line_unique laid.numbered.nodup code code'
      obtain ⟨source', goal, _, code₁, -, -, -, way, -, -⟩ := laid.leave_at mem₀
      have here := inside n ((around n).2 (.inl rfl))
      have hx' := exits' ▸ hx
      have pending := laid.pending_ne (way.symm.trans exits) hm here flows hx'
      have exit := (laid.arranged.mem_exits.1 hx').1
      have hm' : m ∈ l₀.exits := by
        rw [exits]
        exact List.mem_append_right _ hm
      exact laid.slot_ne mem mem₀ hx hm' pending.1 (.inl exit) pending.2
    · exact ih fun m hm => inside m ((around m).2 (.inr hm))

end

/-! ## Running the code that stands for a line -/

def bare (b' : Body) (f : Frame) (extra : Array Value) (ahead : List (Handle × Instr)) : Frame where
  body := b'
  ahead := ahead
  locals := f.locals ++ extra
  args := f.args

def departed (f : Frame) (leaves : List Departure) (ahead : List (Handle × Instr)) : Frame :=
  { f with ahead, stack := [], leaves, constrained := none }

section
variable {m : Machine} {R : Carries} {mem mem' : Memory} {n : Nat} {o : Outcome} {b' : Body}
  {f : Frame} {extra : Array Value} {rest : List (Handle × Instr)} {p : Layout} {vars : StateVars}

open Machine

theorem act_switch {heap : Heap} {h : Handle} {goals : List Handle} {goal : Handle} {v : BitVec 32}
    {stack : List Value} (top : f.stack = .i32 v :: stack) (there : goals[v.toNat]? = some goal) :
    f.act heap h (.switch goals) = .ok ({ f with stack, constrained := none }, .jump goal) := by
  have targets : (Instr.switch goals).targets[v.toNat]? = some goal := there
  have opcode : (Instr.switch goals).opcode = .switch := rfl
  simp only [Frame.act, opcode, reduceCtorEq, if_false, Frame.pop, top, Heap.int32, bind, Except.bind,
    targets]
  rfl

variable (vars) in
theorem ends_stores {l : Leave} : ∀ {nodes : List Nat} {lines : List (Handle × Instr)}
    {extra : Array Value},
    lines.map (·.2) = (nodes.flatMap fun n =>
      [.ldcI4 (BitVec.ofNat 32 (p.stateOf l n)), .stloc (vars.ofNode n)]) →
    (∀ n ∈ nodes, vars.ofNode n = f.locals.size + p.slotOf n ∧ p.slotOf n < extra.size) →
    Ends m R (bare b' f (p.stored l nodes extra) rest) mem n o mem' →
    ∃ n', Ends m R (bare b' f extra (lines ++ rest)) mem n' o mem'
  | [], lines, extra, code, _, ends => by
    rw [List.flatMap_nil, List.map_eq_nil_iff] at code
    subst code
    exact ⟨n, ends⟩
  | x :: nodes, lines, extra, code, places, ends => by
    rw [List.flatMap_cons] at code
    obtain ⟨_ | ⟨⟨h₁, i₁⟩, _ | ⟨⟨h₂, i₂⟩, front⟩⟩, lines, rfl, first, others⟩ :=
      List.map_eq_append_iff.1 code <;> simp only [List.map_nil, List.map_cons, List.cons.injEq,
        reduceCtorEq, and_false, List.map_eq_nil_iff] at first
    obtain ⟨rfl, rfl, rfl⟩ := first
    obtain ⟨place, lt⟩ := places x (List.mem_cons_self ..)
    obtain ⟨n', ends⟩ := ends_stores others (fun y hy => by
      rw [Array.size_setIfInBounds]
      exact places y (List.mem_cons_of_mem _ hy)) ends
    have store (heap : Heap) : Frame.act { bare b' f extra (lines ++ rest) with
        stack := [p.stateValue l x] } heap h₂ (.stloc (vars.ofNode x)) = _ := Frame.act_stloc rfl (by
      rw [place]
      simp only [bare, Array.size_append]
      omega)
    refine ⟨1 + (1 + n'), .of_next rfl rfl (.of_next rfl ((store _).trans ?_) ends)⟩
    simp only [bare, place, Array.setIfInBounds_append_right (Nat.le_add_right ..), Nat.add_sub_cancel_left]

variable (rest) in
theorem ends_branch {goal : Handle} (h : Handle) (there : b'.codeFrom goal ≠ [])
    (ends : Ends m R (bare b' f extra (b'.codeFrom goal)) mem n o mem') :
    Ends m R (bare b' f extra ((h, .branch .br goal) :: rest)) mem (1 + n) o mem' :=
  .of_jump rfl rfl there ends

theorem ends_dispatch {node : Nat} {v : BitVec 32} {goals : List Handle} {goal h₁ h₂ : Handle}
    (state : (f.locals ++ extra)[vars.ofNode node]? = some (.i32 v))
    (way : goals[v.toNat]? = some goal) (there : b'.codeFrom goal ≠ [])
    (ends : Ends m R (bare b' f extra (b'.codeFrom goal)) mem n o mem') :
    Ends m R (bare b' f extra ((h₁, .ldloc (vars.ofNode node)) :: (h₂, .switch goals) :: rest)) mem
      (1 + (1 + n)) o mem' :=
  .of_next rfl (Frame.act_ldloc state) (.of_jump rfl (act_switch rfl way) there ends)

end

/-! ## Step by step -/

def flatFrame (E : Handle × Instr → List (Handle × Instr)) (b' : Body) (f : Frame)
    (extra : Array Value) : Frame :=
  f.placed ⟨b', f.ahead.flatMap E, [], extra, []⟩

/-- A frame of the body at a place, with the state variables of its counterpart. -/
structure Tracks (b : Body) (p : Layout) (depths : Body.Depths) (f : Frame) (place : Nat)
    (extra : Array Value) : Prop where
  body : f.body = b
  ahead : f.ahead = b.code.drop place
  locals : f.locals.size = b.locals.size
  states : extra.size = p.slotCount
  depth : ∀ h i rest, f.ahead = (h, i) :: rest → depths[h]? = some f.stack.length
  waits : Waits b p depths extra place f.leaves

section
variable {m : Machine} {R : Carries} {mem mem' : Memory} {b b' : Body} {p : Layout}
  {vars : StateVars} {σ : Handle → Handle} {E : Handle × Instr → List (Handle × Instr)}
  {regions : List Ranges} {depths : Body.Depths} {f f' : Frame} {place k : Nat}
  {extra : Array Value} {h : Handle} {i : Instr} {behind : List (Handle × Instr)}

open Machine

theorem Tracks.line (tracks : Tracks b p depths f place extra) (ahead : f.ahead = (h, i) :: behind) :
    b.code[place]? = some (h, i) ∧ behind = b.code.drop (place + 1) := by
  have drop := tracks.ahead
  rw [ahead] at drop
  have code : b.code[place]? = some (h, i) := by
    rw [← List.head?_drop, ← drop]
    rfl
  obtain ⟨lt, -⟩ := List.getElem?_eq_some_iff.1 code
  rw [List.drop_eq_getElem_cons lt, List.cons.injEq] at drop
  exact ⟨code, drop.2⟩

variable (laid : Laid b regions depths p) (flat : Flattened b p vars σ E b')
  (tracks : Tracks b p depths f place extra) (ahead : f.ahead = (h, i) :: behind)
include laid flat tracks ahead

theorem tracks_plain (plain : i.opcode.isPlain = true) (step : Step m R f mem k f' mem')
    (more : f'.ahead ≠ []) : ∃ place', Tracks b p depths f' place' extra ∧
      Step m R (flatFrame E b' f extra) mem k (flatFrame E b' f' extra) mem' := by
  obtain ⟨way, lands, elsewhere⟩ := step.plain ahead plain
  obtain ⟨code, rfl⟩ := tracks.line ahead
  have split : b.code = b.code.take place ++ (h, i) :: b.code.drop (place + 1) := by
    rw [← ahead, tracks.ahead, List.take_append_drop]
  have block : E (h, i) = [(h, i.mapTargets σ)] := by
    refine block_plain laid.toReads laid.numbered flat code ?_ ?_ <;> rintro eq <;> rw [eq] at plain <;> cases plain
  have depth (h' : Handle) (i' : Instr) (rest : List (Handle × Instr))
      (ahead' : f'.ahead = (h', i') :: rest) : depths[h']? = some f'.stack.length :=
    depths_lands laid.numbered laid.found split tracks.body plain
      (laid.rules.pops (h, i) (List.mem_of_getElem? code)) lands (tracks.depth h i _ ahead) ahead'
  have there := lands.ahead
  rw [tracks.body] at there
  have moved := elsewhere ⟨b', (b.code.drop (place + 1)).flatMap E, [], extra, []⟩ h σ
  have start : flatFrame E b' f extra = f.placed
      ⟨b', (h, i.mapTargets σ) :: (b.code.drop (place + 1)).flatMap E, [], extra, []⟩ := by
    rw [flatFrame, ahead, List.flatMap_cons, block]
    rfl
  -- what is common to both ways on
  have finish {place' : Nat} (drop : f'.ahead = b.code.drop place') (flows : Flows b place place') :
      Tracks b p depths f' place' extra :=
    ⟨lands.body.trans tracks.body, drop, lands.locals.trans tracks.locals, tracks.states, depth,
      lands.leaves ▸ tracks.waits.flow laid flows⟩
  rw [start]
  cases way with
  | none =>
    have size : place + 1 < b.size := by
      apply Classical.byContradiction
      intro ge
      apply more
      rw [there]
      exact List.drop_eq_nil_of_le (Nat.le_of_not_lt ge)
    refine ⟨place + 1, finish there ⟨h, i, code, .inl ⟨lands.straight rfl, rfl, size⟩⟩, ?_⟩
    rw [flatFrame, there]
    exact moved fun ne => absurd rfl ne
  | some goal =>
    obtain ⟨jumps, branch, live⟩ := lands.jump goal rfl
    rw [there] at live
    obtain ⟨place', i', code'⟩ := get_of_codeFrom live
    have drop : f'.ahead = b.code.drop place' := by
      rw [there]
      exact codeFrom_of_get laid.numbered.nodup code'
    obtain ⟨target, ne⟩ := codeFrom_flat flat code'
    refine ⟨place', finish drop ⟨h, i, code, .inr ⟨branch, goal, jumps.mem,
      position?_of_get laid.numbered.nodup code'⟩⟩, ?_⟩
    rw [flatFrame, drop, ← target]
    exact moved fun _ => ne

omit laid flat tracks ahead in
/-- A frame with an empty stack at a line that another sequence stands for. -/
theorem ends_flat {n : Nat} {o : Outcome} (empty : f.stack = []) {lines rest : List (Handle × Instr)}
    (code : f.ahead.flatMap E = lines ++ rest) (nonempty : lines ≠ [])
    (other : ∀ q ∈ lines, q.2.opcode ≠ .callvirt)
    (ends : Ends m R (bare b' f extra (lines ++ rest)) mem n o mem') :
    Ends m R (flatFrame E b' f extra) mem n o mem' := by
  cases lines with
  | nil => exact absurd rfl nonempty
  | cons q lines =>
    refine Ends.of_unconstrained (f := flatFrame E b' f extra) (h := q.1) (i := q.2) code
      (other q (List.mem_cons_self ..)) ?_
    have same : { flatFrame E b' f extra with constrained := none } =
        bare b' f extra (q :: lines ++ rest) := by
      simp only [flatFrame, Frame.placed, bare, empty, code, List.append_nil]
    rw [same]
    exact ends

omit laid flat tracks ahead in
theorem step_of_jump {g : Frame} {goal : Handle} (ahead : f.ahead = (h, i) :: behind)
    (act : Frame.act { f with ahead := behind } mem.heap h i = .ok (g, .jump goal))
    (step : Step m R f mem k f' mem') :
    g.body.codeFrom goal ≠ [] ∧ f' = { g with ahead := g.body.codeFrom goal } ∧ mem' = mem := by
  have read {g' : Frame} {a : Action} (acts : Acts f mem g' a) : g' = g ∧ a = .jump goal := by
    have act' := acts.eq ahead
    rw [act, Except.ok.injEq, Prod.mk.injEq] at act'
    exact ⟨act'.1.symm, act'.2.symm⟩
  cases step with
  | move acts done =>
    obtain ⟨rfl, rfl⟩ := read acts
    exact Frame.perform_jump.1 done
  | call acts callee _ _ _ =>
    obtain ⟨rfl, rfl⟩ := read acts
    cases callee
  | ask acts callee _ _ _ =>
    obtain ⟨rfl, rfl⟩ := read acts
    cases callee

omit laid flat tracks ahead in
theorem act_leave {g : Frame} {heap : Heap} {target : Handle} {handlers : List Handle}
    (leave : i.opcode = .leave) (goes : i.target? = some target)
    (left : ∀ c, Frame.leftHandlers { g with constrained := c } h target = .ok handlers) :
    g.act heap h i = .ok (departed g
      ((handlers.tail?.map fun rest => (⟨rest, target⟩ : Departure)).toList ++ g.leaves) g.ahead,
      .jump (handlers.headD target)) := by
  have need : i.needTarget = .ok target := by
    unfold Instr.needTarget
    rw [goes]
  simp only [Frame.act, leave, reduceCtorEq, if_false, need, bind, Except.bind, left none]
  cases handlers with
  | nil => rfl
  | cons first rest => rfl

omit flat tracks ahead in
theorem handler_line {n : Nat} (lt : n < p.nesting.size) :
    (∃ j, b.code[(p.nesting.rangesAt n).handlerSpan.start]? = some (p.handlerOf n, j)) ∧
      depths[p.handlerOf n]? = some 0 := by
  obtain ⟨reg, mem, placed⟩ := laid.spans.placed (laid.rangesAt_mem lt)
  unfold Layout.handlerOf
  rw [placed.handler]
  exact ⟨get_of_position? (position_eq_ok placed.handlerStart),
    depths_handler laid.found mem placed.isFinally⟩

omit flat ahead in
theorem tracks_jump {place' : Nat} {goal : Handle} {j : Instr} {leaves : List Departure}
    {extra' : Array Value} (code : b.code[place']? = some (goal, j)) (depth : depths[goal]? = some 0)
    (states : extra'.size = extra.size) (waits : Waits b p depths extra' place' leaves) :
    Tracks b p depths (departed f leaves (b.code.drop place')) place' extra' := by
  refine ⟨tracks.body, rfl, tracks.locals, states.trans tracks.states, ?_, waits⟩
  intro h i rest ahead
  have there := codeFrom_of_get laid.numbered.nodup code
  rw [show b.code.drop place' = (h, i) :: rest from ahead] at there
  rw [head_codeFrom there]
  exact depth

theorem ends_leave {l : Leave} (mem_l : l ∈ p.leaves)
    (lines : (E (h, i)).map (·.2) = (whole (p.leaveCode vars [] l)).map (·.mapTargets σ))
    (empty : f.stack = []) {place' : Nat} {j : Instr} (line : b.code[place']? = some (p.entry l, j))
    {n : Nat} {o : Outcome} (ends : Ends m R
      (bare b' f (p.stored l l.exits extra) ((b.code.drop place').flatMap E)) mem n o mem') :
    ∃ n', Ends m R (flatFrame E b' f extra) mem n' o mem' := by
  rw [p.whole_leaveCode, List.map_append, p.stores_mapTargets] at lines
  obtain ⟨front, last, block, stores, jump⟩ := List.map_eq_append_iff.1 lines
  rw [List.map_singleton] at jump
  obtain ⟨⟨h', _⟩, rfl, rfl⟩ := List.map_eq_singleton_iff.1 jump
  obtain ⟨target, live⟩ := codeFrom_flat flat line
  rw [← target] at ends
  have places (x : Nat) (hx : x ∈ l.exits) :
      vars.ofNode x = f.locals.size + p.slotOf x ∧ p.slotOf x < extra.size := by
    obtain ⟨slot, lt⟩ := laid.slot_spec mem_l hx
    rw [tracks.locals, tracks.states]
    exact ⟨flat.vars x _ slot, lt⟩
  obtain ⟨n', ends⟩ := ends_stores vars stores places
    (ends_branch (behind.flatMap E) h' live ends)
  have code : f.ahead.flatMap E =
      (front ++ [(h', .branch .br (σ (p.entry l)))]) ++ behind.flatMap E := by
    rw [ahead, List.flatMap_cons, block]
    rfl
  refine ⟨n', ends_flat empty code (by simp) ?_ (by simpa using ends)⟩
  intro q hq
  rcases List.mem_append.1 hq with hq | hq
  · have stored : q.2 ∈ p.stores vars l := by
      rw [← stores]
      exact List.mem_map_of_mem hq
    obtain ⟨x, -, hx⟩ := List.mem_flatMap.1 stored
    simp only [List.mem_cons, List.not_mem_nil, or_false] at hx
    rcases hx with hx | hx <;> rw [hx] <;> exact nofun
  · rw [List.mem_singleton] at hq
    rw [hq]
    exact nofun

theorem tracks_leave (leave : i.opcode = .leave) (step : Step m R f mem k f' mem') :
    mem' = mem ∧ ∃ place' extra', Tracks b p depths f' place' extra' ∧
      ∀ n o mem'', Ends m R (flatFrame E b' f' extra') mem n o mem'' →
        ∃ n', Ends m R (flatFrame E b' f extra) mem n' o mem'' := by
  obtain ⟨code, rest⟩ := tracks.line ahead
  obtain ⟨l, hl, rfl, lines⟩ := block_leave laid.toReads laid.numbered flat code leave
  obtain ⟨source, goal, i', code', -, goes, ⟨j, goalCode⟩, exits, flows, loaded⟩ := laid.leave_at hl
  obtain ⟨rfl, rfl⟩ := line_unique laid.numbered.nodup code code'
  have known := tracks.depth _ _ _ ahead
  -- a `leave` drops its stack, so the layout asks for an empty one there: a branch does the same then
  have empty : f.stack = [] := List.eq_nil_of_length_eq_zero (loaded _ known)
  have target := depths_leave laid.numbered laid.found (List.mem_of_getElem? code) leave goes known
  have left (c : Option Sig) : Frame.leftHandlers
      { f with ahead := behind, constrained := c } l.at' l.target = .ok (l.exits.map p.handlerOf) := by
    rw [exits]
    exact laid.leftHandlers_eq laid.numbered laid.short tracks.body (position?_of_get laid.numbered.nodup code)
      (position?_of_get laid.numbered.nodup goalCode)
  obtain ⟨-, after, rfl⟩ := step_of_jump ahead (act_leave leave goes left) step
  refine ⟨rfl, ?_⟩
  have jump {place' : Nat} {j : Instr} (line : b.code[place']? = some (p.entry l, j))
      {leaves : List Departure} {goal' : Handle} (first : p.entry l = goal')
      (next : f' = departed f leaves (f.body.codeFrom goal')) :
      f' = departed f leaves (b.code.drop place') := by
    rw [next, tracks.body, ← first, codeFrom_of_get laid.numbered.nodup line]
  cases hx : l.exits with
  | nil =>
    rw [hx] at after
    have first : p.entry l = l.target := by
      unfold Layout.entry
      rw [hx]
      rfl
    have next := jump (first ▸ goalCode) first after
    rw [next]
    refine ⟨goal, extra, tracks_jump laid tracks goalCode target rfl (tracks.waits.flow laid flows),
      fun n o mem'' ends => ?_⟩
    have states : p.stored l l.exits extra = extra := by
      rw [hx]
      rfl
    exact ends_leave laid flat tracks ahead hl lines empty (first ▸ goalCode) (states ▸ ends)
  | cons n behind' =>
    rw [hx] at after
    have exit : n ∈ p.nesting.exits place goal := by
      rw [← exits, hx]
      exact List.mem_cons_self ..
    have lt := p.nesting.lt_size (.inl (laid.arranged.mem_exits.1 exit).1)
    have first : p.entry l = p.handlerOf n := by
      unfold Layout.entry
      rw [hx, List.head?_cons, Option.bind_some, Layout.handlerStart?_eq lt]
      rfl
    obtain ⟨⟨j', line⟩, depth⟩ := handler_line laid lt
    have next := jump (first ▸ line) first after
    rw [next]
    refine ⟨_, p.stored l l.exits extra, tracks_jump laid tracks line depth Layout.size_stored ?_,
      fun n o mem'' ends => ends_leave laid flat tracks ahead hl lines empty (first ▸ line) ends⟩
    -- the first handler runs, and the states of all on the way are stored
    have split : l.exits = [] ++ n :: behind' := hx
    refine .busy hl code split (laid.around_start flows exit) ?_ target
      (tracks.waits.store laid hl code fun _ h => h)
    intro x hx'
    rw [← hx] at hx'
    refine Layout.stored_mem (laid.nodup_slots hl) x hx' ?_
    rw [tracks.states]
    exact (laid.slot_spec hl hx').2

omit laid flat tracks ahead in
theorem act_endfinally {g : Frame} {heap : Heap} (endfinally : i.opcode = .endfinally)
    {handlers : List Handle} {target : Handle} {outer : List Departure}
    (waiting : g.leaves = ⟨handlers, target⟩ :: outer) :
    g.act heap h i = .ok (departed g
      ((handlers.tail?.map fun rest => (⟨rest, target⟩ : Departure)).toList ++ outer) g.ahead,
      .jump (handlers.headD target)) := by
  simp only [Frame.act, endfinally, reduceCtorEq, if_false, waiting]
  cases handlers with
  | nil => rfl
  | cons first rest => rfl

omit laid flat tracks ahead in
theorem act_stray {g : Frame} {heap : Heap} (endfinally : i.opcode = .endfinally)
    (none : g.leaves = []) : g.act heap h i = .error .strayEndfinally := by
  simp only [Frame.act, endfinally, reduceCtorEq, if_false, none]
  rfl

/-- The code that stands for an `endfinally` jumps by the state of its node. -/
theorem ends_end {l : Leave} (mem_l : l ∈ p.leaves) {node : Nat} {goal : Handle} (exit : node ∈ l.exits)
    (lines : (E (h, i)).map (·.2) = (whole (p.dispatchCode vars [] node)).map (·.mapTargets σ))
    (state : extra[p.slotOf node]? = some (p.stateValue l node))
    (way : (p.continuations node)[p.stateOf l node]? = some goal)
    (empty : f.stack = []) {place' : Nat} {j : Instr} (line : b.code[place']? = some (goal, j))
    {n : Nat} {o : Outcome} (ends : Ends m R
      (bare b' f extra ((b.code.drop place').flatMap E)) mem n o mem') :
    ∃ n', Ends m R (flatFrame E b' f extra) mem n' o mem' := by
  obtain ⟨rest, whole_eq⟩ := p.whole_dispatchCode vars way
  rw [whole_eq, List.map_cons, List.map_cons] at lines
  obtain ⟨⟨h₁, i₁⟩, lines₁, block, first, others⟩ := List.map_eq_cons_iff.1 lines
  obtain ⟨⟨h₂, i₂⟩, lines₂, rfl, second, -⟩ := List.map_eq_cons_iff.1 others
  have load : i₁ = .ldloc (vars.ofNode node) := first
  have jump : i₂ = .switch ((p.continuations node).map σ) := second
  subst load jump
  obtain ⟨target, live⟩ := codeFrom_flat flat line
  rw [← target] at ends
  have value : (f.locals ++ extra)[vars.ofNode node]? =
      some (.i32 (BitVec.ofNat 32 (p.stateOf l node))) := by
    rw [flat.vars node _ (laid.slot_spec mem_l exit).1, ← tracks.locals,
      Array.getElem?_append_right (Nat.le_add_right ..), Nat.add_sub_cancel_left]
    exact state
  have goes : ((p.continuations node).map σ)[(BitVec.ofNat 32 (p.stateOf l node)).toNat]? =
      some (σ goal) := by
    rw [BitVec.toNat_ofNat, Nat.mod_eq_of_lt (laid.stateOf_lt mem_l exit), List.getElem?_map, way]
    rfl
  have code : f.ahead.flatMap E = [(h₁, .ldloc (vars.ofNode node)),
      (h₂, .switch ((p.continuations node).map σ))] ++ (lines₂ ++ behind.flatMap E) := by
    rw [ahead, List.flatMap_cons, block]
    rfl
  refine ⟨_, ends_flat empty code (by simp) ?_ (ends_dispatch value goes live ends)⟩
  intro q hq
  simp only [List.mem_cons, List.not_mem_nil, or_false] at hq
  rcases hq with rfl | rfl <;> exact nofun

theorem tracks_end (endfinally : i.opcode = .endfinally) (step : Step m R f mem k f' mem') :
    mem' = mem ∧ ∃ place', Tracks b p depths f' place' extra ∧
      ∀ n o mem'', Ends m R (flatFrame E b' f' extra) mem n o mem'' →
        ∃ n', Ends m R (flatFrame E b' f extra) mem n' o mem'' := by
  obtain ⟨code, rest⟩ := tracks.line ahead
  obtain ⟨r, owner, lines⟩ := block_end laid.toReads laid.numbered flat code endfinally
  have empty : f.stack = [] := List.eq_nil_of_length_eq_zero
    (laid.rules.ends depths laid.found h i _ (List.mem_of_getElem? code) endfinally
      (tracks.depth _ _ _ ahead))
  -- the machine goes by the `leave` that came last, the flat code by the state stored for it
  have waits := tracks.waits
  generalize waiting : f.leaves = leaves at waits
  cases waits with
  | idle _ =>
    obtain ⟨g, a, acts, -⟩ := step.acts
    have stray (heap : Heap) : Frame.act { f with ahead := behind } heap h i = _ :=
      act_stray endfinally waiting
    cases (stray _).symm.trans (acts.eq ahead)
  | @busy _ source n before behind' l outer i' hl code' exits around states depth waits =>
    obtain ⟨source', goal, _, code'', -, -, ⟨j, goalCode⟩, way, flows, -⟩ := laid.leave_at hl
    obtain ⟨rfl, rfl⟩ := line_unique laid.numbered.nodup code' code''
    have exit : n ∈ l.exits := by
      rw [exits]
      simp
    -- the region that ends here is the one the `leave` waits for
    have here : r = p.nesting.rangesAt n := laid.owner_eq flows (way ▸ exit) owner
      ((around n).2 (.inl rfl)) fun m hm => (around m).1 hm
    rw [here, laid.nodeOf?_region (laid.exits_lt hl exit)] at lines
    have goes := laid.continuations_stateOf hl exits
    obtain ⟨-, after, rfl⟩ := step_of_jump ahead (act_endfinally endfinally waiting) step
    refine ⟨rfl, ?_⟩
    cases behind' with
    | nil =>
      have next : f' = departed f outer (b.code.drop goal) := by
        rw [after, ← codeFrom_of_get laid.numbered.nodup goalCode, ← tracks.body]
        rfl
      rw [next]
      exact ⟨goal, tracks_jump laid tracks goalCode depth rfl (waits.flow laid flows),
        fun _ _ _ => ends_end laid flat tracks ahead hl exit lines
          (states n (List.mem_cons_self ..)) goes empty goalCode⟩
    | cons x behind' =>
      have exit' : x ∈ l.exits := by
        rw [exits]
        simp
      obtain ⟨⟨j', line⟩, none⟩ := handler_line laid (laid.exits_lt hl exit')
      have next : f' = departed f (⟨behind'.map p.handlerOf, l.target⟩ :: outer)
          (b.code.drop (p.nesting.rangesAt x).handlerSpan.start) := by
        rw [after, ← codeFrom_of_get laid.numbered.nodup line, ← tracks.body]
        rfl
      rw [next]
      refine ⟨_, tracks_jump laid tracks line none rfl ?_, fun _ _ _ => ends_end laid flat tracks ahead hl
        exit lines (states n (List.mem_cons_self ..)) goes empty line⟩
      have exits' : l.exits = (before ++ [n]) ++ x :: behind' := by
        rw [exits, List.append_assoc]
        rfl
      refine .busy hl code' exits'
        (laid.around_start flows (way ▸ exit')) ?_ depth waits
      exact fun m hm => states m (List.mem_cons_of_mem _ hm)

/-! ## Whole runs -/

omit laid flat tracks ahead in
theorem act_ret {g : Frame} {heap : Heap} (ret : i.opcode = .ret) :
    g.act heap h i = .ok ({ g with constrained := none }, .ret g.stack.head?) := by
  simp only [Frame.act, ret, reduceCtorEq, if_false]
  rfl

omit laid flat tracks ahead in
theorem outcome_none {g : Frame} {heap : Heap} {r : Frame × Action}
    (jumps : i.opcode = .leave ∨ i.opcode = .endfinally) (act : g.act heap h i = .ok r) :
    r.2.outcome? = none := by
  rcases jumps with leave | endfinally
  · obtain ⟨opcode, operand⟩ := i
    cases leave
    have gives : Gives (fun r => r.2.outcome? = none) (g.act heap h ⟨.leave, operand⟩) := by
      refine .skip fun target => .skip fun handlers => ?_
      cases handlers with
      | nil => exact .ok rfl
      | cons first rest => exact .ok rfl
    exact gives r act
  · cases waiting : g.leaves with
    | nil =>
      rw [act_stray endfinally waiting] at act
      cases act
    | cons d outer =>
      rw [act_endfinally endfinally waiting] at act
      cases act
      rfl

omit tracks ahead in
theorem ends_stop {f₁ : Frame} {a : Action} {o : Outcome} (tracks : Tracks b p depths f place extra)
    (acts : Acts f mem f₁ a) (out : a.outcome? = some o) :
    Ends m R (flatFrame E b' f extra) mem 1 o mem := by
  obtain ⟨h, i, behind, ahead, act⟩ := acts
  obtain ⟨code, -⟩ := tracks.line ahead
  have stays : i.opcode ≠ .leave ∧ i.opcode ≠ .endfinally := by
    constructor <;> intro eq
    · cases out.symm.trans (outcome_none (.inl eq) act)
    · cases out.symm.trans (outcome_none (.inr eq) act)
  have start : (flatFrame E b' f extra).ahead = (h, i.mapTargets σ) :: behind.flatMap E := by
    show f.ahead.flatMap E = _
    rw [ahead, List.flatMap_cons, block_plain laid.toReads laid.numbered flat code stays.1 stays.2]
    rfl
  by_cases ret : i.opcode = .ret
  · rw [act_ret ret, Except.ok.injEq, Prod.mk.injEq] at act
    rw [← act.2] at out
    refine .stop ⟨h, _, _, start, act_ret ret⟩ ?_
    simpa [flatFrame, Frame.placed] using out
  · have plain : i.opcode.isPlain = true := by simp [Opcode.isPlain, stays, ret]
    have there := Frame.act_placed _ ⟨b', behind.flatMap E, [], extra, []⟩ σ mem.heap h h i plain _ act
    refine .stop ⟨h, _, _, start, there⟩ ?_
    cases a <;> exact out

omit tracks ahead in
theorem ends_flatFrame {n : Nat} {o : Outcome} (ends : Ends m R f mem n o mem') :
    ∀ {place : Nat} {extra : Array Value}, Tracks b p depths f place extra →
      ∃ n', Ends m R (flatFrame E b' f extra) mem n' o mem' := by
  induction ends with
  | stop acts out => exact fun tracks => ⟨1, ends_stop laid flat tracks acts out⟩
  | @step f mem k f' mem' n o mem'' step ends ih =>
    intro place extra tracks
    obtain ⟨⟨h, i⟩, behind, ahead⟩ := List.exists_cons_of_ne_nil (ends.step step).ahead_ne
    by_cases leave : i.opcode = .leave
    · obtain ⟨rfl, place', extra', tracks', back⟩ := tracks_leave laid flat tracks ahead leave step
      obtain ⟨n', ends'⟩ := ih tracks'
      exact back n' o mem'' ends'
    · by_cases endfinally : i.opcode = .endfinally
      · obtain ⟨rfl, place', tracks', back⟩ := tracks_end laid flat tracks ahead endfinally step
        obtain ⟨n', ends'⟩ := ih tracks'
        exact back n' o mem'' ends'
      · have plain : i.opcode.isPlain = true := by
          obtain ⟨g, a, acts, open'⟩ := step.acts
          have ret : i.opcode ≠ .ret := by
            intro ret
            have act := acts.eq ahead
            rw [act_ret ret] at act
            cases act
            cases open'
          simp [Opcode.isPlain, leave, endfinally, ret]
        obtain ⟨place', tracks', step'⟩ := tracks_plain laid flat tracks ahead plain step ends.ahead_ne
        obtain ⟨n', ends'⟩ := ih tracks'
        exact ⟨k + n', .step step' ends'⟩

end

section
variable {b b' : Body} {p : Layout} {vars : StateVars} {σ : Handle → Handle}
  {E : Handle × Instr → List (Handle × Instr)} {regions : List Ranges} {depths : Body.Depths}

theorem tracks_start (laid : Laid b regions depths p) (args : List Value) {extra : Array Value}
    (states : extra.size = p.slotCount) : Tracks b p depths (.start b args) 0 extra := by
  refine ⟨rfl, rfl, Array.size_map, states, ?_, .idle fun n => ?_⟩
  · intro h i rest ahead
    exact depths_first laid.found ahead
  · by_cases lt : n < p.nesting.size
    · exact laid.rules.entry _ (laid.rangesAt_mem lt)
    · exact Bool.eq_false_iff.2 fun h => lt (p.nesting.lt_size (.inr h))

theorem start_flat (flat : Flattened b p vars σ E b') (args : List Value) :
    ∃ extra, extra.size = p.slotCount ∧ flatFrame E b' (.start b args) extra = .start b' args := by
  obtain ⟨more, locals, size⟩ := flat.locals
  refine ⟨more.map Value.default, by rw [Array.size_map, size], ?_⟩
  simp only [flatFrame, Frame.placed, Frame.start, ← flat.code, locals, Array.map_append,
    List.append_nil]

/-- What a flattened body can do, whatever the limit on instructions. -/
theorem within_flat (laid : Laid b regions depths p) (flat : Flattened b p vars σ E b') {m : Machine}
    {depth n : Nat} {args : List Value} {mem mem' : Memory} {o : Outcome}
    (run : m.Within depth b args mem n o mem') : ∃ n', m.Within depth b' args mem n' o mem' := by
  cases depth with
  | zero => exact run.elim
  | succ depth =>
    obtain ⟨extra, size, start⟩ := start_flat flat args
    obtain ⟨n', ends⟩ := ends_flatFrame laid flat run (tracks_start laid args size)
    rw [start] at ends
    exact ⟨n', ends⟩

end

theorem apply_of_run {method : Token} {piece piece' : Workpiece}
    (done : Finally.run method piece = (.ok true, piece')) : ∃ layout,
      Layout.ofBody piece.body = .ok layout ∧ layout.apply piece.body = (.ok (), piece'.body) := by
  unfold Finally.run at done
  obtain ⟨b, piece₁, read, done⟩ := Edit.bind_eq_ok.1 done
  cases read
  split at done
  · cases done
  · obtain ⟨layout, piece₂, found, done⟩ := Edit.bind_eq_ok.1 done
    obtain ⟨⟨⟩, piece₃, edited, done⟩ := Edit.bind_eq_ok.1 done
    obtain ⟨⟨⟩, piece₄, noted, done⟩ := Edit.bind_eq_ok.1 done
    obtain ⟨⟨⟩, piece₅, recorded, done⟩ := Edit.bind_eq_ok.1 done
    obtain ⟨-, rfl⟩ := Edit.pure_eq_ok.1 done
    have read : Layout.ofBody piece.body = .ok layout ∧ piece₂ = piece := by
      injection found with found same
      exact ⟨found, same.symm⟩
    obtain ⟨found, rfl⟩ := read
    cases noted
    cases recorded
    injection edited with result same
    rw [← same]
    exact ⟨layout, found, Prod.ext result rfl⟩

theorem run_of_apply {method : Token} {piece : Workpiece} {layout : Layout} {b' : Body}
    (regions : ¬ piece.body.regions.isEmpty = true) (found : Layout.ofBody piece.body = .ok layout)
    (applied : layout.apply piece.body = (.ok (), b')) :
    ∃ session, Finally.run method piece = (.ok true, ⟨session, b'⟩) := by
  unfold Finally.run
  refine ⟨?session, Edit.bind_eq_ok.2 ⟨_, piece, rfl, ?_⟩⟩
  rotate_left
  rw [if_neg regions]
  refine Edit.bind_eq_ok.2 ⟨layout, piece, congrArg (·, piece) found, ?_⟩
  refine Edit.bind_eq_ok.2 ⟨(), ⟨piece.session, b'⟩, ?_, ?_⟩
  · simp only [Pass.edit, applied]
  · refine Edit.bind_eq_ok.2 ⟨(), _, rfl, ?_⟩
    refine Edit.bind_eq_ok.2 ⟨(), _, rfl, ?_⟩
    exact rfl

/-- Flattening keeps what a body does: a run of the body that ends has a counterpart that ends in
the same way, with the same calls of the host and the same heap. -/
theorem flatten_preserves {method : Token} {piece piece' : Workpiece} {regions : List Ranges}
    (reachable : piece.body.Reachable) (short : piece.body.nextIndex ≤ 0x100000000)
    (done : Finally.run method piece = (.ok true, piece'))
    (spans : piece.body.regions.zipIdx.mapM (fun x => regionSpans piece.body x.1 x.2) = .ok regions)
    (rules : Rules piece.body regions) (starts : StartsOwn regions) {m : Machine}
    {args : List Value} {w w' : World} {o : Outcome}
    (run : m.execute piece.body args w = (.ok o, w')) :
    ∃ limit, ∀ limit' ≥ limit, ∃ w'',
      Machine.execute { m with limits := { m.limits with maxInstructions := limit' } } piece'.body args w =
        (.ok o, w'') ∧ w''.heap = w'.heap ∧ w''.trace = w'.trace := by
  obtain ⟨p, found, applied⟩ := apply_of_run done
  obtain ⟨regions', depths, spans', reads⟩ := reads_of_ofBody found
  rw [spans, Except.ok.injEq] at spans'
  subst spans'
  have laid : Laid piece.body regions depths p := ⟨reads, reachable.numbered, short, rules, starts⟩
  obtain ⟨vars, σ, E, flat⟩ := flattened_of_apply laid applied
  obtain ⟨n, mem', within, room, rfl⟩ := Machine.execute_eq_ok_iff.1 run
  obtain ⟨n', within'⟩ := within_flat laid flat within
  refine ⟨w.executed + n', fun limit' le => ⟨w.later n' mem', ?_, rfl, rfl⟩⟩
  have scope : ({ m with limits := { m.limits with maxInstructions := limit' } } : Machine).scope =
    m.scope := rfl
  exact Machine.execute_eq_ok_iff.2 ⟨n', mem', Machine.within_transfer scope rfl within', le, rfl⟩

/-! ## A `leave` through two regions -/

/-- One region in the protected range of another, and a `leave` out of both. -/
def twofold : Body where
  code := [(⟨0⟩, .branch .leave ⟨3⟩), (⟨1⟩, ⟨.endfinally, .none⟩), (⟨2⟩, ⟨.endfinally, .none⟩),
    (⟨3⟩, ⟨.ret, .none⟩)]
  nextIndex := 4
  regions := [
    { tryStart := ⟨0⟩, tryEnd := some ⟨1⟩, handlerStart := ⟨1⟩, handlerEnd := some ⟨2⟩ },
    { tryStart := ⟨0⟩, tryEnd := some ⟨2⟩, handlerStart := ⟨2⟩, handlerEnd := some ⟨3⟩ }]

def twofoldRegions : List Ranges := [⟨0, ⟨0, 1⟩, ⟨1, 2⟩, ⟨1⟩⟩, ⟨1, ⟨0, 2⟩, ⟨2, 3⟩, ⟨2⟩⟩]

def twofoldEdits : List Edit.Op := [
  .push ⟨.leave, .none⟩, .push ⟨.endfinally, .none⟩, .push ⟨.endfinally, .none⟩,
  .push ⟨.ret, .none⟩, .setOperand ⟨0⟩ (.target ⟨3⟩),
  .addRegion { tryStart := ⟨0⟩, tryEnd := some ⟨1⟩, handlerStart := ⟨1⟩, handlerEnd := some ⟨2⟩ },
  .addRegion { tryStart := ⟨0⟩, tryEnd := some ⟨2⟩, handlerStart := ⟨2⟩, handlerEnd := some ⟨3⟩ }]

theorem twofold_reachable : twofold.Reachable := .of_edits twofoldEdits rfl

theorem twofold_consistent : twofold.Consistent fun _ => 0 := by decide

theorem twofold_rules : Rules twofold twofoldRegions :=
  rules_of_consistent twofold_reachable.numbered twofold_consistent (by decide)

/-- The outer region comes first, though it is the second one of the body. -/
def twofoldLayout : Layout where
  nesting := #[⟨⟨1, ⟨0, 2⟩, ⟨2, 3⟩, ⟨2⟩⟩, none⟩, ⟨⟨0, ⟨0, 1⟩, ⟨1, 2⟩, ⟨1⟩⟩, some 0⟩]
  ends := [(0, [⟨1⟩]), (1, [⟨2⟩])]
  leaves := [⟨⟨0⟩, ⟨3⟩, [1, 0]⟩]

theorem ofBody_twofold : Layout.ofBody twofold = .ok twofoldLayout := by
  obtain ⟨depths, found, agree⟩ := depths_of_consistent twofold_reachable.numbered twofold_consistent
  have nesting : Nesting.ofRegions twofoldRegions = twofoldLayout.nesting := by cbv
  have exits : twofoldLayout.nesting.exits 0 3 = [1, 0] := by cbv
  have leave : readLeave twofold (.ofRegions twofoldRegions) depths ⟨0⟩ (.branch .leave ⟨3⟩) 0 =
      .ok ⟨⟨0⟩, ⟨3⟩, [1, 0]⟩ := by
    rw [readLeave_of_empty (agree ⟨0⟩) rfl (rfl : twofold.position? ⟨3⟩ = some 3), nesting, exits]
  have layout : Layout.ofBody twofold =
      .ok ⟨.ofRegions twofoldRegions, twofoldLayout.ends, twofoldLayout.leaves⟩ :=
    ofBody_eq_ok rfl rfl rfl rfl found (.cons leave .nil)
  rw [layout, nesting]

def quiet : Machine where
  scope := { module := { name := "" } }
  limits := { maxInstructions := 20, maxCallDepth := 1 }

theorem flatten_preserves_twofold : ∃ piece piece' w', piece.body = twofold ∧
    piece.body.Reachable ∧ piece.body.nextIndex ≤ 0x100000000 ∧
    Finally.run (.method 1) piece = (.ok true, piece') ∧
    piece.body.regions.zipIdx.mapM (fun x => regionSpans piece.body x.1 x.2) = .ok twofoldRegions ∧
    Rules piece.body twofoldRegions ∧ StartsOwn twofoldRegions ∧
    quiet.execute piece.body [] {} = (.ok (.returned none), w') ∧
    ∃ limit, ∀ limit' ≥ limit, ∃ w'',
      Machine.execute { quiet with limits := { quiet.limits with maxInstructions := limit' } }
        piece'.body [] {} = (.ok (.returned none), w'') ∧ w''.heap = w'.heap ∧ w''.trace = w'.trace := by
  let piece : Workpiece := ⟨{ module := { name := "" } }, twofold⟩
  have applied : twofoldLayout.apply piece.body = (.ok (), (twofoldLayout.apply twofold).2) :=
    Prod.ext (by cbv) rfl
  obtain ⟨session, done⟩ : ∃ session, Finally.run (.method 1) piece = (.ok true, ⟨session, _⟩) :=
    run_of_apply Bool.false_ne_true ofBody_twofold applied
  have starts : StartsOwn twofoldRegions := by decide +kernel
  have run : quiet.execute piece.body [] {} = (.ok (.returned none), { executed := 4 }) := by cbv
  exact ⟨piece, _, _, rfl, twofold_reachable, by decide, done, rfl, twofold_rules, starts, run,
    flatten_preserves twofold_reachable (by decide) done rfl twofold_rules starts run⟩

/-! ## A handler that starts with another one

Without `StartsOwn` there is a body that obeys all the rules and is not kept. The `endfinally` at
the common start ends the inner handler for the layout, and whichever handler was entered for the
machine. -/

/-- The handler of the first region starts with that of the second one, which lies inside it. -/
def sharedStart : Body where
  code := [(⟨0⟩, .branch .leave ⟨6⟩), (⟨1⟩, ⟨.endfinally, .none⟩), (⟨2⟩, .branch .leave ⟨3⟩),
    (⟨3⟩, .ldcI4 7), (⟨4⟩, .stloc 0), (⟨5⟩, ⟨.endfinally, .none⟩), (⟨6⟩, .ldloc 0),
    (⟨7⟩, ⟨.ret, .none⟩)]
  nextIndex := 8
  locals := #[.int32]
  regions := [
    { tryStart := ⟨0⟩, tryEnd := some ⟨1⟩, handlerStart := ⟨1⟩, handlerEnd := some ⟨6⟩ },
    { tryStart := ⟨2⟩, tryEnd := some ⟨3⟩, handlerStart := ⟨1⟩, handlerEnd := some ⟨2⟩ }]

def sharedStartRegions : List Ranges := [⟨0, ⟨0, 1⟩, ⟨1, 6⟩, ⟨1⟩⟩, ⟨1, ⟨2, 3⟩, ⟨1, 2⟩, ⟨1⟩⟩]

def sharedStartEdits : List Edit.Op := [
  .addLocal .int32, .push ⟨.leave, .none⟩, .push ⟨.endfinally, .none⟩, .push ⟨.leave, .none⟩,
  .push (.ldcI4 7), .push (.stloc 0), .push ⟨.endfinally, .none⟩, .push (.ldloc 0),
  .push ⟨.ret, .none⟩, .setOperand ⟨0⟩ (.target ⟨6⟩), .setOperand ⟨2⟩ (.target ⟨3⟩),
  .addRegion { tryStart := ⟨0⟩, tryEnd := some ⟨1⟩, handlerStart := ⟨1⟩, handlerEnd := some ⟨6⟩ },
  .addRegion { tryStart := ⟨2⟩, tryEnd := some ⟨3⟩, handlerStart := ⟨1⟩, handlerEnd := some ⟨2⟩ }]

theorem sharedStart_reachable : sharedStart.Reachable := .of_edits sharedStartEdits rfl

theorem sharedStart_consistent :
    sharedStart.Consistent fun h => if h.index = 4 ∨ h.index = 7 then 1 else 0 := by decide

theorem sharedStart_rules : Rules sharedStart sharedStartRegions :=
  rules_of_consistent sharedStart_reachable.numbered sharedStart_consistent (by decide)

def sharedStartLayout : Layout where
  nesting := #[⟨⟨0, ⟨0, 1⟩, ⟨1, 6⟩, ⟨1⟩⟩, none⟩, ⟨⟨1, ⟨2, 3⟩, ⟨1, 2⟩, ⟨1⟩⟩, none⟩]
  ends := [(0, [⟨5⟩]), (1, [⟨1⟩])]
  leaves := [⟨⟨0⟩, ⟨6⟩, [0]⟩, ⟨⟨2⟩, ⟨3⟩, [1]⟩]

theorem ofBody_sharedStart : Layout.ofBody sharedStart = .ok sharedStartLayout := by
  obtain ⟨depths, found, agree⟩ :=
    depths_of_consistent sharedStart_reachable.numbered sharedStart_consistent
  have nesting : Nesting.ofRegions sharedStartRegions = sharedStartLayout.nesting := by cbv
  have outer : sharedStartLayout.nesting.exits 0 6 = [0] := by cbv
  have inner : sharedStartLayout.nesting.exits 2 3 = [1] := by cbv
  have first : readLeave sharedStart (.ofRegions sharedStartRegions) depths ⟨0⟩ (.branch .leave ⟨6⟩) 0 =
      .ok ⟨⟨0⟩, ⟨6⟩, [0]⟩ := by
    rw [readLeave_of_empty (agree ⟨0⟩) rfl (rfl : sharedStart.position? ⟨6⟩ = some 6), nesting, outer]
  have second : readLeave sharedStart (.ofRegions sharedStartRegions) depths ⟨2⟩ (.branch .leave ⟨3⟩) 2 =
      .ok ⟨⟨2⟩, ⟨3⟩, [1]⟩ := by
    rw [readLeave_of_empty (agree ⟨2⟩) rfl (rfl : sharedStart.position? ⟨3⟩ = some 3), nesting, inner]
  have layout : Layout.ofBody sharedStart =
      .ok ⟨.ofRegions sharedStartRegions, sharedStartLayout.ends, sharedStartLayout.leaves⟩ :=
    ofBody_eq_ok rfl rfl rfl rfl found (.cons first (.cons second .nil))
  rw [layout, nesting]

theorem flatten_sharedStart : ∃ piece piece' w', piece.body = sharedStart ∧
    piece.body.Reachable ∧ piece.body.nextIndex ≤ 0x100000000 ∧
    Finally.run (.method 1) piece = (.ok true, piece') ∧
    piece.body.regions.zipIdx.mapM (fun x => regionSpans piece.body x.1 x.2) = .ok sharedStartRegions ∧
    Rules piece.body sharedStartRegions ∧
    quiet.execute piece.body [] {} = (.ok (.returned (some (.i32 0))), w') ∧
    ∀ limit w'', Machine.execute { quiet with limits := { quiet.limits with maxInstructions := limit } }
      piece'.body [] {} ≠ (.ok (.returned (some (.i32 0))), w'') := by
  let piece : Workpiece := ⟨{ module := { name := "" } }, sharedStart⟩
  have applied : sharedStartLayout.apply piece.body = (.ok (), (sharedStartLayout.apply sharedStart).2) :=
    Prod.ext (by cbv) rfl
  obtain ⟨session, done⟩ : ∃ session, Finally.run (.method 1) piece = (.ok true, ⟨session, _⟩) :=
    run_of_apply Bool.false_ne_true ofBody_sharedStart applied
  have run : quiet.execute piece.body [] {} = (.ok (.returned (some (.i32 0))), { executed := 4 }) := by
    cbv
  have other : quiet.execute (sharedStartLayout.apply sharedStart).2 [] {} =
      (.ok (.returned (some (.i32 7))), { executed := 11 }) := by cbv
  refine ⟨piece, _, _, rfl, sharedStart_reachable, by decide, done, rfl, sharedStart_rules, run, ?_⟩
  intro limit w'' same
  have outcome : Outcome.returned (some (.i32 7)) = .returned (some (.i32 0)) := by
    refine (Machine.execute_unique ?_ ?_ other same).1 <;> rfl
  cases outcome

end CilForge.Finally
