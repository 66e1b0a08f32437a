import CilForge.Proofs.Finally.Flatten

/-!
# Stacks that flattening clears

Both `leave` and `endfinally` clear the stack; the code that stands for them does not. A layout is
read only if every `leave` finds an empty stack, but nobody asks what an `endfinally` finds: it may
have a value on the stack, which then outlives its handler.
-/

namespace CilForge.Body

/-! ## Where a depth comes from -/

/-- Known depths are those of paths, and a path starts at an entry or behind a known instruction. -/
structure Sourced (links left : Links) (entries : List (Handle × Nat)) (known : Depths)
    (paths : Array (Handle × Nat)) : Prop where
  linked : ∀ {h : Handle} {link}, left[h]? = some link → links[h]? = some link
  seen : ∀ {h : Handle} {d}, known[h]? = some d → (h, d) ∈ paths
  source : ∀ p ∈ paths, p ∈ entries ∨ ∃ (h : Handle) (d : Nat) (i : Instr) (next : Option Handle),
    known[h]? = some d ∧ links[h]? = some (i, next) ∧ p ∈ successors i next (depthAfter i d)

variable {links left : Links} {known depths : Depths} {entries : List (Handle × Nat)}
  {paths : Array (Handle × Nat)} {done : Nat}

theorem Sourced.visit (s : Sourced links left entries known paths) {h : Handle} {d : Nat}
    (here : (h, d) ∈ paths) (new : known[h]? = none) {i : Instr} {next : Option Handle}
    (link : left[h]? = some (i, next)) :
    Sourced links (left.erase h) entries (known.insert h d)
      (paths ++ successors i next (depthAfter i d)) := by
  have kept {h' : Handle} {d' : Nat} (old : known[h']? = some d') :
      (known.insert h d)[h']? = some d' := by
    rw [Std.HashMap.getElem?_insert, if_neg]
    · exact old
    · intro eq
      rw [beq_iff_eq] at eq
      rw [← eq, new] at old
      cases old
  rw [append_successors]
  refine ⟨?_, ?_, ?_⟩
  · intro h' link' hl
    rw [Std.HashMap.getElem?_erase] at hl
    split at hl
    · cases hl
    · exact s.linked hl
  · intro h' d' known'
    rw [Std.HashMap.getElem?_insert] at known'
    split at known'
    · rename_i eq
      rw [beq_iff_eq] at eq
      cases known'
      exact Array.mem_append.2 (.inl (eq ▸ here))
    · exact Array.mem_append.2 (.inl (s.seen known'))
  · intro p hp
    rcases Array.mem_append.1 hp with old | new'
    · rcases s.source p old with entry | ⟨h', d', i', next', known', link', passed⟩
      · exact .inl entry
      · exact .inr ⟨h', d', i', next', kept known', link', passed⟩
    · refine .inr ⟨h, d, i, next, ?_, s.linked link, List.mem_toArray.1 new'⟩
      rw [Std.HashMap.getElem?_insert, if_pos (beq_self_eq_true h)]

theorem Sourced.explore (s : Sourced links left entries known paths)
    (found : Body.explore left known paths done = .ok depths) :
    ∃ left paths, Sourced links left entries depths paths := by
  fun_induction Body.explore left known paths done with
  | case1 left known paths done lt h d same here ih => exact ih s found
  | case2 | case3 | case4 => cases found
  | case5 left known paths done lt h d here new i next link enough after ih =>
    exact ih (s.visit (here ▸ Array.getElem_mem lt) new link) found
  | case6 left known paths done all =>
    cases found
    exact ⟨_, _, s⟩

variable {b : Body}

theorem depths_source (num : b.Numbered) (found : b.depths = .ok depths) {h : Handle} {d : Nat}
    (known : depths[h]? = some d) : (h, d) ∈ b.entries ∨
      ∃ before h₀ i₀ behind d₀, b.code = before ++ (h₀, i₀) :: behind ∧ depths[h₀]? = some d₀ ∧
        (h, d) ∈ successors i₀ (behind.head?.map (·.1)) (depthAfter i₀ d₀) := by
  have start : Sourced b.links b.links b.entries ∅ b.entries.toArray :=
    ⟨id, fun known => (by rw [Std.HashMap.getElem?_empty] at known; cases known),
      fun p hp => .inl (List.mem_toArray.1 hp)⟩
  obtain ⟨_, _, sourced⟩ := start.explore found
  rcases sourced.source _ (sourced.seen known) with entry | ⟨h₀, d₀, i₀, next, known₀, link, passed⟩
  · exact .inl entry
  · obtain ⟨before, behind, code, rfl⟩ := exists_of_links num link
    exact .inr ⟨before, _, _, behind, d₀, code, known₀, passed⟩

end CilForge.Body

namespace CilForge.Finally

open Body

variable {b : Body} {depths : Depths}

/-- What an instruction other than a `leave` passes on, it passes on to a place where it goes. -/
theorem flows_of_successors (num : b.Numbered) {before behind : List (Handle × Instr)} {h h₀ : Handle}
    {i i₀ : Instr} {d after place : Nat} (code : b.code = before ++ (h₀, i₀) :: behind)
    (line : b.code[place]? = some (h, i)) (leave : i₀.opcode ≠ .leave)
    (passed : (h, d) ∈ successors i₀ (behind.head?.map (·.1)) after) :
    Flows b before.length place ∧ d = after := by
  have here : b.code[before.length]? = some (h₀, i₀) := by simp [code]
  have next (flow : i₀.opcode.isTerminal = false)
      (mem : (h, d) ∈ (behind.head?.map (·.1)).toList.map (·, after)) :
      Flows b before.length place ∧ d = after := by
    obtain ⟨_, there, eq⟩ := List.mem_map.1 mem
    cases eq
    cases behind with
    | nil => cases there
    | cons line' behind =>
      cases List.mem_singleton.1 there
      have second : b.code[before.length + 1]? = some line' := by simp [code]
      obtain ⟨rfl, -⟩ := line_unique num.nodup line second
      exact ⟨⟨h₀, i₀, here, .inl ⟨flow, rfl, (List.getElem?_eq_some_iff.1 line).1⟩⟩, rfl⟩
  have jump {targets : List Handle} (branch : i₀.opcode.isBranch = true) (sub : ∀ t ∈ targets, t ∈ i₀.targets)
      (mem : (h, d) ∈ targets.map (·, after)) : Flows b before.length place ∧ d = after := by
    obtain ⟨_, there, eq⟩ := List.mem_map.1 mem
    cases eq
    exact ⟨⟨h₀, i₀, here, .inr ⟨branch, h, sub h there, position?_of_get num.nodup line⟩⟩, rfl⟩
  have target (t : Handle) (mem : t ∈ i₀.target?.toList) : t ∈ i₀.targets :=
    (show i₀.JumpsTo t from .inl (Option.mem_toList.1 mem)).mem
  unfold successors at passed
  cases flow : i₀.opcode.flow with
  | sequential | call =>
    rw [flow] at passed
    exact next (by simp [Opcode.isTerminal, flow]) passed
  | conditional | switch =>
    rw [flow, List.map_append] at passed
    rcases List.mem_append.1 passed with mem | mem
    · exact jump (by simp [Opcode.isBranch, flow]) (fun _ mem => mem) mem
    · exact next (by simp [Opcode.isTerminal, flow]) mem
  | unconditional =>
    rw [flow] at passed
    exact jump (by simp [Opcode.isBranch, flow]) target passed
  | leave =>
    refine absurd ?_ leave
    cases o : i₀.opcode <;> rw [o] at flow <;> first | rfl | cases flow
  | ret | throw | endFinally =>
    rw [flow] at passed
    cases passed

theorem depth_of_entry (all : ∀ r ∈ b.regions, r.isFinally = true) {h : Handle} {d : Nat}
    (entry : (h, d) ∈ b.entries) : d = 0 ∨ d = 1 ∧ ∃ r ∈ b.regions, r.filterStart = some h := by
  rcases List.mem_append.1 entry with first | handler
  · obtain ⟨_, -, eq⟩ := List.mem_map.1 first
    cases eq
    exact .inl rfl
  · obtain ⟨r, mem, there⟩ := List.mem_flatMap.1 handler
    rcases List.mem_cons.1 there with start | filter
    · rw [all r mem] at start
      cases start
      exact .inl rfl
    · obtain ⟨_, starts, eq⟩ := List.mem_map.1 filter
      cases eq
      exact .inr ⟨rfl, r, mem, Option.mem_toList.1 starts⟩

theorem Reads.isFinally {regions : List Ranges} {p : Layout} (reads : Reads b regions depths p) :
    ∀ r ∈ b.regions, r.isFinally = true := by
  intro r mem
  obtain ⟨n, there⟩ := List.getElem?_of_mem mem
  have numbered : (r, n) ∈ b.regions.zipIdx := List.mem_zipIdx_iff_getElem?.2 there
  obtain ⟨ranges, -, eq⟩ := mem_left_of_forall₂ reads.spans numbered
  exact (regionSpans_eq_ok eq).isFinally

/-- Where a layout is read, every `leave` finds an empty stack. So does an `endfinally`, unless it
starts a filter or another instruction than a `leave` brings values there. -/
theorem cleared_of_ofBody {p : Layout} (reachable : b.Reachable) (found : Layout.ofBody b = .ok p) :
    ∃ depths, b.depths = .ok depths ∧
      (∀ (place : Nat) h i d, b.code[place]? = some (h, i) → i.opcode = .leave → depths[h]? = some d → d = 0) ∧
      ∀ (place : Nat) h i d, b.code[place]? = some (h, i) → i.opcode = .endfinally → depths[h]? = some d →
        d = 0 ∨ (d = 1 ∧ ∃ r ∈ b.regions, r.filterStart = some h) ∨
          ∃ (place₀ : Nat) (h₀ : Handle) (i₀ : Instr) (d₀ : Nat), b.code[place₀]? = some (h₀, i₀) ∧ i₀.opcode ≠ .leave ∧
            Flows b place₀ place ∧ depths[h₀]? = some d₀ ∧ d = depthAfter i₀ d₀ := by
  obtain ⟨regions, depths, -, reads⟩ := reads_of_ofBody found
  refine ⟨depths, reads.found, ?_, ?_⟩
  · intro place h i d line leave known
    obtain ⟨l, mem, rfl⟩ := reads.allLeaves line leave
    obtain ⟨_, _, _, -, -, -, -, -, empty⟩ := reads.leaves mem
    exact empty d known
  · intro place h i d line endfinally known
    rcases depths_source reachable.numbered reads.found known with
      entry | ⟨before, h₀, i₀, behind, d₀, code, known₀, passed⟩
    · rcases depth_of_entry reads.isFinally entry with zero | filter
      · exact .inl zero
      · exact .inr (.inl filter)
    · by_cases leave : i₀.opcode = .leave
      · refine .inl ?_
        simp only [successors, leave, Opcode.flow] at passed
        obtain ⟨_, -, eq⟩ := List.mem_map.1 passed
        cases eq
        rfl
      · obtain ⟨flows, rfl⟩ := flows_of_successors reachable.numbered code line leave passed
        exact .inr (.inr ⟨before.length, h₀, i₀, d₀, by simp [code], leave, flows, known₀, rfl⟩)

/-! ## A value that outlives its handler -/

/-- A handler that ends with a value on the stack. -/
def littered : Body where
  code := [(⟨0⟩, .branch .leave ⟨3⟩), (⟨1⟩, .ldcI4 7), (⟨2⟩, ⟨.endfinally, .none⟩), (⟨3⟩, ⟨.ret, .none⟩)]
  nextIndex := 4
  regions := [{ tryStart := ⟨0⟩, tryEnd := some ⟨1⟩, handlerStart := ⟨1⟩, handlerEnd := some ⟨3⟩ }]

def litteredRegions : List Ranges := [⟨0, ⟨0, 1⟩, ⟨1, 3⟩, ⟨1⟩⟩]

def litteredEdits : List Edit.Op := [
  .push ⟨.leave, .none⟩, .push (.ldcI4 7), .push ⟨.endfinally, .none⟩, .push ⟨.ret, .none⟩,
  .setOperand ⟨0⟩ (.target ⟨3⟩),
  .addRegion { tryStart := ⟨0⟩, tryEnd := some ⟨1⟩, handlerStart := ⟨1⟩, handlerEnd := some ⟨3⟩ }]

theorem littered_reachable : littered.Reachable := .of_edits litteredEdits rfl

theorem littered_consistent : littered.Consistent fun h => if h = ⟨2⟩ then 1 else 0 := by decide

def litteredLayout : Layout where
  nesting := #[⟨⟨0, ⟨0, 1⟩, ⟨1, 3⟩, ⟨1⟩⟩, none⟩]
  ends := [(0, [⟨2⟩])]
  leaves := [⟨⟨0⟩, ⟨3⟩, [0]⟩]

theorem ofBody_littered : Layout.ofBody littered = .ok litteredLayout := by
  obtain ⟨depths, found, agree⟩ := depths_of_consistent littered_reachable.numbered littered_consistent
  have nesting : Nesting.ofRegions litteredRegions = litteredLayout.nesting := by cbv
  have exits : litteredLayout.nesting.exits 0 3 = [0] := by cbv
  have leave : readLeave littered (.ofRegions litteredRegions) depths ⟨0⟩ (.branch .leave ⟨3⟩) 0 =
      .ok ⟨⟨0⟩, ⟨3⟩, [0]⟩ := by
    rw [readLeave_of_empty (agree ⟨0⟩) rfl (rfl : littered.position? ⟨3⟩ = some 3), nesting, exits]
  have layout : Layout.ofBody littered =
      .ok ⟨.ofRegions litteredRegions, litteredLayout.ends, litteredLayout.leaves⟩ :=
    ofBody_eq_ok rfl rfl rfl rfl found (.cons leave .nil)
  rw [layout, nesting]

theorem cleared_of_ofBody_littered : littered.Reachable ∧ Layout.ofBody littered = .ok litteredLayout ∧
    ∃ depths, littered.depths = .ok depths ∧ (∀ d, depths[(⟨0⟩ : Handle)]? = some d → d = 0) ∧
      ∀ d, depths[(⟨2⟩ : Handle)]? = some d →
        d = 0 ∨ (d = 1 ∧ ∃ r ∈ littered.regions, r.filterStart = some ⟨2⟩) ∨
          ∃ (place₀ : Nat) (h₀ : Handle) (i₀ : Instr) (d₀ : Nat), littered.code[place₀]? = some (h₀, i₀) ∧
            i₀.opcode ≠ .leave ∧ Flows littered place₀ 2 ∧ depths[h₀]? = some d₀ ∧ d = depthAfter i₀ d₀ := by
  obtain ⟨depths, found, leaves, ends⟩ := cleared_of_ofBody littered_reachable ofBody_littered
  exact ⟨littered_reachable, ofBody_littered, depths, found, fun d => leaves 0 _ _ d rfl rfl,
    fun d => ends 2 _ _ d rfl rfl⟩

/-- The layout is read, though the `endfinally` finds a value, and in the flattened body the value
is still there at the end. -/
theorem littered_outlives : littered.Reachable ∧ Layout.ofBody littered = .ok litteredLayout ∧
    (⟨2⟩, ⟨.endfinally, .none⟩) ∈ littered.code ∧
    (∃ depths, littered.depths = .ok depths ∧ depths[(⟨2⟩ : Handle)]? = some 1) ∧
    (quiet.execute littered [] {}).1 = .ok (.returned none) ∧
    ∃ flat, litteredLayout.apply littered = (.ok (), flat) ∧
      (quiet.execute flat [] {}).1 = .ok (.returned (some (.i32 7))) := by
  obtain ⟨depths, found, -⟩ := depths_of_consistent littered_reachable.numbered littered_consistent
  have handler : depths[(⟨1⟩ : Handle)]? = some 0 := depths_handler found (List.mem_singleton_self _) rfl
  have code : littered.code = [(⟨0⟩, .branch .leave ⟨3⟩)] ++ (⟨1⟩, .ldcI4 7) ::
      [(⟨2⟩, ⟨.endfinally, .none⟩), (⟨3⟩, ⟨.ret, .none⟩)] := rfl
  have value : depths[(⟨2⟩ : Handle)]? = some 1 :=
    (depths_onward littered_reachable.numbered found code handler).2 (⟨2⟩, 1) (by decide)
  have applied : litteredLayout.apply littered = (.ok (), (litteredLayout.apply littered).2) :=
    Prod.ext (by cbv) rfl
  exact ⟨littered_reachable, ofBody_littered, by decide, ⟨depths, found, value⟩, by cbv, _, applied, by cbv⟩

end CilForge.Finally
