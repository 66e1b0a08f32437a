import CilForge.Body.Depth
import CilForge.Proofs.Machine.Setting

/-!
# Stack depths along control

The depths of a body are those of a run: they are known at every entry, and an instruction with a
known depth takes no more values than there are and passes a known depth on.
-/

namespace CilForge.Body

def depthAfter (i : Instr) (d : Nat) : Nat := d - i.effect.pops + i.effect.pushes

/-- Known depths, of which the first `done` paths and the ways on from known instructions are
part. -/
structure Explored (links : Links) (left : Links) (known : Depths) (paths : Array (Handle × Nat))
    (done : Nat) : Prop where
  left : ∀ {h : Handle} {link}, left[h]? = some link → links[h]? = some link
  seen : ∀ {k : Nat} {p}, k < done → paths[k]? = some p → known[p.1]? = some p.2
  onward : ∀ {h : Handle} {d}, known[h]? = some d → ∃ i next, links[h]? = some (i, next) ∧
    i.effect.pops ≤ d ∧ ∀ p ∈ successors i next (depthAfter i d), p ∈ paths

structure Settled (links : Links) (paths : Array (Handle × Nat)) (known : Depths) : Prop where
  starts : ∀ p ∈ paths, known[p.1]? = some p.2
  onward : ∀ {h : Handle} {d}, known[h]? = some d → ∃ i next, links[h]? = some (i, next) ∧
    i.effect.pops ≤ d ∧ ∀ p ∈ successors i next (depthAfter i d), known[p.1]? = some p.2

variable {links left : Links} {known depths : Depths} {paths : Array (Handle × Nat)} {done : Nat}

theorem append_successors (paths : Array (Handle × Nat)) (l : List (Handle × Nat)) :
    paths ++ l = paths ++ l.toArray :=
  Array.ext' (by simp)

section
variable {h : Handle} {d : Nat} (e : Explored links left known paths done)
  (here : paths[done]? = some (h, d))
include e here

theorem Explored.again (same : known[h]? = some d) : Explored links left known paths (done + 1) := by
  refine ⟨e.left, ?_, e.onward⟩
  intro k p hk hp
  rcases Nat.lt_succ_iff_lt_or_eq.1 hk with hk | rfl
  · exact e.seen hk hp
  · rw [here, Option.some.injEq] at hp
    rw [← hp]
    exact same

theorem Explored.visit (new : known[h]? = none) {i : Instr} {next : Option Handle}
    (link : left[h]? = some (i, next)) (pops : i.effect.pops ≤ d) :
    Explored links (left.erase h) (known.insert h d)
      (paths ++ successors i next (depthAfter i d)) (done + 1) := by
  obtain ⟨lt, -⟩ := Array.getElem?_eq_some_iff.1 here
  rw [append_successors]
  constructor
  · intro h link hl
    rw [Std.HashMap.getElem?_erase] at hl
    split at hl
    · cases hl
    · exact e.left hl
  · intro k p hk hp
    rw [Std.HashMap.getElem?_insert]
    rw [Array.getElem?_append_left (by omega)] at hp
    rcases Nat.lt_succ_iff_lt_or_eq.1 hk with hk | rfl
    · have old := e.seen hk hp
      rw [if_neg]
      · exact old
      · intro eq
        rw [beq_iff_eq] at eq
        rw [← eq, new] at old
        cases old
    · rw [here, Option.some.injEq] at hp
      rw [← hp, if_pos (beq_self_eq_true _)]
  · intro h' d' known'
    rw [Std.HashMap.getElem?_insert] at known'
    split at known'
    · rename_i eq
      rw [beq_iff_eq] at eq
      rw [Option.some.injEq] at known'
      subst eq known'
      exact ⟨i, next, e.left link, pops, fun p hp => Array.mem_append.2 (.inr (by simpa using hp))⟩
    · obtain ⟨i, next, link, pops, on⟩ := e.onward known'
      exact ⟨i, next, link, pops, fun p hp => Array.mem_append.2 (.inl (on p hp))⟩

end

theorem Explored.settled (e : Explored links left known paths done) (all : ¬ done < paths.size) :
    Settled links paths known := by
  have starts (p : Handle × Nat) (hp : p ∈ paths) : known[p.1]? = some p.2 := by
    obtain ⟨k, lt, rfl⟩ := Array.mem_iff_getElem.1 hp
    exact e.seen (by omega) (Array.getElem?_eq_getElem lt)
  refine ⟨starts, fun hd => ?_⟩
  obtain ⟨i, next, link, pops, on⟩ := e.onward hd
  exact ⟨i, next, link, pops, fun p hp => starts p (on p hp)⟩

theorem Explored.explore (e : Explored links left known paths done)
    (found : explore left known paths done = .ok depths) : Settled links paths depths := by
  fun_induction Body.explore left known paths done with
  | case1 left known paths done lt h d same here ih =>
    exact ih (e.again ((Array.getElem?_eq_getElem lt).trans (congrArg some here)) same) found
  | case2 | case3 | case4 => cases found
  | case5 left known paths done lt h d here new i next link enough after ih =>
    have settled := ih (e.visit ((Array.getElem?_eq_getElem lt).trans (congrArg some here)) new link
      (Nat.le_of_not_lt enough)) found
    rw [append_successors] at settled
    exact ⟨fun p hp => settled.starts p (Array.mem_append.2 (.inl hp)), settled.onward⟩
  | case6 left known paths done all =>
    cases found
    exact e.settled all

variable {b : Body}

theorem depths_settled (found : b.depths = .ok depths) :
    Settled b.links b.entries.toArray depths := by
  refine Explored.explore ⟨id, fun lt => absurd lt (Nat.not_lt_zero _), ?_⟩ found
  intro h d known
  rw [Std.HashMap.getElem?_empty] at known
  cases known

theorem links_of_append (num : b.Numbered) {before behind : List (Handle × Instr)} {h : Handle}
    {i : Instr} (code : b.code = before ++ (h, i) :: behind) :
    b.links[h]? = some (i, behind.head?.map (·.1)) := by
  let next := (b.handles.drop 1).map some ++ [none]
  have long : b.code.length ≤ next.length := by
    simp only [next, List.length_append, List.length_map, List.length_drop, handles, List.length_singleton]
    omega
  have keys : ((b.code.zip next).map (·.1)).map (·.1) = b.handles := by
    rw [List.map_fst_zip long]
    rfl
  refine Std.HashMap.getElem?_ofList_of_mem (beq_self_eq_true h) ?_ ?_
  · rw [List.pairwise_map]
    have nodup := num.nodup
    rw [← keys, List.map_map, List.Nodup, List.pairwise_map] at nodup
    exact nodup.imp fun ne => beq_eq_false_iff_ne.2 ne
  · refine List.mem_map.2 ⟨((h, i), behind.head?.map (·.1)), ?_, rfl⟩
    apply List.mem_of_getElem? (i := before.length)
    rw [List.getElem?_zip_eq_some]
    constructor
    · simp [code]
    · cases before with
      | nil => cases behind <;> simp [handles, code]
      | cons q before => cases behind <;> simp [handles, code]

theorem depths_onward (num : b.Numbered) (found : b.depths = .ok depths)
    {before behind : List (Handle × Instr)} {h : Handle} {i : Instr} {d : Nat}
    (code : b.code = before ++ (h, i) :: behind) (known : depths[h]? = some d) :
    i.effect.pops ≤ d ∧
      ∀ p ∈ successors i (behind.head?.map (·.1)) (depthAfter i d), depths[p.1]? = some p.2 := by
  obtain ⟨i', next, link, pops, on⟩ := (depths_settled found).onward known
  rw [links_of_append num code] at link
  cases link
  exact ⟨pops, on⟩

theorem depths_first (found : b.depths = .ok depths) {h : Handle} {i : Instr}
    {behind : List (Handle × Instr)} (code : b.code = (h, i) :: behind) : depths[h]? = some 0 := by
  refine (depths_settled found).starts (h, 0) ?_
  simp [entries, first?, handles, code]

theorem depths_handler (found : b.depths = .ok depths) {r : Region} (mem : r ∈ b.regions)
    (isFinally : r.isFinally = true) : depths[r.handlerStart]? = some 0 := by
  refine (depths_settled found).starts (r.handlerStart, 0) ?_
  simp only [entries, List.mem_toArray, List.mem_append, List.mem_flatMap]
  exact .inr ⟨r, mem, by simp [isFinally]⟩

/-- Where a leave has a depth, its destination has none. -/
theorem depths_leave (num : b.Numbered) (found : b.depths = .ok depths) {h target : Handle}
    {i : Instr} {d : Nat} (mem : (h, i) ∈ b.code) (leave : i.opcode = .leave)
    (goes : i.target? = some target) (known : depths[h]? = some d) : depths[target]? = some 0 := by
  obtain ⟨before, behind, code⟩ := List.append_of_mem mem
  refine (depths_onward num found code known).2 (target, 0) ?_
  simp [successors, leave, Opcode.flow, goes]

/-! ## Bodies that have depths -/

/-- What following the paths comes to, where `A` says with how many values control arrives. -/
inductive Found (A : Handle → Nat → Prop) (links : Links) : Except Fault Depths → Prop where
  | depths {known : Depths} : (∀ (h : Handle) d, known[h]? = some d → A h d) → Found A links (.ok known)
  | mismatch {h : Handle} {k d : Nat} : A h k → A h d → k ≠ d →
    Found A links (.error (.unsupported (.depthMismatch h k d)))
  | underflow {h : Handle} {d : Nat} {i : Instr} {next : Option Handle} : A h d →
    links[h]? = some (i, next) → d < i.effect.pops → Found A links (.error (.unsupported (.depthUnderflow h)))

theorem found_explore {A : Handle → Nat → Prop} (live : ∀ h d, A h d → links[h]?.isSome = true)
    (onward : ∀ h d i next, A h d → links[h]? = some (i, next) → i.effect.pops ≤ d →
      ∀ p ∈ successors i next (depthAfter i d), A p.1 p.2)
    (path : ∀ p ∈ paths, A p.1 p.2) (depth : ∀ (h : Handle) d, known[h]? = some d → A h d)
    (link : ∀ h : Handle, known[h]? = none → left[h]? = links[h]?) :
    Found A links (explore left known paths done) := by
  fun_induction Body.explore left known paths done with
  | case1 left known paths done lt h d same here ih => exact ih path depth link
  | case2 left known paths done lt h d here k known' other =>
    have arrives := path _ (Array.getElem_mem lt)
    rw [here] at arrives
    exact .mismatch (depth h k known') arrives other
  | case3 left known paths done lt h d here new gone =>
    -- a link that is used up has a known depth
    have arrives := path _ (Array.getElem_mem lt)
    rw [here] at arrives
    have there := live h d arrives
    rw [← link h new, gone] at there
    cases there
  | case4 left known paths done lt h d here new i next there short =>
    have arrives := path _ (Array.getElem_mem lt)
    rw [here] at arrives
    exact .underflow arrives (link h new ▸ there) short
  | case5 left known paths done lt h d here new i next there enough after ih =>
    have arrives := path _ (Array.getElem_mem lt)
    rw [here] at arrives
    apply ih
    · intro p hp
      rw [append_successors, Array.mem_append] at hp
      rcases hp with old | new'
      · exact path p old
      · exact onward h d i next arrives (link h new ▸ there) (Nat.le_of_not_lt enough) p (List.mem_toArray.1 new')
    · intro h' d' hd
      rw [Std.HashMap.getElem?_insert] at hd
      split at hd
      · rename_i eq
        rw [beq_iff_eq] at eq
        cases hd
        exact eq ▸ arrives
      · exact depth h' d' hd
    · intro h' none
      rw [Std.HashMap.getElem?_insert] at none
      rw [Std.HashMap.getElem?_erase]
      split at none
      · cases none
      · rename_i other
        rw [if_neg other]
        exact link h' none
  | case6 left known paths done all => exact .depths depth

theorem found_depths {A : Handle → Nat → Prop} (live : ∀ h d, A h d → b.links[h]?.isSome = true)
    (onward : ∀ h d i next, A h d → b.links[h]? = some (i, next) → i.effect.pops ≤ d →
      ∀ p ∈ successors i next (depthAfter i d), A p.1 p.2) (entry : ∀ p ∈ b.entries, A p.1 p.2) :
    Found A b.links b.depths := by
  refine found_explore live onward (fun p hp => entry p (List.mem_toArray.1 hp)) (fun h d known => ?_) fun _ _ => rfl
  rw [Std.HashMap.getElem?_empty] at known
  cases known

theorem links_mem {h : Handle} {link : Instr × Option Handle} (there : b.links[h]? = some link) :
    h ∈ b.handles := by
  have mem : h ∈ b.links := Std.HashMap.mem_iff_isSome_getElem?.2 (there ▸ rfl)
  rw [links, Std.HashMap.mem_ofList, List.contains_iff_mem, List.map_map] at mem
  obtain ⟨x, hx, rfl⟩ := List.mem_map.1 mem
  exact List.mem_map_of_mem (List.of_mem_zip hx).1

/-- `D` gives every instruction the depth with which control gets there. -/
def Consistent (b : Body) (D : Handle → Nat) : Prop :=
  (∀ p ∈ b.entries, p.2 = D p.1 ∧ p.1 ∈ b.handles) ∧
    ∀ n, (lt : n < b.code.length) → b.code[n].2.effect.pops ≤ D b.code[n].1 ∧
      ∀ p ∈ successors b.code[n].2 (b.code[n + 1]?.map (·.1)) (depthAfter b.code[n].2 (D b.code[n].1)),
        p.2 = D p.1 ∧ p.1 ∈ b.handles

instance (b : Body) (D : Handle → Nat) : Decidable (b.Consistent D) :=
  inferInstanceAs (Decidable (_ ∧ _))

theorem links_isSome (num : b.Numbered) {h : Handle} (mem : h ∈ b.handles) : b.links[h]?.isSome = true := by
  obtain ⟨⟨h', i⟩, line, rfl⟩ := List.mem_map.1 mem
  obtain ⟨before, behind, code⟩ := List.append_of_mem line
  rw [links_of_append num code]
  rfl

theorem exists_of_links (num : b.Numbered) {h : Handle} {i : Instr} {next : Option Handle}
    (link : b.links[h]? = some (i, next)) :
    ∃ before behind, b.code = before ++ (h, i) :: behind ∧ next = behind.head?.map (·.1) := by
  obtain ⟨⟨h', i'⟩, mem, rfl⟩ := List.mem_map.1 (links_mem link)
  obtain ⟨before, behind, code⟩ := List.append_of_mem mem
  rw [links_of_append num code] at link
  cases link
  exact ⟨before, behind, code, rfl⟩

/-- A body with consistent depths has no others. -/
theorem depths_of_consistent (num : b.Numbered) {D : Handle → Nat} (consistent : b.Consistent D) :
    ∃ depths, b.depths = .ok depths ∧ ∀ (h : Handle) d, depths[h]? = some d → d = D h := by
  have linked {h : Handle} {i : Instr} {next : Option Handle} (link : b.links[h]? = some (i, next)) :
      ∃ n, ∃ lt : n < b.code.length, b.code[n] = (h, i) ∧ next = b.code[n + 1]?.map (·.1) := by
    obtain ⟨before, behind, code, rfl⟩ := exists_of_links num link
    refine ⟨before.length, by simp [code], by simp [code], ?_⟩
    rw [code, List.head?_eq_getElem?, List.getElem?_append_right (Nat.le_succ _)]
    simp
  have found := found_depths (A := fun h d => d = D h ∧ h ∈ b.handles) (fun h d there => links_isSome num there.2)
    (fun h d i next there link _ p hp => by
      obtain ⟨n, lt, line, rfl⟩ := linked link
      obtain ⟨-, on⟩ := consistent.2 n lt
      rw [line] at on
      exact on p (there.1 ▸ hp)) consistent.1
  generalize b.depths = result at found
  cases found with
  | depths known => exact ⟨_, rfl, fun h d there => (known h d there).1⟩
  | mismatch first second other => exact absurd (first.1.trans second.1.symm) other
  | underflow there link short =>
    obtain ⟨n, lt, line, -⟩ := linked link
    obtain ⟨pops, -⟩ := consistent.2 n lt
    rw [line, ← there.1] at pops
    exact absurd pops (Nat.not_le.2 short)

/-! ## The stack of a run -/

theorem pushes_le {o : Opcode} {c : Nat × Nat} (h : o.counts? = some c) : c.2 ≤ 2 := by
  cases o <;> first | (cases h; decide) | cases h

theorem counts_le (i : Instr) : i.counts.2 ≤ 2 := by
  unfold Instr.counts
  split
  · rename_i c h
    exact pushes_le h
  · have push (m : MethodRef) : m.sig.pushCount ≤ 2 := by
      unfold MethodSig.pushCount
      split <;> omega
    split <;> first | exact push _ | decide | simp

theorem depthAfter_eq {i : Instr} (pops : i.counts.1 ≤ 255) (d : Nat) :
    i.effect.pops = i.counts.1 ∧ depthAfter i d = d - i.counts.1 + i.counts.2 := by
  have pushes := counts_le i
  have first : i.effect.pops = i.counts.1 := Nat.mod_eq_of_lt (by omega)
  have second : i.effect.pushes = i.counts.2 := Nat.mod_eq_of_lt (by omega)
  refine ⟨first, ?_⟩
  unfold depthAfter
  rw [first, second]

theorem head_codeFrom {h h' : Handle} {i : Instr} {rest : List (Handle × Instr)}
    (code : b.codeFrom h = (h', i) :: rest) : h' = h := by
  have head := List.head?_dropWhile_not (fun p : Handle × Instr => decide (p.1 ≠ h)) b.code
  rw [← codeFrom, code] at head
  simpa using head

theorem mem_successors_next {i : Instr} {h : Handle} {d : Nat} (flow : i.opcode.isTerminal = false) :
    (h, d) ∈ successors i (some h) d := by
  unfold Opcode.isTerminal at flow
  unfold successors
  cases hf : i.opcode.flow <;> simp [hf] at flow ⊢

theorem mem_successors_jump {i : Instr} {h : Handle} {next : Option Handle} {d : Nat}
    (plain : i.opcode.isPlain = true) (jumps : i.JumpsTo h) (branch : i.opcode.isBranch = true) :
    (h, d) ∈ successors i next d := by
  have mem := jumps.mem
  obtain ⟨o, operand⟩ := i
  unfold successors
  cases o <;> first
    | (cases branch; done)
    | (cases plain; done)
    | exact List.mem_map.2 ⟨h, List.mem_append_left _ mem, rfl⟩
    | (rcases jumps with one | many
       · rw [show Opcode.flow .br = .unconditional from rfl]
         simp [one]
       · cases many.1)

/-- The depth of the stack is the known one all along a run. -/
theorem depths_lands (num : b.Numbered) (found : b.depths = .ok depths) {f f' : Frame} {h : Handle}
    {i : Instr} {before behind : List (Handle × Instr)} {way : Option Handle}
    (code : b.code = before ++ (h, i) :: behind) (body : f.body = b) (plain : i.opcode.isPlain = true)
    (pops : i.counts.1 ≤ 255) (lands : Lands f i behind way f')
    (known : depths[h]? = some f.stack.length) {h' : Handle} {i' : Instr}
    {rest : List (Handle × Instr)} (ahead : f'.ahead = (h', i') :: rest) :
    depths[h']? = some f'.stack.length := by
  have onward := (depths_onward num found code known).2
  rw [(depthAfter_eq pops _).2, ← lands.stack] at onward
  have there := lands.ahead
  rw [ahead, body] at there
  cases way with
  | none =>
    refine onward (h', f'.stack.length) ?_
    rw [show behind = (h', i') :: rest from there.symm]
    exact mem_successors_next (lands.straight rfl)
  | some goal =>
    obtain ⟨jumps, branch, -⟩ := lands.jump goal rfl
    rw [head_codeFrom there.symm]
    exact onward (goal, f'.stack.length) (mem_successors_jump plain jumps branch)

end CilForge.Body
