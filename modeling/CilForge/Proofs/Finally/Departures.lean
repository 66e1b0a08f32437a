import CilForge.Proofs.Machine.Depth

/-!
# Departures

Where the finally regions of a body are nested properly and control neither enters nor leaves their handlers by itself,
a `leave` runs the handlers of the regions that it leaves one by one, the innermost first. While one of them runs the
`leave` waits below all that the handler itself leaves, so the `endfinally` that comes to it is the one that ends the
handler. In the end the `leave` arrives, and nothing of it is left.
-/

namespace CilForge

def Machine.Goes (m : Machine) (callee : Executor) (f : Frame) (w : World) (f' : Frame) (w' : World) : Prop :=
  ∃ h i behind, f.ahead = (h, i) :: behind ∧ w.executed < m.limits.maxInstructions ∧
    m.step callee { f with ahead := behind } h i (w.later 1 w.memory) = (.ok (.inl f'), w')

inductive Machine.Stays (m : Machine) (callee : Executor) (P : Frame → Prop) :
    Frame → World → Frame → World → Prop where
  | here {f w} : P f → Stays m callee P f w f w
  | step {f w f' w' g w₁} : P f → m.Goes callee f w f' w' → Stays m callee P f' w' g w₁ → Stays m callee P f w g w₁

theorem Machine.Step.pos {m : Machine} {R : Carries} {f f' : Frame} {mem mem' : Memory} {k : Nat}
    (step : Step m R f mem k f' mem') : 0 < k := by
  cases step with
  | move | ask => exact Nat.one_pos
  | call => exact Nat.succ_pos _

namespace Finally

open Body Machine

def finallies (b : Body) : List Region := b.regions.filter (·.isFinally)

def handlerRange (b : Body) (r : Region) : Span :=
  ⟨(b.position? r.handlerStart).getD 0, r.handlerEnd.elim b.size fun h => (b.position? h).getD 0⟩

def ranges (b : Body) (r : Region) : Ranges := ⟨0, tryRange b r, handlerRange b r, r.handlerStart⟩

/-- Finally regions are nested properly, and control neither enters nor leaves their handlers. -/
structure Orderly (b : Body) : Prop where
  proper : ∀ r ∈ finallies b, (ranges b r).Proper
  nested : (finallies b).Pairwise fun r s => (ranges b r).Nested (ranges b s)
  flow : ∀ p q, Flows b p q → ∀ r ∈ finallies b, (handlerRange b r).contains p = (handlerRange b r).contains q

/-- A frame in the handler of a region, with `leave`s that wait for the handler to end. -/
structure InHandler (b : Body) (r : Region) (waiting : List Departure) (f : Frame) : Prop where
  place : ∀ h i behind, f.ahead = (h, i) :: behind →
    ∃ p, b.position? h = some p ∧ (handlerRange b r).contains p = true
  waiting : waiting <:+ f.leaves

/-- A frame in front of the handler of a region that a `leave` runs, with other regions to come. -/
structure Enters (b : Body) (target : Handle) (outer : List Departure) (r : Region) (rest : List Region)
    (f : Frame) : Prop where
  ahead : f.ahead = b.codeFrom r.handlerStart
  stack : f.stack = []
  leaves : f.leaves = ⟨rest.map (·.handlerStart), target⟩ :: outer

/-- A run serves a `leave`: it runs the handlers of these regions in their order and arrives at the target, unless it
ends before. -/
inductive Serves (m : Machine) (callee : Executor) (b : Body) (target : Handle) (outer : List Departure) :
    List Region → Frame → World → Prop where
  | arrives {f : Frame} {w : World} : f.ahead = b.codeFrom target → f.stack = [] → f.leaves = outer →
    Serves m callee b target outer [] f w
  | passes {r rest f w g w₁ h i behind f' w'} : Enters b target outer r rest f →
    m.Stays callee (InHandler b r f.leaves) f w g w₁ →
    g.ahead = (h, i) :: behind → i.opcode = .endfinally → g.leaves = f.leaves → m.Goes callee g w₁ f' w' →
    Serves m callee b target outer rest f' w' → Serves m callee b target outer (r :: rest) f w
  | ends {r rest f w g w₁} : Enters b target outer r rest f →
    m.Stays callee (InHandler b r f.leaves) f w g w₁ → (¬ ∃ f' w', m.Goes callee g w₁ f' w') →
    Serves m callee b target outer (r :: rest) f w

/-! ## Single steps -/

variable {b : Body} {m : Machine} {callee : Executor} {f f' g : Frame} {w w' w₁ : World} {p q : Nat} {h target : Handle}
  {i : Instr} {behind : List (Handle × Instr)} {outer waiting : List Departure} {r s : Region}

def underway (handlers : List Handle) (target : Handle) (outer : List Departure) : List Departure :=
  (handlers.tail?.map fun rest => (⟨rest, target⟩ : Departure)).toList ++ outer

/-- What a step from a place can do: it follows the flow of control, or a `leave` sets out or goes on. -/
inductive Went (b : Body) (f : Frame) (p : Nat) (h : Handle) (i : Instr) : Frame → Prop where
  | flows {f' : Frame} {q : Nat} : i.opcode.isPlain = true → f'.body = b → f'.ahead = b.code.drop q →
    (q < b.size → Flows b p q) → f'.leaves = f.leaves → Went b f p h i f'
  | leave {target : Handle} {handlers : List Handle} :
    i.opcode = .leave → i.target? = some target → f.leftHandlers h target = .ok handlers →
    Went b f p h i (departed f (underway handlers target f.leaves) (b.codeFrom (handlers.headD target)))
  | endfinally {target : Handle} {handlers : List Handle} {outer : List Departure} :
    i.opcode = .endfinally → f.leaves = ⟨handlers, target⟩ :: outer →
    Went b f p h i (departed f (underway handlers target outer) (b.codeFrom (handlers.headD target)))

theorem line_of_drop (ahead : b.code.drop p = (h, i) :: behind) :
    b.code[p]? = some (h, i) ∧ behind = b.code.drop (p + 1) := by
  have lt : p < b.code.length := by
    rw [← Nat.not_le]
    intro le
    rw [List.drop_eq_nil_of_le le] at ahead
    cases ahead
  rw [List.drop_eq_getElem_cons lt, List.cons.injEq] at ahead
  exact ⟨by rw [List.getElem?_eq_getElem lt, ahead.1], ahead.2.symm⟩

theorem went_of_step (num : b.Numbered) (body : f.body = b) (place : f.ahead = b.code.drop p)
    (ahead : f.ahead = (h, i) :: behind) {R : Carries} {mem mem' : Memory} {k : Nat}
    (step : Step m R f mem k f' mem') : Went b f p h i f' := by
  obtain ⟨line, rest⟩ := line_of_drop (place.symm.trans ahead)
  obtain ⟨g, a, acts, going⟩ := step.acts
  by_cases leave : i.opcode = .leave
  · obtain ⟨target, handlers, goes, left⟩ := Frame.act_leave_cases leave (acts.eq ahead)
    have acted : Frame.act { f with ahead := behind } mem.heap h i = _ := act_leave leave goes fun _ => left
    obtain ⟨-, rfl, -⟩ := step_of_jump ahead acted step
    rw [← body]
    exact .leave leave goes left
  · by_cases endfinally : i.opcode = .endfinally
    · cases waiting : f.leaves with
      | nil =>
        have stray : Frame.act { f with ahead := behind } mem.heap h i = _ := act_stray endfinally waiting
        cases stray.symm.trans (acts.eq ahead)
      | cons d outer =>
        have acted : Frame.act { f with ahead := behind } mem.heap h i = _ := act_endfinally endfinally waiting
        obtain ⟨-, rfl, -⟩ := step_of_jump ahead acted step
        rw [← body]
        exact .endfinally endfinally waiting
    · by_cases ret : i.opcode = .ret
      · have returns : Frame.act { f with ahead := behind } mem.heap h i = _ := act_ret ret
        cases returns.symm.trans (acts.eq ahead)
        cases going
      · have plain : i.opcode.isPlain = true := by simp [Opcode.isPlain, leave, endfinally, ret]
        obtain ⟨way, lands, -⟩ := step.plain ahead plain
        have there := lands.ahead
        rw [body] at there
        cases way with
        | none =>
          rw [show b.onward behind none = b.code.drop (p + 1) from rest] at there
          refine .flows plain (lands.body.trans body) there ?_ lands.leaves
          intro lt
          exact ⟨h, i, line, .inl ⟨lands.straight rfl, rfl, lt⟩⟩
        | some goal =>
          obtain ⟨jumps, branch, live⟩ := lands.jump goal rfl
          rw [there] at live
          obtain ⟨q, j, goalLine⟩ := get_of_codeFrom live
          rw [show b.onward behind (some goal) = b.codeFrom goal from rfl, codeFrom_of_get num.nodup goalLine] at there
          refine .flows plain (lands.body.trans body) there ?_ lands.leaves
          intro _
          exact ⟨h, i, line, .inr ⟨branch, goal, jumps.mem, position?_of_get num.nodup goalLine⟩⟩

theorem went_of_goes (num : b.Numbered) (body : f.body = b) (place : f.ahead = b.code.drop p)
    (ahead : f.ahead = (h, i) :: behind) (goes : m.Goes callee f w f' w') : Went b f p h i f' := by
  obtain ⟨h₁, i₁, behind₁, ahead₁, -, next⟩ := goes
  rw [ahead] at ahead₁
  cases ahead₁
  obtain ⟨k, mem', step⟩ := step_of_run ahead next
  exact went_of_step num body place ahead step

/-! ## Regions around a jump -/

theorem mem_finallies : r ∈ finallies b ↔ r ∈ b.regions ∧ r.isFinally = true := List.mem_filter

theorem mem_leaving : r ∈ leaving b p q ↔
    r ∈ finallies b ∧ (tryRange b r).contains p = true ∧ (tryRange b r).contains q = false := by
  unfold leaving finallies
  rw [List.mem_filter, Bool.and_eq_true, Bool.not_eq_true']

theorem handler_start (linked : b.Linked) (proper : (ranges b r).Proper) (mem : r ∈ b.regions) :
    ∃ n, b.position? r.handlerStart = some n ∧ (handlerRange b r).contains n = true := by
  obtain ⟨n, there⟩ := exists_position (linked.boundaries r mem r.handlerStart (by simp [Region.boundaries]))
  refine ⟨n, there, ?_⟩
  have nonempty : (handlerRange b r).start < (handlerRange b r).stop := proper.handlerNonempty
  have start : (handlerRange b r).start = n := by simp [handlerRange, there]
  rw [Span.contains_iff]
  omega

theorem handlers_apart (linked : b.Linked) (hr : r ∈ b.regions) (hs : s ∈ b.regions) (properR : (ranges b r).Proper)
    (properS : (ranges b s).Proper) (lies : (ranges b r).LiesIn (tryRange b s)) : r.handlerStart ≠ s.handlerStart := by
  intro same
  obtain ⟨n, start, inside⟩ := handler_start linked properR hr
  obtain ⟨n', start', inside'⟩ := handler_start linked properS hs
  rw [← same, start] at start'
  cases start'
  have outside := properS.not_both (p := n) (Span.contains_of_encloses lies.2 inside)
  rw [show (ranges b s).handlerSpan.contains n = true from inside'] at outside
  cases outside

section
variable (orderly : Orderly b)
include orderly

theorem Orderly.nested_of_ne (hr : r ∈ finallies b) (hs : s ∈ finallies b) (ne : r ≠ s) :
    (ranges b r).Nested (ranges b s) := by
  have : Std.Symm fun r s => (ranges b r).Nested (ranges b s) := ⟨fun _ _ nested => nested.symm⟩
  exact orderly.nested.forall hr hs ne

/-- A region that a jump within a handler leaves lies in that handler. -/
theorem Orderly.leaving_inside (hr : r ∈ finallies b) (inside : (handlerRange b r).contains p = true)
    (flows : Flows b p q) (hs : s ∈ leaving b p q) : (ranges b s).LiesIn (handlerRange b r) := by
  obtain ⟨hs, protects, left⟩ := mem_leaving.1 hs
  have ne : s ≠ r := by
    rintro rfl
    have := (orderly.proper s hs).not_both protects
    rw [show (ranges b s).handlerSpan.contains p = true from inside] at this
    cases this
  rcases (orderly.nested_of_ne hs hr ne).of_try_handler (orderly.proper s hs) (orderly.proper r hr) protects inside with
    lies | around
  · exact lies
  · -- the jump would leave the handler as well
    have goes := orderly.flow p q flows r hr
    rw [inside] at goes
    have stays : (tryRange b s).contains q = true := Span.contains_of_encloses around.2 goes.symm
    rw [left] at stays
    cases stays

/-- Of the regions that a jump leaves, the shorter ones lie in the longer ones. -/
theorem Orderly.leaving_sorted : ((leaving b p q).mergeSort fun r s =>
      (tryRange b r).stop - (tryRange b r).start ≤ (tryRange b s).stop - (tryRange b s).start).Pairwise
    fun r s => (ranges b r).LiesIn (tryRange b s) := by
  have perm := List.mergeSort_perm (leaving b p q) fun r s =>
    (tryRange b r).stop - (tryRange b r).start ≤ (tryRange b s).stop - (tryRange b s).start
  have : Std.Symm fun r s => (ranges b r).Nested (ranges b s) := ⟨fun _ _ nested => nested.symm⟩
  have nested := perm.symm.pairwise (orderly.nested.sublist List.filter_sublist) fun {_ _} nested => nested.symm
  have sorted := @List.pairwise_mergeSort Region (fun r s => decide
      ((tryRange b r).stop - (tryRange b r).start ≤ (tryRange b s).stop - (tryRange b s).start))
    (fun r s t rs st => decide_eq_true (Nat.le_trans (of_decide_eq_true rs) (of_decide_eq_true st)))
    (fun r s => by
      rw [Bool.or_eq_true, decide_eq_true_eq, decide_eq_true_eq]
      exact Nat.le_total _ _) (leaving b p q)
  refine (nested.and sorted).imp_of_mem ?_
  intro r s hr hs both
  obtain ⟨hr, here, -⟩ := mem_leaving.1 (perm.mem_iff.1 hr)
  obtain ⟨hs, there, -⟩ := mem_leaving.1 (perm.mem_iff.1 hs)
  rcases both.1.of_try_try (orderly.proper r hr) (orderly.proper s hs) here there with inside | around
  · exact inside
  · have shorter := ((orderly.proper s hs).shorter around).1
    exact absurd (of_decide_eq_true both.2) (Nat.not_le.2 shorter)

end

/-! ## The run of a handler -/

def StandsIn (b : Body) (s : Span) (h : Handle) : Prop := ∃ p, b.position? h = some p ∧ s.contains p = true

/-- A frame in a span, with `leave`s that wait outside; those that set out later stay in the span. -/
structure Held (b : Body) (s : Span) (waiting : List Departure) (f : Frame) : Prop where
  body : f.body = b
  place : ∃ p, f.ahead = b.code.drop p ∧ (p < b.size → s.contains p = true)
  leaves : ∃ inner, f.leaves = inner ++ waiting ∧ ∀ d ∈ inner, ∀ h ∈ d.target :: d.handlers, StandsIn b s h

theorem Held.inHandler (num : b.Numbered) (held : Held b (handlerRange b r) waiting f) : InHandler b r waiting f := by
  constructor
  · intro h i behind ahead
    obtain ⟨p, place, inside⟩ := held.place
    obtain ⟨line, -⟩ := line_of_drop (place.symm.trans ahead)
    exact ⟨p, position?_of_get num.nodup line, inside (List.getElem?_eq_some_iff.1 line).1⟩
  · obtain ⟨inner, leaves, -⟩ := held.leaves
    exact ⟨inner, leaves.symm⟩

theorem Held.departed (num : b.Numbered) {s : Span} (body : f.body = b) {handlers : List Handle}
    {inner : List Departure} (next : ∀ h ∈ target :: handlers, StandsIn b s h)
    (others : ∀ d ∈ inner, ∀ h ∈ d.target :: d.handlers, StandsIn b s h) :
    Held b s waiting (departed f (underway handlers target (inner ++ waiting))
      (b.codeFrom (handlers.headD target))) := by
  have stands (h : Handle) (there : StandsIn b s h) :
      ∃ p, b.codeFrom h = b.code.drop p ∧ (p < b.size → s.contains p = true) := by
    obtain ⟨p, there, inside⟩ := there
    obtain ⟨j, line⟩ := get_of_position? there
    exact ⟨p, codeFrom_of_get num.nodup line, fun _ => inside⟩
  refine ⟨body, ?_, ?_⟩
  · apply stands
    cases handlers with
    | nil => exact next target List.mem_cons_self
    | cons first rest => exact next first (List.mem_cons_of_mem _ List.mem_cons_self)
  · cases handlers with
    | nil => exact ⟨inner, rfl, others⟩
    | cons first rest =>
      refine ⟨⟨rest, target⟩ :: inner, rfl, ?_⟩
      intro d mem
      rcases List.mem_cons.1 mem with rfl | mem
      · intro h there
        rcases List.mem_cons.1 there with rfl | there
        · exact next h List.mem_cons_self
        · exact next h (List.mem_cons_of_mem _ (List.mem_cons_of_mem _ there))
      · exact others d mem

section
variable (reach : b.Reachable) (orderly : Orderly b)
include reach orderly

theorem Held.step (hr : r ∈ finallies b) (held : Held b (handlerRange b r) waiting f)
    (ahead : f.ahead = (h, i) :: behind) (goes : m.Goes callee f w f' w') :
    Held b (handlerRange b r) waiting f' ∨ i.opcode = .endfinally ∧ f.leaves = waiting := by
  have num := reach.numbered
  have linked := reach.linked
  obtain ⟨p, place, inside⟩ := held.place
  obtain ⟨inner, leaves, others⟩ := held.leaves
  obtain ⟨line, -⟩ := line_of_drop (place.symm.trans ahead)
  have inside := inside (List.getElem?_eq_some_iff.1 line).1
  cases went_of_goes num held.body place ahead goes with
  | @flows _ q _ body' place' flows leaves' =>
    refine .inl ⟨body', ⟨q, place', ?_⟩, ⟨inner, leaves'.trans leaves, others⟩⟩
    intro lt
    rw [← orderly.flow p q (flows lt) r hr]
    exact inside
  | @leave target handlers leave goal left =>
    have named : target ∈ i.targets := Instr.JumpsTo.mem (.inl goal)
    obtain ⟨q, there⟩ := exists_position (linked.targets (h, i) (List.mem_of_getElem? line) target named)
    have flows : Flows b p q := ⟨h, i, line, .inr ⟨by rw [leave]; rfl, target, named, there⟩⟩
    rw [leftHandlers_of_linked linked held.body (position?_of_get num.nodup line) there] at left
    cases left
    rw [leaves]
    refine .inl (Held.departed num held.body ?_ others)
    intro x mem
    rcases List.mem_cons.1 mem with rfl | mem
    · exact ⟨q, there, (orderly.flow p q flows r hr).symm.trans inside⟩
    · obtain ⟨s, hs, rfl⟩ := List.mem_map.1 mem
      have hs := List.mem_mergeSort.1 hs
      have lies := orderly.leaving_inside hr inside flows hs
      have hs := (mem_leaving.1 hs).1
      obtain ⟨n, start, first⟩ := handler_start linked (orderly.proper s hs) (mem_finallies.1 hs).1
      exact ⟨n, start, Span.contains_of_encloses lies.2 first⟩
  | @endfinally target handlers outer endfinally waits =>
    cases inner with
    | nil => exact .inr ⟨endfinally, leaves⟩
    | cons d inner =>
      rw [leaves, List.cons_append] at waits
      cases waits
      exact .inl (Held.departed num held.body (others _ List.mem_cons_self)
        fun d mem => others d (List.mem_cons_of_mem _ mem))

/-- A handler runs to its end, unless the frame ends in it. -/
theorem Held.run (depth : Nat) (hr : r ∈ finallies b) (held : Held b (handlerRange b r) waiting f) :
    ∃ g w₁, m.Stays (m.executeWithin depth) (InHandler b r waiting) f w g w₁ ∧
      ((¬ ∃ f' w', m.Goes (m.executeWithin depth) g w₁ f' w') ∨
        Held b (handlerRange b r) waiting g ∧ ∃ h i behind f' w', g.ahead = (h, i) :: behind ∧ i.opcode = .endfinally ∧
          g.leaves = waiting ∧ m.Goes (m.executeWithin depth) g w₁ f' w') := by
  -- every step counts against the limit
  generalize left : m.limits.maxInstructions - w.executed = n
  induction n using Nat.strongRecOn generalizing f w with
  | _ n ih =>
    have here := held.inHandler reach.numbered
    by_cases goes : ∃ f' w', m.Goes (m.executeWithin depth) f w f' w'
    · obtain ⟨f', w', goes⟩ := goes
      obtain ⟨h, i, behind, ahead, room, next⟩ := id goes
      rcases held.step reach orderly hr ahead goes with held' | ⟨endfinally, waits⟩
      · obtain ⟨k, mem', step, rfl⟩ := step_of_finds ahead (executeWithin_finds m depth) next
        have pos : 0 < k := step.pos
        obtain ⟨g, w₁, stays, ends⟩ := ih (m.limits.maxInstructions - (w.later k mem').executed)
          (by rw [World.executed_later]; omega) held' rfl
        exact ⟨g, w₁, .step here goes stays, ends⟩
      · exact ⟨f, w, .here here, .inr ⟨held, h, i, behind, f', w', ahead, endfinally, waits, goes⟩⟩
    · exact ⟨f, w, .here here, .inl goes⟩

/-- The handlers of regions are run one after the other. -/
theorem serves_of_departed {depth : Nat} {left : List Region} (mem : ∀ r ∈ left, r ∈ finallies b) (body : f.body = b) :
    Serves m (m.executeWithin depth) b target outer left
      (departed f (underway (left.map (·.handlerStart)) target outer)
        (b.codeFrom ((left.map (·.handlerStart)).headD target))) w := by
  induction left generalizing f w with
  | nil => exact .arrives rfl rfl rfl
  | cons r rest ih =>
    have hr := mem r List.mem_cons_self
    have enters : Enters b target outer r rest (departed f
        (underway ((r :: rest).map (·.handlerStart)) target outer) (b.codeFrom r.handlerStart)) := ⟨rfl, rfl, rfl⟩
    obtain ⟨n, start, first⟩ := handler_start reach.linked (orderly.proper r hr) (mem_finallies.1 hr).1
    obtain ⟨j, line⟩ := get_of_position? start
    have held : Held b (handlerRange b r) (⟨rest.map (·.handlerStart), target⟩ :: outer) (departed f
        (underway ((r :: rest).map (·.handlerStart)) target outer) (b.codeFrom r.handlerStart)) :=
      ⟨body, ⟨n, codeFrom_of_get reach.numbered.nodup line, fun _ => first⟩, ⟨[], rfl, nofun⟩⟩
    obtain ⟨g, w₁, stays, stops | ⟨held', h, i, behind, f', w', ahead, endfinally, waits, goes⟩⟩ :=
      held.run (m := m) (w := w) reach orderly depth hr
    · exact .ends enters stays stops
    · obtain ⟨p, place, -⟩ := held'.place
      refine .passes enters stays ahead endfinally waits goes ?_
      cases went_of_goes reach.numbered held'.body place ahead goes with
      | flows plain =>
        rw [Opcode.isPlain, endfinally] at plain
        cases plain
      | leave leave => cases endfinally.symm.trans leave
      | endfinally _ waits' =>
        cases waits.symm.trans waits'
        exact ih (fun r hr => mem r (List.mem_cons_of_mem _ hr)) held'.body

end

theorem place_of_comes (num : b.Numbered) {args : List Value} (comes : Comes m callee (.start b args) w g w₁) :
    g.body = b ∧ ∃ p, g.ahead = b.code.drop p := by
  induction comes with
  | here => exact ⟨rfl, 0, rfl⟩
  | step _ ahead room next ih =>
    obtain ⟨body, p, place⟩ := ih
    have from' (h : Handle) : ∃ q, b.codeFrom h = b.code.drop q :=
      ⟨_, List.suffix_iff_eq_drop.1 (List.dropWhile_suffix _)⟩
    cases went_of_goes num body place ahead ⟨_, _, _, ahead, room, next⟩ with
    | @flows _ q _ body' place' _ _ => exact ⟨body', q, place'⟩
    | leave | endfinally => exact ⟨body, from' _⟩

/-- A `leave` runs the handlers of the regions that it leaves, each once and the innermost first, each with an empty
stack, and then arrives with an empty stack and the `leave`s on their way that it has found, unless the frame ends
before. -/
theorem leave_serves (reach : b.Reachable) (orderly : Orderly b) {depth : Nat} {args : List Value}
    (comes : Comes m (m.executeWithin depth) (.start b args) w g w₁) (ahead : g.ahead = (h, i) :: behind)
    (leave : i.opcode = .leave) (goes : m.Goes (m.executeWithin depth) g w₁ f' w') :
    ∃ target source goal left, i.target? = some target ∧ b.position? h = some source ∧
      b.position? target = some goal ∧ g.leftHandlers h target = .ok (left.map (·.handlerStart)) ∧
      left.Perm (leaving b source goal) ∧ left.Pairwise (fun r s => (ranges b r).LiesIn (tryRange b s)) ∧
      (left.map (·.handlerStart)).Nodup ∧
      Serves m (m.executeWithin depth) b target g.leaves left f' w' := by
  have num := reach.numbered
  have linked := reach.linked
  obtain ⟨body, source, place⟩ := place_of_comes num comes
  obtain ⟨line, -⟩ := line_of_drop (place.symm.trans ahead)
  have here := position?_of_get num.nodup line
  cases went_of_goes num body place ahead goes with
  | flows plain =>
    rw [Opcode.isPlain, leave] at plain
    cases plain
  | endfinally endfinally => cases leave.symm.trans endfinally
  | @leave target handlers _ goal left =>
    obtain ⟨q, there⟩ := exists_position
      (linked.targets (h, i) (List.mem_of_getElem? line) target (Instr.JumpsTo.mem (.inl goal)))
    have sorted := orderly.leaving_sorted (p := source) (q := q)
    have perm := List.mergeSort_perm (leaving b source q) fun r s =>
      (tryRange b r).stop - (tryRange b r).start ≤ (tryRange b s).stop - (tryRange b s).start
    have mem {r : Region} (hr : r ∈ _) := (mem_leaving.1 (perm.mem_iff.1 hr)).1
    have eq := leftHandlers_of_linked linked body here there
    rw [left] at eq
    cases eq
    refine ⟨target, source, q, _, goal, here, there, left, perm, sorted, ?_, ?_⟩
    · rw [List.Nodup, List.pairwise_map]
      exact sorted.imp_of_mem fun hr hs lies => handlers_apart linked (mem_finallies.1 (mem hr)).1
        (mem_finallies.1 (mem hs)).1 (orderly.proper _ (mem hr)) (orderly.proper _ (mem hs)) lies
    · exact serves_of_departed reach orderly (fun r hr => mem hr) body

/-- A `leave` out of two regions, and another one in the handler of the inner one. -/
def layered : Body where
  code := [(⟨0⟩, .branch .leave ⟨5⟩), (⟨1⟩, .branch .leave ⟨3⟩), (⟨2⟩, ⟨.endfinally, .none⟩),
    (⟨3⟩, ⟨.endfinally, .none⟩), (⟨4⟩, ⟨.endfinally, .none⟩), (⟨5⟩, ⟨.ret, .none⟩)]
  nextIndex := 6
  regions := [
    { tryStart := ⟨0⟩, tryEnd := some ⟨4⟩, handlerStart := ⟨4⟩, handlerEnd := some ⟨5⟩ },
    { tryStart := ⟨0⟩, tryEnd := some ⟨1⟩, handlerStart := ⟨1⟩, handlerEnd := some ⟨4⟩ },
    { tryStart := ⟨1⟩, tryEnd := some ⟨2⟩, handlerStart := ⟨2⟩, handlerEnd := some ⟨3⟩ }]

def layeredEdits : List Edit.Op := [
  .push ⟨.leave, .none⟩, .push ⟨.leave, .none⟩, .push ⟨.endfinally, .none⟩, .push ⟨.endfinally, .none⟩,
  .push ⟨.endfinally, .none⟩, .push ⟨.ret, .none⟩, .setOperand ⟨0⟩ (.target ⟨5⟩), .setOperand ⟨1⟩ (.target ⟨3⟩),
  .addRegion { tryStart := ⟨0⟩, tryEnd := some ⟨4⟩, handlerStart := ⟨4⟩, handlerEnd := some ⟨5⟩ },
  .addRegion { tryStart := ⟨0⟩, tryEnd := some ⟨1⟩, handlerStart := ⟨1⟩, handlerEnd := some ⟨4⟩ },
  .addRegion { tryStart := ⟨1⟩, tryEnd := some ⟨2⟩, handlerStart := ⟨2⟩, handlerEnd := some ⟨3⟩ }]

theorem layered_reachable : layered.Reachable := .of_edits layeredEdits rfl

theorem layered_orderly : Orderly layered where
  proper := by decide
  nested := by decide
  flow := by
    have checked : ∀ p < 6, ∀ q < 6, Flows layered p q → ∀ r ∈ finallies layered,
        (handlerRange layered r).contains p = (handlerRange layered r).contains q := by decide
    intro p q flows
    exact checked p flows.lt.1 q flows.lt.2 flows

/-- The handler of the inner region runs first, and a region in it has a handler of its own. -/
theorem leave_serves_layered : layered.Reachable ∧ Orderly layered ∧
    ∃ f' w' left, quiet.Goes (quiet.executeWithin 0) (.start layered []) {} f' w' ∧
      left.map (·.handlerStart) = [⟨1⟩, ⟨4⟩] ∧
      Serves quiet (quiet.executeWithin 0) layered ⟨5⟩ [] left f' w' := by
  have handlers : (Frame.start layered []).leftHandlers ⟨0⟩ ⟨5⟩ = .ok [⟨1⟩, ⟨4⟩] := by cbv
  have goes : quiet.Goes (quiet.executeWithin 0) (.start layered []) {}
      (departed (.start layered []) [⟨[⟨4⟩], ⟨5⟩⟩] (layered.codeFrom ⟨1⟩)) { executed := 1 } :=
    ⟨⟨0⟩, .branch .leave ⟨5⟩, layered.code.tail, rfl, by decide, by cbv⟩
  obtain ⟨target, source, goal, left, is, -, -, runs, -, -, -, serves⟩ :=
    leave_serves layered_reachable layered_orderly .here rfl rfl goes
  cases is
  rw [handlers] at runs
  exact ⟨layered_reachable, layered_orderly, _, _, left, goes, (Except.ok.inj runs).symm, serves⟩

end Finally

end CilForge
