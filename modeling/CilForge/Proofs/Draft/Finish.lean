import CilForge.Proofs.Body.Check
import CilForge.Proofs.Body.Splice
import CilForge.Proofs.Draft.Script

/-!
# Finished drafts

A draft can be finished if it has room for its locals and every name it uses leads somewhere. What
it becomes can then be read off it: each name turns into the handle of the instruction it stands
before.
-/

namespace CilForge

namespace Draft

def Stands (a : Draft) (l : String) : Prop := ∃ p < a.pending.size, a.labels[l]? = some p

def place (a : Draft) (l : String) : Nat := a.labels[l]?.getD 0

def goal (a : Draft) (l : String) : Handle := ⟨a.place l⟩

/-- The end of a range up to a name: there is none if the name stands behind all instructions. -/
def limit (a : Draft) (l : String) : Option Handle :=
  if a.place l < a.pending.size then some (a.goal l) else none

def instr (a : Draft) : Pending → Instr
  | .plain i => i
  | .branch op l => .branch op (a.goal l)
  | .switch ls => .switch (ls.map a.goal)

def operand? (a : Draft) : Pending → Option Operand
  | .plain _ => none
  | .branch _ l => some (.target (a.goal l))
  | .switch ls => some (.switch (ls.map a.goal))

def region (a : Draft) (r : LabelledRegion) : Region where
  tryStart := a.goal r.tryStart
  tryEnd := a.limit r.tryEnd
  handlerStart := a.goal r.handlerStart
  handlerEnd := a.limit r.handlerEnd

def body (a : Draft) : Body where
  code := numbered 0 (a.pending.toList.map a.instr)
  nextIndex := a.pending.size
  locals := a.locals
  regions := a.regions.toList.map a.region

/-- There is room for the locals, and all names that are used lead somewhere: those of branches and
of the starts of regions to an instruction, those of ends to an instruction or behind the last. -/
structure Ready (a : Draft) : Prop where
  room : a.locals.size ≤ 65536
  goals : ∀ p ∈ a.pending.toList, ∀ l ∈ p.goals, a.Stands l
  starts : ∀ r ∈ a.regions.toList, a.Stands r.tryStart ∧ a.Stands r.handlerStart
  ends : ∀ r ∈ a.regions.toList, r.tryEnd ∈ a.labels ∧ r.handlerEnd ∈ a.labels

variable {a : Draft}

def made (a : Draft) : Array Handle := ((List.range a.pending.size).map Handle.mk).toArray

theorem getElem?_made (p : Nat) : a.made[p]? = if p < a.pending.size then some ⟨p⟩ else none := by
  rw [made, List.getElem?_toArray, List.getElem?_map]
  by_cases lt : p < a.pending.size
  · simp [lt]
  · rw [if_neg lt, List.getElem?_eq_none (by simpa using lt)]
    rfl

theorem resolve_eq_ok {l : String} {e : Option Handle} :
    a.resolve a.made l = .ok e ↔ l ∈ a.labels ∧ a.limit l = e := by
  rw [Std.HashMap.mem_iff_isSome_getElem?, limit, goal, place, resolve]
  cases a.labels[l]? <;> simp [getElem?_made]

theorem resolveTarget_eq_ok {l : String} {h : Handle} :
    a.resolveTarget a.made l = .ok h ↔ a.Stands l ∧ a.goal l = h := by
  rw [resolveTarget, Except.bind_eq_ok, Stands, goal, place]
  constructor
  · rintro ⟨e, resolved, there⟩
    obtain ⟨bound, rfl⟩ := resolve_eq_ok.1 resolved
    rw [Std.HashMap.mem_iff_isSome_getElem?, Option.isSome_iff_exists] at bound
    obtain ⟨p, bound⟩ := bound
    rw [limit, goal, place, bound, Option.getD_some] at there
    by_cases lt : p < a.pending.size
    · rw [if_pos lt] at there
      exact ⟨⟨p, lt, bound⟩, by rw [bound]; exact Except.ok.inj there⟩
    · rw [if_neg lt] at there
      cases there
  · rintro ⟨⟨p, lt, bound⟩, rfl⟩
    refine ⟨some ⟨p⟩, ?_, by rw [bound]; rfl⟩
    rw [resolve, bound]
    simp [lt, getElem?_made]

theorem resolveRegion_eq_ok {r : LabelledRegion} {g : Region} :
    a.resolveRegion a.made r = .ok g ↔ ((a.Stands r.tryStart ∧ a.Stands r.handlerStart) ∧
      r.tryEnd ∈ a.labels ∧ r.handlerEnd ∈ a.labels) ∧ a.region r = g := by
  simp only [resolveRegion, Except.bind_eq_ok, resolveTarget_eq_ok, resolve_eq_ok]
  constructor
  · rintro ⟨_, ⟨h₁, rfl⟩, _, ⟨h₂, rfl⟩, _, ⟨h₃, rfl⟩, _, ⟨h₄, rfl⟩, eq⟩
    exact ⟨⟨⟨h₁, h₃⟩, h₂, h₄⟩, Except.ok.inj eq⟩
  · rintro ⟨⟨⟨h₁, h₃⟩, h₂, h₄⟩, rfl⟩
    exact ⟨_, ⟨h₁, rfl⟩, _, ⟨h₂, rfl⟩, _, ⟨h₃, rfl⟩, _, ⟨h₄, rfl⟩, rfl⟩

theorem Stands.lt {l : String} (stands : a.Stands l) : a.place l < a.pending.size := by
  obtain ⟨p, lt, bound⟩ := stands
  rwa [place, bound]

/-! ## The way through the edits -/

section
variable {b c : Body}

theorem declare_eq {sig : Sig} (room : b.locals.size < 65536) :
    declare Edit.gateway sig b = (.ok (), { b with locals := b.locals.push sig }) :=
  Edit.bind_eq_ok.2 ⟨_, _, if_pos room, rfl⟩

theorem forM_declare : ∀ (sigs : List Sig) {b : Body}, b.locals.size + sigs.length ≤ 65536 →
    sigs.forM (declare Edit.gateway) b = (.ok (), { b with locals := b.locals ++ sigs })
  | [], b, _ => by
    have same : b.locals ++ ([] : List Sig) = b.locals := by simp
    rw [same]
    rfl
  | sig :: sigs, b, room => by
    rw [List.length_cons] at room
    have rest := forM_declare sigs (b := { b with locals := b.locals.push sig })
      (by rw [Array.size_push]; omega)
    refine Edit.bind_eq_ok.2 ⟨(), _, declare_eq (by omega), rest.trans ?_⟩
    simp

theorem forM_declare_full : ∀ (sigs : List Sig) {b : Body}, b.locals.size ≤ 65536 →
    65536 < b.locals.size + sigs.length → (sigs.forM (declare Edit.gateway) b).1 = .error (.invariant .tooManyLocals)
  | [], b, room, more => absurd more (Nat.not_lt.2 room)
  | sig :: sigs, b, room, more => by
    rw [List.forM, run_bind]
    by_cases full : b.locals.size < 65536
    · rw [declare_eq full]
      rw [List.length_cons] at more
      exact forM_declare_full sigs (by rw [Array.size_push]; omega) (by rw [Array.size_push]; omega)
    · rw [declare, run_bind, show Edit.gateway.addLocal sig b = _ from if_neg full]

theorem mapM_push : ∀ (ps : List Pending) {b : Body}, (∀ p ∈ ps, p.opened.targets = []) →
    ps.mapM (fun p => Edit.gateway.push p.opened) b = (.ok ((List.range' b.nextIndex ps.length).map Handle.mk),
      { b with
        code := b.code ++ numbered b.nextIndex (ps.map Pending.opened)
        nextIndex := b.nextIndex + ps.length })
  | [], b, _ => by
    rw [List.map_nil, numbered, List.append_nil]
    rfl
  | p :: ps, b, bare => by
    rw [List.forall_mem_cons] at bare
    have put : Edit.gateway.push p.opened b = (.ok b.fresh,
        { b with code := b.code ++ [(b.fresh, p.opened)], nextIndex := b.nextIndex + 1 }) := by
      simp only [Edit.gateway, Edit.push, bare.1, Body.requireAll]
    rw [List.mapM_cons]
    refine Edit.bind_eq_ok.2 ⟨_, _, put, Edit.bind_eq_ok.2 ⟨_, _, mapM_push ps bare.2, ?_⟩⟩
    refine congrArg (Prod.mk _) ?_
    simp [numbered, Body.fresh, Nat.add_right_comm, Nat.add_assoc]

theorem resolveOperand_eq_ok {p : Pending} {o : Option Operand} : a.resolveOperand a.made p = .ok o ↔
    (∀ l ∈ p.goals, a.Stands l) ∧ a.operand? p = o := by
  cases p with
  | plain i => simp [resolveOperand, Pending.goals, operand?]
  | branch op l =>
    rw [resolveOperand, Except.bind_eq_ok]
    constructor
    · rintro ⟨h, found, eq⟩
      obtain ⟨stands, rfl⟩ := resolveTarget_eq_ok.1 found
      exact ⟨by simpa [Pending.goals] using stands, Except.ok.inj eq⟩
    · rintro ⟨stands, rfl⟩
      exact ⟨_, resolveTarget_eq_ok.2 ⟨stands l (List.mem_singleton_self l), rfl⟩, rfl⟩
  | switch ls =>
    rw [resolveOperand, Except.bind_eq_ok]
    have each (hs : List Handle) : ls.mapM (a.resolveTarget a.made) = .ok hs ↔
        (∀ l ∈ ls, a.Stands l) ∧ ls.map a.goal = hs :=
      mapM_eq_ok_iff fun _ _ => resolveTarget_eq_ok
    constructor
    · rintro ⟨hs, found, eq⟩
      obtain ⟨stand, rfl⟩ := (each hs).1 found
      exact ⟨stand, Except.ok.inj eq⟩
    · rintro ⟨stand, rfl⟩
      exact ⟨_, (each _).2 ⟨stand, rfl⟩, rfl⟩

/-- The names of a branch resolve, and the line of the instruction then goes where they stand. -/
theorem close_eq_ok {p : Pending} {h : Handle} {x y : List (Handle × Instr)}
    (code : b.code = x ++ (h, p.opened) :: y) (handles : b.handles = (List.range a.pending.size).map Handle.mk) :
    a.close a.made Edit.gateway (p, h) b = (.ok (), c) ↔
      (∀ l ∈ p.goals, a.Stands l) ∧ c = { b with code := x ++ (h, a.instr p) :: y } := by
  have live : h ∈ b.handles := by
    rw [Body.handles, code, List.map_append]
    exact List.mem_append_right _ List.mem_cons_self
  have nodup : ((x ++ (h, p.opened) :: y).map (·.1)).Nodup := by
    rw [← code, show b.code.map (·.1) = b.handles from rfl, handles]
    exact List.nodup_range.map fun _ _ eq => Handle.mk.inj eq
  have put {o : Operand} (there : ∀ t ∈ o.targets, t ∈ b.handles) : Edit.gateway.setOperand h o b =
      (.ok (), { b with code := x ++ (h, { p.opened with operand := o }) :: y }) := by
    have guard : b.requireAll (o.targets ++ [h]) = .ok () := by
      refine Body.requireAll_eq_ok.2 fun t mem => ?_
      rcases List.mem_append.1 mem with goes | here
      · exact there t goes
      · exact List.mem_singleton.1 here ▸ live
    simp only [Edit.gateway, Edit.setOperand, guard]
    rw [code, Edit.Edited.map_here nodup]
  have goal {l : String} (stands : a.Stands l) : a.goal l ∈ b.handles :=
    handles ▸ mem_handles_range.2 stands.lt
  have turned (stands : ∀ l ∈ p.goals, a.Stands l) : (a.operand? p).elim (pure ())
      (Edit.gateway.setOperand h) b = (.ok (), { b with code := x ++ (h, a.instr p) :: y }) := by
    cases p with
    | plain i => exact congrArg (fun code => (Except.ok (), { b with code })) code
    | branch op l => exact put (List.forall_mem_singleton.2 (goal (stands l (List.mem_singleton_self l))))
    | switch ls => exact put (List.forall_mem_map.2 fun l mem => goal (stands l mem))
  have fixup : a.close a.made Edit.gateway (p, h) = ExceptT.mk (pure (a.resolveOperand a.made p)) >>= fun o =>
      o.elim (pure ()) (Edit.gateway.setOperand h) :=
    congrArg (bind _) (funext fun o => by cases o <;> rfl)
  rw [fixup, Edit.bind_eq_ok]
  constructor
  · rintro ⟨o, b₁, found, done⟩
    injection found with found same
    subst same
    obtain ⟨stands, rfl⟩ := resolveOperand_eq_ok.1 found
    exact ⟨stands, (Prod.mk.inj (done.symm.trans (turned stands))).2⟩
  · rintro ⟨stands, rfl⟩
    exact ⟨_, b, congrArg (Prod.mk · b) (resolveOperand_eq_ok.2 ⟨stands, rfl⟩), turned stands⟩

theorem forM_close : ∀ (ps : List Pending) (front : List (Handle × Instr)) {n : Nat} {b : Body},
    b.code = front ++ numbered n (ps.map Pending.opened) → b.handles = (List.range a.pending.size).map Handle.mk →
    ((ps.zip ((List.range' n ps.length).map Handle.mk)).forM (a.close a.made Edit.gateway) b = (.ok (), c) ↔
      (∀ p ∈ ps, ∀ l ∈ p.goals, a.Stands l) ∧ c = { b with code := front ++ numbered n (ps.map a.instr) })
  | [], front, n, b, code, _ => by
    rw [List.map_nil, numbered] at code ⊢
    rw [← code]
    exact Edit.pure_eq_ok.trans (by simp)
  | p :: ps, front, n, b, code, handles => by
    rw [List.length_cons, List.range'_succ, List.map_cons, List.zip_cons_cons, List.forM, Edit.bind_eq_ok,
      List.forall_mem_cons]
    have first {b₁ : Body} := close_eq_ok (c := b₁) code handles
    have turned : Body.handles { b with code := front ++ (⟨n⟩, a.instr p) :: numbered (n + 1) (ps.map Pending.opened) } =
        (List.range a.pending.size).map Handle.mk := by
      rw [← handles, Body.handles, Body.handles, code]
      simp [numbered]
    have rest := forM_close ps (front ++ [(⟨n⟩, a.instr p)]) (n := n + 1)
      (b := { b with code := front ++ (⟨n⟩, a.instr p) :: numbered (n + 1) (ps.map Pending.opened) })
      (List.append_cons ..) turned
    rw [List.map_cons, numbered, List.append_cons front]
    constructor
    · rintro ⟨⟨⟩, b₁, one, others⟩
      obtain ⟨stands, rfl⟩ := first.1 one
      obtain ⟨stand, rfl⟩ := rest.1 others
      exact ⟨⟨stands, stand⟩, rfl⟩
    · rintro ⟨⟨stands, stand⟩, rfl⟩
      exact ⟨(), _, first.2 ⟨stands, rfl⟩, rest.2 ⟨stand, rfl⟩⟩

theorem forM_protect : ∀ (rs : List LabelledRegion) {b : Body},
    b.handles = (List.range a.pending.size).map Handle.mk →
    (rs.forM (a.protect a.made Edit.gateway) b = (.ok (), c) ↔
      (∀ r ∈ rs, (a.Stands r.tryStart ∧ a.Stands r.handlerStart) ∧ r.tryEnd ∈ a.labels ∧ r.handlerEnd ∈ a.labels) ∧
        c = { b with regions := b.regions ++ rs.map a.region })
  | [], b, _ => by
    rw [List.map_nil, List.append_nil]
    exact Edit.pure_eq_ok.trans (by simp)
  | r :: rs, b, handles => by
    have live {l : String} (lt : a.place l < a.pending.size) : a.goal l ∈ b.handles :=
      handles ▸ mem_handles_range.2 lt
    have end_live {l : String} : ∀ h ∈ (a.limit l).toList, h ∈ b.handles := by
      intro h mem
      unfold limit at mem
      split at mem
      · rename_i lt
        exact List.mem_singleton.1 mem ▸ live lt
      · cases mem
    have put (stands : a.Stands r.tryStart ∧ a.Stands r.handlerStart) : Edit.gateway.addRegion (a.region r) b =
        (.ok (), { b with regions := b.regions ++ [a.region r] }) := by
      have guard : b.requireAll (a.region r).boundaries = .ok () := by
        refine Body.requireAll_eq_ok.2 fun h mem => ?_
        simp only [Region.boundaries, region, List.cons_append, List.mem_cons, List.mem_append, Option.toList_none,
          List.not_mem_nil, or_false] at mem
        rcases mem with rfl | ends | rfl | ends
        · exact live stands.1.lt
        · exact end_live h ends
        · exact live stands.2.lt
        · exact end_live h ends
      simp only [Edit.gateway, Edit.addRegion, guard]
    have rest := forM_protect rs (b := { b with regions := b.regions ++ [a.region r] }) handles
    rw [List.forM, Edit.bind_eq_ok, List.forall_mem_cons, List.map_cons, List.append_cons]
    constructor
    · rintro ⟨⟨⟩, b₁, one, others⟩
      obtain ⟨g, b₂, found, done⟩ := Edit.bind_eq_ok.1 one
      injection found with found same
      subst same
      obtain ⟨named, rfl⟩ := resolveRegion_eq_ok.1 found
      obtain rfl := (Prod.mk.inj (done.symm.trans (put named.1))).2
      obtain ⟨all, rfl⟩ := rest.1 others
      exact ⟨⟨named, all⟩, rfl⟩
    · rintro ⟨⟨named, all⟩, rfl⟩
      refine ⟨(), _, Edit.bind_eq_ok.2 ⟨_, b, ?_, put named.1⟩, rest.2 ⟨all, rfl⟩⟩
      exact congrArg (Prod.mk · b) (resolveRegion_eq_ok.2 ⟨named, rfl⟩)

end

def opened (a : Draft) : Body where
  code := numbered 0 (a.pending.toList.map Pending.opened)
  nextIndex := a.pending.size
  locals := a.locals

theorem write_eq (proper : ∀ p ∈ a.pending.toList, p.Proper) (room : a.locals.size ≤ 65536) :
    a.write Edit.gateway {} = (do
      (a.pending.toList.zip ((List.range' 0 a.pending.toList.length).map Handle.mk)).forM (a.close a.made Edit.gateway)
      a.regions.toList.forM (a.protect a.made Edit.gateway)) a.opened := by
  have locals : a.locals.toList.forM (declare Edit.gateway) {} = (.ok (), ({ locals := a.locals } : Body)) :=
    (forM_declare _ (by simpa using room)).trans (by simp)
  have pushed := mapM_push a.pending.toList (b := { locals := a.locals })
    fun p mem => Pending.targets_opened (proper p mem)
  have made : ((List.range' 0 a.pending.toList.length).map Handle.mk).toArray = a.made := by
    rw [← List.range_eq_range', Array.length_toList, Draft.made]
  rw [write, run_bind, locals]
  dsimp only
  rw [run_bind, pushed]
  dsimp only
  rw [made, opened]
  simp

/-- A draft of proper instructions is finished exactly if it is ready, and becomes the body it stands for. -/
theorem finish_eq_ok (proper : ∀ p ∈ a.pending.toList, p.Proper) {b : Body} :
    a.finish = .ok b ↔ a.Ready ∧ a.body = b := by
  have ended : a.finish = .ok b ↔ a.write Edit.gateway {} = (.ok (), b) := by
    rw [finish, finishWith]
    cases a.write Edit.gateway ({} : Body) with
    | mk r b₁ =>
      cases r with
      | error e => exact ⟨nofun, nofun⟩
      | ok _ => exact ⟨fun eq => congrArg _ (Except.ok.inj eq), fun eq => congrArg _ (Prod.mk.inj eq).2⟩
  rw [ended]
  by_cases room : a.locals.size ≤ 65536
  · have handles (f : Pending → Instr) : ((numbered 0 (a.pending.toList.map f)).map (·.1)) =
        (List.range a.pending.size).map Handle.mk := by
      rw [handles_numbered, List.length_map, Array.length_toList]
    have closed {b₁ : Body} := forM_close (a := a) (c := b₁) _ [] (b := a.opened) rfl (handles _)
    have guarded := forM_protect (a := a) (c := b) a.regions.toList
      (b := { a.opened with code := numbered 0 (a.pending.toList.map a.instr) }) (handles _)
    rw [write_eq proper room, Edit.bind_eq_ok]
    constructor
    · rintro ⟨⟨⟩, b₁, first, second⟩
      obtain ⟨goals, rfl⟩ := closed.1 first
      obtain ⟨named, rfl⟩ := guarded.1 second
      exact ⟨⟨room, goals, fun r mem => (named r mem).1, fun r mem => (named r mem).2⟩, rfl⟩
    · rintro ⟨ready, rfl⟩
      refine ⟨(), _, closed.2 ⟨ready.goals, rfl⟩, guarded.2 ⟨fun r mem => ⟨ready.starts r mem, ready.ends r mem⟩, rfl⟩⟩
  · refine iff_of_false (fun ended => ?_) fun ready => room ready.1.room
    obtain ⟨_, b₁, first, -⟩ := Edit.bind_eq_ok.1 ended
    have full := forM_declare_full a.locals.toList (b := {}) (Nat.zero_le _) (by simpa using room)
    rw [first] at full
    cases full

theorem finish_extend {s : Script} (closed : s.Closed) (proper : ∀ p ∈ s.code, p.Proper) :
    (Draft.extend {} s).finish = .ok s.body := by
  have pending : (Draft.extend {} s).pending.toList = s.code := pending_extend
  have size : (Draft.extend {} s).pending.size = s.code.length := by rw [← pending, Array.length_toList]
  have bound {l : String} (mem : l ∈ s.labels) : (Draft.extend {} s).labels[l]? = some (s.place l) := by
    simpa using getElem?_labels_extend (a := {}) closed.nodup mem
  have goal {l : String} (mem : l ∈ s.labels) : (Draft.extend {} s).goal l = ⟨s.place l⟩ := by
    rw [Draft.goal, Draft.place, bound mem]
    rfl
  have goals {p : Pending} (mem : p ∈ s.code) {l : String} (goes : l ∈ p.goals) : l ∈ s.labels :=
    closed.bound l (List.mem_flatMap.2 ⟨p, mem, goes⟩)
  refine (finish_eq_ok (pending ▸ proper)).2 ⟨⟨?_, fun p mem l goes => ?_, ?_, ?_⟩, ?_⟩
  · rw [locals_extend]
    exact Nat.zero_le _
  · have mem := goals (pending ▸ mem) goes
    exact ⟨_, size ▸ closed.place_lt mem, bound mem⟩
  · rw [regions_extend]
    nofun
  · rw [regions_extend]
    nofun
  · have instr : s.code.map (Draft.extend {} s).instr = s.code.map s.resolve := by
      refine List.map_congr_left fun p mem => ?_
      cases p with
      | plain i => rfl
      | branch op l => rw [Draft.instr, goal (goals mem (List.mem_singleton_self l))]; rfl
      | switch ls => exact congrArg Instr.switch (List.map_congr_left fun l goes => goal (goals mem goes))
    rw [Draft.body, pending, size, locals_extend, regions_extend, instr]
    rfl

/-! ## Checking what a draft becomes -/

theorem handles_body : a.body.handles = (List.range a.pending.size).map Handle.mk := by
  rw [Body.handles, body, handles_numbered, List.length_map, Array.length_toList]

theorem mem_handles_body {h : Handle} : h ∈ a.body.handles ↔ h.index < a.pending.size := by
  rw [handles_body, mem_handles_range]

theorem numbered_body : a.body.Numbered := Body.numbered_of_range handles_body

theorem Stands.mem {l : String} (stands : a.Stands l) : a.goal l ∈ a.body.handles :=
  mem_handles_body.2 stands.lt

theorem limit_mem {l : String} {h : Handle} (there : a.limit l = some h) : h ∈ a.body.handles := by
  unfold limit at there
  split at there
  · rename_i lt
    cases there
    exact mem_handles_body.2 lt
  · cases there

theorem precedes_body {l e : String} (stands : a.Stands l) :
    a.body.Precedes (a.goal l) (a.limit e) ↔ a.place l < a.place e := by
  have nodup := (numbered_body (a := a)).nodup
  obtain ⟨m, n, here, there, iff⟩ := Body.precedes_iff nodup stands.mem fun h found => limit_mem found
  have place {p : Nat} (lt : p < a.pending.size) : a.body.places[(⟨p⟩ : Handle)]? = some p :=
    Body.getElem?_places_of_getElem? nodup (by rw [handles_body]; simp [lt])
  rw [goal, Body.boundaryPosition, place stands.lt] at here
  cases here
  rw [iff]
  unfold limit at there
  split at there
  · rename_i lt
    rw [goal, Body.boundaryPosition, place lt] at there
    cases there
    rfl
  · rename_i ge
    have size : a.body.size = a.pending.size := by
      simpa [Body.handles, Body.size] using congrArg List.length (handles_body (a := a))
    rw [Body.boundaryPosition, size] at there
    cases there
    have := stands.lt
    exact iff_of_true this (by omega)

end Draft

namespace Draft

variable {a : Draft}

theorem wellFormed_instr {p : Pending} (proper : p.Proper) : (a.instr p).wellFormed = true := by
  cases p with
  | plain i => exact proper.2
  | branch op l => exact decide_eq_true proper
  | switch ls => rfl

theorem mem_body {p : Handle × Instr} (line : p ∈ a.body.code) : ∃ q ∈ a.pending.toList, a.instr q = p.2 := by
  have mem : p.2 ∈ a.body.code.map (·.2) := List.mem_map_of_mem line
  rw [body, instrs_numbered] at mem
  exact List.mem_map.1 mem

section
variable (ready : a.Ready) (proper : ∀ p ∈ a.pending.toList, p.Proper)
include ready proper

theorem linked_body : a.body.Linked := by
  constructor
  · intro x line t mem
    obtain ⟨p, written, eq⟩ := mem_body line
    rw [← eq] at mem
    have stands := ready.goals p written
    cases p with
    | plain i =>
      rw [instr, Instr.targets_eq_nil (proper _ written).1 (proper _ written).2] at mem
      cases mem
    | branch op l =>
      rw [List.mem_singleton.1 (show t ∈ [a.goal l] from mem)]
      exact (stands l (List.mem_singleton_self l)).mem
    | switch ls =>
      obtain ⟨l, goes, rfl⟩ := List.mem_map.1 (show t ∈ ls.map a.goal from mem)
      exact (stands l goes).mem
  · intro g mem h bound
    obtain ⟨r, listed, rfl⟩ := List.mem_map.1 mem
    obtain ⟨tries, handles⟩ := ready.starts r listed
    simp only [Region.boundaries, region, List.cons_append, List.mem_cons, List.mem_append, Option.mem_toList,
      Option.toList_none, List.not_mem_nil, or_false] at bound
    rcases bound with rfl | ends | rfl | ends
    · exact tries.mem
    · exact limit_mem ends
    · exact handles.mem
    · exact limit_mem ends

/-- What a ready draft becomes passes the check exactly if its locals are declared and its ranges are
neither empty nor inverted. -/
theorem check_body : a.body.check = .ok () ↔
    (∀ i index, .plain i ∈ a.pending.toList → i.operand = .localVar index → index < a.locals.size) ∧
      ∀ r ∈ a.regions.toList, a.place r.tryStart < a.place r.tryEnd ∧
        a.place r.handlerStart < a.place r.handlerEnd := by
  rw [(linked_body ready proper).check_eq_ok numbered_body.nodup]
  constructor
  · intro fit
    refine ⟨fun i index written operand => ?_, fun r listed => ?_⟩
    · have mem : i ∈ a.body.code.map (·.2) := by
        rw [body, instrs_numbered]
        exact List.mem_map.2 ⟨.plain i, written, rfl⟩
      obtain ⟨x, line, rfl⟩ := List.mem_map.1 mem
      exact fit.declared x line index operand
    · obtain ⟨tries, handles⟩ := ready.starts r listed
      have ordered := fit.ordered (a.region r) (List.mem_map_of_mem listed)
      exact ⟨(precedes_body tries).1 ordered.1, (precedes_body handles).1 ordered.2⟩
  · rintro ⟨declared, ordered⟩
    refine ⟨fun x line => ?_, fun x line index operand => ?_, fun g mem => ?_⟩
    · obtain ⟨p, written, eq⟩ := mem_body line
      rw [← eq]
      exact wellFormed_instr (proper p written)
    · obtain ⟨p, written, eq⟩ := mem_body line
      rw [← eq] at operand
      cases p with
      | plain i => exact declared i index written operand
      | branch op l => cases operand
      | switch ls => cases operand
    · obtain ⟨r, listed, rfl⟩ := List.mem_map.1 mem
      obtain ⟨tries, handles⟩ := ready.starts r listed
      exact ⟨(precedes_body tries).2 (ordered r listed).1, (precedes_body handles).2 (ordered r listed).2⟩

end

end Draft

end CilForge
