import CilForge.Proofs.Pipeline.Valid

/-!
# Sites that are found are changed

The searches look at all that the edits of a site depend on, so that no edit is refused half-way: a
run over a body goes through all its instructions, and fails only where a flag test needs a local and
there is no room for one.
-/

namespace CilForge.CallSite

open Body

/-- The instructions of lines, with their handles but without their operands. -/
def outline (lines : Lines) : List (Handle × Opcode) := lines.map fun p => (p.1, p.2.opcode)

theorem outline_append (l l' : Lines) : outline (l ++ l') = outline l ++ outline l' := List.map_append

theorem handles_of_outline {l l' : Lines} (same : outline l' = outline l) :
    l'.map (·.1) = l.map (·.1) := by
  have := congrArg (List.map Prod.fst) same
  simpa [outline, Function.comp_def] using this

theorem outline_of_cells {b b' : Body} {l l' : Lines} (handles : l'.map (·.1) = l.map (·.1))
    (cells : cellsOf b' l' = cellsOf b l) : outline l' = outline l := by
  have opcodes : l'.map (·.2.opcode) = l.map (·.2.opcode) := by
    have := congrArg (List.map (·.instr.opcode)) cells
    simpa [cellsOf, Function.comp_def] using this
  have zipped (l : Lines) : outline l = (l.map (·.1)).zip (l.map (·.2.opcode)) := by
    rw [List.zip_map']
    rfl
  rw [zipped, zipped, handles, opcodes]

def NoRoom (site : Site) (b : Body) : Prop :=
  (∃ first second call, site.change = .hasFlag first second call) ∧ 65536 ≤ b.locals.size

structure InOrder (ctx : Context) (w : Workpiece) : Prop where
  knows : w.session.KnowsHolder ctx
  numbered : w.body.Numbered
  linked : w.body.Linked

variable {ctx : Context} {w : Workpiece} {h : Handle} {site : Site}

theorem InOrder.noted {w' : Workpiece} (order : InOrder ctx w) (body : w'.body = w.body)
    (module : w'.session.module = w.session.module)
    (generated : w'.session.generated = w.session.generated) : InOrder ctx w' := by
  obtain ⟨knows, num, linked⟩ := order
  refine ⟨?_, body.symm ▸ num, body.symm ▸ linked⟩
  rw [Session.KnowsHolder, module, generated]
  exact knows

theorem apply_eq (knows : w.session.KnowsHolder ctx) (site : Site) :
    ∃ ref s', s'.KnowsHolder ctx ∧ ∀ result b', site.change.edit site.info ref w.body = (result, b') →
      site.apply ctx w = (result, ⟨s', b'⟩) := by
  have asks (op : Operation) : ∃ ref s', s'.KnowsHolder ctx ∧
      Pass.work (helper ctx op site.info) w = (.ok ref, { w with session := s' }) := by
    have knows' := (Session.helper_leads knows op site.info).knows
    rcases helper_cases knows op site.info with ⟨ref, -, done⟩ | ⟨-, s', _, _, _, _, done, -⟩
    · rw [done] at knows'
      exact ⟨ref, _, knows', by rw [Pass.work, done]⟩
    · rw [done] at knows'
      exact ⟨_, s', knows', by rw [Pass.work, done]⟩
  have edits {e : Edit Unit} {v : Workpiece} {result : Except Fault Unit} {b' : Body}
      (done : e v.body = (result, b')) : Pass.edit e v = (result, ⟨v.session, b'⟩) := by
    rw [Pass.edit, done]
  obtain ⟨pattern, info, change⟩ := site
  cases change with
  | fold | underlying | hasFlag => exact ⟨default, w.session, knows, fun _ _ done => edits done⟩
  | redirect scaffolding call op =>
    obtain ⟨ref, s', knows', helped⟩ := asks op
    refine ⟨ref, s', knows', fun _ _ done => ?_⟩
    simp only [Site.apply, run_bind, helped]
    exact edits done
  | constrained marker call =>
    obtain ⟨ref, s', knows', helped⟩ := asks .toString
    refine ⟨ref, s', knows', fun _ _ done => ?_⟩
    simp only [Site.apply, run_bind, helped]
    exact edits done

theorem apply_cases (order : InOrder ctx w)
    (found : matchAt ctx w.session.module w.body h = .ok (some site)) :
    ∃ pre a post, w.body.code = pre ++ (h, a) :: post ∧
      ((NoRoom site w.body ∧ ∃ w', site.apply ctx w = (.error (.invariant .tooManyLocals), w')) ∨
        ¬ NoRoom site w.body ∧ ∃ w' pre' post', site.apply ctx w = (.ok (), w') ∧ InOrder ctx w' ∧
          w'.body.code = pre' ++ post' ∧ outline pre' = outline pre) := by
  obtain ⟨knows, num, linked⟩ := order
  obtain ⟨pre, a, post, code, r, front, operand, back, post', stands, lines, rfl⟩ :=
    standsAt_of_matchAt num.nodup found
  refine ⟨pre, a, post, code, ?_⟩
  obtain ⟨A, a', rest, rfl⟩ := stands.exists_head
  obtain ⟨ref, s', knows', applied⟩ :=
    apply_eq knows (r.site (((A, a') :: rest).map (·.1)) (back.map (·.1)))
  rcases stands.turn num linked rfl ref with ⟨flag, full, refused⟩ | ⟨F, B, f, b', done, turned⟩
  · refine .inl ⟨⟨?_, full⟩, _, applied _ _ refused⟩
    rw [Recipe.site, flag]
    exact ⟨_, _, _, rfl⟩
  · refine .inr ⟨?_, ?_⟩
    · rintro ⟨⟨first, second, call, flag⟩, full⟩
      rw [show r.plan.change _ _ = .hasFlag first second call from flag] at done
      exact absurd (room_of_hasFlag done) (Nat.not_lt.2 full)
    · obtain ⟨pre', new, code', handles, before, -⟩ := turned.cells stands num linked rfl
      exact ⟨_, pre', new, applied _ _ done, ⟨knows', turned.numbered, turned.linked num stands rfl linked⟩,
        code', outline_of_cells handles before⟩

/-- What a visit does: it fails for want of room only, and leaves the lines before alone. -/
theorem visit_total (method : Token) (order : InOrder ctx w) {pre post : Lines} {a : Instr}
    (code : w.body.code = pre ++ (h, a) :: post) :
    (∃ site w', matchAt ctx w.session.module w.body h = .ok (some site) ∧ NoRoom site w.body ∧
      visit ctx method h w = (.error (.invariant .tooManyLocals), w')) ∨
    ∃ here w' pre' post', visit ctx method h w = (.ok here, w') ∧ InOrder ctx w' ∧
      w'.body.code = pre' ++ post' ∧ outline pre' = outline pre := by
  generalize ran : visit ctx method h w = result
  obtain ⟨outcome, w'⟩ := result
  -- a visit without a site changes nothing but notes
  have idle (no : outcome = .ok false) : ∃ here v pre' post', (outcome, w') = (.ok here, v) ∧ InOrder ctx v ∧
      v.body.code = pre' ++ post' ∧ outline pre' = outline pre := by
    subst no
    obtain ⟨body, module, generated⟩ := visit_false ran
    exact ⟨false, w', pre, (h, a) :: post, rfl, order.noted body module generated, body ▸ code, rfl⟩
  cases found : matchAt ctx w.session.module w.body h with
  | error e =>
    refine .inr (idle ?_)
    cases visit_cases ran with
    | nothing none => cases found.symm.trans none
    | skipped => rfl
    | done _ _ _ found' => cases found.symm.trans found'
    | failed found' => cases found.symm.trans found'
    | refused failed far =>
      rw [matchAt_local h _ failed] at far
      cases far
  | ok site? =>
    cases site? with
    | none =>
      refine .inr (idle ?_)
      cases visit_cases ran with
      | nothing => rfl
      | skipped => rfl
      | done _ _ _ found' => cases found.symm.trans found'
      | failed found' => cases found.symm.trans found'
      | refused failed => cases found.symm.trans failed
    | some site =>
      obtain ⟨pre₀, a₀, post₀, code₀, outcomes⟩ := apply_cases order found
      obtain ⟨rfl, -, -⟩ := split_unique order.numbered.nodup code code₀
      rcases outcomes with ⟨full, w₁, applied⟩ | ⟨-, w₁, pre', post', applied, order', code', before⟩
      · obtain ⟨w₂, ran', -⟩ := visit_of_site method found applied
        cases ran.symm.trans ran'
        exact .inl ⟨site, _, rfl, full, rfl⟩
      · obtain ⟨w₂, ran', body, module, generated⟩ := visit_of_site method found applied
        cases ran.symm.trans ran'
        exact .inr ⟨true, _, pre', post', rfl, order'.noted body module generated, body ▸ code', before⟩

def Stuck (ctx : Context) (method : Token) (hs : List Handle) (w : Workpiece) : Prop :=
  ∃ done h rest changed w₁ site, hs = done ++ h :: rest ∧
    visitAll ctx method done w = (.ok changed, w₁) ∧
    matchAt ctx w₁.session.module w₁.body h = .ok (some site) ∧ NoRoom site w₁.body

theorem visitAll_total (method : Token) {hs : List Handle} {pre mid post : Lines} (order : InOrder ctx w)
    (code : w.body.code = pre ++ mid ++ post) (lines : mid.map (·.1) = hs.reverse) :
    (Stuck ctx method hs w ∧ ∃ w', visitAll ctx method hs w = (.error (.invariant .tooManyLocals), w')) ∨
    ∃ changed w' pre' post', visitAll ctx method hs w = (.ok changed, w') ∧ InOrder ctx w' ∧
      w'.body.code = pre' ++ post' ∧ outline pre' = outline pre := by
  induction hs generalizing w pre mid post with
  | nil =>
    rw [List.reverse_nil, List.map_eq_nil_iff] at lines
    subst lines
    exact .inr ⟨false, w, pre, post, rfl, order, by simpa using code, rfl⟩
  | cons h hs ih =>
    rw [List.reverse_cons] at lines
    obtain ⟨mid, last, rfl, handles, one⟩ := List.map_eq_append_iff.1 lines
    obtain ⟨⟨k, a⟩, rfl, rfl⟩ := List.map_eq_singleton_iff.1 one
    have code₀ : w.body.code = (pre ++ mid) ++ (k, a) :: post := by simpa using code
    rcases visit_total method order code₀ with
      ⟨site, w', found, full, ran⟩ | ⟨here, w₁, front, post₁, ran, order₁, code₁, before⟩
    · refine .inl ⟨⟨[], k, hs, false, w, site, rfl, rfl, found, full⟩, w', ?_⟩
      rw [visitAll, run_bind, ran]
    · rw [outline_append] at before
      obtain ⟨pre₁, mid₁, rfl, outline₁, outline₂⟩ := List.map_eq_append_iff.1 before
      rcases ih order₁ code₁ ((handles_of_outline outline₂).trans handles) with
        ⟨⟨done, next, rest, changed, w₂, site, rfl, ran', found, full⟩, w', rest'⟩ |
        ⟨changed, w', pre', post', rest', order', code', before'⟩
      · exact .inl ⟨⟨k :: done, next, rest, _, w₂, site, rfl, visitAll_cons ran ran', found, full⟩, w',
          visitAll_cons ran rest'⟩
      · exact .inr ⟨_, w', pre', post', visitAll_cons ran rest', order', code', before'.trans outline₁⟩

/-- Whatever site is found at an instruction of a workpiece, it is changed, and the instructions
before it keep their handles, their order and their opcodes; unless there is no room for its local. -/
def Applies (ctx : Context) (h : Handle) (w : Workpiece) : Prop :=
  ∀ site, matchAt ctx w.session.module w.body h = .ok (some site) →
    (NoRoom site w.body ∧ ∃ w', site.apply ctx w = (.error (.invariant .tooManyLocals), w')) ∨
    ∃ pre a post w', w.body.code = pre ++ (h, a) :: post ∧ site.apply ctx w = (.ok (), w') ∧
      outline pre <+: outline w'.body.code

theorem InOrder.applies (order : InOrder ctx w) (h : Handle) : Applies ctx h w := by
  intro site found
  obtain ⟨pre, a, post, code, full | ⟨-, w', pre', post', applied, -, code', before⟩⟩ :=
    apply_cases order found
  · exact .inl full
  · refine .inr ⟨pre, a, post, w', code, applied, outline post', ?_⟩
    rw [code', outline_append, before]

/-- A run goes through all the instructions of a body, from the last one on. The one that comes next
is in the body, and is the one before; what is found is changed; and the run fails only where a
flag test finds no room for its local. -/
theorem run_applies (method : Token) (reachable : w.body.Reachable) (knows : w.session.KnowsHolder ctx) :
    (∀ h, Applies ctx h w) ∧
    (∀ done h rest, w.body.handles.reverse = done ++ h :: rest → ∀ changed w₁,
      visitAll ctx method done w = (.ok changed, w₁) →
        h ∈ w₁.body.handles ∧ w₁.body.prev? h = rest.head? ∧
        (outline w.body.code).take (rest.length + 1) <+: outline w₁.body.code ∧ Applies ctx h w₁) ∧
    ((∃ changed w', run ctx method w = (.ok changed, w')) ∨
      Stuck ctx method w.body.handles.reverse w ∧
        ∃ w', run ctx method w = (.error (.invariant .tooManyLocals), w')) := by
  have order : InOrder ctx w := ⟨knows, reachable.numbered, reachable.linked⟩
  refine ⟨order.applies, ?_, ?_⟩
  · intro done h rest split changed w₁ ran
    have lines : w.body.handles = (rest.reverse ++ [h]) ++ done.reverse := by
      rw [← List.reverse_reverse w.body.handles, split]
      simp
    obtain ⟨pre, mid, code, before, behind⟩ := List.map_eq_append_iff.1 lines
    rcases visitAll_total method order (code.trans (List.append_nil _).symm) behind with
      ⟨-, w', failed⟩ | ⟨_, w', pre', post', ran', order', code', kept⟩
    · cases ran.symm.trans failed
    · cases ran.symm.trans ran'
      have handles : pre'.map (·.1) = rest.reverse ++ [h] := (handles_of_outline kept).trans before
      refine ⟨?_, ?_, ⟨outline post', ?_⟩, order'.applies h⟩
      · rw [Body.handles, code', List.map_append, handles]
        simp
      · obtain ⟨front, last, rfl, others, one⟩ := List.map_eq_append_iff.1 handles
        obtain ⟨⟨k, a⟩, rfl, rfl⟩ := List.map_eq_singleton_iff.1 one
        have here : w₁.body.code = front ++ (k, a) :: post' := by simpa using code'
        rw [prev?_of_append order'.numbered.nodup here, ← List.getLast?_map, others, List.getLast?_reverse]
      · have size : pre.length = rest.length + 1 := by
          have := congrArg List.length before
          simpa using this
        have front : (outline w.body.code).take (rest.length + 1) = outline pre := by
          rw [code, outline_append, List.take_left' (by rw [outline, List.length_map, size])]
        rw [front, code', outline_append, kept]
  · have whole : w.body.code = [] ++ w.body.code ++ [] := by simp
    have lines : w.body.code.map (·.1) = w.body.handles.reverse.reverse := by
      rw [List.reverse_reverse]
      rfl
    rcases visitAll_total method order whole lines with ⟨stuck, w', failed⟩ | ⟨changed, w', _, _, ran, -⟩
    · exact .inr ⟨stuck, w', failed⟩
    · exact .inl ⟨changed, w', ran⟩

theorem run_applies_guarded : ∃ w : Workpiece, w.body = Pipeline.guarded ∧ w.body.Reachable ∧
    w.session.KnowsHolder {} ∧ (∀ h, Applies {} h w) ∧
    (∀ done h rest, w.body.handles.reverse = done ++ h :: rest → ∀ changed w₁,
      visitAll {} (.method 1) done w = (.ok changed, w₁) →
        h ∈ w₁.body.handles ∧ w₁.body.prev? h = rest.head? ∧
        (outline w.body.code).take (rest.length + 1) <+: outline w₁.body.code ∧ Applies {} h w₁) ∧
    ((∃ changed w', run {} (.method 1) w = (.ok changed, w')) ∨
      Stuck {} (.method 1) w.body.handles.reverse w ∧
        ∃ w', run {} (.method 1) w = (.error (.invariant .tooManyLocals), w')) := by
  let w : Workpiece := ⟨{ module := Pipeline.guardedModule }, Pipeline.guarded⟩
  have knows : w.session.KnowsHolder {} := nofun
  exact ⟨w, rfl, Pipeline.guarded_reachable, knows, run_applies (.method 1) Pipeline.guarded_reachable knows⟩

end CilForge.CallSite
