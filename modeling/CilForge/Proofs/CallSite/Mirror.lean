import CilForge.Proofs.CallSite.Places
import CilForge.Proofs.CallSite.Replay
import CilForge.Proofs.Machine.Depth

/-!
# Runs through a changed site

A run of a body has a counterpart in the body in which a site has been changed. Outside the site the two
go line by line; from the first line of the site to the last one, the new lines replay the old ones.
-/

namespace CilForge

def Departure.mapTargets (σ : Handle → Handle) (d : Departure) : Departure := ⟨d.handlers.map σ, σ d.target⟩

namespace CallSite

open Machine Body Finally

/-! ## Lines beside a site -/

section
variable {pre old new post c c' : Lines} {σ : Handle → Handle}

/-- What comes next is the site, or a line that has its counterpart. -/
theorem Beside.cases (beside : Beside pre old new post σ c c') (live : c ≠ []) :
    (c = old ++ post ∧ c' = (new ++ post).map (relabel σ)) ∨ ∃ h i rest rest', c = (h, i) :: rest ∧
      c' = (h, i.mapTargets σ) :: rest' ∧ Beside pre old new post σ rest rest' := by
  cases beside with
  | @before u v split =>
    cases v with
    | nil => exact .inl ⟨rfl, rfl⟩
    | cons p v => exact .inr ⟨p.1, p.2, _, _, rfl, rfl, .before (u := u ++ [p]) (by simp [split])⟩
  | @behind u _ split =>
    cases c with
    | nil => exact absurd rfl live
    | cons p v => exact .inr ⟨p.1, p.2, _, _, rfl, rfl, .behind (u := u ++ [p]) (by simp [split])⟩

theorem Beside.suffix (beside : Beside pre old new post σ c c') :
    c <:+ pre ++ (old ++ post) ∧ c' <:+ (pre ++ (new ++ post)).map (relabel σ) := by
  cases beside with
  | @before u v split => exact ⟨⟨u, by simp [split]⟩, ⟨u.map (relabel σ), by simp [split]⟩⟩
  | @behind u v split =>
    exact ⟨⟨pre ++ (old ++ u), by simp [split]⟩, ⟨(pre ++ (new ++ u)).map (relabel σ), by simp [split]⟩⟩

end

/-- A frame of a body. What is on its way leads to lines that control comes to from elsewhere. -/
structure Inside (b : Body) (f : Frame) : Prop where
  body : f.body = b
  locals : f.locals.size = b.locals.size
  joined : ∀ d ∈ f.leaves, isJoin b d.target = true ∧ ∀ x ∈ d.handlers, isJoin b x = true

def mirror (b' : Body) (σ : Handle → Handle) (extra : Array Value) (f : Frame) (ahead : Lines) : Frame :=
  f.placed ⟨b', ahead, f.leaves.map (·.mapTargets σ), extra, []⟩

section
variable {desc : Sig → Option EnumInfo} {b b' : Body} {r : Recipe} {pre front operand back post : Lines}
  {A k : Handle} {F B : Lines} {ref : MethodRef} {extra : Array Value}
  (num : b.Numbered) (linked : b.Linked) (stands : Stands desc b r pre front operand back post)
  (head : front.head?.map (·.1) = some A)
  (turned : Turned (fun h => isJoin b h = true) r ref A b pre operand post F B k b')
  {m : Machine} {R : Carries} {f f' g : Frame} {mem mem' : Memory} {n : Nat} {h : Handle} {i : Instr}
  {rest rest' : Lines} (inside : Inside b f) (ahead : f.ahead = (h, i) :: rest)
  (whole : Beside pre (front ++ operand ++ back) (F ++ operand ++ B) post (Handle.swap A k) ((h, i) :: rest)
    ((h, i.mapTargets (Handle.swap A k)) :: rest'))
  (beside : Beside pre (front ++ operand ++ back) (F ++ operand ++ B) post (Handle.swap A k) rest rest')
include num linked stands head turned inside ahead whole beside

omit num linked head turned inside ahead beside in
theorem Beside.line_mem : (h, i) ∈ b.code := by
  rw [stands.code]
  exact whole.suffix.1.subset List.mem_cons_self

theorem Inside.plain (plain : i.opcode.isPlain = true) (step : Step m R f mem n g mem') :
    Inside b g ∧ ∃ ahead', Beside pre (front ++ operand ++ back) (F ++ operand ++ B) post (Handle.swap A k) g.ahead
      ahead' ∧ Step m R (mirror b' (Handle.swap A k) extra f ((h, i.mapTargets (Handle.swap A k)) :: rest')) mem n
        (mirror b' (Handle.swap A k) extra g ahead') mem' := by
  obtain ⟨body, locals, joined⟩ := inside
  obtain ⟨way, lands, elsewhere⟩ := step.plain ahead plain
  have onward : Beside pre (front ++ operand ++ back) (F ++ operand ++ B) post (Handle.swap A k) g.ahead
      (b'.onward rest' (way.map (Handle.swap A k))) ∧
      (way ≠ none → b'.onward rest' (way.map (Handle.swap A k)) ≠ []) := by
    rw [lands.ahead, body]
    cases way with
    | none => exact ⟨beside, fun some => absurd rfl some⟩
    | some goal =>
      have target : isJoin b goal = true := by
        rw [isJoin, Bool.or_eq_true]
        exact .inl (Body.isTarget_iff.2 ⟨(h, i), whole.line_mem stands, (lands.jump goal rfl).1.mem⟩)
      obtain ⟨there, -, live⟩ := turned.codeFrom num linked stands head target
      exact ⟨there, fun _ => live⟩
  refine ⟨⟨lands.body.trans body, lands.locals.trans locals, lands.leaves ▸ joined⟩, _, onward.1, ?_⟩
  have there := elsewhere ⟨b', rest', f.leaves.map (·.mapTargets (Handle.swap A k)), extra, []⟩ h
    (Handle.swap A k) onward.2
  rw [mirror, mirror, lands.leaves]
  exact there

omit whole beside in
/-- A line that departs through handlers to a destination. -/
theorem Inside.depart {handlers : List Handle} {target : Handle} {outer : List Departure}
    (act : Frame.act { f with ahead := rest } mem.heap h i = .ok (departed { f with ahead := rest }
      ((handlers.tail?.map fun rest => (⟨rest, target⟩ : Departure)).toList ++ outer) rest,
      .jump (handlers.headD target)))
    (act' : Frame.act (mirror b' (Handle.swap A k) extra f rest') mem.heap h (i.mapTargets (Handle.swap A k)) =
      .ok (departed (mirror b' (Handle.swap A k) extra f rest')
        (((handlers.map (Handle.swap A k)).tail?.map fun rest =>
          (⟨rest, Handle.swap A k target⟩ : Departure)).toList ++ outer.map (·.mapTargets (Handle.swap A k))) rest',
        .jump ((handlers.map (Handle.swap A k)).headD (Handle.swap A k target))))
    (joined : isJoin b target = true) (passed : ∀ x ∈ handlers, isJoin b x = true)
    (waiting : ∀ d ∈ outer, isJoin b d.target = true ∧ ∀ x ∈ d.handlers, isJoin b x = true)
    (step : Step m R f mem n g mem') :
    Inside b g ∧ ∃ ahead', Beside pre (front ++ operand ++ back) (F ++ operand ++ B) post (Handle.swap A k) g.ahead
      ahead' ∧ Step m R (mirror b' (Handle.swap A k) extra f ((h, i.mapTargets (Handle.swap A k)) :: rest')) mem 1
        (mirror b' (Handle.swap A k) extra g ahead') mem' := by
  obtain ⟨-, rfl, rfl⟩ := step_of_jump ahead act step
  have goal : isJoin b (handlers.headD target) = true ∧
      (handlers.map (Handle.swap A k)).headD (Handle.swap A k target) = Handle.swap A k (handlers.headD target) := by
    cases handlers with
    | nil => exact ⟨joined, rfl⟩
    | cons x _ => exact ⟨passed x List.mem_cons_self, rfl⟩
  have leaves : ∀ d ∈ (handlers.tail?.map fun rest => (⟨rest, target⟩ : Departure)).toList ++ outer,
      isJoin b d.target = true ∧ ∀ x ∈ d.handlers, isJoin b x = true := by
    cases handlers with
    | nil => exact waiting
    | cons x rest =>
      intro d mem
      rcases List.mem_cons.1 mem with rfl | mem
      · exact ⟨joined, fun y there => passed y (List.mem_cons_of_mem _ there)⟩
      · exact waiting d mem
  have renamed : ((handlers.map (Handle.swap A k)).tail?.map fun rest =>
      (⟨rest, Handle.swap A k target⟩ : Departure)).toList ++ outer.map (·.mapTargets (Handle.swap A k)) =
      ((handlers.tail?.map fun rest => (⟨rest, target⟩ : Departure)).toList ++ outer).map
        (·.mapTargets (Handle.swap A k)) := by
    cases handlers <;> rfl
  rw [goal.2, renamed] at act'
  obtain ⟨there, -, live⟩ := turned.codeFrom num linked stands head goal.1
  refine ⟨⟨inside.body, inside.locals, leaves⟩, b'.codeFrom (Handle.swap A k (handlers.headD target)), ?_, ?_⟩
  · change Beside _ _ _ _ _ (f.body.codeFrom _) _
    rw [inside.body]
    exact there
  · refine .move ⟨h, _, rest', rfl, act'⟩ (Frame.perform_jump.2 ⟨live, ?_, rfl⟩)
    simp [mirror, departed, Frame.placed]

omit beside in
theorem Inside.leave (nested : b.Nested) (leave : i.opcode = .leave) (step : Step m R f mem n g mem') :
    Inside b g ∧ ∃ ahead', Beside pre (front ++ operand ++ back) (F ++ operand ++ B) post (Handle.swap A k) g.ahead
      ahead' ∧ Step m R (mirror b' (Handle.swap A k) extra f ((h, i.mapTargets (Handle.swap A k)) :: rest')) mem 1
        (mirror b' (Handle.swap A k) extra g ahead') mem' := by
  obtain ⟨_, _, acts, -⟩ := step.acts
  obtain ⟨target, _, goes, -⟩ := Frame.act_leave_cases leave (acts.eq ahead)
  have joined : isJoin b target = true := by
    rw [isJoin, Bool.or_eq_true]
    exact .inl (Body.isTarget_iff.2 ⟨(h, i), whole.line_mem stands, Instr.JumpsTo.mem (.inl goes)⟩)
  have goes' : (i.mapTargets (Handle.swap A k)).target? = some (Handle.swap A k target) := by
    obtain ⟨o, operand⟩ := i
    cases operand <;> cases goes
    rfl
  have here : b.codeFrom h = (h, i) :: rest := by
    obtain ⟨before, code⟩ := whole.suffix.1
    exact codeFrom_of_append num.nodup (stands.code.trans code.symm)
  have there : b'.codeFrom h = (h, i.mapTargets (Handle.swap A k)) :: rest' := by
    obtain ⟨before, code⟩ := whole.suffix.2
    exact codeFrom_of_append turned.numbered.nodup (turned.edited.code.trans code.symm)
  have body : ({ f with ahead := rest } : Frame).body = b := inside.body
  have body' : (mirror b' (Handle.swap A k) extra f rest').body = b' := rfl
  obtain ⟨handlers, left, left', passed⟩ := turned.leftHandlers num linked stands head nested body body'
    (by rw [here, there]; exact whole) (by rw [here]; exact List.cons_ne_nil _ _) joined
  exact inside.depart num linked stands head turned ahead (act_leave leave goes fun _ => left)
    (act_leave leave goes' fun _ => left') joined passed inside.joined step

omit beside whole in
theorem Inside.endfinally (endfinally : i.opcode = .endfinally) (step : Step m R f mem n g mem') :
    Inside b g ∧ ∃ ahead', Beside pre (front ++ operand ++ back) (F ++ operand ++ B) post (Handle.swap A k) g.ahead
      ahead' ∧ Step m R (mirror b' (Handle.swap A k) extra f ((h, i.mapTargets (Handle.swap A k)) :: rest')) mem 1
        (mirror b' (Handle.swap A k) extra g ahead') mem' := by
  cases waiting : f.leaves with
  | nil =>
    obtain ⟨_, _, acts, -⟩ := step.acts
    cases (act_stray (g := { f with ahead := rest }) endfinally waiting).symm.trans (acts.eq ahead)
  | cons d outer =>
    obtain ⟨handlers, target⟩ := d
    have joined := inside.joined
    rw [waiting] at joined
    obtain ⟨goal, passed⟩ := joined _ List.mem_cons_self
    have waiting' : (mirror b' (Handle.swap A k) extra f rest').leaves =
        ⟨handlers.map (Handle.swap A k), Handle.swap A k target⟩ :: outer.map (·.mapTargets (Handle.swap A k)) := by
      rw [mirror, waiting]
      rfl
    exact inside.depart num linked stands head turned ahead (act_endfinally endfinally waiting)
      (act_endfinally (i := i.mapTargets _) endfinally waiting') goal passed
      (fun d mem => joined d (List.mem_cons_of_mem _ mem)) step

theorem Inside.step (nested : b.Nested) (step : Step m R f mem n g mem') :
    Inside b g ∧ ∃ n' ahead', Beside pre (front ++ operand ++ back) (F ++ operand ++ B) post (Handle.swap A k) g.ahead
      ahead' ∧ Step m R (mirror b' (Handle.swap A k) extra f ((h, i.mapTargets (Handle.swap A k)) :: rest')) mem n'
        (mirror b' (Handle.swap A k) extra g ahead') mem' := by
  by_cases leave : i.opcode = .leave
  · obtain ⟨inside', ahead', beside', step'⟩ := inside.leave num linked stands head turned ahead whole nested leave step
    exact ⟨inside', 1, ahead', beside', step'⟩
  by_cases endfinally : i.opcode = .endfinally
  · obtain ⟨inside', ahead', beside', step'⟩ := inside.endfinally num linked stands head turned ahead endfinally step
    exact ⟨inside', 1, ahead', beside', step'⟩
  by_cases ret : i.opcode = .ret
  · obtain ⟨_, _, acts, going⟩ := step.acts
    cases (act_ret (g := { f with ahead := rest }) ret).symm.trans (acts.eq ahead)
    cases going
  have plain : i.opcode.isPlain = true := by simp [Opcode.isPlain, leave, endfinally, ret]
  obtain ⟨inside', ahead', beside', step'⟩ :=
    inside.plain num linked stands head turned ahead whole beside plain step
  exact ⟨inside', n, ahead', beside', step'⟩

omit num linked stands head turned inside whole beside in
theorem stop_mirror {o : Outcome} {a : Action} (acts : Acts f mem g a) (out : a.outcome? = some o) :
    ∃ g' a', Acts (mirror b' (Handle.swap A k) extra f ((h, i.mapTargets (Handle.swap A k)) :: rest')) mem g' a' ∧
      a'.outcome? = some o := by
  have act := acts.eq ahead
  by_cases jumps : i.opcode = .leave ∨ i.opcode = .endfinally
  · rw [outcome_none jumps act] at out
    cases out
  by_cases ret : i.opcode = .ret
  · cases (act_ret (g := { f with ahead := rest }) ret).symm.trans act
    refine ⟨_, _, ⟨h, _, rest', rfl, act_ret ret⟩, ?_⟩
    rw [← out]
    simp [mirror, Frame.placed]
  · have plain : i.opcode.isPlain = true := by
      rw [not_or] at jumps
      simp [Opcode.isPlain, jumps, ret]
    have there := Frame.act_placed _ ⟨b', rest', f.leaves.map (·.mapTargets (Handle.swap A k)), extra, []⟩
      (Handle.swap A k) _ h h i plain _ act
    refine ⟨_, _, ⟨h, _, rest', rfl, there⟩, ?_⟩
    cases a <;> exact out

omit num linked stands head turned inside whole beside in
theorem faithful_mirror {a : Action} (holds : m.faithful f mem) (acts : Acts f mem g a) :
    m.faithful (mirror b' (Handle.swap A k) extra f ((h, i.mapTargets (Handle.swap A k)) :: rest')) mem := by
  have same : ({ f with stack := f.stack ++ [] } : Frame) = f := by rw [List.append_nil]
  rw [faithful, ← same] at holds
  exact holds.placed ahead (acts.eq ahead) rfl

end

section
variable {desc : Sig → Option EnumInfo} {b b' : Body} {r : Recipe} {pre front operand back post : Lines}
  {A k : Handle} {F B : Lines} {ref : MethodRef}
  (num : b.Numbered) (linked : b.Linked) (stands : Stands desc b r pre front operand back post)
  (head : front.head?.map (·.1) = some A)
  (turned : Turned (fun h => isJoin b h = true) r ref A b pre operand post F B k b')
  {m : Machine} {R : Carries}
  (native : ∀ ref, Platform.isKnown ref = true → m.body? ref = .ok none)
  (known : ∀ e d, desc e = some d → m.scope.enumInfo? e = some d)
  (narrow : ∀ p ∈ b.code, p.2.counts.1 ≤ 255) (nested : b.Nested)
  (performs : ∀ op, r.operation? = some op → m.Performs R op r.info ref)
include num linked stands head turned native known narrow nested performs

/-- A run of the body has a counterpart with the same end. The induction is on the length of the run: at
the first line of the site it goes behind the last one. -/
theorem Turned.upholds {f : Frame} {mem mem' : Memory} {n : Nat} {o : Outcome} {extra : Array Value} {ahead : Lines}
    (upholds : Upholds m R m.faithful f mem n o mem') (inside : Inside b f)
    (beside : Beside pre (front ++ operand ++ back) (F ++ operand ++ B) post (Handle.swap A k) f.ahead ahead)
    (room : extra.size = r.plan.locals) :
    ∃ n', Upholds m R m.faithful (mirror b' (Handle.swap A k) extra f ahead) mem n' o mem' := by
  induction n using Nat.strong_induction_on generalizing f mem extra ahead with
  | _ n ih =>
    obtain ⟨_, ends⟩ := upholds.ends
    rcases beside.cases ends.ahead_ne with ⟨site, rfl⟩ | ⟨h, i, rest, rest', line, rfl, beside'⟩
    · have straight : ∀ p ∈ front ++ operand ++ back, p.2.straight = true := by
        intro p mem
        refine stands.shape.straight p.2.seen ?_
        rw [sight, sight, sight, ← List.map_append, ← List.map_append]
        exact List.mem_map_of_mem mem
      obtain ⟨g, mem₁, n₁, passes, last, count⟩ := upholds.through site straight
      have some := List.length_pos_iff.2 (turned.lines_ne_nil stands head).1
      obtain ⟨next, keeps⟩ := passes.keeps straight
      obtain ⟨extra', size, replayed⟩ := stands.replays (s := ⟨b', post.map (relabel (Handle.swap A k)),
        f.leaves.map (·.mapTargets (Handle.swap A k)), extra, []⟩) (σ := Handle.swap A k) native known narrow performs
        turned.front (by rw [inside.locals]; exact turned.back) room passes
      have inside' : Inside b g :=
        ⟨keeps.body.trans inside.body, keeps.locals.trans inside.locals, keeps.leaves ▸ inside.joined⟩
      have behind : Beside pre (front ++ operand ++ back) (F ++ operand ++ B) post (Handle.swap A k) g.ahead
          (post.map (relabel (Handle.swap A k))) := by
        rw [next]
        exact .behind (List.nil_append _).symm
      obtain ⟨n', last'⟩ := ih n₁ (by omega) last inside' behind (size.trans room)
      rw [mirror, keeps.leaves] at last'
      rw [mirror, List.map_append]
      exact replayed.upholds last'
    · rw [line] at beside
      cases upholds with
      | stop holds acts out =>
        obtain ⟨g', a', acts', out'⟩ : ∃ g' a', Acts (mirror b' (Handle.swap A k) extra f
            ((h, i.mapTargets (Handle.swap A k)) :: rest')) _ g' a' ∧ a'.outcome? = some o :=
          stop_mirror line acts out
        exact ⟨1, .stop (faithful_mirror line holds acts) acts' out'⟩
      | step holds step upholds =>
        obtain ⟨inside', n', ahead', there, step'⟩ :=
          inside.step num linked stands head turned line beside beside' nested step
        obtain ⟨_, _, acts, -⟩ := step.acts
        obtain ⟨n'', rest⟩ := ih _ (Nat.lt_succ_self _) upholds inside' there room
        exact ⟨n'' + 1, .step (faithful_mirror line holds acts) step' rest⟩

end

end CallSite

end CilForge
