import CilForge.Proofs.CallSite.Mirror
import CilForge.Proofs.Machine.Frames
import CilForge.Proofs.Pipeline.Stock
import CilForge.Proofs.Pipeline.Valid

/-!
# Rewritten bodies behave alike

Every site that a run over a body changes does what it did before, and so does the body: whatever a machine
makes of the body, it makes of the rewritten one, in the module with the generated methods (`run_preserves`).
-/

namespace CilForge.CallSite

open Machine Body

/-! ## One site -/

section
variable {desc : Sig → Option EnumInfo} {b b' : Body} {r : Recipe} {pre front operand back post : Lines}
  {A k : Handle} {F B : Lines} {ref : MethodRef}

theorem Shape.known {P V C : List Instr} (shape : Shape desc r P V C) : ∃ e, desc e = some r.info := by
  cases shape <;> exact ⟨_, ‹_›⟩

theorem counts_le {i : Instr} (own : i.opcode.counts?.isSome = true) : i.counts.1 ≤ 255 := by
  obtain ⟨o, operand⟩ := i
  cases o <;> first | exact Nat.le_of_ble_eq_true rfl | cases own

theorem Shape.narrow {P V C : List Instr} (shape : Shape desc r P V C)
    (sig : ∀ op, r.operation? = some op → ref.sig = op.sig r.info.sig) (temp : Nat) :
    ∀ i ∈ r.plan.front r.info ++ r.plan.back ref temp, i.counts.1 ≤ 255 := by
  have call (op : Operation) (asks : r.operation? = some op) : (Instr.call .call ref).counts.1 ≤ 255 := by
    change ref.sig.popCount ≤ 255
    rw [sig op asks]
    cases op <;> exact Nat.le_of_ble_eq_true rfl
  have folded {result : Instr} (plan : r.plan = .fold result) (own : result.opcode.counts?.isSome = true) :
      ∀ i ∈ r.plan.front r.info ++ r.plan.back ref temp, i.counts.1 ≤ 255 := by
    rw [plan]
    intro i mem
    rw [List.mem_singleton.1 mem]
    exact counts_le own
  have redirected {op : Operation} (plan : r.plan = .redirect op) :
      ∀ i ∈ r.plan.front r.info ++ r.plan.back ref temp, i.counts.1 ≤ 255 := by
    rw [plan]
    intro i mem
    rw [List.mem_singleton.1 mem]
    exact call op (by rw [Recipe.operation?, plan])
  have tested (plan : r.plan = .hasFlag) : ∀ i ∈ r.plan.front r.info ++ r.plan.back ref temp, i.counts.1 ≤ 255 := by
    rw [plan]
    intro i mem
    simp only [Plan.front, Plan.back, List.nil_append, List.mem_cons, List.not_mem_nil, or_false] at mem
    rcases mem with rfl | rfl | rfl | rfl | rfl <;> exact counts_le rfl
  cases shape with
  | getValues | defined | boxText => exact redirected rfl
  | definedName | definedConstant | literalText | literalPair => exact folded rfl rfl
  | underlying =>
    intro i mem
    rw [List.mem_singleton.1 mem]
    exact counts_le rfl
  | @pair a s c e d p =>
    by_cases flag : p = .hasFlag
    · exact tested (if_pos flag)
    · exact redirected (if_neg flag)
  | constrained =>
    intro i mem
    rcases List.mem_cons.1 mem with rfl | mem
    · exact counts_le rfl
    · rw [List.mem_singleton.1 mem]
      exact call .toString rfl

theorem counts_mapTargets (i : Instr) (σ : Handle → Handle) : (i.mapTargets σ).counts = i.counts := by
  unfold Instr.counts
  rw [Instr.opcode_mapTargets, Instr.method?_mapTargets]

theorem Turned.narrow (stands : Stands desc b r pre front operand back post)
    (turned : Turned (fun h => isJoin b h = true) r ref A b pre operand post F B k b')
    (sig : ∀ op, r.operation? = some op → ref.sig = op.sig r.info.sig)
    (narrow : ∀ p ∈ b.code, p.2.counts.1 ≤ 255) : ∀ p ∈ b'.code, p.2.counts.1 ≤ 255 := by
  intro p mem
  rw [turned.edited.code] at mem
  obtain ⟨q, line, rfl⟩ := List.mem_map.1 mem
  rw [relabel, counts_mapTargets]
  have old (there : q ∈ pre ++ (front ++ operand ++ back ++ post)) : q.2.counts.1 ≤ 255 := by
    refine narrow q ?_
    rw [stands.code]
    exact there
  have new (there : q ∈ F ++ B) : q.2.counts.1 ≤ 255 := by
    refine stands.shape.narrow sig b.locals.size q.2 ?_
    rw [← turned.front, ← turned.back, ← List.map_append]
    exact List.mem_map_of_mem there
  simp only [List.mem_append] at line old new
  tauto

variable {m : Machine} {R : Carries}

theorem Turned.preserves (num : b.Numbered) (linked : b.Linked) (stands : Stands desc b r pre front operand back post)
    (head : front.head?.map (·.1) = some A)
    (turned : Turned (fun h => isJoin b h = true) r ref A b pre operand post F B k b')
    (native : ∀ ref, Platform.isKnown ref = true → m.body? ref = .ok none)
    (known : ∀ e d, desc e = some d → m.scope.enumInfo? e = some d)
    (narrow : ∀ p ∈ b.code, p.2.counts.1 ≤ 255) (nested : b.Nested)
    (performs : ∀ op, r.operation? = some op → m.Performs R op r.info ref) {args : List Value} {mem mem' : Memory}
    {n : Nat} {o : Outcome} (upholds : Upholds m R m.faithful (.start b args) mem n o mem') :
    ∃ n', Upholds m R m.faithful (.start b' args) mem n' o mem' := by
  obtain ⟨more, locals, size⟩ := turned.grown
  have inside : Inside b (.start b args) := ⟨rfl, Array.size_map, fun _ mem => absurd mem List.not_mem_nil⟩
  have beside : Beside pre (front ++ operand ++ back) (F ++ operand ++ B) post (Handle.swap A k)
      (Frame.start b args).ahead b'.code := by
    have code : (Frame.start b args).ahead = pre ++ (front ++ operand ++ back ++ post) := stands.code
    rw [code, turned.edited.code]
    exact .before (List.nil_append _).symm
  have room : (more.map Value.default).size = r.plan.locals := Array.size_map.trans size
  obtain ⟨n', rest⟩ := turned.upholds num linked stands head native known narrow nested performs upholds inside beside
    room
  refine ⟨n', ?_⟩
  have start : mirror b' (Handle.swap A k) (more.map Value.default) (.start b args) b'.code = .start b' args := by
    simp [mirror, Frame.placed, Frame.start, locals]
  rw [start] at rest
  exact rest

end

/-! ## All sites -/

structure Ready (ctx : Context) (m : ModuleDef) (w : Workpiece) : Prop where
  stocked : w.session.Stocked ctx m
  numbered : w.body.Numbered
  linked : w.body.Linked
  narrow : ∀ p ∈ w.body.code, p.2.counts.1 ≤ 255
  nested : w.body.Nested

/-- A site of the body that has been changed, with the method that was given out for it. -/
def Changes (ctx : Context) (m : ModuleDef) (w w' : Workpiece) : Prop :=
  ∃ r pre front operand back post A F B k ref, Stands (known ctx m) w.body r pre front operand back post ∧
    front.head?.map (·.1) = some A ∧
    Turned (fun h => isJoin w.body h = true) r ref A w.body pre operand post F B k w'.body ∧
    known ctx m r.info.sig = some r.info ∧
    ∀ op, r.operation? = some op → w'.session.generated.helpers.lookup (op, r.info.name) = some ref

section
variable {ctx : Context} {m : ModuleDef} {method : Token} {h : Handle} {w w' : Workpiece} {site : Site}

theorem sig_of_known {e : Sig} {d : EnumInfo} (info : known ctx m e = some d) : known ctx m d.sig = some d := by
  rw [← enumInfo?_eq_known] at info ⊢
  rw [← Scope.sig_of_enumInfo? info]
  exact info

/-- The method that a site needs is given out, and its edits are made. -/
theorem apply_stocked (stocked : w.session.Stocked ctx m) (info : known ctx m site.info.sig = some site.info)
    (applied : site.apply ctx w = (.ok (), w')) : w'.session.Stocked ctx m ∧ ∃ ref,
      site.change.edit site.info ref w.body = (.ok (), w'.body) ∧
      ∀ op, site.operation? = some op → w'.session.generated.helpers.lookup (op, site.info.name) = some ref := by
  have edits {e : Edit Unit} {v : Workpiece} (done : Pass.edit e v = (.ok (), w')) :
      e v.body = (.ok (), w'.body) ∧ w'.session = v.session := by
    obtain ⟨result, rfl⟩ := Prod.mk.inj done
    exact ⟨Prod.ext result rfl, rfl⟩
  have asks {op : Operation} {k : MethodRef → Edit Unit}
      (done : (do let ref ← Pass.work (helper ctx op site.info); Pass.edit (k ref) : Pass Unit) w = (.ok (), w')) :
      w'.session.Stocked ctx m ∧ ∃ ref, k ref w.body = (.ok (), w'.body) ∧
        w'.session.generated.helpers.lookup (op, site.info.name) = some ref := by
    obtain ⟨ref, s', helped, stocked', noted⟩ := stocked.helper op info
    simp only [run_bind, Pass.work, helped] at done
    obtain ⟨edited, same⟩ := edits done
    rw [same]
    exact ⟨stocked', ref, edited, noted⟩
  obtain ⟨pattern, d, change⟩ := site
  cases change with
  | fold | underlying | hasFlag =>
    unfold Site.apply at applied
    obtain ⟨edited, same⟩ := edits applied
    rw [same]
    exact ⟨stocked, default, edited, fun op none => by cases none⟩
  | redirect scaffolding call op =>
    obtain ⟨stocked', ref, edited, noted⟩ := asks applied
    refine ⟨stocked', ref, edited, fun op' same => ?_⟩
    cases same
    exact noted
  | constrained marker call =>
    obtain ⟨stocked', ref, edited, noted⟩ := asks applied
    refine ⟨stocked', ref, edited, fun op' same => ?_⟩
    cases same
    exact noted

/-- What a visit does: nothing but notes, or it changes one site. -/
theorem visit_changes (reserves : m.Reserves ctx) (ready : Ready ctx m w) {changed : Bool}
    (ran : visit ctx method h w = (.ok changed, w')) :
    Ready ctx m w' ∧ (w'.body = w.body ∨ Changes ctx m w w') := by
  cases visit_cases ran with
  | nothing => exact ⟨ready, .inl rfl⟩
  | skipped =>
    exact ⟨⟨ready.stocked.noted rfl rfl, ready.numbered, ready.linked, ready.narrow, ready.nested⟩, .inl rfl⟩
  | @done _ w₁ _ _ _ found applied =>
    obtain ⟨stocked, num, linked, narrow, nested⟩ := ready
    obtain ⟨pre, a, post, code, r, front, operand, back, post', stands, lines, rfl⟩ :=
      standsAt_of_matchAt num.nodup found
    rw [known_extends stocked.keeps.grows reserves] at stands
    obtain ⟨A, a', rest, rfl⟩ := stands.exists_head
    obtain ⟨e, info⟩ := stands.shape.known
    have info := sig_of_known info
    obtain ⟨stocked', ref, edited, noted⟩ := apply_stocked stocked info applied
    rcases stands.turn num linked rfl ref with ⟨-, -, refused⟩ | ⟨F, B, k, b', done, turned⟩
    · cases edited.symm.trans refused
    obtain rfl : b' = w₁.body := congrArg Prod.snd (done.symm.trans edited)
    have asked (op : Operation) (asks : r.operation? = some op) :
        w₁.session.generated.helpers.lookup (op, r.info.name) = some ref :=
      noted op ((operation?_site r _ _).trans asks)
    have sig (op : Operation) (asks : r.operation? = some op) : ref.sig = op.sig r.info.sig :=
      (stocked'.keeps.cached op r.info.name ref (asked op asks)).2.1
    refine ⟨⟨stocked'.noted rfl rfl, turned.numbered, turned.linked num stands rfl linked,
      turned.narrow stands sig narrow, turned.nested num linked stands rfl nested⟩, .inr ?_⟩
    exact ⟨r, pre, _, operand, back, post', A, F, B, k, ref, stands, rfl, turned, info, asked⟩

theorem visitAll_ready (reserves : m.Reserves ctx) : ∀ {hs : List Handle} {w w' : Workpiece} {changed : Bool},
    Ready ctx m w → visitAll ctx method hs w = (.ok changed, w') → Ready ctx m w'
  | [], w, w', changed, ready, ran => by
    obtain ⟨-, rfl⟩ := Edit.pure_eq_ok.1 ran
    exact ready
  | h :: hs, w, w', changed, ready, ran => by
    obtain ⟨here, w₁, first, rest⟩ := Edit.bind_eq_ok.1 ran
    obtain ⟨there, w₂, second, last⟩ := Edit.bind_eq_ok.1 rest
    obtain ⟨-, rfl⟩ := Edit.pure_eq_ok.1 last
    exact visitAll_ready reserves (visit_changes reserves ready first).1 second

theorem visitAll_grows {hs : List Handle} {changed : Bool} (knows : w.session.KnowsHolder ctx)
    (ran : visitAll ctx method hs w = (.ok changed, w')) :
    w.session.module.Extends ctx.settings.holder (fun _ d d' => d' = d) w'.session.module := by
  have serves := visitAll_serves ctx method hs w
  rw [ran] at serves
  exact (serves.leads knows).grows

end

section
variable {ctx : Context} {m : ModuleDef} {method : Token} {s : Session} {μ : Machine} {depth : Nat}
  (stocked : s.Stocked ctx m) (reserves : m.Reserves ctx) (scope : μ.scope = ⟨s.module, ctx.library⟩)
  (native : m.LeavesPlatform)
  (short : ∀ ref e body, ref.declaring = ctx.settings.holder → s.module.lookup? ref = some e →
    e.body = some body → body.HasShortSwitches)
  (few : ∀ e d, known ctx m e = some d → d.declared.length < 2 ^ 31)
include stocked reserves scope native short few

theorem Changes.preserves {w w' : Workpiece} (ready : Ready ctx m w) (ready' : Ready ctx m w')
    (changes : Changes ctx m w w')
    (ext : w'.session.module.Extends ctx.settings.holder (fun _ d d' => d' = d) s.module)
    {args : List Value} {mem mem' : Memory} {n : Nat} {o : Outcome}
    (upholds : Upholds μ (μ.Within (depth + 1)) μ.faithful (.start w.body args) mem n o mem') :
    ∃ n', Upholds μ (μ.Within (depth + 1)) μ.faithful (.start w'.body args) mem n' o mem' := by
  obtain ⟨r, pre, front, operand, back, post, A, F, B, k, ref, stands, head, turned, info, noted⟩ := changes
  have known : ∀ e d, known ctx m e = some d → μ.scope.enumInfo? e = some d := by
    intro e d
    rw [scope, enumInfo?_eq_known, known_extends stocked.keeps.grows reserves]
    exact id
  refine turned.preserves ready.numbered ready.linked stands head (fun ref yes => ?_) known ready.narrow ready.nested
    (fun op asks => ?_) upholds
  · obtain ⟨name, mem, declaring⟩ := Platform.declaring_of_isKnown yes
    exact body?_of_plain stocked scope (declaring ▸ native name mem) (Platform.plain_of_isKnown yes)
  · exact performs_of_stocked ready'.stocked stocked ext reserves scope native short (noted op asks) info
      (few _ _ info)

theorem visitAll_preserves : ∀ {hs : List Handle} {w w' : Workpiece} {changed : Bool}, Ready ctx m w →
    visitAll ctx method hs w = (.ok changed, w') → w'.session = s →
    ∀ {args : List Value} {mem mem' : Memory} {n : Nat} {o : Outcome},
      Upholds μ (μ.Within (depth + 1)) μ.faithful (.start w.body args) mem n o mem' →
      ∃ n', Upholds μ (μ.Within (depth + 1)) μ.faithful (.start w'.body args) mem n' o mem'
  | [], w, w', changed, ready, ran, last, args, mem, mem', n, o, upholds => by
    obtain ⟨-, rfl⟩ := Edit.pure_eq_ok.1 ran
    exact ⟨n, upholds⟩
  | h :: hs, w, w', changed, ready, ran, last, args, mem, mem', n, o, upholds => by
    obtain ⟨here, w₁, first, rest⟩ := Edit.bind_eq_ok.1 ran
    obtain ⟨there, w₂, second, final⟩ := Edit.bind_eq_ok.1 rest
    obtain ⟨-, rfl⟩ := Edit.pure_eq_ok.1 final
    obtain ⟨ready₁, changes⟩ := visit_changes reserves ready first
    have ext := visitAll_grows ready₁.stocked.keeps.knows second
    rw [last] at ext
    obtain ⟨n₁, upholds₁⟩ : ∃ n₁, Upholds μ (μ.Within (depth + 1)) μ.faithful (.start w₁.body args) mem n₁ o mem' := by
      rcases changes with same | changes
      · rw [same]
        exact ⟨n, upholds⟩
      · exact changes.preserves stocked reserves scope native short few ready ready₁ ext upholds
    exact visitAll_preserves ready₁ second last upholds₁

end

/-! ## Whole runs -/

/-- The holder is a new type: neither the module nor the platform has one of its name, and no method of the
module calls one of its methods. -/
structure NewHolder (ctx : Context) (m : ModuleDef) : Prop where
  module : m.find? ctx.settings.holder = none
  library : ∀ p ∈ ctx.library, p.find? ctx.settings.holder = none
  avoids : ∀ id d body, m.method? id = some d → d.body = some body → body.Avoids ctx.settings.holder

/-- The generated methods of a holder and the enums are small enough for 32 bits to count them. -/
structure Small (ctx : Context) (m m' : ModuleDef) : Prop where
  tables : ∀ ref e body, ref.declaring = ctx.settings.holder → m'.lookup? ref = some e → e.body = some body →
    body.HasShortSwitches
  values : ∀ e d, known ctx m e = some d → d.declared.length < 2 ^ 31

/-- A body in which all sites have been changed behaves like the body: if a machine carries out the body, and what it
boxes in it has the form of its kind, every machine with the generated methods and large enough limits carries out
the rewritten body, with the same end, the same heap and the same calls of the host. -/
theorem run_preserves {ctx : Context} {method : Token} {w w' : Workpiece} {changed : Bool} {m : Machine}
    {args : List Value} {v v' : World} {o : Outcome} (reachable : w.body.Reachable)
    (narrow : ∀ p ∈ w.body.code, p.2.counts.1 ≤ 255) (nested : w.body.Nested)
    (holder : NewHolder ctx w.session.module) (avoids : w.body.Avoids ctx.settings.holder)
    (native : w.session.module.LeavesPlatform) (fresh : w.session.generated = {})
    (ran : run ctx method w = (.ok changed, w')) (small : Small ctx w.session.module w'.session.module)
    (scope : m.scope = ⟨w.session.module, ctx.library⟩) (executed : m.execute w.body args v = (.ok o, v'))
    (faithful : ∀ g v₁, m.Visits w.body args v g v₁ → g.Faithful m.scope v₁.heap) :
    ∃ limits : Limits, ∀ m' : Machine, m'.scope = ⟨w'.session.module, ctx.library⟩ → m'.host = m.host →
      limits.maxInstructions ≤ m'.limits.maxInstructions → limits.maxCallDepth ≤ m'.limits.maxCallDepth →
      ∃ v'', m'.execute w'.body args v = (.ok o, v'') ∧ v''.heap = v'.heap ∧ v''.trace = v'.trace := by
  obtain ⟨depth, room⟩ : ∃ depth, m.limits.maxCallDepth = depth + 1 := by
    cases room : m.limits.maxCallDepth with
    | zero => simp [execute, room, executeWithin] at executed
    | succ depth => exact ⟨depth, rfl⟩
  obtain ⟨n, upholds⟩ : ∃ n, Upholds m (m.Within depth) m.faithful (.start w.body args) v.memory n o v'.memory := by
    rw [execute, room] at executed
    exact Comes.upholds (executeWithin_finds m depth) (fun g v₁ comes => faithful g v₁ ⟨depth, room, comes⟩) .here
      executed
  -- the same run in the module with the generated methods
  have reserves := ModuleDef.reserves_of_free holder.module holder.library
  have ready : Ready ctx w.session.module w :=
    ⟨.fresh holder.module fresh, reachable.numbered, reachable.linked, narrow, nested⟩
  have ran : visitAll ctx method w.body.handles.reverse w = (.ok changed, w') := by
    obtain ⟨b, w₁, read, rest⟩ := Edit.bind_eq_ok.1 ran
    cases read
    exact rest
  have stocked := (visitAll_ready reserves ready ran).stocked
  let μ : Machine := { m with scope := ⟨w'.session.module, ctx.library⟩ }
  have apart : Apart ctx.settings.holder m μ :=
    apart_of_stocked stocked reserves holder.module scope rfl rfl holder.avoids
  have moved := apart.upholds (fun avoids run => within_succ (apart.within depth avoids run)) avoids
    (.start w.body args) upholds
  -- the run of the rewritten body
  obtain ⟨n', rewritten⟩ := visitAll_preserves stocked reserves rfl native small.tables small.values ready ran rfl moved
  obtain ⟨k, ends⟩ := rewritten.ends
  refine ⟨⟨v.executed + k, depth + 2⟩, fun m' scope' host count frames => ?_⟩
  have within : m'.Within (depth + 2) w'.body args v.memory k o v'.memory := within_transfer (m := μ) scope' host ends
  exact ⟨_, execute_eq_ok_iff.2 ⟨k, v'.memory, within_mono frames within, count, rfl⟩, rfl, rfl⟩

/-! ## Runs over a module with an enum -/

def colors : ModuleDef := colorMachine.scope.module

def colorLab : Machine := { scope := ⟨colors, []⟩, limits := { maxInstructions := 30, maxCallDepth := 1 } }

theorem colors_newHolder : NewHolder {} colors := by
  refine ⟨find?_color_eq_none (by decide), fun p mem => absurd mem List.not_mem_nil, fun id d body method => ?_⟩
  have bare : colors.method? id = none := by
    obtain ⟨row, j⟩ := id
    cases row <;> rfl
  rw [bare] at method
  cases method

theorem colors_leavesPlatform : colors.LeavesPlatform := by
  intro name mem
  refine find?_color_eq_none fun same => ?_
  have system : "System" ≠ "Demo" := by decide
  exact system (congrArg TypeName.ns same)

theorem known_colors {e : Sig} {d : EnumInfo} (info : known {} colors e = some d) : d = colorInfo := by
  cases e with
  | valueType name =>
    by_cases same : name = ⟨"Demo", "Color"⟩
    · have color : known {} colors (.valueType ⟨"Demo", "Color"⟩) = some colorInfo := by cbv
      rw [same, color] at info
      exact (Option.some.inj info).symm
    · have none : colors.find? name = none := find?_color_eq_none same
      simp only [known, EnumInfo.ofSig, Library.resolve, none] at info
      cases info
  | _ => cases info

theorem small_colors {m : ModuleDef} (short : m.types.all (fun t => t.methods.all fun e =>
      e.body.all fun b => b.code.all fun p => decide (p.2.targets.length < 2 ^ 31)) = true) : Small {} colors m := by
  refine ⟨fun ref e body _ looked own line mem => ?_, fun e d info => ?_⟩
  · obtain ⟨id, method⟩ := ModuleDef.method?_of_lookup? looked
    obtain ⟨t, row, there⟩ := Option.bind_eq_some_iff.1 method
    have methods := Array.all_eq_true'.1 short t (Array.mem_of_getElem? row)
    have code := Array.all_eq_true'.1 methods e (Array.mem_of_getElem? there)
    rw [own, Option.all_some] at code
    exact of_decide_eq_true (List.all_eq_true.1 code line mem)
  · rw [known_colors info]
    decide

theorem faithful_of_checkAll {b : Body} {args : List Value} {v : World}
    (all : colorLab.checkAll (colorLab.executeWithin 0) (fun g v₁ => g.isFaithful colorLab.scope v₁.heap) 30
      (.start b args) v = true) (g : Frame) (v₁ : World) (visits : colorLab.Visits b args v g v₁) :
    g.Faithful colorLab.scope v₁.heap := by
  obtain ⟨depth, room, comes⟩ := visits
  obtain rfl : 0 = depth := Nat.succ.inj room
  exact Frame.faithful_of_isFaithful (comes.check all)

def named : Body where
  code := [(⟨0⟩, .ldarg 0), (⟨1⟩, .typed .box (.valueType ⟨"Demo", "Color"⟩)),
    (⟨2⟩, .call .callvirt Platform.objectToString), (⟨3⟩, ⟨.ret, .none⟩)]
  nextIndex := 4

def namedEdits : List Edit.Op := [.push (.ldarg 0), .push (.typed .box (.valueType ⟨"Demo", "Color"⟩)),
  .push (.call .callvirt Platform.objectToString), .push ⟨.ret, .none⟩]

theorem named_reachable : named.Reachable := .of_edits namedEdits rfl

theorem named_faithful (g : Frame) (v₁ : World) (visits : colorLab.Visits named [.i32 1] {} g v₁) :
    g.Faithful colorLab.scope v₁.heap := by
  refine faithful_of_checkAll ?_ g v₁ visits
  cbv

theorem run_preserves_named : ∃ (w w' : Workpiece) (limits : Limits), w.body = named ∧ w.body.Reachable ∧
    w.body.Nested ∧ NewHolder {} w.session.module ∧ w.session.module.LeavesPlatform ∧
    run {} (.method 1) w = (.ok true, w') ∧ Small {} w.session.module w'.session.module ∧
    colorLab.execute named [.i32 1] {} = (.ok (.returned (some (.str "Red"))), { executed := 4 }) ∧
    ∀ m' : Machine, m'.scope = ⟨w'.session.module, []⟩ → m'.host = colorLab.host →
      limits.maxInstructions ≤ m'.limits.maxInstructions → limits.maxCallDepth ≤ m'.limits.maxCallDepth →
      ∃ v'', m'.execute w'.body [.i32 1] {} = (.ok (.returned (some (.str "Red"))), v'') ∧
        v''.heap = #[] ∧ v''.trace = #[] := by
  let w : Workpiece := ⟨{ module := colors }, named⟩
  obtain ⟨s, b, ran, short⟩ : ∃ s b, run {} (.method 1) w = (.ok true, ⟨s, b⟩) ∧
      s.module.types.all (fun t => t.methods.all fun e => e.body.all fun b => b.code.all fun p =>
        decide (p.2.targets.length < 2 ^ 31)) = true := ⟨_, _, by cbv, by cbv⟩
  have executed : colorLab.execute named [.i32 1] {} = (.ok (.returned (some (.str "Red"))), { executed := 4 }) := by
    cbv
  have nested : w.body.Nested := by decide
  obtain ⟨limits, preserves⟩ := run_preserves (w := w) named_reachable (by decide) nested colors_newHolder
    (by decide) colors_leavesPlatform rfl ran (small_colors short) rfl executed named_faithful
  exact ⟨w, _, limits, rfl, named_reachable, nested, colors_newHolder, colors_leavesPlatform, ran,
    small_colors short, executed, preserves⟩

/-- Protected ranges that overlap in part. The first one has five instructions to begin with, more than the second,
and three when its site is changed. -/
def crossed : Body where
  code := [(⟨0⟩, .ldcI4 1), (⟨1⟩, .typed .box (.valueType ⟨"Demo", "Color"⟩)),
    (⟨2⟩, .call .callvirt Platform.objectToString), (⟨3⟩, ⟨.pop, .none⟩), (⟨4⟩, .branch .leave ⟨14⟩),
    (⟨5⟩, ⟨.nop, .none⟩), (⟨6⟩, ⟨.nop, .none⟩), (⟨7⟩, ⟨.nop, .none⟩),
    (⟨8⟩, .ldcI4 1), (⟨9⟩, .stloc 0), (⟨10⟩, ⟨.endfinally, .none⟩),
    (⟨11⟩, .ldcI4 2), (⟨12⟩, .stloc 0), (⟨13⟩, ⟨.endfinally, .none⟩),
    (⟨14⟩, .ldloc 0), (⟨15⟩, ⟨.ret, .none⟩)]
  nextIndex := 16
  locals := #[.prim .int32]
  regions := [{ tryStart := ⟨0⟩, tryEnd := some ⟨5⟩, handlerStart := ⟨8⟩, handlerEnd := some ⟨11⟩ },
    { tryStart := ⟨4⟩, tryEnd := some ⟨8⟩, handlerStart := ⟨11⟩, handlerEnd := some ⟨14⟩ }]

def crossedEdits : List Edit.Op := [.push (.ldcI4 1), .push (.typed .box (.valueType ⟨"Demo", "Color"⟩)),
  .push (.call .callvirt Platform.objectToString), .push ⟨.pop, .none⟩, .push ⟨.leave, .none⟩,
  .push ⟨.nop, .none⟩, .push ⟨.nop, .none⟩, .push ⟨.nop, .none⟩,
  .push (.ldcI4 1), .push (.stloc 0), .push ⟨.endfinally, .none⟩,
  .push (.ldcI4 2), .push (.stloc 0), .push ⟨.endfinally, .none⟩, .push (.ldloc 0), .push ⟨.ret, .none⟩,
  .setOperand ⟨4⟩ (.target ⟨14⟩), .addLocal (.prim .int32),
  .addRegion { tryStart := ⟨0⟩, tryEnd := some ⟨5⟩, handlerStart := ⟨8⟩, handlerEnd := some ⟨11⟩ },
  .addRegion { tryStart := ⟨4⟩, tryEnd := some ⟨8⟩, handlerStart := ⟨11⟩, handlerEnd := some ⟨14⟩ }]

theorem crossed_reachable : crossed.Reachable := .of_edits crossedEdits rfl

theorem crossed_faithful (g : Frame) (v₁ : World) (visits : colorLab.Visits crossed [] {} g v₁) :
    g.Faithful colorLab.scope v₁.heap := by
  refine faithful_of_checkAll ?_ g v₁ visits
  cbv

/-- Where ranges overlap in part, the order of the handlers may change with the size of the ranges. -/
theorem run_crossed : ∃ w w' : Workpiece, w.body = crossed ∧ w.session = { module := colors } ∧
    w.body.Reachable ∧ (∀ p ∈ w.body.code, p.2.counts.1 ≤ 255) ∧ NewHolder {} w.session.module ∧
    w.body.Avoids ({} : Context).settings.holder ∧ w.session.module.LeavesPlatform ∧
    run {} (.method 1) w = (.ok true, w') ∧ Small {} w.session.module w'.session.module ∧
    (∃ v', colorLab.execute w.body [] {} = (.ok (.returned (some (.i32 1))), v')) ∧
    (∀ g v₁, colorLab.Visits w.body [] {} g v₁ → g.Faithful colorLab.scope v₁.heap) ∧
    ∀ m' : Machine, m'.scope = ⟨w'.session.module, []⟩ → m'.host = colorLab.host →
      ∀ v'', m'.execute w'.body [] {} ≠ (.ok (.returned (some (.i32 1))), v'') := by
  let w : Workpiece := ⟨{ module := colors }, crossed⟩
  obtain ⟨s, b, ran, module, after⟩ : ∃ s b, run {} (.method 1) w = (.ok true, ⟨s, b⟩) ∧ s.module = colors ∧
      colorLab.execute b [] {} = (.ok (.returned (some (.i32 2))), { executed := 11 }) :=
    ⟨_, _, by cbv, rfl, by cbv⟩
  have small : Small {} colors colors := small_colors (by cbv)
  have before : colorLab.execute crossed [] {} = (.ok (.returned (some (.i32 1))), { executed := 13 }) := by cbv
  refine ⟨w, ⟨s, b⟩, rfl, rfl, crossed_reachable, by decide, colors_newHolder, by decide,
    colors_leavesPlatform, ran, module.symm ▸ small, ⟨_, before⟩, crossed_faithful, ?_⟩
  intro m' scope host v'' run
  rw [module] at scope
  obtain ⟨same, -⟩ := execute_unique (m := colorLab) scope host after run
  cases same

end CilForge.CallSite
