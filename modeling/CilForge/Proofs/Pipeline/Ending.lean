import CilForge.Proofs.Module.Forest
import CilForge.Proofs.Pipeline.Valid

/-!
# Runs end

Where a run ends it does what its parts do (`run_agrees`). It goes on for ever if the lists of nested types lead
in a circle, or if flattening comes to a region for which no number is left. Neither comes up during a run that
starts without it: no strategy makes regions, and the holder is not nested (`run_bounded`).
-/

namespace CilForge

/-! ## The number of regions -/

def Body.AsMany (b b' : Body) : Prop := b'.regions.length = b.regions.length

theorem Body.AsMany.refl (b : Body) : b.AsMany b := rfl

theorem Body.AsMany.trans (a b c : Body) (first : a.AsMany b) (second : b.AsMany c) : a.AsMany c :=
  Eq.trans second first

namespace Edit

theorem replace_asMany (old : Handle) (i : Instr) : Moves Body.AsMany (replace old i) := by
  intro b
  unfold replace
  split
  · exact List.length_map _
  · rfl

theorem insertAfter_asMany (anchor : Handle) (i : Instr) : Moves Body.AsMany (insertAfter anchor i) := by
  intro b
  unfold insertAfter
  split <;> rfl

theorem addLocal_asMany (sig : Sig) : Moves Body.AsMany (addLocal sig) := by
  intro b
  unfold addLocal
  split <;> rfl

theorem unlink_asMany (h : Handle) : Moves Body.AsMany (unlink h) := by
  intro b
  unfold unlink
  split
  · exact List.length_map _
  · split
    · rfl
    · exact List.length_map _

theorem remove_asMany (h : Handle) : Moves Body.AsMany (remove h) := by
  intro b
  unfold remove
  split
  · rfl
  · split
    · split
      · split
        · rfl
        · exact unlink_asMany h _
      · rfl
    · exact unlink_asMany h b

theorem expand_asMany (old : Handle) (head : Instr) (tail : List Instr) :
    Moves Body.AsMany (expand old head tail) := by
  have behind : ∀ (tail : List Instr) (h : Handle),
      Moves Body.AsMany (tail.foldlM (fun at' i => insertAfter at' i) h) := by
    intro tail
    induction tail with
    | nil => exact fun h => Moves.pure Body.AsMany.refl h
    | cons i tail ih => exact fun h => Moves.bind Body.AsMany.trans (insertAfter_asMany h i) ih
  exact Moves.bind Body.AsMany.trans (replace_asMany old head) fun first =>
    Moves.bind Body.AsMany.trans (behind tail first) fun _ => Moves.pure Body.AsMany.refl first

end Edit

namespace CallSite

theorem removeAll_asMany (hs : List Handle) : Moves Body.AsMany (removeAll hs) :=
  Moves.forM Body.AsMany.refl Body.AsMany.trans Edit.remove_asMany hs

theorem edit_asMany (info : EnumInfo) (ref : MethodRef) (change : Change) :
    Moves Body.AsMany (change.edit info ref) := by
  have bind {α β : Type} {x : Edit α} {k : α → Edit β} (hx : Moves Body.AsMany x)
      (hk : ∀ a, Moves Body.AsMany (k a)) : Moves Body.AsMany (x >>= k) :=
    Moves.bind Body.AsMany.trans hx hk
  have unit : Moves Body.AsMany (pure () : Edit Unit) := Moves.pure Body.AsMany.refl ()
  cases change with
  | fold first last result =>
    refine bind (fun _ => rfl) fun b => bind (fun _ => rfl) fun doomed => ?_
    exact bind (Edit.replace_asMany first result) fun _ => removeAll_asMany doomed
  | redirect scaffolding call op =>
    exact bind (removeAll_asMany scaffolding) fun _ => bind (Edit.replace_asMany call _) fun _ => unit
  | underlying token call primitive =>
    exact bind (Edit.replace_asMany token _) fun _ => Edit.remove_asMany call
  | hasFlag firstBox secondBox call =>
    refine bind (Edit.addLocal_asMany _) fun temp => bind (Edit.remove_asMany firstBox) fun _ => ?_
    exact bind (Edit.expand_asMany secondBox _ _) fun _ => bind (Edit.replace_asMany call _) fun _ => unit
  | constrained marker call =>
    exact bind (Edit.replace_asMany marker _) fun _ => bind (Edit.replace_asMany call _) fun _ => unit

variable {ctx : Context} {method : Token}

theorem visit_asMany {h : Handle} {w w' : Workpiece} {changed : Bool}
    (ran : visit ctx method h w = (.ok changed, w')) : w.body.AsMany w'.body := by
  cases visit_cases ran with
  | nothing => rfl
  | skipped => rfl
  | @done site w₁ level message e found applied =>
    obtain ⟨ref, edited⟩ := edit_of_apply applied
    have same := edit_asMany site.info ref site.change w.body
    rwa [edited] at same

theorem visitAll_asMany : ∀ {hs : List Handle} {w w' : Workpiece} {changed : Bool},
    visitAll ctx method hs w = (.ok changed, w') → w.body.AsMany w'.body
  | [], w, w', changed, ran => by
    obtain ⟨-, rfl⟩ := Edit.pure_eq_ok.1 ran
    rfl
  | h :: hs, w, w', changed, ran => by
    obtain ⟨here, w₁, first, rest⟩ := Edit.bind_eq_ok.1 ran
    obtain ⟨there, w₂, second, last⟩ := Edit.bind_eq_ok.1 rest
    obtain ⟨-, rfl⟩ := Edit.pure_eq_ok.1 last
    exact (visit_asMany first).trans _ _ _ (visitAll_asMany second)

end CallSite

theorem Strategy.regions_le {ctx : Context} {st : Strategy} {method : Token} {w w' : Workpiece} {changed : Bool}
    (ran : st.process ctx method w = (.ok changed, w')) : w'.body.regions.length ≤ w.body.regions.length := by
  cases changed with
  | false => rw [process_false ran]
  | true =>
    cases st with
    | materialize =>
      obtain ⟨b, w₁, -, rest⟩ := Edit.bind_eq_ok.1 ran
      obtain ⟨_, w₂, -, last⟩ := Edit.bind_eq_ok.1 rest
      obtain ⟨no, -⟩ := Edit.pure_eq_ok.1 last
      cases no
    | callSites =>
      obtain ⟨b, w₁, read, rest⟩ := Edit.bind_eq_ok.1 ran
      cases read
      exact Nat.le_of_eq (CallSite.visitAll_asMany rest)
    | flatten =>
      obtain ⟨layout, -, applied⟩ := Finally.apply_of_run ran
      rw [Finally.regions_of_apply applied]
      exact Nat.zero_le _

/-! ## What has an end -/

namespace Work?

variable {α β : Type} {s : Session}

theorem get_bind (k : Session → Work? β) : ((get : Work? Session) >>= k) s = k s s := rfl

theorem ofOption_bind (o : Option α) (k : α → Work? β) : (ofOption o >>= k) s = o.bind fun a => k a s := by
  cases o <;> rfl

/-- Work that ends, one part after the other, does what its parts do. -/
theorem bind_eq {x? : Work? α} {x : Work α} {k? : α → Work? β} {k : α → Work β} (first : x? s = some (x s))
    (next : ∀ a s', x s = (.ok a, s') → k? a s' = some (k a s')) : (x? >>= k?) s = some ((x >>= k) s) := by
  change (x? s).bind _ = _
  rw [first, run_bind]
  generalize x s = out at next
  obtain ⟨_ | a, s'⟩ := out
  · rfl
  · exact next a s' rfl

/-- Where the one ends, the other comes to the same. -/
def Agrees (x? : Work? α) (x : Work α) : Prop := ∀ s out, x? s = some out → x s = out

theorem Agrees.bind {x? : Work? α} {x : Work α} {k? : α → Work? β} {k : α → Work β} (first : Agrees x? x)
    (next : ∀ a, Agrees (k? a) (k a)) : Agrees (x? >>= k?) (x >>= k) := by
  intro s out ended
  obtain ⟨⟨r, s'⟩, here, rest⟩ := Option.bind_eq_some_iff.1 ended
  rw [run_bind, first s _ here]
  cases r with
  | error e => exact Option.some.inj rest
  | ok a => exact next a s' out rest

theorem Agrees.pure (a : α) : Agrees (Pure.pure a) (Pure.pure a) := fun _ _ => Option.some.inj

theorem Agrees.each {f? : α → Work? Bool} {f : α → Work Bool} (one : ∀ a, Agrees (f? a) (f a)) :
    ∀ l : List α, Agrees (Work?.each f? l) (Work.each f l)
  | [] => .pure false
  | a :: l => (one a).bind fun _ => (Agrees.each one l).bind fun _ => .pure _

end Work?

namespace Pipeline

section
variable (ctx : Context)

theorem onMethod_agrees (st : Strategy) (id : MethodId) :
    Work?.Agrees (onMethod? ctx st id) (onMethod ctx st id) := by
  intro s out ended
  unfold onMethod? at ended
  split at ended
  · cases ended
  · exact Option.some.inj ended

theorem onType_agrees (st : Strategy) (type : Nat) : Work?.Agrees (onType? ctx st type) (onType ctx st type) := by
  intro s out ended
  unfold onType? at ended
  unfold onType
  simp only [run_bind, Work.get, Work?.get_bind] at ended ⊢
  split at ended
  · rename_i skipped
    rw [if_pos skipped]
    exact Option.some.inj ended
  · rename_i taken
    rw [if_neg taken]
    exact Work?.Agrees.each (fun index => onMethod_agrees ctx st ⟨type, index⟩) _ s out ended

theorem runStage_agrees (strategies : List Strategy) (stage : Stage) :
    Work?.Agrees (runStage? ctx strategies stage) (runStage ctx strategies stage) := by
  intro s out ended
  unfold runStage? at ended
  dsimp only at ended
  split at ended
  · rename_i none
    rw [runStage_of_none (List.isEmpty_iff.1 none)]
    exact Option.some.inj ended
  · rw [Work?.get_bind, Work?.ofOption_bind] at ended
    obtain ⟨order, visits, ended⟩ := Option.bind_eq_some_iff.1 ended
    unfold runStage
    simp only [run_bind, Work.get, ModuleDef.order, visits, Option.getD_some]
    exact Work?.Agrees.each (fun visit : Strategy × Nat => onType_agrees ctx visit.1 visit.2) _ s out ended

theorem run_agrees (strategies : List Strategy) : Work?.Agrees (run? ctx strategies) (run ctx strategies) :=
  .each (runStage_agrees ctx strategies) Stage.all

end

/-- A session whose module can be visited to an end, with few enough regions in all bodies to visit. -/
structure Bounded (ctx : Context) (s : Session) : Prop where
  knows : s.KnowsHolder ctx
  ends : s.module.order?.isSome
  few : ∀ id d body, s.module.typeName id.type ≠ ctx.settings.holder → s.module.method? id = some d →
    d.body = some body → body.regions.length ≤ 2 ^ 16

variable {ctx : Context}

theorem onMethod_bounded {s : Session} (bounded : Bounded ctx s) (st : Strategy) (id : MethodId)
    (other : s.module.typeName id.type ≠ ctx.settings.holder) :
    onMethod? ctx st id s = some (onMethod ctx st id s) ∧ Bounded ctx (onMethod ctx st id s).2 := by
  unfold onMethod?
  cases has : (s.module.method? id).bind (·.body) with
  | none =>
    rw [onMethod_of_none has]
    exact ⟨rfl, bounded⟩
  | some body =>
    obtain ⟨d, found, has⟩ := Option.bind_eq_some_iff.1 has
    have few := bounded.few id d body other found has
    have ends : st.endless body = false := by
      cases st with
      | materialize | callSites => rfl
      | flatten => exact Finally.endless_of_few few
    refine ⟨by rw [Option.any_some, ends]; rfl, ?_⟩
    generalize ran : processChecked ctx st d.token
      { session := { s with module := s.module.setBody id none }, body } = out
    obtain ⟨r, w⟩ := out
    obtain ⟨s', done, leads⟩ := onMethod_puts ctx st bounded.knows found has ran
    rw [done]
    refine ⟨leads.knows, ?_, fun i e body' other there some => ?_⟩
    · obtain ⟨new, order, -⟩ := leads.grows.order?
      rw [order, Option.isSome_map]
      exact bounded.ends
    · obtain ⟨other, e₀, there₀, puts⟩ := leads.grows.method_of_other other there
      unfold ModuleDef.PutsBody at puts
      split at puts
      · rw [puts, Option.some.injEq] at some
        rw [← some]
        cases r with
        | error e => exact few
        | ok changed => exact Nat.le_trans (Strategy.regions_le (process_of_checked ran)) few
      · rw [puts] at some
        exact bounded.few i e₀ body' other there₀ some

theorem each_ends {P : Session → Prop} {α : Type} {f? : α → Work? Bool} {f : α → Work Bool}
    (one : ∀ a s, P s → f? a s = some (f a s) ∧ P (f a s).2) : ∀ (l : List α) (s : Session), P s →
      Work?.each f? l s = some (Work.each f l s)
  | [], _, _ => rfl
  | a :: l, s, start => by
    obtain ⟨here, next⟩ := one a s start
    refine Work?.bind_eq here fun changed s₁ ran => ?_
    rw [ran] at next
    exact Work?.bind_eq (each_ends one l s₁ next) fun _ _ _ => rfl

theorem onType_bounded (st : Strategy) (type : Nat) (s : Session) (bounded : Bounded ctx s) :
    onType? ctx st type s = some (onType ctx st type s) ∧ Bounded ctx (onType ctx st type s).2 := by
  unfold onType? onType
  simp only [run_bind, Work.get, Work?.get_bind]
  split
  · exact ⟨rfl, bounded⟩
  rename_i taken
  obtain ⟨⟨t, row⟩, other⟩ := visited_of_skips taken
  -- the type keeps its place and its name while its methods are visited
  have one (index : Nat) (s₁ : Session) (hyp : Bounded ctx s₁ ∧ type < s₁.module.types.size ∧
      s₁.module.typeName type ≠ ctx.settings.holder) :
      onMethod? ctx st ⟨type, index⟩ s₁ = some (onMethod ctx st ⟨type, index⟩ s₁) ∧
        Bounded ctx (onMethod ctx st ⟨type, index⟩ s₁).2 ∧
        type < (onMethod ctx st ⟨type, index⟩ s₁).2.module.types.size ∧
        (onMethod ctx st ⟨type, index⟩ s₁).2.module.typeName type ≠ ctx.settings.holder := by
    obtain ⟨bounded, lt, other⟩ := hyp
    obtain ⟨ended, bounded'⟩ := onMethod_bounded bounded st ⟨type, index⟩ other
    obtain ⟨_, s', done, leads⟩ := onMethod_leads ctx bounded.knows st ⟨type, index⟩
    refine ⟨ended, bounded', ?_⟩
    rw [done]
    refine ⟨Nat.lt_of_lt_of_le lt leads.grows.size_le, ?_⟩
    rw [leads.grows.typeName lt]
    exact other
  have start := And.intro bounded (And.intro (ModuleDef.lt_size row) other)
  exact ⟨each_ends one _ s start, (each_agrees (fun i s hyp => ⟨rfl, (one i s hyp).2⟩) _ s start).2.1⟩

theorem runStage_bounded (strategies : List Strategy) (stage : Stage) (s : Session) (bounded : Bounded ctx s) :
    runStage? ctx strategies stage s = some (runStage ctx strategies stage s) ∧
      Bounded ctx (runStage ctx strategies stage s).2 := by
  obtain ⟨order, ended⟩ := Option.isSome_iff_exists.1 bounded.ends
  unfold runStage?
  dsimp only
  split
  · rename_i none
    rw [runStage_of_none (List.isEmpty_iff.1 none)]
    exact ⟨rfl, bounded⟩
  · unfold runStage
    simp only [run_bind, Work.get, Work?.get_bind, Work?.ofOption_bind, ended, ModuleDef.order, Option.getD_some]
    have one := fun visit : Strategy × Nat => @onType_bounded ctx visit.1 visit.2
    exact ⟨each_ends one _ s bounded, (each_agrees (fun i s hyp => ⟨rfl, (one i s hyp).2⟩) _ s bounded).2⟩

theorem run_bounded (strategies : List Strategy) {s : Session} (bounded : Bounded ctx s) :
    run? ctx strategies s = some (run ctx strategies s) :=
  each_ends (fun stage => runStage_bounded strategies stage) Stage.all s bounded

theorem each_eq_none {α : Type} {f? : α → Work? Bool} {s : Session} : ∀ {l : List α},
    (∀ a ∈ l, f? a s = some (.ok false, s) ∨ f? a s = none) → (∃ a ∈ l, f? a s = none) →
      Work?.each f? l s = none
  | [], _, endless => by simp at endless
  | a :: l, each, endless => by
    change (f? a s).bind _ = none
    rcases each a List.mem_cons_self with idle | none
    · rw [idle]
      change (Work?.each f? l s).bind _ = none
      rw [each_eq_none (fun b mem => each b (List.mem_cons_of_mem _ mem)), Option.bind_none]
      obtain ⟨b, mem, none⟩ := endless
      rcases List.mem_cons.1 mem with rfl | mem
      · cases idle.symm.trans none
      · exact ⟨b, mem, none⟩
    · rw [none]
      rfl

/-- Where the types cannot be visited to an end, no strategy is run to an end. -/
theorem run?_eq_none {strategies : List Strategy} {s : Session} (endless : s.module.order? = none)
    (active : strategies ≠ []) : run? ctx strategies s = none := by
  have stage (stage : Stage) : runStage? ctx strategies stage s =
      if strategies.filter (·.stage = stage) = [] then some (.ok false, s) else none := by
    unfold runStage?
    dsimp only
    by_cases none : strategies.filter (·.stage = stage) = []
    · rw [none]
      rfl
    · rw [if_neg none, if_neg (mt List.isEmpty_iff.1 none), Work?.get_bind, Work?.ofOption_bind, endless]
      rfl
  refine each_eq_none (fun a _ => ?_) ?_
  · rw [stage]
    split
    · exact .inl rfl
    · exact .inr rfl
  · obtain ⟨st, mem⟩ := List.exists_mem_of_ne_nil _ active
    refine ⟨st.stage, by cases st <;> decide, ?_⟩
    rw [stage, if_neg]
    exact List.ne_nil_of_mem (List.mem_filter.2 ⟨mem, decide_eq_true rfl⟩)

def guardedCalls : List Addition := [
  .type colorType,
  .type { ns := "Demo", name := "Program", flags := TypeFlags.isPublic },
  .method 1 { name := "Main", flags := MethodFlags.isStatic, sig := {}, body := some guarded }]

end Pipeline

end CilForge
