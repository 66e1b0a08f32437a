import CilForge.Proofs.Pipeline.Valid

/-!
# Bodies that a strategy is done with

`Strategy.Done` is what a strategy leaves behind: a body in which it finds nothing to do, or on which it
fails, and which asks for nothing that is not provided. A strategy of the same or a later stage keeps it
so, and a strategy that is done with a body changes nothing any more.
-/

namespace CilForge

open CallSite

variable {ctx : Context} {desc : Sig → Option EnumInfo} {m m' : ModuleDef} {b b' : Body}

/-! ## Call sites -/

namespace CallSite

def Wanted (ctx : Context) (desc : Sig → Option EnumInfo) (m : ModuleDef) (b : Body) : Prop :=
  ∀ ask, Wants desc (cellsOf b b.code) ask → m.Provides ctx.settings.holder ask.1 ask.2.name

/-- There is no site in a body, or there is no room for the locals of its sites. -/
def Settled (ctx : Context) (desc : Sig → Option EnumInfo) (m : ModuleDef) (b : Body) : Prop :=
  Silent desc (cellsOf b b.code) ∨
    ∃ asks, Sweeps desc (cellsOf b b.code).reverse [] b.locals.size asks none ∧
      ∀ ask ∈ asks, m.Provides ctx.settings.holder ask.1 ask.2.name

/-- Calls of `GetTypeFromHandle` leave their result on the stack. -/
def Answering (b : Body) : Prop := ∀ p ∈ b.code, Answers p.2

instance (i : Instr) : Decidable (Answers i) := inferInstanceAs (Decidable (_ → _))

instance (b : Body) : Decidable (Answering b) := inferInstanceAs (Decidable (∀ p ∈ b.code, Answers p.2))

theorem answers_seen {i : Instr} : Answers i.seen ↔ Answers i := by
  have same : calls i.seen .call Platform.isGetTypeFromHandle = calls i .call Platform.isGetTypeFromHandle :=
    calls_seen i .call Platform.isGetTypeFromHandle_seen
  rw [Answers, Answers, same, Instr.effect_seen]

theorem answering_iff : Answering b ↔ ∀ c ∈ cellsOf b b.code, Answers c.instr := by
  constructor
  · intro answering c mem
    obtain ⟨p, line, rfl⟩ := List.mem_map.1 mem
    exact answers_seen.2 (answering p line)
  · intro answers p line
    exact answers_seen.1 (answers _ (List.mem_map_of_mem line))

theorem Along.answers {P : List Instr} {before before' : List Cell} (along : Along P before before')
    (answers : ∀ c ∈ before, Answers c.instr) : ∀ c ∈ before', Answers c.instr := by
  induction along with
  | nil => exact List.forall_mem_nil _
  | line _ _ ih =>
    rw [List.forall_mem_cons] at answers ⊢
    exact ⟨answers.1, ih answers.2⟩
  | stop _ inert _ ih =>
    rw [List.forall_mem_cons] at answers
    rw [List.forall_mem_append]
    refine ⟨fun c mem resolves => ?_, ih answers.2⟩
    obtain ⟨opcode, m, method, -⟩ := calls_iff.1 resolves
    have none := inert.uncalled c (List.mem_reverse.1 mem)
    rw [called?, if_pos (by simp [isCall, opcode]), method] at none
    cases none

section
variable (more : ∀ op enum, m.Provides ctx.settings.holder op enum → m'.Provides ctx.settings.holder op enum)
include more

theorem Wanted.mono (wanted : Wanted ctx desc m b) : Wanted ctx desc m' b :=
  fun ask wants => more _ _ (wanted ask wants)

theorem Settled.mono (settled : Settled ctx desc m b) : Settled ctx desc m' b :=
  settled.imp_right fun ⟨asks, sweeps, provided⟩ =>
    ⟨asks, sweeps, fun ask mem => more _ _ (provided ask mem)⟩

end

/-- A run over a settled body leaves it, and asks for nothing that is not provided. -/
theorem run_settled (method : Token) {w : Workpiece} (going : Going ctx desc w)
    (settled : Settled ctx desc w.session.module w.body) :
    ∃ result w' asks, run ctx method w = (result, w') ∧ Asked ctx asks w.session w'.session ∧
      (∀ ask ∈ asks, w.session.module.Provides ctx.settings.holder ask.1 ask.2.name) ∧
      (result = .ok false ∧ w'.body = w.body ∨ ∃ e, result = .error e) := by
  rcases settled with silent | ⟨asks, sweeps, provided⟩
  · obtain ⟨w', ran, body, asked⟩ := visitAll_silent method w.body.code silent going
      (List.append_nil _).symm
    exact ⟨.ok false, w', [], ran, asked, nofun, .inl ⟨rfl, body⟩⟩
  · obtain ⟨result, w', ran, asked, e, rfl⟩ := visitAll_of_sweeps method sweeps going
      (List.append_nil _).symm rfl rfl rfl
    exact ⟨.error e, w', asks, ran, asked, provided, .inr ⟨e, rfl⟩⟩

/-- A run leaves no site, or fails for want of locals. -/
theorem run_settles (method : Token) {w : Workpiece} (going : Going ctx desc w) (answering : Answering w.body) :
    ∃ result w' asks, run ctx method w = (result, w') ∧ Asked ctx asks w.session w'.session ∧
      ((∃ changed, result = .ok changed) ∧ Carried w.body w'.body ∧ Silent desc (cellsOf w'.body w'.body.code) ∨
        (∃ e, result = .error e) ∧ Settled ctx desc w'.session.module w.body) := by
  obtain ⟨asks, out, sweeps⟩ : ∃ asks out, Sweeps desc (cellsOf w.body w.body.code).reverse []
    w.body.locals.size asks out := exists_sweeps _ _ _
  obtain ⟨result, w', ran, asked, reached⟩ := visitAll_of_sweeps method sweeps going
    (List.append_nil _).symm rfl rfl rfl
  refine ⟨result, w', asks, ran, asked, ?_⟩
  cases out with
  | none => exact .inr ⟨reached, .inr ⟨asks, sweeps, asked.provides⟩⟩
  | some cs =>
    obtain ⟨-, carried, cells, result⟩ := reached
    refine .inl ⟨result, carried, ?_⟩
    rw [cells]
    refine sweeps.silent (silent_nil.quiet _) fun c mem => ?_
    rw [List.append_nil, List.mem_reverse] at mem
    exact answering_iff.1 answering c mem

end CallSite

/-! ## Flattening -/

namespace Finally

def outcome (b : Body) : Except Fault Bool :=
  if b.regions.isEmpty then .ok false
  else
    match Layout.ofBody b with
    | .error e => .error e
    | .ok layout => (layout.apply b).1.map fun _ => true

theorem run_outcome (method : Token) (w : Workpiece) : (Finally.run method w).1 = outcome w.body ∧
    (Finally.run method w).2.session.module = w.session.module ∧
    (Finally.run method w).2.session.generated = w.session.generated := by
  have read (x : Except Fault Layout) : (ExceptT.mk (pure x) : Pass Layout) w = (x, w) := rfl
  unfold Finally.run outcome
  simp only [run_bind, Pass.body]
  split
  · exact ⟨rfl, rfl, rfl⟩
  · rw [run_bind, read]
    cases Layout.ofBody w.body with
    | error e => exact ⟨rfl, rfl, rfl⟩
    | ok layout =>
      have edited : Pass.edit layout.apply w =
          ((layout.apply w.body).1, { w with body := (layout.apply w.body).2 }) := rfl
      dsimp only
      rw [run_bind, edited]
      cases (layout.apply w.body).1 with
      | error e => exact ⟨rfl, rfl, rfl⟩
      | ok _ => exact ⟨rfl, rfl, rfl⟩

end Finally

/-! ## Strategies -/

/-- A strategy has nothing more to do with a body. -/
def Strategy.Done (ctx : Context) (desc : Sig → Option EnumInfo) (m : ModuleDef) (b : Body) : Strategy → Prop
  | materialize => Wanted ctx desc m b
  | callSites => Settled ctx desc m b
  | flatten => Finally.outcome b ≠ .ok true

structure Kempt (ctx : Context) (desc : Sig → Option EnumInfo) (m : ModuleDef) (b : Body) : Prop where
  valid : b.Valid
  leveled : Leveled b
  ready : Answering b ∨ Settled ctx desc m b

section
variable (more : ∀ op enum, m.Provides ctx.settings.holder op enum → m'.Provides ctx.settings.holder op enum)
include more

theorem Strategy.Done.mono {st : Strategy} (done : st.Done ctx desc m b) : st.Done ctx desc m' b := by
  cases st with
  | materialize => exact Wanted.mono more done
  | callSites => exact Settled.mono more done
  | flatten => exact done

theorem Kempt.mono (kempt : Kempt ctx desc m b) : Kempt ctx desc m' b :=
  ⟨kempt.valid, kempt.leveled, kempt.ready.imp_right (Settled.mono more)⟩

end

/-- What a strategy has done with a body, in the place of which there is `b'`. -/
structure Serviced (ctx : Context) (desc : Sig → Option EnumInfo) (st : Strategy) (s s' : Session)
    (b b' : Body) (changed : Bool) : Prop where
  tended : s'.Tended ctx
  kempt : Kempt ctx desc s'.module b'
  done : st.Done ctx desc s'.module b'
  keeps : ∀ st' : Strategy, st'.stage.ordinal ≤ st.stage.ordinal → st'.Done ctx desc s.module b →
    st'.Done ctx desc s'.module b'
  idle : st.Done ctx desc s.module b → changed = false ∧ s'.module = s.module ∧
    s'.generated.created = s.generated.created

section
variable {st : Strategy} {s s' : Session} {asks : List (Operation × EnumInfo)} {changed : Bool}

theorem CallSite.Asked.more (asked : Asked ctx asks s s') (op : Operation) (enum : TypeName)
    (provides : s.module.Provides ctx.settings.holder op enum) :
    s'.module.Provides ctx.settings.holder op enum :=
  (asked.grows.named named_of_eq).provides provides

theorem serviced_same (asked : Asked ctx asks s s') (kempt : Kempt ctx desc s.module b)
    (done : st.Done ctx desc s'.module b) (unchanged : changed = false)
    (provided : st.Done ctx desc s.module b →
      ∀ ask ∈ asks, s.module.Provides ctx.settings.holder ask.1 ask.2.name) :
    Serviced ctx desc st s s' b b changed where
  tended := asked.tended
  kempt := kempt.mono asked.more
  done := done
  keeps _ _ done := done.mono asked.more
  idle before := ⟨unchanged, asked.quiet (provided before)⟩

end

namespace Pipeline

variable {method : Token} {w w' : Workpiece} {r : Except Fault Bool}

theorem materialize_serviced (going : Going ctx desc w) (kempt : Kempt ctx desc w.session.module w.body)
    (ran : Strategy.materialize.process ctx method w = (r, w')) :
    Serviced ctx desc .materialize w.session w'.session w.body (kept w.body w' r) (said r) := by
  obtain ⟨asks, s', prepared, asked, wants⟩ := prepare_asked going.tended going.known going.numbered.nodup method
  have run : Strategy.materialize.process ctx method w = (.ok false, { w with session := s' }) := by
    unfold Strategy.process
    simp only [run_bind, Pass.body, Pass.work, prepared]
    rfl
  cases ran.symm.trans run
  refine serviced_same asked kempt (fun ask want => asked.provides ask ((wants ask).2 want)) rfl ?_
  exact fun wanted ask mem => wanted ask ((wants ask).1 mem)

theorem callSites_serviced (going : Going ctx desc w) (kempt : Kempt ctx desc w.session.module w.body)
    (ran : Strategy.callSites.process ctx method w = (r, w')) :
    Serviced ctx desc .callSites w.session w'.session w.body (kept w.body w' r) (said r) := by
  by_cases settled : Settled ctx desc w.session.module w.body
  · obtain ⟨_, _, asks, run, asked, provided, outcome⟩ := run_settled method going settled
    cases ran.symm.trans run
    have same : kept w.body w' r = w.body ∧ said r = false := by
      rcases outcome with ⟨rfl, body⟩ | ⟨e, rfl⟩
      · exact ⟨body, rfl⟩
      · exact ⟨rfl, rfl⟩
    rw [same.1]
    exact serviced_same asked kempt (settled.mono asked.more) same.2 fun _ => provided
  · obtain ⟨_, _, asks, run, asked, outcome⟩ :=
      run_settles method going (kempt.ready.resolve_right settled)
    cases ran.symm.trans run
    rcases outcome with ⟨⟨changed, rfl⟩, carried, silent⟩ | ⟨⟨e, rfl⟩, done⟩
    · refine ⟨asked.tended, ⟨?_, carried.leveled kempt.leveled, .inr (.inl silent)⟩, .inl silent, ?_,
        fun before => absurd before settled⟩
      · exact Strategy.process_valid kempt.valid ran
      · intro st' le _
        cases st' with
        | materialize => exact fun ask want => absurd want (silent.not_wants ask)
        | callSites => exact .inl silent
        | flatten => exact absurd le (by decide)
    · exact serviced_same asked kempt done rfl fun before => absurd before settled

theorem flatten_serviced (going : Going ctx desc w) (kempt : Kempt ctx desc w.session.module w.body)
    (ran : Strategy.flatten.process ctx method w = (r, w')) :
    Serviced ctx desc .flatten w.session w'.session w.body (kept w.body w' r) (said r) := by
  obtain ⟨result, module, generated⟩ := Finally.run_outcome method w
  have run : Finally.run method w = (r, w') := ran
  rw [run] at result module generated
  obtain rfl : r = Finally.outcome w.body := result
  have asked : Asked ctx [] w.session w'.session := asked_same going.tended module generated
  by_cases flattened : Finally.outcome w.body = .ok true
  · rw [flattened] at run ⊢
    have aligns := Finally.run_aligns going.numbered going.linked kempt.valid.fit kempt.leveled run
    have settled (before : Settled ctx desc w.session.module w.body) :
        Settled ctx desc w'.session.module w'.body := by
      rcases before with silent | ⟨asks, sweeps, provided⟩
      · exact .inl (silent.align aligns.along)
      · obtain ⟨asks', sub, sweeps'⟩ := sweeps.step aligns.along .nil aligns.locals
        exact .inr ⟨asks', sweeps', fun ask mem => asked.more _ _ (provided ask (sub mem))⟩
    refine ⟨asked.tended, ⟨Finally.run_valid kempt.valid run, ?_, ?_⟩, ?_, ?_,
      fun before => absurd flattened before⟩
    · intro h boundary
      simp [kept, Body.isBoundary, aligns.bare] at boundary
    · refine kempt.ready.imp (fun answering => answering_iff.2 fun c mem => ?_) settled
      refine aligns.along.answers (fun c mem => ?_) c (List.mem_reverse.2 mem)
      exact answering_iff.1 answering c (List.mem_reverse.1 mem)
    · change Finally.outcome w'.body ≠ .ok true
      rw [Finally.outcome, if_pos (by rw [aligns.bare]; rfl)]
      simp
    · intro st' le before
      cases st' with
      | materialize => exact fun ask want => asked.more _ _ (before ask (want.align aligns.along))
      | callSites => exact settled before
      | flatten => exact absurd flattened before
  · have same : kept w.body w' (Finally.outcome w.body) = w.body ∧ said (Finally.outcome w.body) = false := by
      cases outcome : Finally.outcome w.body with
      | error e => exact ⟨rfl, rfl⟩
      | ok changed =>
        cases changed with
        | false =>
          rw [outcome] at ran
          exact ⟨Strategy.process_false ran, rfl⟩
        | true => exact absurd outcome flattened
    rw [same.1]
    exact serviced_same asked kempt flattened same.2 fun _ _ mem => absurd mem List.not_mem_nil

theorem processChecked_serviced {st : Strategy} (going : Going ctx desc w)
    (kempt : Kempt ctx desc w.session.module w.body) (ran : processChecked ctx st method w = (r, w')) :
    Serviced ctx desc st w.session w'.session w.body (kept w.body w' r) (said r) := by
  have unchecked : st.process ctx method w = (r, w') := by
    rw [← processChecked_valid kempt.valid ctx.settings.verify]
    exact ran
  cases st with
  | materialize => exact materialize_serviced going kempt unchecked
  | callSites => exact callSites_serviced going kempt unchecked
  | flatten => exact flatten_serviced going kempt unchecked

end Pipeline

end CilForge
