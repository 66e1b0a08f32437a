import CilForge.Proofs.CallSite.Cells

/-!
# Changed sites make no new ones

Where no site starts behind a given one, none starts in what is put in its place. A site that took
some of the new lines as its operand expression would start within the operand expression of the old
one, where there are not enough values on the stack for the new call.
-/

namespace CilForge.CallSite

open Body

variable {desc : Sig → Option EnumInfo} {r : Recipe} {F V B : List Instr}

/-! ## Lines that start no site -/

def opens (i : Instr) : Bool :=
  (constant? i).isSome ||
    (i.opcode = .ldtoken || i.opcode = .box || i.opcode = .constrained) && (valueType? i).isSome

theorem opens_of_constant {i : Instr} {w : BitVec 64} (constant : constant? i = some w) :
    opens i = true := by
  simp [opens, constant]

theorem opens_of_value {i : Instr} {e : Sig} (value : valueType? i = some e)
    (opcode : i.opcode = .ldtoken ∨ i.opcode = .box ∨ i.opcode = .constrained) : opens i = true := by
  rcases opcode with opcode | opcode | opcode <;> simp [opens, value, opcode]

theorem Shape.opens (shape : Shape desc r F V B) : ∃ a rest, F = a :: rest ∧ opens a = true := by
  cases shape with
  | getValues token value => exact ⟨_, _, rfl, opens_of_value value (.inl token)⟩
  | underlying token value => exact ⟨_, _, rfl, opens_of_value value (.inl token)⟩
  | definedName token value => exact ⟨_, _, rfl, opens_of_value value (.inl token)⟩
  | definedConstant token value => exact ⟨_, _, rfl, opens_of_value value (.inl token)⟩
  | defined token value => exact ⟨_, _, rfl, opens_of_value value (.inl token)⟩
  | literalText constant => exact ⟨_, _, rfl, opens_of_constant constant⟩
  | literalPair constant => exact ⟨_, _, rfl, opens_of_constant constant⟩
  | boxText boxes value => exact ⟨_, _, rfl, opens_of_value value (.inr (.inl boxes))⟩
  | pair boxes value => exact ⟨_, _, rfl, opens_of_value value (.inr (.inl boxes))⟩
  | constrained opcode value => exact ⟨_, _, rfl, opens_of_value value (.inr (.inr opcode))⟩

theorem Starts.opens {c : Cell} {cs : List Cell} (starts : Starts desc (c :: cs)) :
    opens c.instr = true := by
  obtain ⟨r, F, V, B, join, post, shape, eq⟩ := starts
  obtain ⟨a, rest, rfl, opens⟩ := shape.opens
  obtain ⟨rfl, -⟩ := List.cons.inj eq
  exact opens

/-! ## Operand expressions -/

/-- An instruction that takes values and that a site has in its operand expression only. -/
structure Foreign (z : Instr) : Prop where
  box : z.opcode ≠ .box
  string : z.opcode ≠ .ldstr
  constant : constant? z = none
  unknown : (called? z).any Platform.isKnown = false
  takes : 1 ≤ z.effect.pops

section
variable {z : Instr} (foreign : Foreign z) {test : MethodRef → Bool}
  (known : ∀ m, test m = true → Platform.isKnown m = true)
include foreign known

theorem Foreign.any : (called? z).any test = false := by
  have unknown := foreign.unknown
  cases call : called? z with
  | none => rfl
  | some m =>
    rw [call] at unknown
    exact Bool.eq_false_iff.2 fun yes => Bool.eq_false_iff.1 unknown (known m yes)

theorem Foreign.calls {opcode : Opcode} (call : opcode = .call ∨ opcode = .callvirt) :
    calls z opcode test = false := by
  refine Bool.eq_false_iff.2 fun yes => Bool.eq_false_iff.1 (foreign.any known) ?_
  obtain ⟨rfl, m, method, passes⟩ := calls_iff.1 yes
  have called : called? z = some m := by
    rw [called?, if_pos (by simpa [isCall] using call), method]
  rw [called]
  exact passes

end

theorem Foreign.pair {z : Instr} (foreign : Foreign z) : pairPattern? z = none := by
  have unknown := foreign.unknown
  unfold pairPattern?
  cases call : called? z with
  | none => rfl
  | some m =>
    rw [call] at unknown
    simp only [Option.any_some, Platform.isKnown, Bool.or_eq_false_iff] at unknown
    simp [unknown]

/-- The preparations behind which an operand expression stands. -/
inductive Prepares : List Instr → Prop where
  | box {a : Instr} : a.opcode = .box → Prepares [a]
  | token {a r : Instr} : a.opcode = .ldtoken → calls r .call Platform.isGetTypeFromHandle = true →
    Prepares [a, r]

/-- Whatever is not the operand expression of a site is what the site is made of. -/
theorem Shape.not_foreign (shape : Shape desc r F V B) : ∀ z ∈ F.tail ++ B, ¬ Foreign z := by
  -- the lines of a site are calls that the platform answers, constants and boxes
  have called {z : Instr} {o : Opcode} {test : MethodRef → Bool} (call : o = .call ∨ o = .callvirt)
      (known : ∀ m, test m = true → Platform.isKnown m = true) (yes : calls z o test = true) : ¬ Foreign z :=
    fun foreign => Bool.eq_false_iff.1 (foreign.calls known call) yes
  have getType {z : Instr} (yes : calls z .call Platform.isGetTypeFromHandle = true) : ¬ Foreign z :=
    called (.inl rfl) (fun m yes => by simp [Platform.isKnown, yes]) yes
  have isDefined {z : Instr} (yes : calls z .call Platform.isEnumIsDefined = true) : ¬ Foreign z :=
    called (.inl rfl) (fun m yes => by simp [Platform.isKnown, yes]) yes
  have toString {z : Instr} (yes : calls z .callvirt Platform.isVirtualToString = true) : ¬ Foreign z :=
    called (.inr rfl) (fun m yes => by simp [Platform.isKnown, yes]) yes
  have constant {z : Instr} {w : BitVec 64} (yes : constant? z = some w) : ¬ Foreign z :=
    fun foreign => by
      rw [foreign.constant] at yes
      cases yes
  have box {z : Instr} (boxes : z.opcode = .box) : ¬ Foreign z := fun foreign => foreign.box boxes
  have pair {z : Instr} {p : Pattern} (yes : pairPattern? z = some p) : ¬ Foreign z :=
    fun foreign => by
      rw [foreign.pair] at yes
      cases yes
  cases shape with
  | getValues _ _ resolves values =>
    have call : ¬ Foreign _ := fun foreign => by
      rw [foreign.any fun m yes => by simp [Platform.isKnown, yes]] at values
      cases values
    simpa using ⟨getType resolves, call⟩
  | underlying _ _ _ _ underlying =>
    have call : ¬ Foreign _ := fun foreign => by
      rw [foreign.any fun m yes => by simp [Platform.isKnown, yes]] at underlying
      cases underlying
    simpa using call
  | definedName _ _ resolves string _ test =>
    have name : ¬ Foreign _ := fun foreign => foreign.string string
    simpa using ⟨getType resolves, name, isDefined test⟩
  | definedConstant _ _ resolves literal boxes _ test =>
    simpa using ⟨getType resolves, constant literal, box boxes, isDefined test⟩
  | defined _ _ resolves _ _ _ _ boxes _ test =>
    simpa using ⟨getType resolves, box boxes, isDefined test⟩
  | literalText _ boxes _ text => simpa using ⟨box boxes, toString text⟩
  | literalPair _ boxes _ literal boxes' pattern =>
    simp only [Instr.isTyped, Bool.and_eq_true, decide_eq_true_eq] at boxes'
    simpa using ⟨box boxes, constant literal, box boxes'.1, pair pattern⟩
  | boxText _ _ text => simpa using toString text
  | pair _ _ _ _ _ boxes' pattern =>
    simp only [Instr.isTyped, Bool.and_eq_true, decide_eq_true_eq] at boxes'
    simpa using ⟨box boxes'.1, pair pattern⟩
  | constrained _ _ text => simpa using toString text

theorem Shape.operand (shape : Shape desc r F V B) {z : Instr} (foreign : Foreign z) (mem : z ∈ V) :
    Prepares F ∧ Runs 1 1 V 2 := by
  cases shape with
  | underlying _ _ resolves =>
    obtain rfl := List.mem_singleton.1 mem
    rw [foreign.calls (fun m yes => by simp [Platform.isKnown, yes]) (.inl rfl)] at resolves
    cases resolves
  | defined token _ resolves runs => exact ⟨.token token resolves, runs⟩
  | pair boxes _ runs => exact ⟨.box boxes, runs⟩
  | _ => cases mem

/-- A foreign instruction of a site is in its operand expression, and there are values for it. -/
theorem Shape.foreign (shape : Shape desc r F V B) {z : Instr} (foreign : Foreign z) {u w : List Instr}
    (some : u ≠ []) (eq : F ++ V ++ B = u ++ z :: w) :
    ∃ W k, u = F ++ W ∧ Prepares F ∧ Runs 1 1 W k ∧ z.effect.pops + 1 ≤ k := by
  have other := shape.not_foreign
  rw [List.append_assoc] at eq
  rcases List.append_eq_append_iff.1 eq with ⟨W, rfl, behind⟩ | ⟨t, rfl, behind⟩
  · rcases List.append_eq_append_iff.1 behind with ⟨t, -, rfl⟩ | ⟨t, rfl, last⟩
    · exact absurd foreign (other z (by simp))
    · cases t with
      | nil =>
        obtain rfl : z :: w = B := last
        exact absurd foreign (other z (by simp))
      | cons y t =>
        obtain ⟨rfl, -⟩ := List.cons.inj last
        obtain ⟨prepares, runs⟩ := shape.operand foreign (by simp)
        obtain ⟨k, first, second⟩ := runs_append.1 runs
        exact ⟨W, k, rfl, prepares, first, second.2.1⟩
  · obtain ⟨a, u, rfl⟩ := List.exists_cons_of_ne_nil some
    cases t with
    | nil =>
      cases V with
      | nil =>
        obtain rfl : z :: w = B := behind
        exact absurd foreign (other z (by simp))
      | cons y V =>
        obtain ⟨rfl, -⟩ := List.cons.inj behind
        obtain ⟨prepares, runs⟩ := shape.operand foreign (by simp)
        exact ⟨[], 1, by simp, by simpa using prepares, rfl, runs.2.1⟩
    | cons y t =>
      obtain ⟨rfl, -⟩ := List.cons.inj behind
      exact absurd foreign (other z (by simp))

/-- A call of `GetTypeFromHandle` leaves its result on the stack. -/
def Answers (i : Instr) : Prop :=
  calls i .call Platform.isGetTypeFromHandle = true → i.effect.pushes = 1

/-- Behind preparations in an operand expression there is a value more than the lowest one. -/
theorem Prepares.raises (prepares : Prepares F) (answers : ∀ i ∈ F, Answers i) {d e : Nat}
    (runs : Runs 1 d F e) : 2 ≤ e := by
  cases prepares with
  | box boxes =>
    obtain ⟨pops, pushes⟩ := effect_box boxes
    obtain ⟨-, enough, rfl⟩ := runs
    unfold depthAfter
    omega
  | @token a r token resolves =>
    have pushes := answers r (by simp) resolves
    obtain ⟨-, -, -, enough, rfl⟩ := runs
    unfold depthAfter at *
    omega

/-- No site that starts within an operand expression goes on with a foreign instruction. -/
theorem Shape.ends_before (shape : Shape desc r F V B) {V₁ V₂ O : List Instr} (runs : Runs 1 1 O 2)
    (answers : ∀ i ∈ O, Answers i) (eq : O = V₁ ++ V₂) (some : V₂ ≠ []) {z : Instr}
    (foreign : Foreign z) {w : List Instr} : F ++ V ++ B ≠ V₂ ++ z :: w := by
  intro whole
  obtain ⟨W, k, rfl, prepares, second, enough⟩ := shape.foreign foreign some whole
  subst eq
  obtain ⟨d, -, runs⟩ := runs_append.1 runs
  obtain ⟨e, front, rest⟩ := runs_append.1 runs
  have := prepares.raises (fun i mem => answers i (by simp [mem])) front
  have := rest.distance second
  have := foreign.takes
  omega

/-! ## New lines -/

namespace Recipe

def operation? (r : Recipe) : Option Operation :=
  match r.plan with
  | .redirect op => some op
  | .constrained => some .toString
  | _ => none

def stub (r : Recipe) : MethodRef := ⟨⟨"", ""⟩, "", (r.operation?.getD .toString).sig r.info.sig⟩

def newFront (r : Recipe) : List Instr := (r.plan.front r.info).map Instr.seen

def newBack (r : Recipe) : List Instr := (r.plan.back r.stub 0).map Instr.seen

/-- A reference that the new lines can call. -/
def Fits (r : Recipe) (ref : MethodRef) : Prop :=
  ∀ op, r.operation? = some op → Platform.isKnown ref = false ∧ ref.sig = op.sig r.info.sig

theorem back_seen {ref : MethodRef} (fits : r.Fits ref) (temp : Nat) :
    (r.plan.back ref temp).map Instr.seen = r.newBack := by
  have stub {op : Operation} (eq : r.operation? = some op) :
      (Instr.call .call ref).seen = (Instr.call .call r.stub).seen := by
    obtain ⟨unknown, sig⟩ := fits op eq
    simp [Instr.seen, Instr.call, Operand.seen, MethodRef.seen, unknown, Recipe.stub, eq, sig,
      Platform.isKnown_stub]
  unfold newBack
  unfold operation? at stub
  cases plan : r.plan with
  | redirect op => simp [Plan.back, stub, plan]
  | constrained => simp [Plan.back, stub, plan]
  | _ => rfl

end Recipe

theorem valueType?_primitive (k : IntKind) (o : Opcode) : valueType? (.typed o k.sig) = none := by
  cases k <;> rfl

theorem foreign_call {m : MethodRef} (unknown : Platform.isKnown m = false)
    (takes : 1 ≤ m.sig.popCount % 256) : Foreign (Instr.call .call m).seen := by
  have called : called? (Instr.call .call m) = some m := rfl
  refine ⟨nofun, nofun, rfl, ?_, ?_⟩
  · rw [any_called?_seen _ fun m => ?_, called]
    · exact unknown
    · exact Platform.seen_of_known m fun _ yes => yes
  · rw [Instr.effect_seen, (effect_of_called called).1]
    exact takes

theorem not_opens {i : Instr} (opcode : i.opcode ∉ [.ldcI4, .ldcI8, .ldtoken, .box, .constrained]) :
    opens i = false := by
  simp only [List.mem_cons, List.not_mem_nil, or_false, not_or] at opcode
  obtain ⟨short, long, token, box, constrained⟩ := opcode
  have none : constant? i = none := by
    rw [Option.eq_none_iff_forall_ne_some]
    intro w constant
    exact (opcode_of_constant constant).elim short long
  simp [opens, none, token, box, constrained]

theorem Recipe.newBack_closed : ∀ i ∈ r.newBack, opens i = false := by
  intro i mem
  have opcode : i.opcode ∈ [Opcode.call, .stloc, .ldloc, .and, .ceq] := by
    unfold newBack at mem
    cases plan : r.plan with
    | fold => simp [plan, Plan.back] at mem
    | underlying => simp [plan, Plan.back] at mem
    | redirect | constrained =>
      simp only [plan, Plan.back, List.map_cons, List.map_nil, List.mem_singleton] at mem
      rw [mem]
      exact List.mem_cons_self
    | hasFlag =>
      simp only [plan, Plan.back, List.map_cons, List.map_nil, List.mem_cons, List.not_mem_nil, or_false]
        at mem
      rcases mem with rfl | rfl | rfl | rfl | rfl <;> decide
  refine not_opens ?_
  generalize i.opcode = o at opcode
  revert o
  decide

/-- What stands in the place of a site: a constant, lines none of which starts a site, or the operand
expression with foreign lines behind. -/
theorem Shape.renewed (shape : Shape desc r F V B) :
    (∃ x, r.newFront = [x] ∧ V = [] ∧ r.newBack = [] ∧
      (CallSite.opens x = true → (constant? x).isSome = true)) ∨
    (∀ i ∈ r.newFront ++ V, CallSite.opens i = false) ∨
    (r.newFront = [] ∧ Runs 1 1 V 2 ∧ Prepares F ∧ ∃ z Z, r.newBack = z :: Z ∧ Foreign z) := by
  cases shape with
  | getValues => exact .inr (.inl (List.forall_mem_nil _))
  | @underlying a r c e d token value resolves =>
    refine .inr (.inl ?_)
    have resolve : CallSite.opens r = false := not_opens (by rw [(calls_iff.1 resolves).1]; decide)
    have token : CallSite.opens (Instr.typed .ldtoken d.kind.sig).seen = false := by
      simp [CallSite.opens, valueType?_primitive]
      rfl
    simpa [Recipe.newFront, Plan.front] using ⟨token, resolve⟩
  | definedName => exact .inl ⟨_, rfl, rfl, rfl, fun _ => rfl⟩
  | definedConstant => exact .inl ⟨_, rfl, rfl, rfl, fun _ => rfl⟩
  | defined token _ resolves runs =>
    exact .inr (.inr ⟨rfl, runs, .token token resolves, _, _, rfl,
      foreign_call (Platform.isKnown_stub _) (Nat.le_refl 1)⟩)
  | literalText => exact .inl ⟨_, rfl, rfl, rfl, nofun⟩
  | literalPair => exact .inl ⟨_, rfl, rfl, rfl, fun _ => rfl⟩
  | boxText => exact .inr (.inl (List.forall_mem_nil _))
  | @pair a s c e d p V boxes _ runs =>
    refine .inr (.inr ?_)
    by_cases flag : p = .hasFlag
    · simp only [flag, if_true]
      exact ⟨rfl, runs, .box boxes, _, _, rfl, nofun, nofun, rfl, rfl, Nat.le_refl 1⟩
    · simp only [flag, if_false]
      exact ⟨rfl, runs, .box boxes, _, _, rfl, foreign_call (Platform.isKnown_stub _) (Nat.le_succ 1)⟩
  | constrained =>
    refine .inr (.inl ?_)
    simp [Recipe.newFront, Plan.front, not_opens, Instr.typed]

/-! ## Cells in which no site starts -/

def Silent (desc : Sig → Option EnumInfo) (cs : List Cell) : Prop :=
  ∀ u v, cs = u ++ v → ¬ Starts desc v

/-- No site starts in `post`, but for a box whose constant, the last of the cells before, has a site
of its own. The cells before are listed from the last one on. -/
def Quiet (desc : Sig → Option EnumInfo) (before post : List Cell) : Prop :=
  ∀ u v, post = u ++ v → Starts desc v → u = [] ∧ ∃ k rest, before = k :: rest ∧
    (constant? k.instr).isSome = true ∧ Starts desc (k :: post)

theorem Silent.quiet {post : List Cell} (silent : Silent desc post) (before : List Cell) :
    Quiet desc before post :=
  fun u v eq starts => absurd starts (silent u v eq)

theorem silent_nil : Silent desc [] := by
  rintro u v eq ⟨r, F, V, B, join, post, shape, eq'⟩
  obtain ⟨rfl, rfl⟩ := List.append_eq_nil_iff.1 eq.symm
  obtain ⟨a, rest, rfl, -⟩ := shape.opens
  cases eq'

/-- A site that starts with a constant goes on with a box that starts a site. -/
theorem Starts.behind {c : Cell} {cs : List Cell} (starts : Starts desc (c :: cs))
    (constant : (constant? c.instr).isSome = true) : Starts desc cs := by
  obtain ⟨r, F, V, B, join, post, shape, eq⟩ := starts
  obtain ⟨w, constant⟩ := Option.isSome_iff_exists.1 constant
  have opcode := opcode_of_constant constant
  cases shape with
  | literalText _ boxes value text known =>
    obtain ⟨rfl, rfl⟩ := List.cons.inj eq
    exact ⟨_, _, _, _, false, post, .boxText boxes value text known, rfl⟩
  | @literalPair a b k s c e d v w p _ boxes value constant' boxes' pattern known =>
    obtain ⟨rfl, rfl⟩ := List.cons.inj eq
    have runs : Runs 1 1 [k] 2 := by
      obtain ⟨pops, pushes⟩ := effect_constant constant'
      exact ⟨straight_of_constant constant', by omega, by simp [Runs, depthAfter, pops, pushes]⟩
    refine ⟨_, _, _, _, false, post, .pair boxes value runs (Nat.le_of_ble_eq_true rfl) ?_ boxes' pattern known, rfl⟩
    intro V₁ x y V₂ split
    have := congrArg List.length split
    simp at this
    omega
  | getValues token | underlying token | definedName token | definedConstant token | defined token =>
    obtain ⟨rfl, -⟩ := List.cons.inj eq
    rcases opcode with opcode | opcode <;> cases token.symm.trans opcode
  | boxText boxes | pair boxes | constrained boxes =>
    obtain ⟨rfl, -⟩ := List.cons.inj eq
    rcases opcode with opcode | opcode <;> cases boxes.symm.trans opcode

theorem Shape.back_ne_nil (shape : Shape desc r F V B) : B ≠ [] := by
  cases shape <;> exact List.cons_ne_nil _ _

theorem Prepares.constant {a : Instr} (prepares : Prepares (a :: F)) : constant? a = none := by
  rw [Option.eq_none_iff_forall_ne_some]
  intro w constant
  have opcode : a.opcode = .box ∨ a.opcode = .ldtoken := by
    cases prepares with
    | box boxes => exact .inl boxes
    | token token => exact .inr token
  rcases opcode_of_constant constant with other | other <;> rw [other] at opcode <;> simp at opcode

section
variable {before post : List Cell} {join : Bool} {a : Instr}

/-- No site starts within a site that does not start with a constant. -/
theorem Quiet.silent {rest : List Cell} (quiet : Quiet desc (⟨a, join⟩ :: before) rest)
    (other : constant? a = none) : Silent desc rest := by
  intro u v eq starts
  obtain ⟨-, k, before', last, constant, -⟩ := quiet u v eq starts
  cases last
  simp [other] at constant

theorem Quiet.behind {u v : List Cell} (quiet : Quiet desc before (u ++ v)) (some : u ≠ []) :
    Silent desc v := by
  rintro u' v' rfl starts
  obtain ⟨none, -⟩ := quiet (u ++ u') v' (List.append_assoc ..).symm starts
  exact some (List.append_eq_nil_iff.1 none).1

theorem stretch_eq_append {is : List Instr} {u : List Cell} {c : Cell} {v : List Cell}
    (eq : stretch join is = u ++ c :: v) :
    ∃ is' is'', is = is' ++ c.instr :: is'' ∧ v = is''.map (⟨·, false⟩) := by
  cases is with
  | nil => simp [stretch] at eq
  | cons i is =>
    cases u with
    | nil =>
      obtain ⟨rfl, rfl⟩ := List.cons.inj eq
      exact ⟨[], is, rfl, rfl⟩
    | cons d u =>
      obtain ⟨-, eq⟩ := List.cons.inj eq
      obtain ⟨is', is'', rfl, rfl, split⟩ := List.map_eq_append_iff.1 eq
      obtain ⟨x, is'', rfl, rfl, rfl⟩ := List.map_eq_cons_iff.1 split
      exact ⟨i :: is', is'', rfl, rfl⟩

/-- A site that starts within an operand expression is there whatever stands behind it. -/
theorem Starts.within {x z : Instr} {V₁ V₂ Z Z' : List Instr} {post' : List Cell} {j : Bool}
    (starts : Starts desc (⟨x, j⟩ :: (V₂ ++ z :: Z).map (⟨·, false⟩) ++ post))
    (runs : Runs 1 1 (V₁ ++ x :: V₂) 2) (answers : ∀ i ∈ V₁ ++ x :: V₂, Answers i) (foreign : Foreign z) :
    Starts desc (⟨x, false⟩ :: (V₂ ++ Z').map (⟨·, false⟩) ++ post') := by
  obtain ⟨r, F, V, B, k, rest, shape, eq⟩ := starts
  have instrs : x :: V₂ ++ (z :: Z ++ post.map (·.instr)) = F ++ V ++ B ++ rest.map (·.instr) := by
    have := congrArg (List.map (·.instr)) eq
    simpa [instrs_stretch, Function.comp_def] using this
  have inside {t : List Instr} (split : x :: V₂ = F ++ V ++ B ++ t) :
      Starts desc (⟨x, false⟩ :: (V₂ ++ Z').map (⟨·, false⟩) ++ post') := by
    obtain ⟨a, F', rfl, -⟩ := shape.opens
    obtain ⟨rfl, rfl⟩ := List.cons.inj split
    exact ⟨r, _, V, B, false, (t ++ Z').map (⟨·, false⟩) ++ post', shape, by simp [stretch]⟩
  rcases List.append_eq_append_iff.1 instrs with ⟨t, split, last⟩ | ⟨t, split, -⟩
  · cases t with
    | nil => exact inside (t := []) (by simp [split])
    | cons y t =>
      obtain ⟨rfl, -⟩ := List.cons.inj last
      exact absurd split (shape.ends_before runs answers rfl (List.cons_ne_nil _ _) foreign)
  · exact inside split

/-- Where no site starts behind a site, none starts in what is put in its place. -/
theorem Shape.silent (shape : Shape desc r (a :: F) V B) (answers : ∀ i ∈ V, Answers i)
    (quiet : Quiet desc (⟨a, join⟩ :: before) ((F ++ V ++ B).map (⟨·, false⟩) ++ post)) :
    Silent desc (stretch join (r.newFront ++ V ++ r.newBack) ++ post) := by
  have behind : Silent desc post := by
    refine quiet.behind fun none => shape.back_ne_nil ?_
    exact (List.append_eq_nil_iff.1 (List.map_eq_nil_iff.1 none)).2
  intro u v eq starts
  rcases List.append_eq_append_iff.1 eq with ⟨w, -, rfl⟩ | ⟨n, new, rfl⟩
  · exact behind w v rfl starts
  cases n with
  | nil => exact behind [] post rfl starts
  | cons c n =>
    obtain ⟨is, is', split, rfl⟩ := stretch_eq_append new
    have opens := starts.opens
    rcases shape.renewed with ⟨x, front, rfl, back, constant⟩ | closed | ⟨front, runs, prepares, z, Z, back, foreign⟩
    · -- the constant would go with a box behind it, which starts a site of its own
      rw [front, back] at split
      obtain ⟨rfl, rfl⟩ : is = [] ∧ is' = [] := by
        have := congrArg List.length split
        simp at this
        exact ⟨List.eq_nil_of_length_eq_zero (by omega), List.eq_nil_of_length_eq_zero (by omega)⟩
      obtain ⟨rfl, -⟩ := List.cons.inj split
      exact behind [] post rfl (starts.behind (constant opens))
    · -- none of the lines starts a site
      have mem : c.instr ∈ r.newFront ++ V ++ r.newBack := by simp [split]
      rw [List.mem_append] at mem
      rw [mem.elim (closed c.instr) (r.newBack_closed c.instr)] at opens
      cases opens
    · -- the site starts in the operand expression and was there before
      rw [front, back, List.nil_append] at split
      rcases List.append_eq_append_iff.1 split with ⟨t, -, last⟩ | ⟨t, rfl, last⟩
      · rw [r.newBack_closed c.instr (by simp [back, last])] at opens
        cases opens
      · cases t with
        | nil =>
          rw [r.newBack_closed c.instr (by simp [back, (List.cons.inj last).1])] at opens
          cases opens
        | cons x V₂ =>
          obtain ⟨rfl, rfl⟩ := List.cons.inj last
          refine quiet.silent prepares.constant (F.map (⟨·, false⟩) ++ is.map (⟨·, false⟩))
            (⟨c.instr, false⟩ :: (V₂ ++ B).map (⟨·, false⟩) ++ post) (by simp) ?_
          exact starts.within runs answers foreign

end

end CilForge.CallSite
