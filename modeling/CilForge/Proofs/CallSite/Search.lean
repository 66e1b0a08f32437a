import CilForge.Proofs.Body.Linked
import CilForge.Proofs.CallSite.Shape

/-!
# Searching for call sites

The search at an instruction finds the sites that stand there, and nothing else: what it finds has
one of the shapes (`search_some`), and each shape is found (`search_of_stands`).
-/

namespace CilForge.CallSite

open Body (get?_of_append split_unique)

/-! ## Searching -/

section
variable {α β : Type}

theorem run_search_bind {x : Search α} {k : α → Search β} {r : β} :
    (x >>= k).run = .ok (some r) ↔ ∃ a, x.run = .ok (some a) ∧ (k a).run = .ok (some r) := by
  change (Except.bind x.run _ : Except Fault (Option β)) = _ ↔ _
  cases x.run with
  | error e => simp [Except.bind]
  | ok o =>
    cases o with
    | none => simp [Except.bind, pure, Except.pure]
    | some a =>
      simp only [Except.bind, Except.ok.injEq, Option.some.injEq, exists_eq_left']
      exact Iff.rfl

theorem run_ofOption {o : Option α} {a : α} :
    (Search.ofOption o).run = .ok (some a) ↔ o = some a := by
  simp [Search.ofOption, OptionT.run, OptionT.mk, pure, Except.pure]

theorem run_ofExcept {e : Except Fault α} {a : α} :
    (Search.ofExcept e).run = .ok (some a) ↔ e = .ok a := by
  change (Except.bind e fun a => .ok (some a)) = _ ↔ _
  cases e <;> simp [Except.bind]

theorem run_search_pure {a r : α} : (pure a : Search α).run = .ok (some r) ↔ a = r := by
  simp [OptionT.run, pure, OptionT.pure, OptionT.mk, Except.pure]

theorem run_failure {k : α → Search β} {r : β} : (failure >>= k).run ≠ .ok (some r) := by
  rw [Ne, run_search_bind]
  rintro ⟨a, failed, -⟩
  cases failed

theorem run_refuse {cause : Unsupported} {k : α → Search β} {r : β} :
    (Search.refuse cause >>= k).run ≠ .ok (some r) := by
  rw [Ne, run_search_bind]
  rintro ⟨a, refused, -⟩
  cases refused

theorem run_guard {c : Prop} [Decidable c] {x y : Search α} {r : α}
    (refused : x.run ≠ .ok (some r)) :
    (if c then x else y).run = .ok (some r) ↔ ¬ c ∧ y.run = .ok (some r) := by
  by_cases h : c
  · simp [h, refused]
  · simp [h]

end

section
variable {b : Body}

theorem follow?_iff (nodup : b.handles.Nodup) {pre rest : Lines} {h n : Handle} {x i : Instr}
    (code : b.code = pre ++ (h, x) :: rest) :
    follow? b h = some (n, i) ↔ ∃ rest', rest = (n, i) :: rest' ∧ isJoin b n = false := by
  unfold follow?
  rw [Body.next?_of_append nodup code]
  cases rest with
  | nil => simp
  | cons p rest =>
    obtain ⟨n', i'⟩ := p
    have code' : b.code = (pre ++ [(h, x)]) ++ (n', i') :: rest := by rw [code, List.append_assoc]; rfl
    have got : b.get? n' = some i' := get?_of_append nodup code'
    cases join : isJoin b n' with
    | true => simp [join]; grind
    | false => simp [join, got]; grind

/-! ## Walking -/

/-- The line `c` at which a walk over `V` ends, with `e` values on the stack: the first one at which to
stop, of lines that control only passes through. -/
structure Trail (b : Body) (floor : Nat) (stop : Handle → Instr → Nat → Bool) (d : Nat) (V : Lines)
    (c : Handle) (x : Instr) (e : Nat) : Prop where
  alone : Alone b (V ++ [(c, x)])
  runs : Runs floor d (sight V) e
  here : stop c x e = true
  first : ∀ V₁ y V₂ k, V = V₁ ++ y :: V₂ → Runs floor d (sight V₁) k → stop y.1 y.2 k = false

/-- The line `c` at which a walk over `V` ends: the first one at which the test says yes with `goal`
values on the stack. -/
structure Walked (b : Body) (floor goal : Nat) (test : Handle → Instr → Bool) (d : Nat) (V : Lines)
    (c : Handle) (x : Instr) : Prop where
  alone : Alone b (V ++ [(c, x)])
  runs : Runs floor d (sight V) goal
  here : test c x = true
  first : ∀ V₁ y V₂, V = V₁ ++ y :: V₂ → Runs floor d (sight V₁) goal → test y.1 y.2 = false

variable {floor goal : Nat} {q : Handle → Instr → Bool} {stop : Handle → Instr → Nat → Bool} {c : Handle}

theorem trail_of_walkFrom (nodup : b.handles.Nodup) : ∀ {fuel d : Nat} {pre lines : Lines} {h : Handle}
    {i : Instr}, b.code = pre ++ (h, i) :: lines → walkFrom b floor stop fuel h d = some c →
    ∃ V x rest e, (h, i) :: lines = V ++ (c, x) :: rest ∧ V.length < fuel ∧ Trail b floor stop d V c x e
  | 0, _, _, _, _, _, _, found => nomatch found
  | fuel + 1, d, pre, lines, h, i, code, found => by
    rw [walkFrom, get?_of_append nodup code] at found
    simp only [Option.bind_eq_bind, Option.bind_some] at found
    split at found
    · cases found
    rename_i join
    have join := Bool.eq_false_iff.2 join
    split at found
    · rename_i stops
      cases found
      exact ⟨[], i, lines, d, rfl, Nat.succ_pos _, by simpa [Alone] using join, rfl, stops, by simp⟩
    rename_i goes
    split at found
    · cases found
    rename_i straight
    split at found
    · cases found
    rename_i enough
    obtain ⟨next, behind, found⟩ := Option.bind_eq_some_iff.1 found
    rw [Body.next?_of_append nodup code] at behind
    cases lines with
    | nil => cases behind
    | cons p lines =>
      cases behind
      have code' : b.code = (pre ++ [(h, i)]) ++ p :: lines := by simpa using code
      obtain ⟨V, x, rest, e, eq, short, alone, runs, here, first⟩ := trail_of_walkFrom nodup code' found
      refine ⟨(h, i) :: V, x, rest, e, by rw [eq]; rfl, Nat.succ_lt_succ short, ?_, ?_, here, ?_⟩
      · exact List.forall_mem_cons.2 ⟨join, alone⟩
      · refine runs_sight.2 ⟨?_, by omega, runs⟩
        simpa [Instr.straight, or_iff_not_imp_left] using straight
      · intro V₁ y V₂ k eq' reached
        cases V₁ with
        | nil =>
          cases eq'
          obtain rfl : d = k := reached
          exact Bool.eq_false_iff.2 goes
        | cons q V₁ =>
          cases eq'
          exact first V₁ y V₂ k rfl (runs_sight.1 reached).2.2

theorem walkFrom_of_trail (nodup : b.handles.Nodup) {x : Instr} {rest : Lines} {e : Nat} : ∀ {V pre : Lines}
    {fuel d : Nat}, b.code = pre ++ V ++ (c, x) :: rest → V.length < fuel → Trail b floor stop d V c x e →
    walkFrom b floor stop fuel ((V.head?.map (·.1)).getD c) d = some c
  | [], pre, fuel + 1, d, code, short, trail => by
    rw [List.append_nil] at code
    have join := trail.alone (c, x) (by simp)
    obtain rfl : d = e := trail.runs
    simp [walkFrom, get?_of_append nodup code, join, trail.here]
  | (h, i) :: V, pre, fuel + 1, d, code, short, trail => by
    obtain ⟨straight, enough, runs⟩ := runs_sight.1 trail.runs
    have join := trail.alone (h, i) (by simp)
    rw [List.append_assoc, List.cons_append] at code
    have next := Body.next?_of_append nodup code
    have on : ((V ++ (c, x) :: rest).head?.map (·.1)) = some ((V.head?.map (·.1)).getD c) := by
      cases V <;> rfl
    have goes : stop h i d = false := trail.first [] (h, i) V d rfl rfl
    have tail : Trail b floor stop (Body.depthAfter i d) V c x e := by
      refine ⟨fun p mem => trail.alone p (List.mem_cons_of_mem _ mem), runs, trail.here, ?_⟩
      intro V₁ y V₂ k eq reached
      exact trail.first ((h, i) :: V₁) y V₂ k (by rw [eq]; rfl) (runs_sight.2 ⟨straight, enough, reached⟩)
    have code' : b.code = (pre ++ [(h, i)]) ++ V ++ (c, x) :: rest := by simpa using code
    have further := walkFrom_of_trail nodup code' (Nat.lt_of_succ_lt_succ short) tail
    simp only [List.head?_cons, Option.map_some, Option.getD_some]
    rw [walkFrom, get?_of_append nodup code, next, on]
    simp only [Option.bind_eq_bind, Option.bind_some, join, goes]
    have flow : (decide (i.opcode.flow ≠ .sequential) && decide (i.opcode.flow ≠ .call)) = false := by
      simpa [Instr.straight, or_iff_not_imp_left] using straight
    rw [if_neg nofun, if_neg nofun, if_neg (by rw [flow]; nofun), if_neg (by omega)]
    exact further

theorem trail_of_walked {d : Nat} {V : Lines} {x : Instr} (walked : Walked b floor goal q d V c x) :
    Trail b floor (fun h i depth => depth = goal && q h i) d V c x goal := by
  refine ⟨walked.alone, walked.runs, by simp [walked.here], fun V₁ y V₂ k eq reached => ?_⟩
  by_cases same : k = goal
  · subst same
    simp [walked.first V₁ y V₂ eq reached]
  · simp [same]

theorem walked_of_trail {d e : Nat} {V : Lines} {x : Instr}
    (trail : Trail b floor (fun h i depth => depth = goal && q h i) d V c x e) : Walked b floor goal q d V c x := by
  have here := trail.here
  rw [Bool.and_eq_true, decide_eq_true_eq] at here
  obtain ⟨rfl, test⟩ := here
  refine ⟨trail.alone, trail.runs, test, fun V₁ y V₂ eq reached => ?_⟩
  simpa using trail.first V₁ y V₂ _ eq reached

theorem walkFrom_some (nodup : b.handles.Nodup) {fuel d : Nat} {pre lines : Lines} {h : Handle} {i : Instr}
    (code : b.code = pre ++ (h, i) :: lines)
    (found : walkFrom b floor (fun h i depth => depth = goal && q h i) fuel h d = some c) :
    ∃ V x rest, (h, i) :: lines = V ++ (c, x) :: rest ∧ V.length < fuel ∧ Walked b floor goal q d V c x := by
  obtain ⟨V, x, rest, e, eq, short, trail⟩ := trail_of_walkFrom nodup code found
  exact ⟨V, x, rest, eq, short, walked_of_trail trail⟩

theorem walkFrom_of_walked (nodup : b.handles.Nodup) {x : Instr} {rest V pre : Lines} {fuel d : Nat}
    (code : b.code = pre ++ V ++ (c, x) :: rest) (short : V.length < fuel)
    (walked : Walked b floor goal q d V c x) :
    walkFrom b floor (fun h i depth => depth = goal && q h i) fuel ((V.head?.map (·.1)).getD c) d = some c :=
  walkFrom_of_trail nodup code short (trail_of_walked walked)

end

/-! ## Sites that are found -/

variable {ctx : Context} {m : ModuleDef} {b : Body}

theorem run_describe {e : Sig} {d : EnumInfo} :
    (describe ctx m e).run = .ok (some d) ↔ known ctx m e = some d := by
  rw [describe, run_ofExcept, known]
  cases EnumInfo.ofSig ctx.library m e <;> simp [Except.toOption]

section
variable {A : Handle} {a : Instr} {pre rest : Lines} {s : Site} (nodup : b.handles.Nodup)
  (code : b.code = pre ++ (A, a) :: rest)
include nodup code

theorem matchConstrained_some (opcode : a.opcode = .constrained)
    (found : (matchConstrained ctx m b A).run = .ok (some s)) :
    StandsAt (known ctx m) b pre ((A, a) :: rest) s := by
  simp only [matchConstrained, run_search_bind, run_ofOption, Prod.exists, get?_of_append nodup code,
    Option.bind_some, run_guard run_failure, run_describe, run_search_pure] at found
  obtain ⟨e, value, C, c, after, named, d, desc, rfl⟩ := found
  obtain ⟨rest', rfl, alone⟩ := (follow?_iff nodup code).1 after
  refine ⟨⟨.constrainedToString, d, .constrained⟩, [(A, a)], [], [(C, c)], rest',
    ⟨code, by simpa [Alone] using alone, ?_⟩, rfl, rfl⟩
  refine .constrained opcode (by simpa using value) ?_ desc
  rw [calls_seen c _ Platform.isVirtualToString_seen]
  simpa using named

theorem matchLiteral_some (found : (matchLiteral ctx m b A).run = .ok (some s)) :
    StandsAt (known ctx m) b pre ((A, a) :: rest) s := by
  simp only [matchLiteral, run_search_bind, run_ofOption, Prod.exists, get?_of_append nodup code,
    Option.bind_some, run_guard run_failure] at found
  obtain ⟨v, first, B, box, after, boxes, e, value, N, i, behind, found⟩ := found
  obtain ⟨rest₁, rfl, aloneB⟩ := (follow?_iff nodup code).1 after
  have code₁ : b.code = (pre ++ [(A, a)]) ++ (B, box) :: rest₁ := by simpa using code
  obtain ⟨rest₂, rfl, aloneN⟩ := (follow?_iff nodup code₁).1 behind
  have code₂ : b.code = (pre ++ [(A, a), (B, box)]) ++ (N, i) :: rest₂ := by simpa using code
  rw [not_not] at boxes
  split at found
  · rename_i text
    simp only [run_search_bind, run_describe, run_search_pure] at found
    obtain ⟨d, desc, rfl⟩ := found
    refine ⟨⟨.toString, d, .fold (.ldstr (d.format (.ofWord d.kind v)))⟩, [(A, a), (B, box)], [],
      [(N, i)], rest₂, ⟨code, by simpa [Alone] using ⟨aloneB, aloneN⟩, ?_⟩, rfl, rfl⟩
    refine .literalText (by simpa using first) boxes (by simpa using value) ?_ desc
    rwa [calls_seen i _ Platform.isVirtualToString_seen]
  · simp only [run_search_bind, run_ofOption, Prod.exists, run_guard run_failure, run_describe,
      run_search_pure] at found
    obtain ⟨w, second, S, box', after', boxes', C, c, behind', p, pattern, d, desc, rfl⟩ := found
    obtain ⟨rest₃, rfl, aloneS⟩ := (follow?_iff nodup code₂).1 after'
    have code₃ : b.code = (pre ++ [(A, a), (B, box), (N, i)]) ++ (S, box') :: rest₃ := by
      simpa using code
    obtain ⟨rest₄, rfl, aloneC⟩ := (follow?_iff nodup code₃).1 behind'
    refine ⟨⟨p, d, .fold (loadBool (if p = .hasFlag then
        decide (EnumValue.ofWord d.kind v &&& .ofWord d.kind w = .ofWord d.kind w)
      else decide (EnumValue.ofWord d.kind v = .ofWord d.kind w)))⟩,
      [(A, a), (B, box), (N, i), (S, box')], [], [(C, c)], rest₄,
      ⟨code, by simpa [Alone] using ⟨aloneB, aloneN, aloneS, aloneC⟩, ?_⟩, rfl, rfl⟩
    exact .literalPair (by simpa using first) boxes (by simpa using value) (by simpa using second)
      (by simpa using boxes') (by simpa using pattern) desc

theorem secondBox?_iff {e : Sig} {p : Pattern} : secondBox? b e A a = some p ↔
    a.isTyped .box e = true ∧ ∃ C c rest', rest = (C, c) :: rest' ∧ isJoin b C = false ∧
      pairPattern? c = some p := by
  unfold secondBox?
  split
  · rename_i boxes
    simp only [Option.bind_eq_some_iff, Prod.exists, follow?_iff nodup code, boxes, true_and]
    constructor
    · rintro ⟨C, c, ⟨rest', rfl, alone⟩, pattern⟩
      exact ⟨C, c, rest', rfl, alone, pattern⟩
    · rintro ⟨C, c, rest', rfl, alone, pattern⟩
      exact ⟨C, c, ⟨rest', rfl, alone⟩, pattern⟩
  · rename_i other
    simp [other]

theorem matchBox_some (opcode : a.opcode = .box)
    (found : (matchBox ctx m b A).run = .ok (some s)) :
    StandsAt (known ctx m) b pre ((A, a) :: rest) s := by
  simp only [matchBox, run_search_bind, run_ofOption, Prod.exists, get?_of_append nodup code,
    Option.some.injEq, exists_eq_left'] at found
  obtain ⟨e, value, N, i, after, found⟩ := found
  obtain ⟨rest₁, rfl, aloneN⟩ := (follow?_iff nodup code).1 after
  have code₁ : b.code = (pre ++ [(A, a)]) ++ (N, i) :: rest₁ := by simpa using code
  split at found
  · rename_i text
    simp only [run_search_bind, run_describe, run_search_pure] at found
    obtain ⟨d, desc, rfl⟩ := found
    refine ⟨⟨.toString, d, .redirect .toString⟩, [(A, a)], [], [(N, i)], rest₁,
      ⟨code, by simpa [Alone] using aloneN, ?_⟩, rfl, rfl⟩
    refine .boxText opcode (by simpa using value) ?_ desc
    rwa [calls_seen i _ Platform.isVirtualToString_seen]
  · simp only [run_search_bind, run_ofOption] at found
    obtain ⟨S, walked, box, here, p, second, C, behind, found⟩ := found
    obtain ⟨V, box', rest₂, split, short, alone, runs, -, first⟩ :=
      walkFrom_some (q := fun h i => (secondBox? b e h i).isSome) nodup code₁ walked
    have code₂ : b.code = (pre ++ (A, a) :: V) ++ (S, box') :: rest₂ := by
      rw [code₁, split]
      simp
    rw [get?_of_append nodup code₂] at here
    cases here
    obtain ⟨boxes, C', c, rest₃, rfl, aloneC, pattern⟩ := (secondBox?_iff nodup code₂).1 second
    rw [Body.next?_of_append nodup code₂] at behind
    cases behind
    rw [show (N, i) :: rest₁ = V ++ [(S, box), (C', c)] ++ rest₃ by rw [split]; simp]
    have shape {d : EnumInfo} (desc : known ctx m e = some d) : Shape (known ctx m)
        ⟨p, d, if p = .hasFlag then .hasFlag else .redirect .equals⟩ (sight [(A, a)]) (sight V)
        (sight [(S, box), (C', c)]) := by
      refine .pair opcode (by simpa using value) runs (by simpa [sight] using short) ?_
        (by simpa using boxes) (by simpa using pattern) desc
      intro V₁ x y V₂ eq reached typed
      -- the second box of the walk is the first one
      obtain ⟨L₁, L₂, rfl, rfl, eq₁⟩ := List.map_eq_append_iff.1 eq
      obtain ⟨⟨X, x⟩, L₃, rfl, rfl, eq₂⟩ := List.map_eq_cons_iff.1 eq₁
      obtain ⟨⟨Y, y⟩, L₄, rfl, rfl, -⟩ := List.map_eq_cons_iff.1 eq₂
      have codeX : b.code = (pre ++ (A, a) :: L₁) ++ (X, x) ::
          ((Y, y) :: (L₄ ++ (S, box) :: (C', c) :: rest₃)) := by
        rw [code₂]
        simp
      have none := first L₁ (X, x) ((Y, y) :: L₄) rfl reached
      rw [Option.isSome_eq_false_iff, Option.isNone_iff_eq_none] at none
      rw [pairPattern?_seen, Option.eq_none_iff_forall_ne_some]
      intro q pattern'
      have := (secondBox?_iff nodup codeX (e := e) (p := q)).2
        ⟨by simpa using typed, Y, y, _, rfl, alone (Y, y) (by simp), pattern'⟩
      rw [none] at this
      cases this
    have alone' : Alone b ([(A, a)] ++ V ++ [(S, box), (C', c)]).tail := by
      intro q mem
      have : q ∈ V ++ [(S, box)] ∨ q = (C', c) := by simpa [or_assoc] using mem
      rcases this with mem | rfl
      · exact alone q mem
      · exact aloneC
    simp only [run_describe] at found
    obtain ⟨d, desc, found⟩ := found
    refine ⟨_, [(A, a)], V, [(S, box), (C', c)], rest₃, ⟨by rw [code₂]; simp, alone', shape desc⟩, by simp, ?_⟩
    by_cases flag : p = .hasFlag
    · simp only [flag, if_true, run_search_pure] at found ⊢
      exact found.symm
    · simp only [flag, if_false, run_search_pure] at found ⊢
      exact found.symm

end

/-! ### The argument of the membership test -/

def literal? : Lines → Option (BitVec 64)
  | [(_, i)] => constant? i
  | _ => none

theorem literal?_eq_some {V : Lines} {w : BitVec 64} :
    literal? V = some w ↔ ∃ T t, V = [(T, t)] ∧ constant? t = some w := by
  match V with
  | [] | _ :: _ :: _ => simp [literal?]
  | [(T, t)] =>
    constructor
    · exact fun constant => ⟨T, t, rfl, constant⟩
    · rintro ⟨_, _, eq, constant⟩
      cases eq
      exact constant

/-- What the search takes for a constant argument: the line before the box, if the argument starts
there. -/
theorem literal?_of_prev (nodup : b.handles.Nodup) {pre V rest : Lines} {T L : Handle} {t l : Instr}
    (code : b.code = pre ++ ((T, t) :: V ++ (L, l) :: rest)) :
    (if b.prev? L = some T then (b.get? T).bind constant? else none) = literal? ((T, t) :: V) := by
  have codeT : b.code = pre ++ (T, t) :: (V ++ (L, l) :: rest) := code
  rcases List.eq_nil_or_concat V with rfl | ⟨W, ⟨P, p⟩, rfl⟩
  · rw [Body.prev?_of_snoc nodup codeT, if_pos rfl, get?_of_append nodup codeT]
    rfl
  · have codeP : b.code = (pre ++ (T, t) :: W) ++ (P, p) :: (L, l) :: rest := by simpa using code
    have other : P ≠ T := by
      rintro rfl
      have := (split_unique nodup codeP codeT).1
      simp at this
    rw [Body.prev?_of_snoc nodup codeP, if_neg (by simpa using other)]
    cases W <;> rfl

def definedChange (d : EnumInfo) (A R L C : Handle) (V : Lines) : Change :=
  match literal? V with
  | some w => .fold A C (loadBool (d.nameOf? (.ofWord d.kind w)).isSome)
  | none => .redirect [A, R, L] C .isDefined

/-- What the membership test can be given, and what is done about it: a name, or a boxed operand `V`;
`l` is the line that leaves it. -/
inductive Argument (e : Sig) (d : EnumInfo) (A R L C : Handle) (l : Instr) : Lines → Change → Prop where
  | name {name : String} : l.opcode = .ldstr → l.string? = some name →
    Argument e d A R L C l [] (.fold A C (loadBool (d.declared.any (·.name = name))))
  | boxed {V : Lines} : V ≠ [] → l.opcode = .box → l.type? = some e ∨ l.type? = some d.kind.sig →
    Argument e d A R L C l V (definedChange d A R L C V)

/-- No line of `V` is a call of the membership test with both arguments on the stack. -/
def Untested (V : Lines) : Prop :=
  ∀ V₁ x V₂, V = V₁ ++ x :: V₂ → Runs 1 1 (sight V₁) 2 →
    calls x.2 .call Platform.isEnumIsDefined = false

theorem depth_of_box {L : Handle} {l : Instr} {k d : Nat} (boxes : l.opcode = .box)
    (runs : Runs 1 k (sight [(L, l)]) d) : k = d := by
  obtain ⟨-, enough, depth⟩ := runs_sight.1 runs
  have effect := effect_box boxes
  have depth : Body.depthAfter l k = d := depth
  unfold Body.depthAfter at depth
  omega

section
variable {A R L C : Handle} {a r l c : Instr} {e : Sig} {d : EnumInfo} {pre rest : Lines}
  (opcode : a.opcode = .ldtoken) (value : valueType? a = some e)
  (resolves : calls r .call Platform.isGetTypeFromHandle = true)
  (test : calls c .call Platform.isEnumIsDefined = true) (desc : known ctx m e = some d)
include opcode value resolves test desc

theorem standsAt_name {name : String} (code : b.code = pre ++ (A, a) :: (R, r) :: (L, l) :: (C, c) :: rest)
    (alone : Alone b [(R, r), (L, l), (C, c)]) (load : l.opcode = .ldstr) (string : l.string? = some name) :
    StandsAt (known ctx m) b pre ((A, a) :: (R, r) :: (L, l) :: (C, c) :: rest)
      ⟨.isDefined, d, .fold A C (loadBool (d.declared.any (·.name = name)))⟩ := by
  refine ⟨⟨.isDefined, d, .fold (loadBool (d.declared.any (·.name = name)))⟩,
    [(A, a), (R, r), (L, l)], [], [(C, c)], rest, ⟨code, alone, ?_⟩, rfl, rfl⟩
  refine .definedName opcode (by simpa using value) ?_ load (by simpa using string) ?_ desc
  · rwa [calls_seen r _ Platform.isGetTypeFromHandle_seen]
  · rwa [calls_seen c _ Platform.isEnumIsDefined_seen]

theorem standsAt_boxed {V : Lines} (code : b.code = pre ++ (A, a) :: (R, r) :: (V ++ (L, l) :: (C, c) :: rest))
    (alone : Alone b ((R, r) :: (V ++ [(L, l), (C, c)]))) (runs : Runs 1 1 (sight V) 2)
    (short : V.length + 1 < reach) (untested : Untested V) (boxes : l.opcode = .box)
    (typed : l.type? = some e ∨ l.type? = some d.kind.sig) :
    StandsAt (known ctx m) b pre ((A, a) :: (R, r) :: (V ++ (L, l) :: (C, c) :: rest))
      ⟨.isDefined, d, definedChange d A R L C V⟩ := by
  have value : valueType? a.seen = some e := by simpa using value
  have resolves : calls r.seen .call Platform.isGetTypeFromHandle = true := by
    rwa [calls_seen r _ Platform.isGetTypeFromHandle_seen]
  have test : calls c.seen .call Platform.isEnumIsDefined = true := by
    rwa [calls_seen c _ Platform.isEnumIsDefined_seen]
  unfold definedChange
  cases literal : literal? V with
  | some w =>
    obtain ⟨T, t, rfl, constant⟩ := literal?_eq_some.1 literal
    refine ⟨⟨.isDefined, d, .fold (loadBool (d.nameOf? (.ofWord d.kind w)).isSome)⟩,
      [(A, a), (R, r), (T, t), (L, l)], [], [(C, c)], rest, ⟨code, alone, ?_⟩, rfl, rfl⟩
    exact .definedConstant opcode value resolves (by simpa using constant) boxes (by simpa using typed)
      test desc
  | none =>
    refine ⟨⟨.isDefined, d, .redirect .isDefined⟩, [(A, a), (R, r)], V, [(L, l), (C, c)], rest,
      ⟨by rw [code]; simp, by simpa using alone, ?_⟩, by simp, rfl⟩
    refine .defined opcode value resolves runs (by simpa [sight] using short) ?_ ?_ boxes
      (by simpa using typed) test desc
    · intro V₁ x V₂ eq reached
      obtain ⟨L₁, L₂, eq₁, rfl, eq₂⟩ := List.map_eq_append_iff.1 eq
      obtain ⟨y, L₃, rfl, rfl, -⟩ := List.map_eq_cons_iff.1 eq₂
      rw [calls_seen _ _ Platform.isEnumIsDefined_seen]
      exact untested L₁ y L₃ eq₁ reached
    · intro x single
      obtain ⟨⟨T, t⟩, rfl, rfl⟩ := List.map_eq_singleton_iff.1 single
      rw [constant?_seen]
      exact literal

end

section
variable {A R T : Handle} {a r t : Instr} {e : Sig} {pre rest : Lines} {s : Site}
  (nodup : b.handles.Nodup)
include nodup

theorem matchIsDefined_some (code : b.code = pre ++ (A, a) :: (R, r) :: (T, t) :: rest)
    (alone : isJoin b R = false) (opcode : a.opcode = .ldtoken) (value : valueType? a = some e)
    (resolves : calls r .call Platform.isGetTypeFromHandle = true)
    (found : (matchIsDefined ctx m b A R T e).run = .ok (some s)) :
    StandsAt (known ctx m) b pre ((A, a) :: (R, r) :: (T, t) :: rest) s := by
  simp only [matchIsDefined, run_search_bind, run_ofOption, run_describe] at found
  obtain ⟨C, walked, L, before, l, argument, d, desc, found⟩ := found
  have code₁ : b.code = (pre ++ [(A, a), (R, r)]) ++ (T, t) :: rest := by simpa using code
  obtain ⟨V', c, rest', split, short, aloneV, runs, test, first⟩ :=
    walkFrom_some (q := fun _ i => calls i .call Platform.isEnumIsDefined) nodup code₁ walked
  -- the last line of the argument
  obtain ⟨V, ⟨L', l'⟩, rfl⟩ : ∃ V p, V' = V ++ [p] := by
    rcases List.eq_nil_or_concat V' with rfl | ⟨V, p, rfl⟩
    · exact absurd rfl (runs.ne_nil (by decide))
    · exact ⟨V, p, List.concat_eq_append⟩
  have split : (T, t) :: rest = V ++ (L', l') :: (C, c) :: rest' := by rw [split]; simp
  have codeL : b.code = (pre ++ (A, a) :: (R, r) :: V) ++ (L', l') :: (C, c) :: rest' := by
    rw [code₁, split]
    simp
  cases (Body.prev?_of_snoc nodup codeL).symm.trans before
  cases (get?_of_append nodup codeL).symm.trans argument
  have aloneV : Alone b (V ++ [(L, l), (C, c)]) := by simpa using aloneV
  have aloneAll : Alone b ((R, r) :: (V ++ [(L, l), (C, c)])) := List.forall_mem_cons.2 ⟨alone, aloneV⟩
  split at found
  · -- a name
    rename_i name opcodeL string
    rw [run_guard run_refuse, run_search_pure, not_not] at found
    obtain ⟨same, rfl⟩ := found
    change L = T at same
    subst same
    obtain rfl : V = [] := by simpa using (split_unique nodup codeL code₁).1
    cases split
    exact standsAt_name opcode value resolves test desc code aloneAll opcodeL string
  · -- a boxed value
    rw [run_guard run_refuse, run_guard run_refuse, not_not] at found
    obtain ⟨boxes, typed, found⟩ := found
    have typed : l.type? = some e ∨ l.type? = some d.kind.sig := by
      simpa [or_iff_not_imp_left] using typed
    obtain ⟨k, runsV, runsL⟩ := runs_append.1 (by simpa [sight] using runs : Runs 1 1 (sight V ++ sight [(L, l)]) 2)
    obtain rfl : k = 2 := depth_of_box boxes runsL
    cases V with
    | nil => exact absurd rfl (runsV.ne_nil (by decide))
    | cons p V =>
      cases split
      rw [literal?_of_prev nodup code₁] at found
      obtain rfl : ⟨.isDefined, d, definedChange d A R L C ((T, t) :: V)⟩ = s := by
        unfold definedChange
        cases constant : literal? ((T, t) :: V) <;> rw [constant] at found <;>
          exact run_search_pure.1 found
      have untested : Untested ((T, t) :: V) := fun V₁ x V₂ eq reached =>
        first V₁ x (V₂ ++ [(L, l)]) (by rw [eq]; simp) reached
      exact standsAt_boxed opcode value resolves test desc code aloneAll runsV (by simpa using short)
        untested boxes typed

end

section
variable {A : Handle} {a : Instr} {pre rest : Lines} {s : Site} (nodup : b.handles.Nodup)
  (code : b.code = pre ++ (A, a) :: rest)
include nodup code

theorem matchToken_some (opcode : a.opcode = .ldtoken)
    (found : (matchToken ctx m b A).run = .ok (some s)) :
    StandsAt (known ctx m) b pre ((A, a) :: rest) s := by
  simp only [matchToken, run_search_bind, run_ofOption, Prod.exists, get?_of_append nodup code,
    Option.some.injEq, exists_eq_left', run_guard run_failure] at found
  obtain ⟨e, value, R, r, after, resolves, T, t, behind, found⟩ := found
  obtain ⟨rest₁, rfl, aloneR⟩ := (follow?_iff nodup code).1 after
  have code₁ : b.code = (pre ++ [(A, a)]) ++ (R, r) :: rest₁ := by simpa using code
  obtain ⟨rest₂, rfl, aloneT⟩ := (follow?_iff nodup code₁).1 behind
  have code₂ : b.code = (pre ++ [(A, a), (R, r)]) ++ (T, t) :: rest₂ := by simpa using code
  have value' : valueType? a.seen = some e := by simpa using value
  have resolves' : calls r.seen .call Platform.isGetTypeFromHandle = true := by
    rw [calls_seen r _ Platform.isGetTypeFromHandle_seen]
    simpa using resolves
  split at found
  · rename_i values
    simp only [run_search_bind, run_describe, run_search_pure] at found
    obtain ⟨d, desc, rfl⟩ := found
    refine ⟨⟨.getValues, d, .redirect .getValues⟩, [(A, a), (R, r)], [], [(T, t)], rest₂,
      ⟨code, by simpa [Alone] using ⟨aloneR, aloneT⟩, ?_⟩, rfl, rfl⟩
    refine .getValues opcode value' resolves' ?_ desc
    rwa [any_called?_seen _ Platform.isEnumGetValues_seen]
  rename_i values
  split at found
  · rename_i underlying
    simp only [run_search_bind, run_describe, run_search_pure] at found
    obtain ⟨d, desc, rfl⟩ := found
    refine ⟨⟨.getUnderlyingType, d, .underlying d.kind.sig⟩, [(A, a)], [(R, r)], [(T, t)], rest₂,
      ⟨code, by simpa [Alone] using ⟨aloneR, aloneT⟩, ?_⟩, rfl, rfl⟩
    refine .underlying opcode value' resolves' ?_ ?_ desc
    · rw [any_called?_seen _ Platform.isEnumGetValues_seen]
      exact Bool.eq_false_iff.2 values
    · rwa [any_called?_seen _ Platform.isEnumGetUnderlyingType_seen]
  exact matchIsDefined_some nodup code aloneR opcode value (by simpa using resolves) found

end

/-- The site that starts at an instruction, also where it is a part of a larger one. -/
def search (ctx : Context) (m : ModuleDef) (b : Body) (anchor : Handle) :
    Except Fault (Option Site) :=
  match b.get? anchor with
  | none => .ok none
  | some i =>
    match i.opcode with
    | .ldtoken => (matchToken ctx m b anchor).run
    | .ldcI4 | .ldcI8 => (matchLiteral ctx m b anchor).run
    | .box => (matchBox ctx m b anchor).run
    | .constrained => (matchConstrained ctx m b anchor).run
    | _ => .ok none

theorem search_some {A : Handle} {a : Instr} {pre rest : Lines} {s : Site} (nodup : b.handles.Nodup)
    (code : b.code = pre ++ (A, a) :: rest) (found : search ctx m b A = .ok (some s)) :
    StandsAt (known ctx m) b pre ((A, a) :: rest) s := by
  unfold search at found
  rw [get?_of_append nodup code] at found
  dsimp only at found
  split at found
  · exact matchToken_some nodup code ‹_› found
  · exact matchLiteral_some nodup code found
  · exact matchLiteral_some nodup code found
  · exact matchBox_some nodup code ‹_› found
  · exact matchConstrained_some nodup code ‹_› found
  · cases found

section
variable {A : Handle} {a : Instr} {pre rest : Lines} (nodup : b.handles.Nodup)

include nodup in
theorem search_of_get {i : Instr} (code : b.code = pre ++ (A, i) :: rest) : search ctx m b A =
    match i.opcode with
    | .ldtoken => (matchToken ctx m b A).run
    | .ldcI4 | .ldcI8 => (matchLiteral ctx m b A).run
    | .box => (matchBox ctx m b A).run
    | .constrained => (matchConstrained ctx m b A).run
    | _ => .ok none := by
  unfold search
  rw [get?_of_append nodup code]

include nodup in
theorem search_literal {w : BitVec 64} (code : b.code = pre ++ (A, a) :: rest)
    (constant : constant? a = some w) : search ctx m b A = (matchLiteral ctx m b A).run := by
  rw [search_of_get nodup code]
  rcases opcode_of_constant constant with opcode | opcode <;> rw [opcode]

end

theorem Untested.snoc {V : Lines} {L : Handle} {l : Instr} (untested : Untested V)
    (other : l.opcode ≠ .call) : Untested (V ++ [(L, l)]) := by
  intro V₁ x V₂ eq reached
  rcases List.eq_nil_or_concat V₂ with rfl | ⟨V₂, y, rfl⟩
  · obtain ⟨-, last⟩ := List.append_inj' eq rfl
    cases last
    simp [calls, other]
  · rw [List.concat_eq_append, ← List.cons_append, ← List.append_assoc] at eq
    exact untested V₁ x V₂ (List.append_inj' eq rfl).1 reached

theorem untested_nil : Untested [] := fun V₁ _ _ eq => by simp at eq

theorem runs_load {T : Handle} {t : Instr} (effect : t.effect.pops = 0 ∧ t.effect.pushes = 1)
    (straight : t.straight = true) : Runs 1 1 (sight [(T, t)]) 2 := by
  refine runs_sight.2 ⟨straight, by omega, ?_⟩
  show Body.depthAfter t 1 = 2
  unfold Body.depthAfter
  omega

theorem runs_snoc_box {V : Lines} {L : Handle} {l : Instr} (runs : Runs 1 1 (sight V) 2)
    (boxes : l.opcode = .box) : Runs 1 1 (sight (V ++ [(L, l)])) 2 := by
  have effect := effect_box boxes
  rw [sight, List.map_append]
  refine runs_append.2 ⟨2, runs, runs_sight.2 ⟨by simp [Instr.straight, boxes, Opcode.flow], by omega, ?_⟩⟩
  show Body.depthAfter l 2 = 2
  unfold Body.depthAfter
  omega

/-! The other way round: each shape is found. -/

section
variable {A B C R S T : Handle} {a c i r x t : Instr} {e : Sig} {d : EnumInfo} {pre rest : Lines}
  (nodup : b.handles.Nodup)
include nodup

theorem matchLiteral_text {v : BitVec 64}
    (code : b.code = pre ++ (A, a) :: (B, x) :: (C, c) :: rest) (alone : Alone b [(B, x), (C, c)])
    (first : constant? a = some v) (boxes : x.opcode = .box) (value : valueType? x = some e)
    (text : calls c .callvirt Platform.isVirtualToString = true) (desc : known ctx m e = some d) :
    (matchLiteral ctx m b A).run = .ok (some
      ⟨.toString, d, .fold A C (.ldstr (d.format (.ofWord d.kind v)))⟩) := by
  have codeB : b.code = (pre ++ [(A, a)]) ++ (B, x) :: (C, c) :: rest := by simpa using code
  simp only [matchLiteral, run_search_bind, run_ofOption, Prod.exists, get?_of_append nodup code,
    Option.bind_some, run_guard run_failure]
  refine ⟨v, first, B, x, (follow?_iff nodup code).2 ⟨_, rfl, alone (B, x) (by simp)⟩,
    by simpa using boxes, e, value, C, c,
    (follow?_iff nodup codeB).2 ⟨_, rfl, alone (C, c) (by simp)⟩, ?_⟩
  rw [if_pos text]
  simp only [run_search_bind, run_describe, run_search_pure]
  exact ⟨d, desc, rfl⟩

theorem matchLiteral_pair {v w : BitVec 64} {p : Pattern} {s : Instr}
    (code : b.code = pre ++ (A, a) :: (B, x) :: (T, t) :: (S, s) :: (C, c) :: rest)
    (alone : Alone b [(B, x), (T, t), (S, s), (C, c)]) (first : constant? a = some v)
    (boxes : x.opcode = .box) (value : valueType? x = some e) (second : constant? t = some w)
    (boxes' : s.isTyped .box e = true) (pattern : pairPattern? c = some p)
    (desc : known ctx m e = some d) :
    (matchLiteral ctx m b A).run = .ok (some ⟨p, d, .fold A C (loadBool
      (if p = .hasFlag then decide (EnumValue.ofWord d.kind v &&& .ofWord d.kind w =
          .ofWord d.kind w)
        else decide (EnumValue.ofWord d.kind v = .ofWord d.kind w)))⟩) := by
  have codeB : b.code = (pre ++ [(A, a)]) ++ (B, x) :: (T, t) :: (S, s) :: (C, c) :: rest := by
    simpa using code
  have codeT : b.code = (pre ++ [(A, a), (B, x)]) ++ (T, t) :: (S, s) :: (C, c) :: rest := by
    simpa using code
  have codeS : b.code = (pre ++ [(A, a), (B, x), (T, t)]) ++ (S, s) :: (C, c) :: rest := by
    simpa using code
  have text : ¬ calls t .callvirt Platform.isVirtualToString = true := by
    intro text
    simp only [calls, Bool.and_eq_true, decide_eq_true_eq] at text
    simp [constant?, text.1] at second
  simp only [matchLiteral, run_search_bind, run_ofOption, Prod.exists, get?_of_append nodup code,
    Option.bind_some, run_guard run_failure]
  refine ⟨v, first, B, x, (follow?_iff nodup code).2 ⟨_, rfl, alone (B, x) (by simp)⟩,
    by simpa using boxes, e, value, T, t,
    (follow?_iff nodup codeB).2 ⟨_, rfl, alone (T, t) (by simp)⟩, ?_⟩
  rw [if_neg text]
  simp only [run_search_bind, run_ofOption, Prod.exists, run_guard run_failure, run_describe,
    run_search_pure]
  exact ⟨w, second, S, s, (follow?_iff nodup codeT).2 ⟨_, rfl, alone (S, s) (by simp)⟩,
    by simp [boxes'], C, c, (follow?_iff nodup codeS).2 ⟨_, rfl, alone (C, c) (by simp)⟩, p, pattern,
    d, desc, rfl⟩

theorem matchBox_pair {V : Lines} {p : Pattern} {s : Instr}
    (code : b.code = pre ++ (A, a) :: (V ++ (S, s) :: (C, c) :: rest))
    (alone : Alone b (V ++ [(S, s), (C, c)])) (value : valueType? a = some e)
    (runs : Runs 1 1 (sight V) 2) (short : V.length < reach)
    (first : ∀ V₁ x y V₂, V = V₁ ++ x :: y :: V₂ → Runs 1 1 (sight V₁) 2 →
      x.2.isTyped .box e → pairPattern? y.2 = none)
    (boxes : s.isTyped .box e = true) (pattern : pairPattern? c = some p)
    (desc : known ctx m e = some d) :
    (matchBox ctx m b A).run = .ok (some ⟨p, d,
      if p = .hasFlag then .hasFlag A S C else .redirect [A, S] C .equals⟩) := by
  have codeS : b.code = (pre ++ (A, a) :: V) ++ (S, s) :: (C, c) :: rest := by simpa using code
  have second : secondBox? b e S s = some p :=
    (secondBox?_iff nodup codeS).2 ⟨boxes, C, c, rest, rfl, alone (C, c) (by simp), pattern⟩
  have walked : Walked b 1 2 (fun h i => (secondBox? b e h i).isSome) 1 V S s := by
    refine ⟨fun q mem => alone q (by simp at mem ⊢; tauto), runs, by simp [second], ?_⟩
    intro V₁ y V₂ eq reached
    -- behind a box in the operand there is no call of the pattern
    rw [Option.isSome_eq_false_iff, Option.isNone_iff_eq_none, Option.eq_none_iff_forall_ne_some]
    intro q found
    obtain ⟨Y, y⟩ := y
    subst eq
    have codeY : b.code = (pre ++ (A, a) :: V₁) ++ (Y, y) :: (V₂ ++ (S, s) :: (C, c) :: rest) := by
      simpa using code
    obtain ⟨typed, Z, z, rest', behind, -, pattern'⟩ := (secondBox?_iff nodup codeY).1 found
    cases V₂ with
    | nil =>
      cases behind
      simp only [Instr.isTyped, Bool.and_eq_true, decide_eq_true_eq] at boxes
      simp [pairPattern?, called?, isCall, boxes.1] at pattern'
    | cons z' V₂ =>
      cases behind
      rw [first V₁ (Y, y) (Z, z) V₂ rfl reached typed] at pattern'
      cases pattern'
  cases V with
  | nil => cases (show (1 : Nat) = 2 from runs)
  | cons n V =>
    obtain ⟨N, n⟩ := n
    have code' : b.code = (pre ++ [(A, a)]) ++ ((N, n) :: V) ++ (S, s) :: (C, c) :: rest := by
      simpa using code
    have far := walkFrom_of_walked nodup code' short walked
    have text : ¬ calls n .callvirt Platform.isVirtualToString = true := by
      intro text
      have := (effect_toString text).1
      have := (runs_sight.1 runs).2.1
      omega
    simp only [matchBox, run_search_bind, run_ofOption, Prod.exists, get?_of_append nodup code,
      Option.some.injEq, exists_eq_left']
    refine ⟨e, value, N, n, (follow?_iff nodup code).2 ⟨_, rfl, alone (N, n) (by simp)⟩, ?_⟩
    rw [if_neg text]
    simp only [run_search_bind, run_ofOption, run_describe]
    refine ⟨S, far, s, get?_of_append nodup codeS, p, second, C, ?_, d, desc, ?_⟩
    · rw [Body.next?_of_append nodup codeS]
      rfl
    · split <;> exact run_search_pure.2 rfl

theorem matchToken_get {s : Site}
    (code : b.code = pre ++ (A, a) :: (R, r) :: (C, c) :: rest) (alone : Alone b [(R, r), (C, c)])
    (value : valueType? a = some e) (resolves : calls r .call Platform.isGetTypeFromHandle = true)
    (desc : known ctx m e = some d)
    (found : (called? c).any Platform.isEnumGetValues = true ∧
        s = ⟨.getValues, d, .redirect [A, R] C .getValues⟩ ∨
      (called? c).any Platform.isEnumGetValues = false ∧
        (called? c).any Platform.isEnumGetUnderlyingType = true ∧
        s = ⟨.getUnderlyingType, d, .underlying A C d.kind.sig⟩) :
    (matchToken ctx m b A).run = .ok (some s) := by
  have codeR : b.code = (pre ++ [(A, a)]) ++ (R, r) :: (C, c) :: rest := by simpa using code
  simp only [matchToken, run_search_bind, run_ofOption, Prod.exists, get?_of_append nodup code,
    Option.some.injEq, exists_eq_left', run_guard run_failure]
  refine ⟨e, value, R, r, (follow?_iff nodup code).2 ⟨_, rfl, alone (R, r) (by simp)⟩,
    by simp [resolves], C, c, (follow?_iff nodup codeR).2 ⟨_, rfl, alone (C, c) (by simp)⟩, ?_⟩
  rcases found with ⟨values, rfl⟩ | ⟨values, underlying, rfl⟩
  · rw [if_pos values]
    simp only [run_search_bind, run_describe, run_search_pure]
    exact ⟨d, desc, rfl⟩
  · rw [if_neg (Bool.eq_false_iff.1 values), if_pos underlying]
    simp only [run_search_bind, run_describe, run_search_pure]
    exact ⟨d, desc, rfl⟩

theorem matchIsDefined_of_walked {change : Change} {L : Handle} {l : Instr} {V V' : Lines}
    (code : b.code = pre ++ (V ++ (L, l) :: (C, c) :: rest)) (starts : V ++ [(L, l)] = (T, t) :: V')
    (alone : Alone b (V ++ [(L, l), (C, c)])) (runs : Runs 1 1 (sight (V ++ [(L, l)])) 2)
    (short : V.length + 1 < reach) (first : Untested (V ++ [(L, l)]))
    (test : calls c .call Platform.isEnumIsDefined = true) (desc : known ctx m e = some d)
    (argument : Argument e d A R L C l V change) :
    (matchIsDefined ctx m b A R T e).run = .ok (some ⟨.isDefined, d, change⟩) := by
  have codeL : b.code = (pre ++ V) ++ (L, l) :: (C, c) :: rest := by simpa using code
  have codeV : b.code = pre ++ (V ++ [(L, l)]) ++ (C, c) :: rest := by simpa using code
  have walked : Walked b 1 2 (fun _ i => calls i .call Platform.isEnumIsDefined) 1 (V ++ [(L, l)]) C c :=
    ⟨fun q mem => alone q (by simpa using mem), runs, test, first⟩
  have far := walkFrom_of_walked nodup codeV (by simpa using short) walked
  rw [starts] at far
  simp only [matchIsDefined, run_search_bind, run_ofOption, run_describe]
  refine ⟨C, far, L, Body.prev?_of_snoc nodup codeL, l, get?_of_append nodup codeL, d, desc, ?_⟩
  cases argument with
  | name opcode string =>
    cases starts
    rw [opcode, string]
    simp only [run_guard run_refuse, run_search_pure]
    simp
  | boxed some opcode typed =>
    cases V with
    | nil => exact absurd rfl some
    | cons p V =>
      cases starts
      rw [opcode]
      simp only [run_guard run_refuse]
      refine ⟨by simp, by rcases typed with typed | typed <;> simp [typed], ?_⟩
      rw [literal?_of_prev nodup code]
      unfold definedChange
      cases literal? ((T, t) :: V) <;> exact run_search_pure.2 rfl

/-- No other call on a type is taken for what begins an argument: it would take the type. -/
theorem matchToken_tested (code : b.code = pre ++ (A, a) :: (R, r) :: (T, t) :: rest)
    (alone : Alone b [(R, r), (T, t)]) (value : valueType? a = some e)
    (resolves : calls r .call Platform.isGetTypeFromHandle = true) (pops : t.effect.pops = 0) {s : Site}
    (found : (matchIsDefined ctx m b A R T e).run = .ok (some s)) :
    (matchToken ctx m b A).run = .ok (some s) := by
  have codeR : b.code = (pre ++ [(A, a)]) ++ (R, r) :: (T, t) :: rest := by simpa using code
  have values : ¬ (called? t).any Platform.isEnumGetValues = true := by
    intro yes
    have := (effect_getValues yes).1
    omega
  have underlying : ¬ (called? t).any Platform.isEnumGetUnderlyingType = true := by
    intro yes
    have := (effect_getUnderlyingType yes).1
    omega
  simp only [matchToken, run_search_bind, run_ofOption, Prod.exists, get?_of_append nodup code,
    Option.some.injEq, exists_eq_left', run_guard run_failure]
  refine ⟨e, value, R, r, (follow?_iff nodup code).2 ⟨_, rfl, alone (R, r) (by simp)⟩,
    by simp [resolves], T, t, (follow?_iff nodup codeR).2 ⟨_, rfl, alone (T, t) (by simp)⟩, ?_⟩
  rw [if_neg values, if_neg underlying]
  exact found

theorem matchToken_defined {change : Change} {L : Handle} {l : Instr} {V : Lines}
    (code : b.code = pre ++ (A, a) :: (R, r) :: (V ++ (L, l) :: (C, c) :: rest))
    (alone : Alone b ((R, r) :: (V ++ [(L, l), (C, c)]))) (value : valueType? a = some e)
    (resolves : calls r .call Platform.isGetTypeFromHandle = true)
    (runs : Runs 1 1 (sight (V ++ [(L, l)])) 2) (short : V.length + 1 < reach)
    (first : Untested (V ++ [(L, l)]))
    (test : calls c .call Platform.isEnumIsDefined = true) (desc : known ctx m e = some d)
    (argument : Argument e d A R L C l V change) :
    (matchToken ctx m b A).run = .ok (some ⟨.isDefined, d, change⟩) := by
  obtain ⟨⟨T, t⟩, V', starts⟩ := List.exists_cons_of_ne_nil (List.concat_ne_nil (L, l) V)
  have whole : V ++ (L, l) :: (C, c) :: rest = (T, t) :: (V' ++ (C, c) :: rest) := by
    have : V ++ (L, l) :: (C, c) :: rest = (V ++ [(L, l)]) ++ (C, c) :: rest := by simp
    rw [this, starts]
    rfl
  obtain ⟨aloneR, aloneV⟩ := List.forall_mem_cons.1 alone
  have aloneT : isJoin b T = false := by
    have mem : (T, t) ∈ V ++ [(L, l)] := starts ▸ List.mem_cons_self
    exact aloneV (T, t) (by simp at mem ⊢; tauto)
  have pops : t.effect.pops = 0 := by
    have := runs
    rw [starts] at this
    have := (runs_sight.1 this).2.1
    omega
  refine matchToken_tested nodup (by rw [code, whole]) (by simpa [Alone] using ⟨aloneR, aloneT⟩) value
    resolves pops ?_
  have code' : b.code = (pre ++ [(A, a), (R, r)]) ++ (V ++ (L, l) :: (C, c) :: rest) := by
    simpa using code
  exact matchIsDefined_of_walked nodup code' starts aloneV runs short first test desc argument

theorem matchBox_text (code : b.code = pre ++ (A, a) :: (C, c) :: rest) (alone : isJoin b C = false)
    (value : valueType? a = some e) (text : calls c .callvirt Platform.isVirtualToString = true)
    (desc : known ctx m e = some d) :
    (matchBox ctx m b A).run = .ok (some ⟨.toString, d, .redirect [A] C .toString⟩) := by
  simp only [matchBox, run_search_bind, run_ofOption, Prod.exists, get?_of_append nodup code,
    Option.some.injEq, exists_eq_left']
  refine ⟨e, value, C, c, (follow?_iff nodup code).2 ⟨rest, rfl, alone⟩, ?_⟩
  rw [if_pos text]
  simp only [run_search_bind, run_describe, run_search_pure]
  exact ⟨d, desc, rfl⟩

theorem matchConstrained_text (code : b.code = pre ++ (A, a) :: (C, c) :: rest)
    (alone : isJoin b C = false) (value : valueType? a = some e)
    (text : calls c .callvirt Platform.isVirtualToString = true) (desc : known ctx m e = some d) :
    (matchConstrained ctx m b A).run = .ok (some ⟨.constrainedToString, d, .constrained A C⟩) := by
  simp only [matchConstrained, run_search_bind, run_ofOption, Prod.exists, get?_of_append nodup code,
    Option.bind_some, run_guard run_failure, run_describe, run_search_pure]
  exact ⟨e, value, C, c, (follow?_iff nodup code).2 ⟨rest, rfl, alone⟩, by simp [text], d, desc, rfl⟩

end

theorem search_of_stands (nodup : b.handles.Nodup) {r : Recipe} {pre front operand back post : Lines}
    {A : Handle} (stands : Stands (known ctx m) b r pre front operand back post)
    (head : front.head?.map (·.1) = some A) :
    search ctx m b A = .ok (some (r.site (front.map (·.1)) (back.map (·.1)))) := by
  obtain ⟨code, alone, shape⟩ := stands
  cases shape.outline with
  | getValues opcode value resolves values desc =>
    cases head
    rw [search_of_get nodup code, opcode]
    exact matchToken_get nodup code alone value resolves desc (.inl ⟨values, rfl⟩)
  | underlying opcode value resolves values underlying desc =>
    cases head
    rw [search_of_get nodup code, opcode]
    exact matchToken_get nodup code alone value resolves desc (.inr ⟨values, underlying, rfl⟩)
  | definedName opcode value resolves load string test desc =>
    cases head
    rw [search_of_get nodup code, opcode]
    exact matchToken_defined nodup (V := []) code alone value resolves
      (runs_load (effect_of_counts (by rw [load]; rfl)) (by simp [Instr.straight, load, Opcode.flow]))
      (by decide) (untested_nil.snoc (by simp [load])) test desc (.name load string)
  | @definedConstant _ _ T _ _ _ _ t _ _ _ _ _ opcode value resolves constant boxes typed test desc =>
    cases head
    rw [search_of_get nodup code, opcode]
    have loads := opcode_of_constant constant
    have runs : Runs 1 1 (sight [(T, t)]) 2 := runs_load (effect_constant constant)
      (by rcases loads with load | load <;> simp [Instr.straight, load, Opcode.flow])
    have untested : Untested [(T, t)] :=
      untested_nil.snoc (by rcases loads with load | load <;> simp [load])
    have found := matchToken_defined nodup (V := [(T, t)]) code alone value resolves
      (runs_snoc_box runs boxes) (by simp [reach]) (untested.snoc (by simp [boxes])) test desc
      (.boxed (List.cons_ne_nil _ _) boxes typed)
    rwa [definedChange, literal?_eq_some.2 ⟨T, t, rfl, constant⟩] at found
  | @defined A R L C a r l c _ _ _ opcode value resolves runs short first constant boxes typed test desc =>
    cases head
    have code' : b.code = pre ++ (A, a) :: (R, r) :: (operand ++ (L, l) :: (C, c) :: post) := by
      simpa using code
    have untested : Untested operand := first
    rw [search_of_get nodup code', opcode]
    have found := matchToken_defined nodup code' (by simpa using alone) value resolves
      (runs_snoc_box runs boxes) short (untested.snoc (by simp [boxes])) test desc
      (.boxed (fun none => runs.ne_nil (by decide) (sight_eq_nil.2 none)) boxes typed)
    -- the operand is no constant: that is the shape before
    have other : literal? operand = none := by
      rw [Option.eq_none_iff_forall_ne_some]
      intro w literal
      obtain ⟨T, t, rfl, isConstant⟩ := literal?_eq_some.1 literal
      rw [constant T t rfl] at isConstant
      cases isConstant
    rwa [definedChange, other] at found
  | literalText constant boxes value text desc =>
    cases head
    rw [search_literal nodup code constant]
    exact matchLiteral_text nodup code alone constant boxes value text desc
  | literalPair constant boxes value constant' boxes' pattern desc =>
    cases head
    rw [search_literal nodup code constant]
    exact matchLiteral_pair nodup code alone constant boxes value constant' boxes' pattern desc
  | @boxText _ C _ c _ _ opcode value text desc =>
    cases head
    rw [search_of_get nodup code, opcode]
    exact matchBox_text nodup code (alone (C, c) (by simp)) value text desc
  | @pair A S C a s c _ _ _ _ opcode value runs short first boxes pattern desc =>
    cases head
    have code' : b.code = pre ++ (A, a) :: (operand ++ (S, s) :: (C, c) :: post) := by
      simpa using code
    rw [search_of_get nodup code', opcode]
    have found := matchBox_pair nodup code' (by simpa using alone) value runs short first boxes pattern desc
    dsimp only
    rw [found, Recipe.site]
    split <;> rfl
  | @constrained _ C _ c _ _ opcode value text desc =>
    cases head
    rw [search_of_get nodup code, opcode]
    exact matchConstrained_text nodup code (alone (C, c) (by simp)) value text desc

end CilForge.CallSite
