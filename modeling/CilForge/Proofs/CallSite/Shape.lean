import CilForge.Proofs.CallSite.Sight

/-!
# The shapes of call sites

A site is a stretch of lines that control enters at the first one only: what prepares the call, the
operand expression, and the call with what stands directly before it. `Shape` lists what such
stretches look like and what is to be done with them, and `Stands` places them in a body.
-/

namespace CilForge.CallSite

abbrev Lines := List (Handle × Instr)

def sight (lines : Lines) : List Instr := lines.map (·.2.seen)

inductive Plan where
  | fold (result : Instr)
  | redirect (op : Operation)
  | underlying (primitive : Sig)
  | hasFlag
  | constrained

structure Recipe where
  pattern : Pattern
  info : EnumInfo
  plan : Plan

def Plan.change (front back : List Handle) : Plan → Change
  | fold result => .fold (front.headD ⟨0⟩) (back.getLastD ⟨0⟩) result
  | redirect op => .redirect (front ++ back.dropLast) (back.getLastD ⟨0⟩) op
  | underlying primitive => .underlying (front.headD ⟨0⟩) (back.getLastD ⟨0⟩) primitive
  | hasFlag => .hasFlag (front.headD ⟨0⟩) (back.headD ⟨0⟩) (back.getLastD ⟨0⟩)
  | constrained => .constrained (front.headD ⟨0⟩) (back.getLastD ⟨0⟩)

def Recipe.site (r : Recipe) (front back : List Handle) : Site :=
  ⟨r.pattern, r.info, r.plan.change front back⟩

/-- The preparations, the operand expression and the call of a site, and what is done with it, where
`desc` tells what is known of an enum. -/
inductive Shape (desc : Sig → Option EnumInfo) :
    Recipe → List Instr → List Instr → List Instr → Prop where
  | getValues {a r c : Instr} {e : Sig} {d : EnumInfo} :
    a.opcode = .ldtoken → valueType? a = some e → calls r .call Platform.isGetTypeFromHandle →
    (called? c).any Platform.isEnumGetValues → desc e = some d →
    Shape desc ⟨.getValues, d, .redirect .getValues⟩ [a, r] [] [c]
  | underlying {a r c : Instr} {e : Sig} {d : EnumInfo} :
    a.opcode = .ldtoken → valueType? a = some e → calls r .call Platform.isGetTypeFromHandle →
    (called? c).any Platform.isEnumGetValues = false →
    (called? c).any Platform.isEnumGetUnderlyingType → desc e = some d →
    Shape desc ⟨.getUnderlyingType, d, .underlying d.kind.sig⟩ [a] [r] [c]
  | definedName {a r l c : Instr} {e : Sig} {d : EnumInfo} {name : String} :
    a.opcode = .ldtoken → valueType? a = some e → calls r .call Platform.isGetTypeFromHandle →
    l.opcode = .ldstr → l.string? = some name → calls c .call Platform.isEnumIsDefined →
    desc e = some d →
    Shape desc ⟨.isDefined, d, .fold (loadBool (d.declared.any (·.name = name)))⟩ [a, r, l] [] [c]
  | definedConstant {a r t l c : Instr} {e : Sig} {d : EnumInfo} {w : BitVec 64} :
    a.opcode = .ldtoken → valueType? a = some e → calls r .call Platform.isGetTypeFromHandle →
    constant? t = some w → l.opcode = .box → l.type? = some e ∨ l.type? = some d.kind.sig →
    calls c .call Platform.isEnumIsDefined → desc e = some d →
    Shape desc ⟨.isDefined, d, .fold (loadBool (d.nameOf? (.ofWord d.kind w)).isSome)⟩
      [a, r, t, l] [] [c]
  | defined {a r l c : Instr} {e : Sig} {d : EnumInfo} {V : List Instr} :
    a.opcode = .ldtoken → valueType? a = some e → calls r .call Platform.isGetTypeFromHandle →
    Runs 1 1 V 2 → V.length + 1 < reach →
    -- no line before is a call of the test with its arguments on the stack
    (∀ V₁ x V₂, V = V₁ ++ x :: V₂ → Runs 1 1 V₁ 2 → calls x .call Platform.isEnumIsDefined = false) →
    (∀ t, V = [t] → constant? t = none) → l.opcode = .box →
    l.type? = some e ∨ l.type? = some d.kind.sig → calls c .call Platform.isEnumIsDefined →
    desc e = some d → Shape desc ⟨.isDefined, d, .redirect .isDefined⟩ [a, r] V [l, c]
  | literalText {a b c : Instr} {e : Sig} {d : EnumInfo} {w : BitVec 64} :
    constant? a = some w → b.opcode = .box → valueType? b = some e →
    calls c .callvirt Platform.isVirtualToString → desc e = some d →
    Shape desc ⟨.toString, d, .fold (.ldstr (d.format (.ofWord d.kind w)))⟩ [a, b] [] [c]
  | literalPair {a b k s c : Instr} {e : Sig} {d : EnumInfo} {v w : BitVec 64} {p : Pattern} :
    constant? a = some v → b.opcode = .box → valueType? b = some e → constant? k = some w →
    s.isTyped .box e → pairPattern? c = some p → desc e = some d →
    Shape desc ⟨p, d, .fold (loadBool
      (if p = .hasFlag then decide (EnumValue.ofWord d.kind v &&& .ofWord d.kind w =
          .ofWord d.kind w)
        else decide (EnumValue.ofWord d.kind v = .ofWord d.kind w)))⟩ [a, b, k, s] [] [c]
  | boxText {a c : Instr} {e : Sig} {d : EnumInfo} :
    a.opcode = .box → valueType? a = some e → calls c .callvirt Platform.isVirtualToString →
    desc e = some d → Shape desc ⟨.toString, d, .redirect .toString⟩ [a] [] [c]
  | pair {a s c : Instr} {e : Sig} {d : EnumInfo} {p : Pattern} {V : List Instr} :
    a.opcode = .box → valueType? a = some e → Runs 1 1 V 2 → V.length < reach →
    -- no line before is the second box
    (∀ V₁ x y V₂, V = V₁ ++ x :: y :: V₂ → Runs 1 1 V₁ 2 → x.isTyped .box e → pairPattern? y = none) →
    s.isTyped .box e → pairPattern? c = some p → desc e = some d →
    Shape desc ⟨p, d, if p = .hasFlag then .hasFlag else .redirect .equals⟩ [a] V [s, c]
  | constrained {a c : Instr} {e : Sig} {d : EnumInfo} :
    a.opcode = .constrained → valueType? a = some e →
    calls c .callvirt Platform.isVirtualToString → desc e = some d →
    Shape desc ⟨.constrainedToString, d, .constrained⟩ [a] [] [c]

def known (ctx : Context) (m : ModuleDef) (e : Sig) : Option EnumInfo :=
  (EnumInfo.ofSig ctx.library m e).toOption

theorem sight_eq_nil {L : Lines} : sight L = [] ↔ L = [] := List.map_eq_nil_iff

theorem sight_eq_cons {L : Lines} {x : Instr} {l : List Instr} :
    sight L = x :: l ↔ ∃ h i L', L = (h, i) :: L' ∧ i.seen = x ∧ sight L' = l := by
  simp [sight, List.map_eq_cons_iff]

theorem runs_sight {f d d' : Nat} {h : Handle} {i : Instr} {V : Lines} :
    Runs f d (sight ((h, i) :: V)) d' ↔ i.straight = true ∧ i.effect.pops + f ≤ d ∧
      Runs f (Body.depthAfter i d) (sight V) d' := by
  simp [sight, Runs, Body.depthAfter]

/-! ## The lines of a shape -/

/-- The lines of a site, told as they are and not as they are seen. -/
inductive Outline (desc : Sig → Option EnumInfo) : Recipe → Lines → Lines → Lines → Prop where
  | getValues {A R C : Handle} {a r c : Instr} {e : Sig} {d : EnumInfo} :
    a.opcode = .ldtoken → valueType? a = some e → calls r .call Platform.isGetTypeFromHandle →
    (called? c).any Platform.isEnumGetValues → desc e = some d →
    Outline desc ⟨.getValues, d, .redirect .getValues⟩ [(A, a), (R, r)] [] [(C, c)]
  | underlying {A R C : Handle} {a r c : Instr} {e : Sig} {d : EnumInfo} :
    a.opcode = .ldtoken → valueType? a = some e → calls r .call Platform.isGetTypeFromHandle →
    (called? c).any Platform.isEnumGetValues = false →
    (called? c).any Platform.isEnumGetUnderlyingType → desc e = some d →
    Outline desc ⟨.getUnderlyingType, d, .underlying d.kind.sig⟩ [(A, a)] [(R, r)] [(C, c)]
  | definedName {A R L C : Handle} {a r l c : Instr} {e : Sig} {d : EnumInfo} {name : String} :
    a.opcode = .ldtoken → valueType? a = some e → calls r .call Platform.isGetTypeFromHandle →
    l.opcode = .ldstr → l.string? = some name → calls c .call Platform.isEnumIsDefined →
    desc e = some d →
    Outline desc ⟨.isDefined, d, .fold (loadBool (d.declared.any (·.name = name)))⟩
      [(A, a), (R, r), (L, l)] [] [(C, c)]
  | definedConstant {A R T L C : Handle} {a r t l c : Instr} {e : Sig} {d : EnumInfo} {w : BitVec 64} :
    a.opcode = .ldtoken → valueType? a = some e → calls r .call Platform.isGetTypeFromHandle →
    constant? t = some w → l.opcode = .box → l.type? = some e ∨ l.type? = some d.kind.sig →
    calls c .call Platform.isEnumIsDefined → desc e = some d →
    Outline desc ⟨.isDefined, d, .fold (loadBool (d.nameOf? (.ofWord d.kind w)).isSome)⟩
      [(A, a), (R, r), (T, t), (L, l)] [] [(C, c)]
  | defined {A R L C : Handle} {a r l c : Instr} {e : Sig} {d : EnumInfo} {V : Lines} :
    a.opcode = .ldtoken → valueType? a = some e → calls r .call Platform.isGetTypeFromHandle →
    Runs 1 1 (sight V) 2 → V.length + 1 < reach →
    (∀ V₁ x V₂, V = V₁ ++ x :: V₂ → Runs 1 1 (sight V₁) 2 →
      calls x.2 .call Platform.isEnumIsDefined = false) →
    (∀ T t, V = [(T, t)] → constant? t = none) → l.opcode = .box →
    l.type? = some e ∨ l.type? = some d.kind.sig → calls c .call Platform.isEnumIsDefined →
    desc e = some d →
    Outline desc ⟨.isDefined, d, .redirect .isDefined⟩ [(A, a), (R, r)] V [(L, l), (C, c)]
  | literalText {A B C : Handle} {a b c : Instr} {e : Sig} {d : EnumInfo} {w : BitVec 64} :
    constant? a = some w → b.opcode = .box → valueType? b = some e →
    calls c .callvirt Platform.isVirtualToString → desc e = some d →
    Outline desc ⟨.toString, d, .fold (.ldstr (d.format (.ofWord d.kind w)))⟩
      [(A, a), (B, b)] [] [(C, c)]
  | literalPair {A B K S C : Handle} {a b k s c : Instr} {e : Sig} {d : EnumInfo} {v w : BitVec 64}
      {p : Pattern} :
    constant? a = some v → b.opcode = .box → valueType? b = some e → constant? k = some w →
    s.isTyped .box e → pairPattern? c = some p → desc e = some d →
    Outline desc ⟨p, d, .fold (loadBool
      (if p = .hasFlag then decide (EnumValue.ofWord d.kind v &&& .ofWord d.kind w =
          .ofWord d.kind w)
        else decide (EnumValue.ofWord d.kind v = .ofWord d.kind w)))⟩
      [(A, a), (B, b), (K, k), (S, s)] [] [(C, c)]
  | boxText {A C : Handle} {a c : Instr} {e : Sig} {d : EnumInfo} :
    a.opcode = .box → valueType? a = some e → calls c .callvirt Platform.isVirtualToString →
    desc e = some d → Outline desc ⟨.toString, d, .redirect .toString⟩ [(A, a)] [] [(C, c)]
  | pair {A S C : Handle} {a s c : Instr} {e : Sig} {d : EnumInfo} {p : Pattern} {V : Lines} :
    a.opcode = .box → valueType? a = some e → Runs 1 1 (sight V) 2 → V.length < reach →
    (∀ V₁ x y V₂, V = V₁ ++ x :: y :: V₂ → Runs 1 1 (sight V₁) 2 → x.2.isTyped .box e →
      pairPattern? y.2 = none) →
    s.isTyped .box e → pairPattern? c = some p → desc e = some d →
    Outline desc ⟨p, d, if p = .hasFlag then .hasFlag else .redirect .equals⟩
      [(A, a)] V [(S, s), (C, c)]
  | constrained {A C : Handle} {a c : Instr} {e : Sig} {d : EnumInfo} :
    a.opcode = .constrained → valueType? a = some e →
    calls c .callvirt Platform.isVirtualToString → desc e = some d →
    Outline desc ⟨.constrainedToString, d, .constrained⟩ [(A, a)] [] [(C, c)]

/-- What holds of lines as they are seen holds of the lines. -/
theorem Shape.outline {desc : Sig → Option EnumInfo} {r : Recipe} {front operand back : Lines}
    (shape : Shape desc r (sight front) (sight operand) (sight back)) :
    Outline desc r front operand back := by
  have call {i : Instr} {o : Opcode} {test : MethodRef → Bool} (same : ∀ m, test m.seen = test m)
      (yes : calls i.seen o test = true) : calls i o test = true := by
    rwa [calls_seen i o same] at yes
  have handle {i : Instr} := @call i .call _ Platform.isGetTypeFromHandle_seen
  have member {i : Instr} := @call i .call _ Platform.isEnumIsDefined_seen
  have text {i : Instr} := @call i .callvirt _ Platform.isVirtualToString_seen
  generalize hF : sight front = F at shape
  generalize hV : sight operand = V at shape
  generalize hB : sight back = B at shape
  cases shape with
  | getValues opcode value resolves values desc =>
    simp only [sight_eq_cons, sight_eq_nil] at hF hV hB
    obtain ⟨A, a, _, rfl, rfl, R, r, _, rfl, rfl, rfl⟩ := hF
    obtain ⟨C, c, _, rfl, rfl, rfl⟩ := hB
    cases hV
    rw [any_called?_seen c Platform.isEnumGetValues_seen] at values
    exact .getValues opcode (by simpa using value) (handle resolves) values desc
  | underlying opcode value resolves values underlying desc =>
    simp only [sight_eq_cons, sight_eq_nil] at hF hV hB
    obtain ⟨A, a, _, rfl, rfl, rfl⟩ := hF
    obtain ⟨R, r, _, rfl, rfl, rfl⟩ := hV
    obtain ⟨C, c, _, rfl, rfl, rfl⟩ := hB
    rw [any_called?_seen c Platform.isEnumGetValues_seen] at values
    rw [any_called?_seen c Platform.isEnumGetUnderlyingType_seen] at underlying
    exact .underlying opcode (by simpa using value) (handle resolves) values underlying desc
  | definedName opcode value resolves load string test desc =>
    simp only [sight_eq_cons, sight_eq_nil] at hF hV hB
    obtain ⟨A, a, _, rfl, rfl, R, r, _, rfl, rfl, L, l, _, rfl, rfl, rfl⟩ := hF
    obtain ⟨C, c, _, rfl, rfl, rfl⟩ := hB
    cases hV
    exact .definedName opcode (by simpa using value) (handle resolves) load (by simpa using string)
      (member test) desc
  | definedConstant opcode value resolves constant boxes typed test desc =>
    simp only [sight_eq_cons, sight_eq_nil] at hF hV hB
    obtain ⟨A, a, _, rfl, rfl, R, r, _, rfl, rfl, T, t, _, rfl, rfl, L, l, _, rfl, rfl, rfl⟩ := hF
    obtain ⟨C, c, _, rfl, rfl, rfl⟩ := hB
    cases hV
    exact .definedConstant opcode (by simpa using value) (handle resolves) (by simpa using constant)
      boxes (by simpa using typed) (member test) desc
  | defined opcode value resolves runs short first constant boxes typed test desc =>
    subst hV
    simp only [sight_eq_cons, sight_eq_nil] at hF hB
    obtain ⟨A, a, _, rfl, rfl, R, r, _, rfl, rfl, rfl⟩ := hF
    obtain ⟨L, l, _, rfl, rfl, C, c, _, rfl, rfl, rfl⟩ := hB
    refine .defined opcode (by simpa using value) (handle resolves) runs (by simpa [sight] using short)
      (fun V₁ x V₂ eq reached => ?_) (fun T t eq => ?_) boxes (by simpa using typed) (member test) desc
    · have := first (sight V₁) x.2.seen (sight V₂) (by rw [eq]; simp [sight]) reached
      rwa [calls_seen _ _ Platform.isEnumIsDefined_seen] at this
    · simpa using constant t.seen (by rw [eq]; rfl)
  | literalText constant boxes value test desc =>
    simp only [sight_eq_cons, sight_eq_nil] at hF hV hB
    obtain ⟨A, a, _, rfl, rfl, B, x, _, rfl, rfl, rfl⟩ := hF
    obtain ⟨C, c, _, rfl, rfl, rfl⟩ := hB
    cases hV
    exact .literalText (by simpa using constant) boxes (by simpa using value) (text test) desc
  | literalPair constant boxes value constant' boxes' pattern desc =>
    simp only [sight_eq_cons, sight_eq_nil] at hF hV hB
    obtain ⟨A, a, _, rfl, rfl, B, x, _, rfl, rfl, K, k, _, rfl, rfl, S, s, _, rfl, rfl, rfl⟩ := hF
    obtain ⟨C, c, _, rfl, rfl, rfl⟩ := hB
    cases hV
    exact .literalPair (by simpa using constant) boxes (by simpa using value)
      (by simpa using constant') (by simpa using boxes') (by simpa using pattern) desc
  | boxText boxes value test desc =>
    simp only [sight_eq_cons, sight_eq_nil] at hF hV hB
    obtain ⟨A, a, _, rfl, rfl, rfl⟩ := hF
    obtain ⟨C, c, _, rfl, rfl, rfl⟩ := hB
    cases hV
    exact .boxText boxes (by simpa using value) (text test) desc
  | pair boxes value runs short first boxes' pattern desc =>
    subst hV
    simp only [sight_eq_cons, sight_eq_nil] at hF hB
    obtain ⟨A, a, _, rfl, rfl, rfl⟩ := hF
    obtain ⟨S, s, _, rfl, rfl, C, c, _, rfl, rfl, rfl⟩ := hB
    refine .pair boxes (by simpa using value) runs (by simpa [sight] using short)
      (fun V₁ x y V₂ eq reached typed => ?_) (by simpa using boxes') (by simpa using pattern) desc
    have := first (sight V₁) x.2.seen y.2.seen (sight V₂) (by rw [eq]; simp [sight]) reached
      (by simpa using typed)
    simpa using this
  | constrained marks value test desc =>
    simp only [sight_eq_cons, sight_eq_nil] at hF hV hB
    obtain ⟨A, a, _, rfl, rfl, rfl⟩ := hF
    obtain ⟨C, c, _, rfl, rfl, rfl⟩ := hB
    cases hV
    exact .constrained marks (by simpa using value) (text test) desc

/-! ## Sites in a body -/

/-- Control comes to these lines from the line before only. -/
def Alone (b : Body) (lines : Lines) : Prop := ∀ p ∈ lines, isJoin b p.1 = false

/-- The lines of a site in a body: control comes to all but the first from the line before only. -/
structure Stands (desc : Sig → Option EnumInfo) (b : Body) (r : Recipe)
    (pre front operand back post : Lines) : Prop where
  code : b.code = pre ++ (front ++ operand ++ back ++ post)
  alone : Alone b (front ++ operand ++ back).tail
  shape : Shape desc r (sight front) (sight operand) (sight back)

/-- A site that starts with the first of the given lines. -/
def StandsAt (desc : Sig → Option EnumInfo) (b : Body) (pre lines : Lines) (s : Site) : Prop :=
  ∃ r front operand back post, Stands desc b r pre front operand back post ∧
    lines = front ++ operand ++ back ++ post ∧ s = r.site (front.map (·.1)) (back.map (·.1))

end CilForge.CallSite
