import CilForge.Proofs.CallSite.Visit
import CilForge.Proofs.Pipeline.Stock

/-!
# Methods with one site

The smallest methods that rewriting changes: a local is loaded and boxed, one reflective operation is done
with it, and the result is returned. `run_idiom` says what becomes of them.
-/

namespace CilForge.CallSite

open Script

/-- The reflective operations on boxed values of an enum. -/
inductive Idiom where
  | toString | isDefined | equals | hasFlag
deriving DecidableEq

namespace Idiom

/-- The operation on a local of type `e`. Where it has a second operand, that is the first argument. -/
def code (e : Sig) (slot : Nat) : Idiom → List Instr
  | toString => [.ldloc slot, .typed .box e, .call .callvirt Platform.objectToString, ⟨.ret, .none⟩]
  | isDefined => [.typed .ldtoken e, .call .call Platform.getTypeFromHandle, .ldloc slot, .typed .box e,
      .call .call Platform.enumIsDefined, ⟨.ret, .none⟩]
  | equals => [.ldloc slot, .typed .box e, .ldarg 0, .typed .box e, .call .callvirt Platform.objectEquals,
      ⟨.ret, .none⟩]
  | hasFlag => [.ldloc slot, .typed .box e, .ldarg 0, .typed .box e, .call .callvirt Platform.enumHasFlag,
      ⟨.ret, .none⟩]

def body (idiom : Idiom) (e : Sig) (locals : Array Sig) (slot : Nat) : Body where
  code := numbered 0 (idiom.code e slot)
  nextIndex := (idiom.code e slot).length
  locals

def anchor : Idiom → Handle
  | isDefined => ⟨0⟩
  | toString | equals | hasFlag => ⟨1⟩

def site (d : EnumInfo) : Idiom → Site
  | toString => ⟨.toString, d, .redirect [⟨1⟩] ⟨2⟩ .toString⟩
  | isDefined => ⟨.isDefined, d, .redirect [⟨0⟩, ⟨1⟩, ⟨3⟩] ⟨4⟩ .isDefined⟩
  | equals => ⟨.equals, d, .redirect [⟨1⟩, ⟨3⟩] ⟨4⟩ .equals⟩
  | hasFlag => ⟨.hasFlag, d, .hasFlag ⟨1⟩ ⟨3⟩ ⟨4⟩⟩

def rewritten (idiom : Idiom) (k : IntKind) (locals : Array Sig) (slot : Nat) (ref : MethodRef) : Body :=
  match idiom with
  | toString =>
    { code := [(⟨0⟩, .ldloc slot), (⟨4⟩, .call .call ref), (⟨3⟩, ⟨.ret, .none⟩)]
      nextIndex := 5
      locals }
  | isDefined =>
    { code := [(⟨2⟩, .ldloc slot), (⟨6⟩, .call .call ref), (⟨5⟩, ⟨.ret, .none⟩)]
      nextIndex := 7
      locals }
  | equals =>
    { code := [(⟨0⟩, .ldloc slot), (⟨2⟩, .ldarg 0), (⟨6⟩, .call .call ref), (⟨5⟩, ⟨.ret, .none⟩)]
      nextIndex := 7
      locals }
  | hasFlag =>
    { code := [(⟨0⟩, .ldloc slot), (⟨2⟩, .ldarg 0), (⟨6⟩, .stloc locals.size), (⟨7⟩, .ldloc locals.size),
        (⟨8⟩, ⟨.and, .none⟩), (⟨9⟩, .ldloc locals.size), (⟨10⟩, ⟨.ceq, .none⟩), (⟨5⟩, ⟨.ret, .none⟩)]
      nextIndex := 11
      locals := locals.push k.sig }

end Idiom

section
variable {ctx : Context} {m : ModuleDef} {d : EnumInfo} {locals : Array Sig} {slot : Nat} {b : Body}

/-! ## The site -/

theorem matchAt_of_stands (nodup : b.handles.Nodup) {r : Recipe} {pre front operand back post : Lines} {A : Handle}
    (stands : Stands (known ctx m) b r pre front operand back post) (head : front.head?.map (·.1) = some A)
    (bare : literalBefore ctx m b A = false) :
    matchAt ctx m b A = .ok (some (r.site (front.map (·.1)) (back.map (·.1)))) := by
  obtain ⟨A', a, rest, rfl⟩ := stands.exists_head
  obtain rfl : A' = A := Option.some.inj head
  have code : b.code = pre ++ (A', a) :: (rest ++ operand ++ back ++ post) := stands.code
  rw [matchAt_eq nodup code, if_neg (by simp [bare])]
  exact search_of_stands nodup stands rfl

theorem matchAt_idiom (info : known ctx m d.sig = some d) (locals : Array Sig) (slot : Nat) (idiom : Idiom) :
    matchAt ctx m (idiom.body d.sig locals slot) idiom.anchor = .ok (some (idiom.site d)) := by
  have nodup : (idiom.body d.sig locals slot).handles.Nodup := by
    cases idiom with
    | toString => exact (by decide : ((List.range 4).map Handle.mk).Nodup)
    | _ => exact (by decide : ((List.range 6).map Handle.mk).Nodup)
  have single {i x y : Instr} {V₁ V₂ : List Instr} (cut : [i] = V₁ ++ x :: y :: V₂) : False := by
    have := congrArg List.length cut
    simp at this
    omega
  -- both calls on two boxed values have the same lines before the call
  have pair {p : Pattern} {r : MethodRef} (pattern : pairPattern? (Instr.call .callvirt r).seen = some p) :
      Shape (known ctx m) ⟨p, d, if p = .hasFlag then .hasFlag else .redirect .equals⟩
        (sight [(⟨1⟩, .typed .box d.sig)]) (sight [(⟨2⟩, .ldarg 0)])
        (sight [(⟨3⟩, .typed .box d.sig), (⟨4⟩, .call .callvirt r)]) := by
    have box : (Instr.typed .box d.sig).isTyped .box d.sig = true := by simp [Instr.isTyped, Instr.typed, Instr.type?]
    exact .pair rfl rfl ⟨rfl, Nat.le_refl 1, rfl⟩ (Nat.le_of_ble_eq_true rfl)
      (fun _ _ _ _ cut => (single cut).elim) box pattern info
  cases idiom with
  | toString =>
    have stands : Stands (known ctx m) (Idiom.toString.body d.sig locals slot) ⟨.toString, d, .redirect .toString⟩
        [(⟨0⟩, .ldloc slot)] [(⟨1⟩, .typed .box d.sig)] [] [(⟨2⟩, .call .callvirt Platform.objectToString)]
        [(⟨3⟩, ⟨.ret, .none⟩)] :=
      ⟨rfl, List.map_inj_left.1 rfl, .boxText rfl rfl rfl info⟩
    exact matchAt_of_stands nodup stands rfl rfl
  | isDefined =>
    have stands : Stands (known ctx m) (Idiom.isDefined.body d.sig locals slot) ⟨.isDefined, d, .redirect .isDefined⟩
        [] [(⟨0⟩, .typed .ldtoken d.sig), (⟨1⟩, .call .call Platform.getTypeFromHandle)] [(⟨2⟩, .ldloc slot)]
        [(⟨3⟩, .typed .box d.sig), (⟨4⟩, .call .call Platform.enumIsDefined)] [(⟨5⟩, ⟨.ret, .none⟩)] := by
      refine ⟨rfl, List.map_inj_left.1 rfl, .defined rfl rfl rfl ⟨rfl, Nat.le_refl 1, rfl⟩
        (Nat.le_of_ble_eq_true rfl) ?_ ?_ rfl (.inl rfl) rfl info⟩
      · intro V₁ x V₂ cut _
        obtain ⟨-, last⟩ | ⟨-, none⟩ := List.singleton_eq_append_iff.1 cut
        · cases last
          rfl
        · cases none
      · intro t cut
        cases cut
        rfl
    exact matchAt_of_stands nodup stands rfl rfl
  | equals =>
    have stands : Stands (known ctx m) (Idiom.equals.body d.sig locals slot) ⟨.equals, d, .redirect .equals⟩
        [(⟨0⟩, .ldloc slot)] [(⟨1⟩, .typed .box d.sig)] [(⟨2⟩, .ldarg 0)]
        [(⟨3⟩, .typed .box d.sig), (⟨4⟩, .call .callvirt Platform.objectEquals)] [(⟨5⟩, ⟨.ret, .none⟩)] :=
      ⟨rfl, List.map_inj_left.1 rfl, pair (p := .equals) (r := Platform.objectEquals) rfl⟩
    exact matchAt_of_stands nodup stands rfl rfl
  | hasFlag =>
    have stands : Stands (known ctx m) (Idiom.hasFlag.body d.sig locals slot) ⟨.hasFlag, d, .hasFlag⟩
        [(⟨0⟩, .ldloc slot)] [(⟨1⟩, .typed .box d.sig)] [(⟨2⟩, .ldarg 0)]
        [(⟨3⟩, .typed .box d.sig), (⟨4⟩, .call .callvirt Platform.enumHasFlag)] [(⟨5⟩, ⟨.ret, .none⟩)] :=
      ⟨rfl, List.map_inj_left.1 rfl, pair (p := .hasFlag) (r := Platform.enumHasFlag) rfl⟩
    exact matchAt_of_stands nodup stands rfl rfl

/-! ## The change -/

theorem apply_idiom {s : Session} (stocked : s.Stocked ctx m) (info : known ctx m d.sig = some d)
    (few : locals.size < room) (slot : Nat) (idiom : Idiom) : ∃ ref s',
      (idiom.site d).apply ctx ⟨s, idiom.body d.sig locals slot⟩ =
        (.ok (), ⟨s', idiom.rewritten d.kind locals slot ref⟩) ∧
      s'.Stocked ctx m ∧
      ∀ op, (idiom.site d).operation? = some op → s'.generated.helpers.lookup (op, d.name) = some ref := by
  have redirected {op : Operation} {p : Pattern} {hs : List Handle} {h : Handle} {b b' : MethodRef → Body}
      (edits : ∀ ref, redirectEdit hs h ref (b ref) = (.ok (), b' ref)) : ∃ ref s',
      (⟨p, d, .redirect hs h op⟩ : Site).apply ctx ⟨s, b ref⟩ = (.ok (), ⟨s', b' ref⟩) ∧ s'.Stocked ctx m ∧
        ∀ op', some op = some op' → s'.generated.helpers.lookup (op', d.name) = some ref := by
    obtain ⟨ref, s', helped, stocked', noted⟩ := stocked.helper op info
    refine ⟨ref, s', ?_, stocked', fun op' same => Option.some.inj same ▸ noted⟩
    simp only [Site.apply, run_bind, Pass.work, helped, Pass.edit, edits]
  cases idiom with
  | toString | isDefined | equals => exact redirected fun ref => rfl
  | hasFlag =>
    let t := locals.size
    let stage (code : Lines) (n : Nat) : Body := { code, nextIndex := n, locals := locals.push d.kind.sig }
    have added : Edit.addLocal d.kind.sig (Idiom.hasFlag.body d.sig locals slot) = (.ok t, stage _ _) := if_pos few
    have removed : Edit.remove ⟨1⟩ (stage (numbered 0 (Idiom.hasFlag.code d.sig slot)) 6) = (.ok (), stage
        [(⟨0⟩, .ldloc slot), (⟨2⟩, .ldarg 0), (⟨3⟩, .typed .box d.sig), (⟨4⟩, .call .callvirt Platform.enumHasFlag),
          (⟨5⟩, ⟨.ret, .none⟩)] 6) := rfl
    have kept : Edit.expand ⟨3⟩ (.stloc t) [.ldloc t, ⟨.and, .none⟩, .ldloc t] (stage
        [(⟨0⟩, .ldloc slot), (⟨2⟩, .ldarg 0), (⟨3⟩, .typed .box d.sig), (⟨4⟩, .call .callvirt Platform.enumHasFlag),
          (⟨5⟩, ⟨.ret, .none⟩)] 6) = (.ok ⟨6⟩, stage
        [(⟨0⟩, .ldloc slot), (⟨2⟩, .ldarg 0), (⟨6⟩, .stloc t), (⟨7⟩, .ldloc t), (⟨8⟩, ⟨.and, .none⟩), (⟨9⟩, .ldloc t),
          (⟨4⟩, .call .callvirt Platform.enumHasFlag), (⟨5⟩, ⟨.ret, .none⟩)] 10) := rfl
    have edited : hasFlagEdit ⟨1⟩ ⟨3⟩ ⟨4⟩ d.kind (Idiom.hasFlag.body d.sig locals slot) =
        (.ok (), Idiom.hasFlag.rewritten d.kind locals slot default) := by
      refine Edit.bind_eq_ok.2 ⟨_, _, added, Edit.bind_eq_ok.2 ⟨_, _, removed, Edit.bind_eq_ok.2 ⟨_, _, kept, ?_⟩⟩⟩
      exact Edit.bind_eq_ok.2 ⟨⟨10⟩, Idiom.hasFlag.rewritten d.kind locals slot default, rfl, rfl⟩
    refine ⟨default, s, ?_, stocked, fun op none => by cases none⟩
    simp only [Site.apply, Idiom.site, Pass.edit, edited]

end

/-! ## The run -/

section
variable {ctx : Context} (method : Token) {w w₁ : Workpiece} {h : Handle}

theorem visit_none (none : matchAt ctx w.session.module w.body h = .ok none) :
    visit ctx method h w = (.ok false, w) := by
  generalize ran : visit ctx method h w = result
  obtain ⟨outcome, w'⟩ := result
  cases visit_cases ran with
  | nothing => rfl
  | done _ _ _ found => cases found.symm.trans none
  | failed found => cases found.symm.trans none
  | skipped _ _ _ failed => cases failed.symm.trans none
  | refused failed => cases failed.symm.trans none

theorem visitAll_none : ∀ {hs : List Handle}, (∀ h ∈ hs, matchAt ctx w.session.module w.body h = .ok none) →
    visitAll ctx method hs w = (.ok false, w)
  | [], _ => rfl
  | h :: hs, bare => by
    obtain ⟨here, rest⟩ := List.forall_mem_cons.1 bare
    simp only [visitAll, run_bind, visit_none method here, visitAll_none rest]
    rfl

theorem visitAll_one {A : Handle} {site : Site} {before : List Handle}
    (found : matchAt ctx w.session.module w.body A = .ok (some site)) (applied : site.apply ctx w = (.ok (), w₁))
    (rest : ∀ h ∈ before, matchAt ctx w₁.session.module w₁.body h = .ok none) :
    ∀ {behind : List Handle}, (∀ h ∈ behind, matchAt ctx w.session.module w.body h = .ok none) →
      ∃ w', visitAll ctx method (behind ++ A :: before) w = (.ok true, w') ∧ w'.body = w₁.body ∧
        w'.session.module = w₁.session.module ∧ w'.session.generated = w₁.session.generated
  | [], _ => by
    obtain ⟨w', visited, body, module, generated⟩ := visit_of_site method found applied
    have visited : visit ctx method A w = (.ok true, w') := visited
    have others : visitAll ctx method before w' = (.ok false, w') := visitAll_none method (by rwa [body, module])
    refine ⟨w', ?_, body, module, generated⟩
    simp only [List.nil_append, visitAll, run_bind, visited, others]
    rfl
  | h :: behind, bare => by
    obtain ⟨here, bare⟩ := List.forall_mem_cons.1 bare
    obtain ⟨w', visited, same⟩ := visitAll_one found applied rest bare
    refine ⟨w', ?_, same⟩
    simp only [List.cons_append, visitAll, run_bind, visit_none method here, visited]
    rfl

/-- The method is changed at its site, with the generated method that the site asks for. -/
theorem run_idiom {m : ModuleDef} {s : Session} {d : EnumInfo} {locals : Array Sig} (slot : Nat)
    (stocked : s.Stocked ctx m) (reserves : m.Reserves ctx) (info : known ctx m d.sig = some d)
    (few : locals.size < room) (idiom : Idiom) : ∃ ref w',
      run ctx method ⟨s, idiom.body d.sig locals slot⟩ = (.ok true, w') ∧
      w'.body = idiom.rewritten d.kind locals slot ref ∧ w'.session.Stocked ctx m ∧
      ∀ op, (idiom.site d).operation? = some op → w'.session.generated.helpers.lookup (op, d.name) = some ref := by
  obtain ⟨ref, s₁, applied, stocked₁, noted⟩ := apply_idiom stocked info few slot idiom
  have same := known_extends stocked.keeps.grows reserves
  have found := matchAt_idiom (same ▸ info) locals slot idiom
  obtain ⟨behind, before, handles, bare, rest⟩ : ∃ behind before,
      (idiom.body d.sig locals slot).handles.reverse = behind ++ idiom.anchor :: before ∧
      (∀ h ∈ behind, matchAt ctx s.module (idiom.body d.sig locals slot) h = .ok none) ∧
      ∀ h ∈ before, matchAt ctx s₁.module (idiom.rewritten d.kind locals slot ref) h = .ok none := by
    cases idiom with
    | toString => exact ⟨[⟨3⟩, ⟨2⟩], [⟨0⟩], rfl, List.map_inj_left.1 rfl, List.map_inj_left.1 rfl⟩
    | isDefined => exact ⟨[⟨5⟩, ⟨4⟩, ⟨3⟩, ⟨2⟩, ⟨1⟩], [], rfl, List.map_inj_left.1 rfl, List.forall_mem_nil _⟩
    | equals | hasFlag => exact ⟨[⟨5⟩, ⟨4⟩, ⟨3⟩, ⟨2⟩], [⟨0⟩], rfl, List.map_inj_left.1 rfl, List.map_inj_left.1 rfl⟩
  obtain ⟨w', visited, body, module, generated⟩ := visitAll_one method found applied rest bare
  refine ⟨ref, w', ?_, body, stocked₁.noted module generated, ?_⟩
  · rw [← visited, ← handles]
    rfl
  · rw [generated]
    exact noted

end

end CilForge.CallSite
