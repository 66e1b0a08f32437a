import CilForge.Proofs.Generate.Performs
import CilForge.Proofs.Machine.Apart
import CilForge.Proofs.Pipeline.Requests

/-!
# The methods of a new holder

In a session that begins without a holder, all that the holder gets are generated methods. So a machine that
runs the module finds the generated code behind every reference that was given out
(`Machine.performs_of_stocked`), and what it knew of before is as it was (`Machine.apart_of_stocked`).
-/

namespace CilForge

open Generated CallSite

structure MethodDef.Made (ctx : Context) (desc : Sig → Option EnumInfo) (e : MethodDef) : Prop where
  name : '_' ∈ e.name.toList
  code : ∃ (op : Operation) (d : EnumInfo), desc d.sig = some d ∧ e.sig = op.sig d.sig ∧
    e.body = some (op.script d ctx.settings.density).body

namespace Session

/-- A session that began with `m`, and whose holder has generated methods only. -/
structure Stocked (ctx : Context) (m : ModuleDef) (s : Session) : Prop where
  keeps : s.Keeps ctx m
  made : ∀ row t, s.module.find? ctx.settings.holder = some row → s.module.types[row]? = some t →
    ∀ e ∈ t.methods, e.Made ctx (known ctx m)

variable {ctx : Context} {m : ModuleDef} {s s' : Session}

theorem Stocked.fresh (free : s.module.find? ctx.settings.holder = none) (bare : s.generated = {}) :
    s.Stocked ctx s.module := by
  refine ⟨⟨?_, .same _, ?_, ?_, ?_⟩, fun row t found => ?_⟩
  · intro id known
    rw [bare] at known
    cases known
  · intro op enum ref noted
    rw [bare] at noted
    cases noted
  · intro id mem
    rw [bare] at mem
    exact absurd mem (Array.not_mem_empty id)
  · rw [bare]
    exact List.nodup_nil
  · rw [free] at found
    cases found

theorem Stocked.noted (stocked : s.Stocked ctx m) (module : s'.module = s.module)
    (generated : s'.generated = s.generated) : s'.Stocked ctx m := by
  obtain ⟨⟨knows, grows, cached, created, nodup⟩, made⟩ := stocked
  refine ⟨⟨?_, module ▸ grows, ?_, ?_, generated ▸ nodup⟩, module ▸ made⟩
  · intro id known
    rw [generated] at known
    rw [module]
    exact knows id known
  · rw [generated, module]
    exact cached
  · rw [generated, module]
    exact created

theorem Stocked.helper (stocked : s.Stocked ctx m) (op : Operation) {d : EnumInfo} (info : known ctx m d.sig = some d) :
    ∃ ref s', helper ctx op d s = (.ok ref, s') ∧ s'.Stocked ctx m ∧
      s'.generated.helpers.lookup (op, d.name) = some ref := by
  obtain ⟨ref, s', done, keeps', -, noted, -⟩ := helper_keeps stocked.keeps op d
  refine ⟨ref, s', done, ⟨keeps', ?_⟩, noted⟩
  rcases helper_cases stocked.keeps.knows op d with ⟨ref', -, done'⟩ | ⟨-, s₁, m₁, t, name, id, done', answered⟩
  · cases done.symm.trans done'
    exact stocked.made
  cases done.symm.trans done'
  have old : ∀ e ∈ t.methods, e.Made ctx (known ctx m) := by
    cases found : s.module.find? ctx.settings.holder with
    | none =>
      rw [answered.bare found]
      simp
    | some row =>
      have same := answered.old row found
      have place := answered.found
      have here := answered.row
      rw [same] at place here
      exact stocked.made id.type t place here
  intro row t' found here e mem
  obtain rfl : row = id.type := Option.some.inj (found.symm.trans answered.found')
  rcases answered.method with ⟨-, module, -⟩ | ⟨chosen, -, e', called, ⟨sig, body⟩, added⟩
  · rw [module, answered.row] at here
    cases here
    exact old e mem
  · obtain ⟨-, row'⟩ := ModuleDef.row_addMethod answered.row added
    rw [row'] at here
    cases here
    rcases Array.mem_push.1 mem with mem | rfl
    · exact old e mem
    · exact ⟨called ▸ underscore_mem_chooseName chosen, op, d, info, sig, body⟩

/-- Behind a reference that was given out there is the code of the operation, also when the module has grown. -/
theorem Stocked.lookup? (stocked : s.Stocked ctx m) {op : Operation} {d : EnumInfo} {ref : MethodRef} {m' : ModuleDef}
    (noted : s.generated.helpers.lookup (op, d.name) = some ref) (info : known ctx m d.sig = some d)
    (ext : s.module.Extends ctx.settings.holder (fun _ d d' => d' = d) m') :
    ref.declaring = ctx.settings.holder ∧ ref.sig = op.sig d.sig ∧ ∃ e, m'.lookup? ref = some e ∧
      e.body = some (op.script d ctx.settings.density).body := by
  obtain ⟨declaring, sig, id, finds⟩ := stocked.keeps.cached op d.name ref noted
  have looked := (ext.finds finds).lookup?_eq
  refine ⟨declaring, sig, ?_⟩
  obtain ⟨found, t, row, first⟩ := finds
  obtain ⟨e, there, yes, -⟩ := findIdx?_eq_some.1 first
  rw [Bool.and_eq_true, decide_eq_true_eq, decide_eq_true_eq] at yes
  rw [declaring] at found
  obtain ⟨op', d', info', sig', body⟩ := (stocked.made _ t found row e (Array.mem_of_getElem? there)).code
  -- the signature tells the operation and the enum
  obtain ⟨rfl, name⟩ : op = op' ∧ d.name = d'.name := Operation.sig_injective (sig.symm.trans (yes.2.symm.trans sig'))
  have same : d' = d := by
    rw [EnumInfo.sig, ← name] at info'
    exact Option.some.inj (info'.symm.trans info)
  subst same
  refine ⟨e, looked.trans ?_, body⟩
  have method : s.module.method? id = some e := by simp [ModuleDef.method?, row, there]
  obtain ⟨_, there', rfl⟩ := ext.method? method
  exact there'

end Session

/-! ## Machines with the grown module -/

/-- The module has none of the platform types that make up call sites and generated code. -/
def ModuleDef.LeavesPlatform (m : ModuleDef) : Prop :=
  ∀ name ∈ ["Type", "Enum", "Object", "ValueType", "Convert"], m.find? (.system name) = none

/-- The name of a platform method that code calls has no underscore. -/
theorem Platform.plain_of_isKnown {ref : MethodRef} (known : isKnown ref = true) : '_' ∉ ref.name.toList := by
  intro mem
  rw [unknown_of_underscore mem] at known
  cases known

theorem Platform.declaring_of_isKnown {ref : MethodRef} (known : isKnown ref = true) :
    ∃ name ∈ ["Type", "Enum", "Object", "ValueType", "Convert"], ref.declaring = .system name := by
  simp only [isKnown, isGetTypeFromHandle, isEnumGetValues, isEnumIsDefined, isEnumGetUnderlyingType, isEnumHasFlag,
    isVirtualToString, isVirtualEquals, isEnumBase, MethodRef.isNamed, Bool.or_eq_true, Bool.and_eq_true,
    decide_eq_true_eq] at known
  simp only [List.mem_cons, List.not_mem_nil, or_false, exists_eq_or_imp, exists_eq_left]
  tauto

namespace Session

variable {ctx : Context} {m : ModuleDef} {s : Session}

/-- A platform method that code calls is not one of the module: the holder is new, and the names of its methods
are of another kind. -/
theorem Stocked.lookup?_eq_none (stocked : s.Stocked ctx m) {ref : MethodRef}
    (free : m.find? ref.declaring = none) (plain : '_' ∉ ref.name.toList) : s.module.lookup? ref = none := by
  unfold ModuleDef.lookup?
  cases found : s.module.find? ref.declaring with
  | none => rfl
  | some row =>
    obtain ⟨holder, methods, here⟩ := stocked.keeps.grows.find?_fresh free found
    rw [holder] at found
    have made := stocked.made row _ found here
    simp only [Option.bind_eq_bind, Option.bind_some, here]
    rw [Array.find?_eq_none]
    intro e mem same
    rw [Bool.and_eq_true, decide_eq_true_eq] at same
    exact plain (same.1 ▸ (made e mem).name)

end Session

theorem enumInfo?_eq_known (ctx : Context) (m : ModuleDef) :
    (⟨m, ctx.library⟩ : Scope).enumInfo? = known ctx m := by
  funext e
  unfold Scope.enumInfo? known EnumInfo.ofSig
  cases e with
  | valueType name =>
    simp only
    cases ctx.library.resolve m name <;> rfl
  | _ => rfl

namespace ModuleDef

variable {m m' : ModuleDef} {ctx : Context}

theorem Extends.lookup?_eq (ext : m.Extends ctx.settings.holder (fun _ d d' => d' = d) m')
    (free : m.find? ctx.settings.holder = none) {ref : MethodRef} (other : ref.declaring ≠ ctx.settings.holder) :
    m'.lookup? ref = m.lookup? ref := by
  unfold lookup?
  cases found : m.find? ref.declaring with
  | none =>
    cases found' : m'.find? ref.declaring with
    | none => rfl
    | some row => exact absurd (ext.find?_fresh found found').1 other
  | some row =>
    rw [ext.find?_some found]
    obtain ⟨-, lt, -⟩ := find?_eq_some.1 found
    have here := Array.getElem?_eq_getElem lt
    obtain ⟨t', here', -, methods, size⟩ := ext.types row _ here
    have size : t'.methods.size = m.types[row].methods.size := by
      refine size.resolve_right fun holder => ?_
      rw [free] at holder
      cases holder
    have same : t'.methods = m.types[row].methods := by
      refine Array.ext size fun j lt' lt => ?_
      obtain ⟨_, there, rfl⟩ := methods j _ (Array.getElem?_eq_getElem lt)
      exact (Array.getElem?_eq_some_iff.1 there).2
    simp only [Option.bind_eq_bind, Option.bind_some, here, here', same]

theorem method?_of_lookup? {ref : MethodRef} {e : MethodDef} (looked : m.lookup? ref = some e) :
    ∃ id, m.method? id = some e := by
  obtain ⟨row, -, looked⟩ := Option.bind_eq_some_iff.1 looked
  obtain ⟨t, here, looked⟩ := Option.bind_eq_some_iff.1 looked
  obtain ⟨j, there⟩ := Array.getElem?_of_mem (Array.mem_of_find?_eq_some looked)
  exact ⟨⟨row, j⟩, by simp [method?, here, there]⟩

theorem reserves_of_free (free : m.find? ctx.settings.holder = none)
    (library : ∀ p ∈ ctx.library, p.find? ctx.settings.holder = none) : m.Reserves ctx := by
  refine .inr ?_
  have none : (ctx.library.findSome? fun p => (p.find? ctx.settings.holder).bind (p.types[·]?)) = none := by
    rw [List.findSome?_eq_none_iff]
    intro p mem
    rw [library p mem]
    rfl
  unfold known EnumInfo.ofSig Library.resolve
  simp only [free, Option.bind_none, none]
  rfl

end ModuleDef

namespace Machine

variable {ctx : Context} {m : ModuleDef} {s : Session} {μ μ' : Machine}

/-- The methods that were there do not see what has been generated. -/
theorem apart_of_stocked (stocked : s.Stocked ctx m) (reserves : m.Reserves ctx)
    (free : m.find? ctx.settings.holder = none) (scope : μ.scope = ⟨m, ctx.library⟩)
    (scope' : μ'.scope = ⟨s.module, ctx.library⟩) (host : μ'.host = μ.host)
    (avoids : ∀ id d body, m.method? id = some d → d.body = some body → body.Avoids ctx.settings.holder) :
    Apart ctx.settings.holder μ μ' := by
  refine ⟨host, ?_, fun ref other => ?_, fun ref body found => ?_⟩
  · rw [scope, scope', enumInfo?_eq_known, enumInfo?_eq_known]
    exact known_extends stocked.keeps.grows reserves
  · unfold body?
    rw [scope, scope', stocked.keeps.grows.lookup?_eq free other]
  · unfold body? at found
    rw [scope] at found
    split at found
    · cases found
    · rename_i e looked
      obtain ⟨id, method⟩ := ModuleDef.method?_of_lookup? looked
      split at found
      · rename_i own
        cases found
        exact avoids id e body method own
      · cases found

theorem body?_of_plain (stocked : s.Stocked ctx m) (scope' : μ'.scope = ⟨s.module, ctx.library⟩) {ref : MethodRef}
    (free : m.find? ref.declaring = none) (plain : '_' ∉ ref.name.toList) : μ'.body? ref = .ok none := by
  unfold body?
  rw [scope', stocked.lookup?_eq_none free plain]

/-- A method that was given out for an operation does the operation, in the module as it is at the end. -/
theorem performs_of_stocked {s' : Session} (stocked : s.Stocked ctx m) (stocked' : s'.Stocked ctx m)
    (ext : s.module.Extends ctx.settings.holder (fun _ d d' => d' = d) s'.module) (reserves : m.Reserves ctx)
    (scope' : μ'.scope = ⟨s'.module, ctx.library⟩) (native : m.LeavesPlatform)
    (short : ∀ ref e body, ref.declaring = ctx.settings.holder → s'.module.lookup? ref = some e →
      e.body = some body → body.HasShortSwitches)
    {op : Operation} {d : EnumInfo} {ref : MethodRef} {depth : Nat}
    (noted : s.generated.helpers.lookup (op, d.name) = some ref) (info : known ctx m d.sig = some d)
    (few : d.declared.length < 2 ^ 31) : μ'.Performs (μ'.Within (depth + 1)) op d ref := by
  obtain ⟨declaring, sig, e, looked, body⟩ := stocked.lookup? noted info ext
  have found : μ'.body? ref = .ok (some (op.script d ctx.settings.density).body) := by
    unfold body?
    rw [scope', looked]
    simp only [body]
  have same : μ'.scope.enumInfo? d.sig = some d := by
    rw [scope', enumInfo?_eq_known, known_extends stocked'.keeps.grows reserves]
    exact info
  have plain : '_' ∉ "ToString".toList := by decide
  exact Operation.performs_script found sig same (body?_of_plain stocked' scope' (native "Convert" (by decide)) plain)
    (body?_of_plain stocked' scope' (native "Object" (by decide)) plain) (short ref e _ declaring looked body) few

end Machine

end CilForge
