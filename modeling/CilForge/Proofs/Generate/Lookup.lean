import CilForge.Proofs.Enum.Names
import CilForge.Proofs.Generate.LookupRun
import CilForge.Proofs.Generate.LookupTables
import CilForge.Proofs.Generate.Operations

/-!
# Generated lookups

A generated lookup is run on the stack form of a value: `isDefined_declared` says that the test for
membership finds exactly the declared values, and `toString_format` that the lookup of a name gives
the text that the platform gives.
-/

namespace CilForge

open Script Lookup

/-- No instruction of a body names 2³¹ places or more. -/
def Body.HasShortSwitches (b : Body) : Prop := ∀ line ∈ b.code, line.2.targets.length < 2 ^ 31

/-- A machine that can open a frame and carry out `n` more instructions. -/
def Machine.HasRoom (m : Machine) (w : World) (n : Nat) : Prop :=
  0 < m.limits.maxCallDepth ∧ w.executed + n ≤ m.limits.maxInstructions

theorem shortTables_of_body {s : Script} (short : s.body.HasShortSwitches) : ShortTables s := by
  intro ls mem
  obtain ⟨h, line⟩ := mem_numbered.2 (List.mem_map.2 ⟨_, mem, rfl⟩ : s.resolve (.switch ls) ∈ _)
  have := short _ line
  rwa [show (s.resolve (.switch ls)).targets.length = ls.length from List.length_map _] at this

theorem execute_of_plays {m : Machine} {s : Script} {args : List Value} {w : World} {n : Nat}
    {o : Outcome} (room : m.HasRoom w n)
    (plays : ∀ R, Plays m R s args.toArray s [] w.memory n o) :
    ∃ w', m.execute s.body args w = (.ok o, w') ∧ w'.memory = w.memory := by
  obtain ⟨depth, hd⟩ : ∃ d, m.limits.maxCallDepth = d + 1 := ⟨_, (Nat.succ_pred_eq_of_pos room.1).symm⟩
  obtain ⟨k, hk, ends⟩ := (plays (m.Within depth)).within
  refine ⟨w.later k w.memory, m.execute_eq_ok_iff.2 ⟨k, w.memory, ?_, ?_, rfl⟩, rfl⟩
  · rw [hd]
    exact ends
  · have := room.2
    omega

theorem shortSwitches_of_tables {s : Script} {bound : Nat} (tables : TablesWithin bound s)
    (lt : bound < 2 ^ 31) : s.body.HasShortSwitches := by
  rintro ⟨h, i⟩ mem
  obtain ⟨p, hp, rfl⟩ := List.mem_map.1 (mem_numbered.1 ⟨h, mem⟩)
  have within := tables p hp
  have : (s.resolve p).targets.length = width p := by
    cases p with
    | plain i => rfl
    | branch op l => rfl
    | switch ls => exact List.length_map _
  simp only [this]
  omega

theorem short_script (mode : Lookup) {k : IntKind} {p : Roster k} (ord : p.Ordered) (enum : Sig) {ratio : Nat}
    (few : max p.size (ratio * p.size + 1) < 2 ^ 31) : (mode.script p enum ratio).body.HasShortSwitches :=
  shortSwitches_of_tables (tablesWithin_script mode ord enum ratio) few

/-! ## Membership -/

section
variable {m : Machine} {R : Carries} {mem : Memory} {d : EnumInfo} {density : Density}

theorem mem_ofValues (d : EnumInfo) (v : EnumValue d.kind) : (∃ c ∈ d.declared, c.value = v) ↔
    ∃ e ∈ (Roster.ofValues d).entries.toList, e.value = v := by
  have := (Roster.values_ofEntries d.constants false false v).trans (values_distinct d.declared v)
  rw [List.mem_map, List.mem_map] at this
  exact this.symm

theorem plays_membership_of
    (short : d.kind.isWide = true → (membership.script (.ofValues d) d.sig density.ratio).body.HasShortSwitches)
    (v : EnumValue d.kind) : Plays m R (membership.script (.ofValues d) d.sig density.ratio) #[.ofEnum v]
      (membership.script (.ofValues d) d.sig density.ratio) [] mem 850
      (.returned (some (.i32 (if ∃ c ∈ d.declared, c.value = v then 1 else 0)))) := by
  have ord := Roster.ordered_ofValues d
  have declared := mem_ofValues d v
  refine (plays_script (n := 2) ord (fun wide => shortTables_of_body (short wide)) ?_ ?_ ?_).mono (by omega)
  · intro index e he value
    have mem := List.mem_of_getElem? he
    rw [if_pos (declared.2 ⟨e, mem, value⟩)]
    exact plays_hit_membership ord (Nat.zero_lt_of_lt (List.getElem?_eq_some_iff.1 he).1)
  · intro fills
    cases fills
  · intro new
    rw [if_neg fun h => ?_]
    · exact plays_ldcI4
    · obtain ⟨e, he, value⟩ := declared.1 h
      exact new e he value

theorem plays_membership (short : (membership.script (.ofValues d) d.sig density.ratio).body.HasShortSwitches)
    (v : EnumValue d.kind) : Plays m R (membership.script (.ofValues d) d.sig density.ratio) #[.ofEnum v]
      (membership.script (.ofValues d) d.sig density.ratio) [] mem 850
      (.returned (some (.i32 (if ∃ c ∈ d.declared, c.value = v then 1 else 0)))) :=
  plays_membership_of (fun _ => short) v

end

/-- The generated test for membership answers with one exactly for the declared values. -/
theorem isDefined_declared (d : EnumInfo) (density : Density) :
    ∃ body, Operation.isDefined.generate d density = .ok body ∧ (body.HasShortSwitches →
      ∀ (m : Machine) (w : World), m.HasRoom w 850 → ∀ v : EnumValue d.kind, ∃ w',
        m.execute body [.ofEnum v] w =
          (.ok (.returned (some (.i32 (if ∃ c ∈ d.declared, c.value = v then 1 else 0)))), w') ∧
        w'.memory = w.memory) := by
  refine ⟨_, Operation.generate_eq .isDefined d density, fun short m w room v => ?_⟩
  exact execute_of_plays room fun R => plays_membership short v

def colorType : TypeDef where
  ns := "Demo"
  name := "Color"
  flags := TypeFlags.isPublic
  base := some (.system "Enum")
  fields := #[
    { name := "value__", flags := FieldFlags.isPublic, sig := .prim .uint8 },
    { name := "Red", flags := FieldFlags.isStatic ||| FieldFlags.isLiteral, sig := .valueType ⟨"Demo", "Color"⟩,
      constant := some (.int .uint8 1) },
    { name := "Green", flags := FieldFlags.isStatic ||| FieldFlags.isLiteral, sig := .valueType ⟨"Demo", "Color"⟩,
      constant := some (.int .uint8 4) }]

def colorInfo : EnumInfo where
  name := ⟨"Demo", "Color"⟩
  kind := .uint8
  declared := [⟨"Red", 1⟩, ⟨"Green", 4⟩]
  isFlags := false

def colorMachine : Machine := { scope := { module := { name := "Demo", types := #[colorType] } } }

theorem few_color : max (Roster.ofEntries colorInfo.constants false false).size
    (2 * (Roster.ofEntries colorInfo.constants false false).size + 1) < 2 ^ 31 := by
  have few := Roster.size_ofEntries_le colorInfo.constants false false
  have two : colorInfo.constants.length = 2 := rfl
  omega

/-- A value that lies behind both declared ones. -/
theorem isDefined_color : ∃ body w', Operation.isDefined.generate colorInfo {} = .ok body ∧
    body.HasShortSwitches ∧ colorMachine.HasRoom {} 850 ∧
    colorMachine.execute body [.i32 7] {} = (.ok (.returned (some (.i32 0))), w') := by
  obtain ⟨body, generated, run⟩ := isDefined_declared colorInfo {}
  have known := generated.symm.trans (Operation.generate_eq .isDefined colorInfo {})
  have short : body.HasShortSwitches :=
    Except.ok.inj known ▸ short_script .membership (Roster.ordered_ofValues colorInfo) colorInfo.sig few_color
  have room : colorMachine.HasRoom {} 850 := ⟨by decide, by decide⟩
  obtain ⟨w', returned, -⟩ := run short colorMachine {} room 7
  have other : ¬ ∃ c ∈ colorInfo.declared, c.value = 7 := by decide
  rw [if_neg other] at returned
  exact ⟨body, w', generated, short, room, returned⟩

/-! ## Names -/

def Scope.Resolves (s : Scope) (name : TypeName) (t : TypeDef) : Prop :=
  ∃ r, s.library.resolve s.module name = .ok r ∧ r.definition = t

def ModuleDef.DefinesNone (m : ModuleDef) (name : TypeName) : Prop :=
  ∀ ref : MethodRef, ref.declaring = name → m.lookup? ref = none

theorem EnumInfo.name_of_ofType {name : TypeName} {t : TypeDef} {d : EnumInfo}
    (read : EnumInfo.ofType name t = .ok d) : d.name = name := by
  unfold EnumInfo.ofType at read
  simp only [bind, Except.bind, pure, Except.pure, throw, throwThe, MonadExceptOf.throw] at read
  split at read
  · cases read
  · split at read
    · cases read
    · split at read
      · cases read
      · split at read
        · cases read
        · split at read
          · cases read
          · cases read
            rfl

theorem Scope.enumInfo?_of_resolves {s : Scope} {name : TypeName} {t : TypeDef} {d : EnumInfo}
    (resolves : s.Resolves name t) (read : EnumInfo.ofType name t = .ok d) :
    s.enumInfo? d.sig = some d := by
  obtain ⟨r, hr, rfl⟩ := resolves
  unfold Scope.enumInfo? EnumInfo.sig
  simp only [EnumInfo.name_of_ofType read, hr, read]
  rfl

theorem Machine.body?_of_definesNone {m : Machine} {ref : MethodRef}
    (h : m.scope.module.DefinesNone ref.declaring) : m.body? ref = .ok none := by
  unfold Machine.body?
  rw [h ref rfl]

section
variable {m : Machine} {R : Carries} {s : Script} {back : Script} {mem : Memory}

/-- The formatter of a kind gives the number of a value, whatever integer stands for it. -/
theorem plays_convert {k : IntKind} {v : EnumValue k} {x : Value} (reads : mem.heap.enum k x = .ok v)
    (native : m.body? (Platform.convertToString k) = .ok none) :
    Plays m R s #[x] (plain (.ldarg 0) :: plain (.call .call (Platform.convertToString k)) ::
      plain ⟨.ret, .none⟩ :: back) [] mem 4 (.returned (some (.str v.text))) := by
  have answer : m.outside? (Platform.convertToString k) [x] mem = some (some (.str v.text), mem) := by
    have known : Intrinsic.invoke? m.scope mem.heap (Platform.convertToString k) [x] =
        some ((Intrinsic.convertToString mem.heap (Platform.convertToString k) [x]).map (·, mem.heap)) := rfl
    have kind : (Platform.convertToString k).sig.params.head?.bind IntKind.ofSig? = some k :=
      IntKind.ofSig?_sig k
    unfold Machine.outside?
    rw [known, Intrinsic.convertToString, kind]
    simp only [reads]
    rfl
  refine (plays_ldarg (.ask (fun _ => rfl) rfl native answer rfl plays_ret)).mono (by omega)

theorem plays_toText {d : EnumInfo} {v : EnumValue d.kind} {x : Value} (reads : mem.heap.enum d.kind x = .ok v)
    (info : m.scope.enumInfo? d.sig = some d) (native : m.body? Platform.objectToString = .ok none) :
    Plays m R s #[x] (plain (.ldarg 0) :: plain (.typed .box d.sig) ::
      plain (.call .callvirt Platform.objectToString) :: plain ⟨.ret, .none⟩ :: back) [] mem 4
      (.returned (some (.str (d.format v)))) := by
  have answer : m.outside? Platform.objectToString [.boxed d.sig x] mem =
      some (some (.str (d.format v)), mem) := by
    have known : Intrinsic.invoke? m.scope mem.heap Platform.objectToString [.boxed d.sig x] =
        some ((Intrinsic.toText m.scope mem.heap [.boxed d.sig x]).map (·, mem.heap)) := rfl
    have text : Intrinsic.toText m.scope mem.heap [.boxed d.sig x] = .ok (.str (d.format v)) := by
      have sig : IntKind.ofSig? d.sig = none := rfl
      simp only [Intrinsic.toText, Intrinsic.unbox, bind, Except.bind, sig, info, reads]
      rfl
    unfold Machine.outside?
    rw [known, text]
    rfl
  refine plays_ldarg (.next (fun _ => rfl) (.ask (fun _ => rfl) rfl native answer rfl plays_ret))

section
variable {d : EnumInfo} {density : Density} {v : EnumValue d.kind} {x : Value} (reads : mem.heap.enum d.kind x = .ok v)
  (info : m.scope.enumInfo? d.sig = some d) (convert : m.body? (Platform.convertToString d.kind) = .ok none)
  (object : m.body? Platform.objectToString = .ok none)
include reads info convert object

theorem plays_tail_names (new : ∀ e ∈ (Roster.ofNames d density.maxFlags).entries.toList, e.value ≠ v) :
    Plays m R s #[x] (tailScript names (.ofNames d density.maxFlags) d.sig density.ratio) [] mem 4
      (.returned (some (.str (d.format v)))) := by
  unfold tailScript fallbackScript
  simp only
  split
  · exact plays_toText reads info object
  · rename_i known
    rw [Roster.format_of_missing d density.maxFlags new (by simpa using known)]
    exact plays_convert reads convert

end

theorem plays_hit_format {d : EnumInfo} {density : Density} {index : Nat} {e : EnumConstant d.kind}
    (he : (Roster.ofNames d density.maxFlags).entries.toList[index]? = some e) {args : Array Value}
    {stack : List Value} : Plays m R (names.script (.ofNames d density.maxFlags) d.sig density.ratio) args
      ((names.script (.ofNames d density.maxFlags) d.sig density.ratio).after (names.hitLabel index)) stack mem 2
      (.returned (some (.str (d.format e.value)))) := by
  rw [← Roster.name_ofNames d density.maxFlags (List.mem_of_getElem? he)]
  exact plays_hit_names (Roster.ordered_ofNames d density.maxFlags) he

section
variable {d : EnumInfo} {density : Density} (info : m.scope.enumInfo? d.sig = some d)
  (convert : m.body? (Platform.convertToString d.kind) = .ok none)
  (object : m.body? Platform.objectToString = .ok none) (v : EnumValue d.kind)
include info convert object

theorem plays_names_of (short : d.kind.isWide = true →
      (names.script (.ofNames d density.maxFlags) d.sig density.ratio).body.HasShortSwitches) :
    Plays m R (names.script (.ofNames d density.maxFlags) d.sig density.ratio) #[.ofEnum v]
      (names.script (.ofNames d density.maxFlags) d.sig density.ratio) [] mem 850
      (.returned (some (.str (d.format v)))) := by
  have ord := Roster.ordered_ofNames d density.maxFlags
  refine plays_script (n := 4) ord (fun wide => shortTables_of_body (short wide)) ?_ ?_ ?_
  · intro index e he value
    rw [← value]
    exact (plays_hit_format he).mono (by omega)
  · intro fills place new
    have plain : (Roster.ofNames d density.maxFlags).isFlags = false := by simpa [fillsGaps] using fills
    rw [Roster.format_of_missing d density.maxFlags new (by simp [plain])]
    exact (plays_gap ord fills place).mono (by omega)
  · exact fun new => plays_tail_names (Heap.enum_ofEnum mem.heap v) info convert object new

end

theorem plays_names {d : EnumInfo} {density : Density}
    (short : (names.script (.ofNames d density.maxFlags) d.sig density.ratio).body.HasShortSwitches)
    (info : m.scope.enumInfo? d.sig = some d) (convert : m.body? (Platform.convertToString d.kind) = .ok none)
    (object : m.body? Platform.objectToString = .ok none) (v : EnumValue d.kind) :
    Plays m R (names.script (.ofNames d density.maxFlags) d.sig density.ratio) #[.ofEnum v]
      (names.script (.ofNames d density.maxFlags) d.sig density.ratio) [] mem 850
      (.returned (some (.str (d.format v)))) :=
  plays_names_of info convert object v fun _ => short

end

/-- The generated lookup of a name gives the text that the platform gives, for all values of the
kind. The platform has to know the enum as it was read, and the module must not stand in for it. -/
theorem toString_format {name : TypeName} {t : TypeDef} {d : EnumInfo}
    (read : EnumInfo.ofType name t = .ok d) (density : Density) :
    ∃ body, Operation.toString.generate d density = .ok body ∧ (body.HasShortSwitches →
      ∀ (m : Machine) (w : World), m.HasRoom w 850 → m.scope.Resolves name t →
        m.scope.module.DefinesNone (.system "Convert") →
        m.scope.module.DefinesNone (.system "Object") → ∀ v : EnumValue d.kind, ∃ w',
          m.execute body [.ofEnum v] w = (.ok (.returned (some (.str (d.format v)))), w') ∧
          w'.memory = w.memory) := by
  refine ⟨_, Operation.generate_eq .toString d density, ?_⟩
  intro short m w room resolves convert object v
  exact execute_of_plays room fun R => plays_names short (Scope.enumInfo?_of_resolves resolves read)
    (Machine.body?_of_definesNone convert) (Machine.body?_of_definesNone object) v

theorem ofType_color : EnumInfo.ofType ⟨"Demo", "Color"⟩ colorType = .ok colorInfo := by rfl

theorem typeName_color : colorMachine.scope.module.typeName 0 = ⟨"Demo", "Color"⟩ := by
  have path : colorMachine.scope.module.path 0 = ("Demo", ["Color"]) := by rw [ModuleDef.path]; rfl
  rw [ModuleDef.typeName, path]
  rfl

theorem find?_color : colorMachine.scope.module.find? ⟨"Demo", "Color"⟩ = some 0 :=
  List.find?_cons_of_pos (by rw [typeName_color]; rfl)

theorem find?_color_eq_none {name : TypeName} (ne : name ≠ ⟨"Demo", "Color"⟩) :
    colorMachine.scope.module.find? name = none := by
  refine List.find?_eq_none.2 fun id hid => ?_
  rw [show id = 0 by simpa [ModuleDef.ids, colorMachine] using hid, typeName_color]
  simpa using ne.symm

theorem resolves_color : colorMachine.scope.Resolves ⟨"Demo", "Color"⟩ colorType := by
  refine ⟨⟨colorType, some 0⟩, ?_, rfl⟩
  rw [Library.resolve, find?_color]
  rfl

theorem definesNone_color {name : TypeName} (ne : name ≠ ⟨"Demo", "Color"⟩) :
    colorMachine.scope.module.DefinesNone name := by
  rintro ref rfl
  rw [ModuleDef.lookup?, find?_color_eq_none ne]
  rfl

/-- The text of a value without a name, from the generated code. -/
theorem toString_color : ∃ body w', Operation.toString.generate colorInfo {} = .ok body ∧
    colorMachine.execute body [.i32 7] {} = (.ok (.returned (some (.str "7"))), w') := by
  obtain ⟨body, generated, run⟩ := toString_format ofType_color {}
  have known := generated.symm.trans (Operation.generate_eq .toString colorInfo {})
  have short : body.HasShortSwitches :=
    Except.ok.inj known ▸ short_script .names (Roster.ordered_ofNames colorInfo 256) colorInfo.sig few_color
  obtain ⟨w', returned, -⟩ := run short colorMachine {} ⟨by decide, by decide⟩ resolves_color
    (definesNone_color (by decide)) (definesNone_color (by decide)) 7
  exact ⟨body, w', generated, returned⟩

end CilForge
