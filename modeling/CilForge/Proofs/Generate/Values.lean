import CilForge.Proofs.CallSite.Lines
import CilForge.Proofs.Generate.Performs

/-!
# The array of all values

The generated enumeration of values is carried out as a whole: it leaves the array behind that the
platform makes for the type, whatever the kind of the enum and the number of its constants.
-/

namespace CilForge

open Script

theorem execute_of_runs {m : Machine} {s : Script} {args : List Value} {w : World} {n : Nat} {o : Outcome}
    {mem' : Memory} (room : m.HasRoom w n) (runs : ∀ R, Runs m R s args.toArray s [] w.memory n o mem') :
    ∃ w', m.execute s.body args w = (.ok o, w') ∧ w'.memory = mem' := by
  obtain ⟨depth, hd⟩ := Nat.exists_eq_add_of_lt room.1
  obtain ⟨k, le, ends⟩ := (runs (m.Within depth)).within
  refine ⟨w.later k mem', m.execute_eq_ok_iff.2 ⟨k, mem', ?_, ?_, rfl⟩, rfl⟩
  · rw [hd, Nat.zero_add]
    exact ends
  · have := room.2
    omega

namespace EnumInfo

variable (d : EnumInfo)

theorem valuesInOrder_perm : d.valuesInOrder.Perm (d.declared.map (·.value)) := List.mergeSort_perm _ _

theorem valuesInOrder_ascending : d.valuesInOrder.Pairwise fun a b => a.toNat ≤ b.toNat := by
  unfold valuesInOrder
  have sorted : ((d.declared.map (·.value)).mergeSort fun a b : EnumValue d.kind => a.toNat ≤ b.toNat).Pairwise
      fun a b => decide (a.toNat ≤ b.toNat) = true :=
    List.pairwise_mergeSort (by simp; omega) (by simp; omega) _
  simpa only [decide_eq_true_eq] using sorted

end EnumInfo

/-- The generated enumeration gives a new array of the enum that holds the stack forms of all declared
values by ascending bit pattern, repeated ones included. It is the array that the platform makes
where the name of the enum stands for its type. -/
theorem getValues_enumerates {name : TypeName} {t : TypeDef} {d : EnumInfo}
    (read : EnumInfo.ofType name t = .ok d) (few : d.declared.length < 2 ^ 31) (density : Density) :
    ∃ body, ∃ values : List (EnumValue d.kind), Operation.getValues.generate d density = .ok body ∧
      values.Perm (d.declared.map (·.value)) ∧ (values.Pairwise fun a b => a.toNat ≤ b.toNat) ∧
      ∀ (m : Machine) (w : World), m.HasRoom w (4 * d.declared.length + 3) → ∃ w',
        m.execute body [] w = (.ok (.returned (some (.array w.heap.size))), w') ∧
        w'.memory = ⟨w.heap.push ⟨.valueType name, (values.map Value.ofEnum).toArray⟩, w.trace⟩ ∧
        (m.scope.Resolves name t →
          Intrinsic.getValues m.scope w.heap [.type (.valueType name)] =
            .ok (.array w.heap.size, w'.heap)) := by
  have sig : d.sig = .valueType name := congrArg Sig.valueType (EnumInfo.name_of_ofType read)
  refine ⟨_, d.valuesInOrder, Operation.generate_eq .getValues d density, d.valuesInOrder_perm,
    d.valuesInOrder_ascending, fun m w room => ?_⟩
  have runs (R : Carries) : Runs m R (Operation.valuesScript d) ([] : List Value).toArray (Operation.valuesScript d) []
      w.memory (4 * d.valuesInOrder.length + 3) _ _ := Operation.runs_values (by rwa [Operation.length_values])
  obtain ⟨w', run, memory⟩ := execute_of_runs (by rwa [← Operation.length_values] at room) runs
  rw [sig] at memory
  refine ⟨w', run, memory, fun resolves => ?_⟩
  have info := Scope.enumInfo?_of_resolves resolves read
  rw [sig] at info
  rw [Intrinsic.getValues_type info, show w'.heap = _ from congrArg Memory.heap memory]
  rfl

/-! ## A module of one type -/

section
variable {module : ModuleDef} {t : TypeDef} (alone : module.types = #[t]) (top : t.enclosing = none)
include alone top

theorem ModuleDef.typeName_alone : module.typeName 0 = ⟨t.ns, t.name⟩ := by
  have path : module.path 0 = (t.ns, [t.name]) := by
    rw [ModuleDef.path]
    simp only [alone, top, List.getElem?_toArray, List.getElem?_cons_zero]
  rw [ModuleDef.typeName, path]
  rfl

theorem Scope.resolves_alone {library : Library} :
    Scope.Resolves { module, library } ⟨t.ns, t.name⟩ t := by
  have found : module.find? ⟨t.ns, t.name⟩ = some 0 := by
    rw [ModuleDef.find?, ModuleDef.ids, alone]
    exact List.find?_cons_of_pos (by rw [ModuleDef.typeName_alone alone top]; simp)
  refine ⟨⟨t, some 0⟩, ?_, rfl⟩
  rw [Library.resolve, found]
  simp [alone]

theorem ModuleDef.find?_alone {name : TypeName} (other : name ≠ ⟨t.ns, t.name⟩) : module.find? name = none := by
  rw [ModuleDef.find?, ModuleDef.ids, alone]
  refine List.find?_eq_none.2 fun id row => ?_
  rw [show id = 0 by simpa using row, ModuleDef.typeName_alone alone top]
  simpa using other.symm

end

def tideType : TypeDef where
  ns := "Demo"
  name := "Tide"
  flags := TypeFlags.isPublic
  base := some (.system "Enum")
  fields := #[
    { name := "value__", flags := FieldFlags.isPublic, sig := .prim .int8 },
    { name := "Ebb", flags := FieldFlags.isStatic ||| FieldFlags.isLiteral, sig := .valueType ⟨"Demo", "Tide"⟩,
      constant := some (.int .int8 (-1)) },
    { name := "Flood", flags := FieldFlags.isStatic ||| FieldFlags.isLiteral, sig := .valueType ⟨"Demo", "Tide"⟩,
      constant := some (.int .int8 2) },
    { name := "Spring", flags := FieldFlags.isStatic ||| FieldFlags.isLiteral, sig := .valueType ⟨"Demo", "Tide"⟩,
      constant := some (.int .int8 2) }]

def tideInfo : EnumInfo where
  name := ⟨"Demo", "Tide"⟩
  kind := .int8
  declared := [⟨"Ebb", -1⟩, ⟨"Flood", 2⟩, ⟨"Spring", 2⟩]
  isFlags := false

def tideMachine : Machine := { scope := { module := { name := "Demo", types := #[tideType] } } }

theorem ofType_tide : EnumInfo.ofType ⟨"Demo", "Tide"⟩ tideType = .ok tideInfo := by rfl

/-- The negative value comes last, and the repeated one twice. -/
theorem getValues_tide : ∃ body w', Operation.getValues.generate tideInfo {} = .ok body ∧
    tideMachine.execute body [] {} = (.ok (.returned (some (.array 0))), w') ∧
    w'.heap = #[⟨tideInfo.sig, #[.i32 2, .i32 2, .i32 (-1)]⟩] ∧
    Intrinsic.getValues tideMachine.scope #[] [.type tideInfo.sig] = .ok (.array 0, w'.heap) := by
  obtain ⟨body, values, generated, perm, ascending, run⟩ :=
    getValues_enumerates ofType_tide (by decide) {}
  obtain ⟨w', returned, memory, same⟩ := run tideMachine {} ⟨by decide, by decide⟩
  have sorted : values.Perm [2, 2, -1] := perm.trans ((List.Perm.swap _ _ _).trans (.cons _ (.swap _ _ _)))
  obtain rfl := sorted.eq_of_pairwise (fun a b _ _ ab ba => BitVec.eq_of_toNat_eq (Nat.le_antisymm ab ba))
    ascending (by decide)
  exact ⟨body, w', generated, returned, congrArg Memory.heap memory,
    same (Scope.resolves_alone (t := tideType) rfl rfl)⟩

end CilForge
