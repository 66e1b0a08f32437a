import CilForge.Proofs.Draft.Finish
import CilForge.Proofs.Generate.LookupLabels

/-!
# The scripts of the operations

Every operation can be generated for every enum, and what is generated is the body of a script.
-/

namespace CilForge.Operation

open Script Lookup Asm

def valueScript (d : EnumInfo) (place : EnumValue d.kind × Nat) : Script :=
  [plain ⟨.dup, .none⟩, plain (.ldcI4 (BitVec.ofNat 32 place.2)), plain place.1.load,
    plain (.typed .stelem d.sig)]

def valuesScript (d : EnumInfo) : Script :=
  plain (.ldcI4 (BitVec.ofNat 32 d.valuesInOrder.length)) :: plain (.typed .newarr d.sig) ::
    (d.valuesInOrder.zipIdx.flatMap (valueScript d) ++ [plain ⟨.ret, .none⟩])

def equalsScript : Script :=
  [plain (.ldarg 0), plain (.ldarg 1), plain ⟨.ceq, .none⟩, plain ⟨.ret, .none⟩]

def script (op : Operation) (d : EnumInfo) (density : Density) : Script :=
  match op with
  | toString => Lookup.script .names (.ofNames d density.maxFlags) d.sig density.ratio
  | isDefined => Lookup.script .membership (.ofValues d) d.sig density.ratio
  | getValues => valuesScript d
  | equals => equalsScript

theorem writes_emitValues (d : EnumInfo) : Writes (emitValues d) (valuesScript d) := by
  have each (p : EnumValue d.kind × Nat) : Writes (do
      Asm.op .dup
      Asm.emit (.ldcI4 (BitVec.ofNat 32 p.2))
      Asm.emit p.1.load
      Asm.typed .stelem d.sig) (valueScript d p) :=
    .bind (s := [_]) (.emit rfl rfl) (.bind (s := [_]) (.emit rfl rfl)
      (.bind (s := [_]) (writes_load p.1) (.emit rfl rfl)))
  refine .bind (s := [_]) (.emit rfl rfl) (.bind (s := [_]) (.emit rfl rfl) ?_)
  exact (Writes.forM fun p _ => each p).bind (.emit rfl rfl)

theorem writes_emitEquals : Writes emitEquals equalsScript :=
  .bind (s := [_]) (.emit rfl rfl) (.bind (s := [_]) (.emit rfl rfl)
    (.bind (s := [_]) (.emit rfl rfl) (.emit rfl rfl)))

theorem writes_script (op : Operation) (d : EnumInfo) (density : Density) :
    Writes (op.emit d density) (op.script d density) := by
  cases op with
  | toString => exact Lookup.writes_emit .names (.ofNames d density.maxFlags) d.sig density.ratio
  | isDefined => exact Lookup.writes_emit .membership (.ofValues d) d.sig density.ratio
  | getValues => exact writes_emitValues d
  | equals => exact writes_emitEquals

theorem closed_of_plain {s : Script} (lines : ∀ line ∈ s, ∃ i, line = plain i) : s.Closed := by
  have labels : s.labels = [] := by
    rw [Script.labels, List.filterMap_eq_nil_iff]
    intro line mem
    obtain ⟨i, rfl⟩ := lines line mem
    rfl
  have goals : s.goals = [] := by
    rw [Script.goals, List.flatMap_eq_nil_iff]
    intro p mem
    obtain ⟨line, hline, code⟩ := List.mem_filterMap.1 mem
    obtain ⟨i, rfl⟩ := lines line hline
    cases code
    rfl
  refine ⟨?_, ?_, ?_⟩
  · rw [labels]
    exact List.nodup_nil
  · rw [goals]
    exact fun _ mem => absurd mem List.not_mem_nil
  · rw [labels]
    exact fun _ mem => absurd mem List.not_mem_nil

theorem closed_script (op : Operation) (d : EnumInfo) (density : Density) :
    (op.script d density).Closed := by
  cases op with
  | toString => exact Lookup.closed_script _ (Roster.ordered_ofNames d density.maxFlags) _ _
  | isDefined => exact Lookup.closed_script _ (Roster.ordered_ofValues d) _ _
  | getValues =>
    refine closed_of_plain fun line mem => ?_
    simp only [script, valuesScript, List.mem_cons, List.mem_append, List.mem_flatMap, valueScript]
      at mem
    grind
  | equals =>
    refine closed_of_plain fun line mem => ?_
    simp only [script, equalsScript, List.mem_cons] at mem
    grind

theorem generate_eq (op : Operation) (d : EnumInfo) (density : Density) :
    op.generate d density = .ok (op.script d density).body := by
  have closed := closed_script op d density
  have accepts : Draft.Accepts {} (op.script d density) := ⟨closed.nodup, fun l _ => by simp⟩
  have writes := writes_script op d density
  have emitted : (op.emit d density).run.run {} = (.ok (), Draft.extend {} (op.script d density)) :=
    writes.appends {} accepts
  unfold Operation.generate
  rw [emitted]
  exact Draft.finish_extend closed writes.proper

end CilForge.Operation
