import CilForge.Proofs.Draft.Level
import CilForge.Proofs.Generate.Operations

/-!
# Generated code is valid

Each piece of a generated operation is level: it is entered with nothing on the stack, and goes on or
returns as it should. So are the scripts made of the pieces, whatever the enum and the density.
-/

namespace CilForge

open Script

namespace Lookup

variable {k : IntKind} (mode : Lookup)

theorem behind?_load (v : EnumValue k) (d : Nat) : (Pending.plain v.load).behind? d = some (d + 1) := by
  unfold EnumValue.load
  split <;> rfl

theorem level_equality (index : Nat) (value : EnumValue k) :
    Level 0 (equalityScript mode index value) 0 := by
  unfold equalityScript
  split
  · exact .code rfl (.code rfl (.nil 0))
  · exact .code rfl (.code (behind?_load value 1) (.code rfl (.nil 0)))

theorem level_index (base : EnumValue k) : Level 0 (indexScript base) 1 := by
  unfold indexScript
  split
  · exact .code rfl (.nil 1)
  · exact .code rfl (.code (behind?_load base 1) (.code rfl (.nil 1)))

theorem level_table (base : EnumValue k) (labels : List String) : Level 0 (tableScript base labels) 0 := by
  unfold tableScript
  refine (level_index base).append ?_
  split
  · exact .code rfl (.code rfl ((level_index base).append (.code rfl (.code rfl (.label (.nil 0))))))
  · exact .code rfl (.nil 0)

theorem level_run (run : Run) (first : EnumValue k) : Level 0 (runScript mode run first) 0 := by
  unfold runScript
  split
  · exact level_equality mode run.start first
  · exact level_table first _

theorem level_search (p : Roster k) (lo hi : Nat) : Level 0 (searchScript mode p lo hi) 0 := by
  fun_induction searchScript mode p lo hi with
  | case1 lo hi lt mid right left alone =>
    refine (level_run mode _ _).append ?_
    split
    · rename_i more
      have less : Level 1 [plain (midFirst p mid).load,
          .code (.branch (if k.isSigned then .blt else .bltUn) (leftLabel lo mid))] 0 := by
        refine .code (behind?_load _ 1) (.code ?_ (.nil 0))
        cases k.isSigned <;> rfl
      exact .code rfl (less.append ((right more).append (.label (left more))))
    · rename_i last
      exact alone last
  | case2 lo hi ge => exact .code rfl (.nil 0)

theorem level_fallback (p : Roster k) (enum : Sig) : Level 0 (fallbackScript mode p enum) 0 := by
  cases mode with
  | membership => exact .code rfl (.code rfl (.nil 0))
  | names =>
    unfold fallbackScript
    simp only
    split
    · exact .code rfl (.code rfl (.code rfl (.code rfl (.nil 0))))
    · exact .code rfl (.code rfl (.code rfl (.nil 0)))

theorem level_hits (p : Roster k) : Level 0 (hitsScript mode p) 0 := by
  cases mode with
  | names => exact Level.flatMap (fun e => .label (.code rfl (.code rfl (.nil 0)))) _
  | membership =>
    unfold hitsScript
    simp only
    split
    · exact .nil 0
    · exact .label (.code rfl (.code rfl (.nil 0)))

theorem level_gaps (base : EnumValue k) (values : List (EnumValue k)) : Level 0 (gapsScript base values) 0 :=
  Level.flatMap (fun _ => .label (.code rfl (.code rfl (.nil 0)))) values

theorem level_decision (p : Roster k) (ratio : Nat) : Level 0 (decisionScript mode p ratio) 0 := by
  unfold decisionScript
  cases p.shape ratio with
  | empty => exact .nil 0
  | single | pair => exact Level.flatMap (fun e : Nat × EnumValue k => level_equality mode e.1 e.2) _
  | contiguous | denseTable => exact level_table _ _
  | binarySearch => exact level_search mode p 0 _

theorem level_script (p : Roster k) (enum : Sig) (ratio : Nat) : Level 0 (script mode p enum ratio) 0 :=
  (level_decision mode p ratio).append (.label ((level_fallback mode p enum).append
    ((level_hits mode p).append (level_gaps _ _))))

end Lookup

namespace Operation

open Lookup

theorem level_values (d : EnumInfo) : Level 0 (valuesScript d) 0 := by
  have each (place : EnumValue d.kind × Nat) : Level 1 (valueScript d place) 1 :=
    .code rfl (.code rfl (.code (behind?_load place.1 3) (.code rfl (.nil 1))))
  exact .code rfl (.code rfl ((Level.flatMap each _).append (.code rfl (.nil 0))))

theorem level_equals : Level 0 equalsScript 0 := .code rfl (.code rfl (.code rfl (.code rfl (.nil 0))))

theorem level_script (op : Operation) (d : EnumInfo) (density : Density) : Level 0 (op.script d density) 0 := by
  cases op with
  | toString => exact Lookup.level_script .names _ _ _
  | isDefined => exact Lookup.level_script .membership _ _ _
  | getValues => exact level_values d
  | equals => exact level_equals

/-- Whatever the enum, the operation and the density, generation gives a body that passes the check,
has no regions and has depths, and that returns, wherever control comes to a return, with one value. -/
theorem generate_verified (op : Operation) (d : EnumInfo) (density : Density) :
    ∃ body depths, op.generate d density = .ok body ∧ body.check = .ok () ∧ body.regions = [] ∧
      body.depths = .ok depths ∧
      ∀ h i, (h, i) ∈ body.code → i.opcode = .ret → body.Reached h → depths[h]? = some 1 := by
  obtain ⟨passes, depths, found, returns⟩ := (level_script op d density).verified (closed_script op d density)
  exact ⟨_, depths, generate_eq op d density, passes, rfl, found, returns⟩

end Operation

end CilForge
