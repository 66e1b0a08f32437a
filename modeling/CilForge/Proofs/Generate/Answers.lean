import CilForge.Generate
import CilForge.Proofs.Machine.Ends

/-!
# What generated operations answer

A generated method gives for values of its enum what the platform would say of them.
-/

namespace CilForge

/-- What an operation on an enum gives for arguments in their stack form, and the memory behind it. -/
inductive Operation.Gives (d : EnumInfo) :
    Operation → List Value → Memory → Value → Memory → Prop where
  | toString {x : EnumValue d.kind} {mem : Memory} :
    Gives d .toString [.ofEnum x] mem (.str (d.format x)) mem
  | isDefined {x : EnumValue d.kind} {mem : Memory} :
    Gives d .isDefined [.ofEnum x] mem (.bool (d.nameOf? x).isSome) mem
  | getValues {mem : Memory} {v : Value} {heap : Heap} :
    mem.heap.alloc d.sig (d.valuesInOrder.map Value.ofEnum).toArray = (v, heap) →
    Gives d .getValues [] mem v { mem with heap }
  | equals {x y : EnumValue d.kind} {mem : Memory} :
    Gives d .equals [.ofEnum x, .ofEnum y] mem (.bool (decide (x = y))) mem

structure Machine.Performs (m : Machine) (R : Carries) (op : Operation) (d : EnumInfo) (ref : MethodRef) :
    Prop where
  sig : ref.sig = op.sig d.sig
  runs : ∃ body, m.body? ref = .ok (some body) ∧ ∀ args mem v mem', op.Gives d args mem v mem' →
    ∃ k, R body args mem k (.returned (some v)) mem'

end CilForge
