import CilForge.Machine.Interpreter
import CilForge.Proofs.Machine.Ends
import CilForge.Proofs.Results
import CilForge.Proofs.Unroll
import Mathlib.Data.Finset.Prod
import Mathlib.Data.Finset.Range

/-!
# Texts that have an end

Making the text of a value comes to an end just if no way from it through arrays goes on for ever. An instruction
is held up by such a text only (`act_fair`, `step_fair`): all other faults are told at once.
-/

namespace CilForge

theorem Value.textBy_mono {f g : Nat → Option String} (under : Under f g) (v : Value) (text : String) :
    v.textBy f = some text → v.textBy g = some text := by
  unfold textBy
  cases v.array? with
  | none => exact id
  | some inner =>
    intro given
    obtain ⟨told, inside, rfl⟩ := Option.map_eq_some_iff.1 given
    exact Option.map_eq_some_iff.2 ⟨told, under _ _ inside, rfl⟩

theorem Value.sameBy_mono {f g : Nat × Nat → Option Bool} (under : Under f g) (v w : Value) (same : Bool) :
    v.sameBy f w = some same → v.sameBy g w = some same := by
  unfold sameBy
  cases v.array? with
  | none => exact id
  | some a =>
    cases w.array? with
    | none => exact id
    | some b =>
      by_cases leads : v.leadTo 0 = w.leadTo 0
      · simp only [if_pos leads]
        exact under _ _
      · simp only [if_neg leads]
        exact id

namespace Heap

/-- An array has a value that leads to the inner array. -/
def Holds (heap : Heap) (inner ref : Nat) : Prop :=
  ∃ a v, heap[ref]? = some a ∧ v ∈ a.values.toList ∧ v.array? = some inner

variable {heap : Heap}

theorem unrolls_arrayTextBy (heap : Heap) : Unrolls heap.arrayTextBy (Finset.range heap.size) where
  mono {f g} under ref text given := by
    unfold arrayTextBy at given ⊢
    cases row : heap[ref]? with
    | none => simpa only [row] using given
    | some a =>
      simp only [row] at given ⊢
      obtain ⟨texts, each, rfl⟩ := Option.map_eq_some_iff.1 given
      rw [mapM_mono (fun v _ => Value.textBy_mono under v) each, Option.map_some]
  leaf {ref} out f g := by
    have row : heap[ref]? = none := Array.getElem?_eq_none (Nat.not_lt.1 fun lt => out (Finset.mem_range.2 lt))
    simp only [arrayTextBy, row]

theorem arrayText?_eq (heap : Heap) : heap.arrayText? = heap.arrayTextBy heap.arrayText? :=
  heap.unrolls_arrayTextBy.eq (card_range_lt _)

theorem arrayText?_isSome_iff {ref : Nat} : (heap.arrayText? ref).isSome ↔ Acc heap.Holds ref := by
  constructor
  · intro ended
    obtain ⟨text, ended⟩ := Option.isSome_iff_exists.1 ended
    refine unroll_induct (P := fun ref _ => Acc heap.Holds ref) ?_ _ ref text ended
    intro told down ref text ended
    refine ⟨ref, ?_⟩
    rintro inner ⟨a, v, row, mem, leads⟩
    rw [arrayTextBy, row] at ended
    obtain ⟨texts, each, -⟩ := Option.map_eq_some_iff.1 ended
    have here := mapM_isSome_iff.1 (Option.isSome_of_eq_some each) v mem
    rw [Value.textBy, leads] at here
    obtain ⟨text, ended⟩ := Option.isSome_iff_exists.1 here
    obtain ⟨text, ended, -⟩ := Option.map_eq_some_iff.1 ended
    exact down inner text ended
  · intro acc
    induction acc with
    | intro ref _ ih =>
      rw [arrayText?_eq, arrayTextBy]
      cases row : heap[ref]? with
      | none => rfl
      | some a =>
        simp only [Option.isSome_map]
        refine mapM_isSome_iff.2 fun v mem => ?_
        unfold Value.textBy
        cases leads : v.array? with
        | none => rfl
        | some inner => simp only [Option.isSome_map, ih inner ⟨a, v, row, mem, leads⟩]

/-- No way from the value through arrays goes on for ever. -/
def Ends (heap : Heap) (v : Value) : Prop := ∀ ref, v.array? = some ref → Acc heap.Holds ref

theorem text?_isSome_iff {v : Value} : (heap.text? v).isSome ↔ heap.Ends v := by
  unfold text? Value.textBy Ends
  cases v.array? with
  | none => exact iff_of_true rfl nofun
  | some ref =>
    simp only [Option.isSome_map, arrayText?_isSome_iff]
    exact ⟨fun acc _ eq => Option.some.inj eq ▸ acc, fun all => all ref rfl⟩

/-! ## Equality of contents -/

theorem unrolls_sameArrayBy (heap : Heap) :
    Unrolls heap.sameArrayBy (Finset.range heap.size ×ˢ Finset.range heap.size) where
  mono {f g} under arrays same given := by
    unfold sameArrayBy at given ⊢
    cases left : heap[arrays.1]? with
    | none => simpa only [left] using given
    | some x =>
      cases right : heap[arrays.2]? with
      | none => simpa only [left, right] using given
      | some y =>
        simp only [left, right] at given ⊢
        by_cases alike : x.element = y.element && x.values.size = y.values.size
        · rw [if_pos alike] at given ⊢
          exact allM_mono (fun p _ => Value.sameBy_mono under p.1 p.2) given
        · rwa [if_neg alike] at given ⊢
  leaf {arrays} out f g := by
    unfold sameArrayBy
    cases left : heap[arrays.1]? with
    | none => rfl
    | some x =>
      cases right : heap[arrays.2]? with
      | none => rfl
      | some y =>
        have rows := And.intro (Array.getElem?_eq_some_iff.1 left).1 (Array.getElem?_eq_some_iff.1 right).1
        rw [Finset.mem_product, Finset.mem_range, Finset.mem_range] at out
        exact absurd rows out

/-- The comparison calls itself without being cut off. -/
theorem sameArray?_eq (heap : Heap) : heap.sameArray? = heap.sameArrayBy heap.sameArray? :=
  heap.unrolls_sameArrayBy.eq (by rw [Finset.card_product, Finset.card_range]; exact Nat.lt_succ_self _)

/-! ## Faults -/

/-- A fault is held up only by a value whose text has no end. -/
def Fair {α : Type} (heap : Heap) (x : Except MachineFault α) : Prop :=
  x = .error .endless → ∃ v, ¬ heap.Ends v

section
variable {α β : Type} {x : Except MachineFault α} {k : α → Except MachineFault β}

theorem fair_ok (a : α) : heap.Fair (.ok a : Except MachineFault α) := nofun

theorem fair_error {e : MachineFault} (ne : e ≠ .endless) : heap.Fair (.error e : Except MachineFault α) :=
  fun eq => absurd (Except.error.inj eq) ne

theorem fair_fault {kind : String → MachineFault} (told : ∀ text, kind text ≠ .endless) (v : Value) :
    heap.Fair (.error (heap.fault kind v) : Except MachineFault α) := by
  intro eq
  have eq := Except.error.inj eq
  refine ⟨v, fun ends => ?_⟩
  obtain ⟨text, ended⟩ := Option.isSome_iff_exists.1 (text?_isSome_iff.2 ends)
  rw [fault, ended] at eq
  exact told text eq

theorem fair_fault₂ {kind : String → String → MachineFault} (told : ∀ s t, kind s t ≠ .endless) (v w : Value) :
    heap.Fair (.error (heap.fault₂ kind v w) : Except MachineFault α) := by
  intro eq
  have eq := Except.error.inj eq
  by_contra ends
  have ends := not_exists_not.1 ends
  obtain ⟨s, left⟩ := Option.isSome_iff_exists.1 (text?_isSome_iff.2 (ends v))
  obtain ⟨t, right⟩ := Option.isSome_iff_exists.1 (text?_isSome_iff.2 (ends w))
  rw [fault₂, left, right] at eq
  exact told s t eq

theorem Fair.bind (first : heap.Fair x) (next : ∀ a, heap.Fair (k a)) : heap.Fair (x >>= k) := by
  cases x with
  | error e => exact fun eq => first (congrArg _ (Except.error.inj eq))
  | ok a => exact next a

theorem Fair.map {f : α → β} (fair : heap.Fair x) : heap.Fair (x.map f) := by
  cases x with
  | error e => exact fun eq => fair (congrArg _ (Except.error.inj eq))
  | ok a => exact fair_ok _

end

/-! ## Arithmetic -/

theorem int32_fair (v : Value) : heap.Fair (heap.int32 v) := by
  cases v with
  | i32 => exact fair_ok _
  | _ => exact fair_fault (by simp) _

theorem int64_fair (v : Value) : heap.Fair (heap.int64 v) := by
  cases v with
  | i32 | i64 => exact fair_ok _
  | _ => exact fair_fault (by simp) _

theorem enum_fair (k : IntKind) (v : Value) : heap.Fair (heap.enum k v) :=
  (int64_fair v).bind fun _ => fair_ok _

theorem binary_fair (o : Opcode) (v w : Value) : heap.Fair (heap.binary o v w) := by
  unfold binary
  split
  · refine (int32_fair w).bind fun amount => ?_
    split
    · exact fair_ok _
    · exact fair_ok _
    · exact fair_fault (by simp) _
  · split
    · split
      · exact fair_error nofun
      · split
        · exact fair_ok _
        · exact fair_error nofun
    · split
      · exact fair_error nofun
      · split
        · exact fair_ok _
        · exact fair_error nofun
    · exact fair_fault₂ (by simp) _ _

theorem unary_fair (o : Opcode) (v : Value) : heap.Fair (heap.unary o v) := by
  unfold unary
  split
  · exact fair_ok _
  · exact fair_ok _
  · exact fair_ok _
  · exact fair_ok _
  · exact fair_fault (by simp) _

theorem convertWords_fair (o : Opcode) (narrow : BitVec 32) (signed unsigned : BitVec 64) :
    heap.Fair (convertWords o narrow signed unsigned) := by
  unfold convertWords
  cases o.conversion? with
  | none => exact fair_error nofun
  | some c => cases c <;> exact fair_ok _

theorem convert_fair (o : Opcode) (v : Value) : heap.Fair (heap.convert o v) := by
  cases v with
  | i32 a | i64 a => exact convertWords_fair o _ _ _
  | _ => exact fair_fault (by simp) _

theorem equal_fair (v w : Value) : heap.Fair (heap.equal v w) := by
  unfold equal
  split
  case h_6 => exact fair_fault₂ (by simp) _ _
  all_goals exact fair_ok _

theorem order_fair (unsigned : Bool) (v w : Value) : heap.Fair (heap.order unsigned v w) := by
  unfold order
  split
  · exact fair_ok _
  · exact fair_ok _
  · exact fair_fault₂ (by simp) _ _

theorem compare_fair (o : Opcode) (v w : Value) : heap.Fair (heap.compare o v w) := by
  unfold compare
  split
  · exact equal_fair v w
  · exact (equal_fair v w).bind fun _ => fair_ok _
  · exact (order_fair _ v w).bind fun _ => fair_ok _
  · exact (order_fair false v w).bind fun _ => fair_error nofun

theorem get_fair (v : Value) : heap.Fair (heap.get v) := by
  cases v with
  | array ref => exact fair_ok _
  | _ => exact fair_fault (by simp) _

end Heap

/-! ## Frames -/

namespace Frame

open Heap

variable (f : Frame) (heap : Heap)

theorem goTo_fair (h : Handle) : heap.Fair (f.goTo h) := by
  unfold goTo
  split
  · exact fair_error nofun
  · exact fair_ok _

theorem pop_fair : heap.Fair f.pop := by
  unfold pop
  split
  · exact fair_ok _
  · exact fair_error nofun

theorem popArgs_fair (count : Nat) : heap.Fair (f.popArgs count) := by
  unfold popArgs
  split
  · exact fair_error nofun
  · exact fair_ok _

theorem getLocal_fair (index : Nat) : heap.Fair (f.getLocal index) := by
  unfold getLocal
  split
  · exact fair_ok _
  · exact fair_error nofun

theorem getArg_fair (index : Nat) : heap.Fair (f.getArg index) := by
  unfold getArg
  split
  · exact fair_ok _
  · exact fair_error nofun

theorem setLocal_fair (index : Nat) (v : Value) : heap.Fair (f.setLocal index v) := by
  unfold setLocal
  split
  · exact fair_ok _
  · exact fair_error nofun

theorem setArg_fair (index : Nat) (v : Value) : heap.Fair (f.setArg index v) := by
  unfold setArg
  split
  · exact fair_ok _
  · exact fair_error nofun

theorem load_fair (address : Value) : heap.Fair (f.load heap address) := by
  unfold load
  split
  · exact getLocal_fair f heap _
  · exact getArg_fair f heap _
  · exact fair_fault (by simp) _

theorem store_fair (address v : Value) : heap.Fair (f.store heap address v) := by
  unfold Frame.store
  split
  · exact setLocal_fair f heap _ v
  · exact setArg_fair f heap _ v
  · exact fair_fault (by simp) _

theorem position_fair (h : Handle) : heap.Fair (f.position h) := by
  unfold position
  split
  · exact fair_ok _
  · exact fair_error (by simp)

theorem left?_fair (source target : Nat) (r : Region) : heap.Fair (f.left? source target r) := by
  have high : heap.Fair (f.endPosition r.tryEnd) := by
    cases r.tryEnd with
    | none => exact fair_ok _
    | some h => exact position_fair f heap h
  exact (position_fair f heap _).bind fun _ => high.bind fun _ => fair_ok _

theorem leftHandlers_fair (source target : Handle) : heap.Fair (f.leftHandlers source target) := by
  refine (position_fair f heap _).bind fun source => (position_fair f heap _).bind fun target => ?_
  have each : ∀ regions : List Region, heap.Fair (regions.mapM (f.left? source target)) := by
    intro regions
    induction regions with
    | nil => exact fair_ok _
    | cons r regions ih =>
      rw [List.mapM_cons]
      exact (left?_fair f heap source target r).bind fun _ => ih.bind fun _ => fair_ok _
  exact (each _).bind fun _ => fair_ok _

theorem callArgs_fair (constrained : Option Sig) (m : MethodRef) (args : List Value) :
    heap.Fair (f.callArgs heap constrained m args) := by
  unfold callArgs
  split
  · exact ((load_fair f heap _).bind fun _ => fair_ok _).bind fun _ => fair_ok _
  · exact fair_ok _

theorem needType_fair (i : Instr) : heap.Fair i.needType := by
  unfold Instr.needType
  split
  · exact fair_ok _
  · exact fair_error nofun

theorem needMethod_fair (i : Instr) : heap.Fair i.needMethod := by
  unfold Instr.needMethod
  split
  · exact fair_ok _
  · exact fair_error nofun

theorem needTarget_fair (i : Instr) : heap.Fair i.needTarget := by
  unfold Instr.needTarget
  split
  · exact fair_ok _
  · exact fair_error nofun

theorem needIndex_fair (i : Instr) : heap.Fair i.needIndex := by
  unfold Instr.needIndex
  split
  · exact fair_ok _
  · exact fair_ok _
  · exact fair_error nofun

theorem act_fair (h : Handle) (i : Instr) : heap.Fair (f.act heap h i) := by
  have jump (g : Frame) : heap.Fair (do return (g, .jump (← i.needTarget)) : Effect) :=
    (needTarget_fair heap i).bind fun _ => fair_ok _
  have pops {k : Value × Frame → Effect} (g : Frame) (next : ∀ v g, heap.Fair (k (v, g))) :
      heap.Fair (g.pop >>= k) := (pop_fair g heap).bind fun ⟨v, g⟩ => next v g
  unfold act
  dsimp only
  generalize (if i.opcode = .callvirt then f else { f with constrained := none }) = g
  cases i.opcode with
  | nop | ldnull | ret => exact fair_ok _
  | ldarg => exact (needIndex_fair heap i).bind fun n => (getArg_fair g heap n).bind fun _ => fair_ok _
  | ldloc => exact (needIndex_fair heap i).bind fun n => (getLocal_fair g heap n).bind fun _ => fair_ok _
  | ldarga | ldloca => exact (needIndex_fair heap i).bind fun _ => fair_ok _
  | starg =>
    exact pops g fun v g => (needIndex_fair heap i).bind fun n => (setArg_fair g heap n v).bind fun _ => fair_ok _
  | stloc =>
    exact pops g fun v g => (needIndex_fair heap i).bind fun n => (setLocal_fair g heap n v).bind fun _ => fair_ok _
  | ldcI4 | ldcI8 | ldstr =>
    dsimp only
    split
    · exact fair_ok _
    · exact fair_error nofun
  | dup | pop | throw => exact pops g fun _ _ => fair_ok _
  | call | callvirt =>
    refine (needMethod_fair heap i).bind fun m => (popArgs_fair g heap _).bind fun ⟨args, g⟩ => ?_
    exact (callArgs_fair g heap _ m args).bind fun _ => fair_ok _
  | newobj =>
    exact (needMethod_fair heap i).bind fun _ => (popArgs_fair g heap _).bind fun _ => fair_ok _
  | br => exact jump g
  | brfalse | brtrue =>
    refine pops g fun v g => ?_
    dsimp only
    split
    · exact jump g
    · exact fair_ok _
  | beq | bge | bgt | ble | blt | bneUn | bgeUn | bgtUn | bleUn | bltUn =>
    refine pops g fun right g => pops g fun left g => (compare_fair _ left right).bind fun holds => ?_
    split
    · exact jump g
    · exact fair_ok _
  | switch =>
    refine pops g fun v g => (int32_fair v).bind fun index => ?_
    split
    · exact fair_ok _
    · exact fair_ok _
  | leave =>
    refine (needTarget_fair heap i).bind fun target => (leftHandlers_fair g heap h target).bind fun handlers => ?_
    split
    · exact fair_ok _
    · exact fair_ok _
  | endfinally =>
    dsimp only
    split
    · exact fair_error nofun
    · exact fair_ok _
    · exact fair_ok _
  | add | sub | mul | div | rem | and | or | xor | shl | shr | shrUn =>
    exact pops g fun right g => pops g fun left g => (binary_fair _ left right).bind fun _ => fair_ok _
  | neg | not => exact pops g fun v g => (unary_fair _ v).bind fun _ => fair_ok _
  | ceq | cgt | cgtUn | clt | cltUn =>
    exact pops g fun right g => pops g fun left g => (compare_fair _ left right).bind fun _ => fair_ok _
  | convI1 | convI2 | convI4 | convI8 | convU1 | convU2 | convU4 | convU8 =>
    exact pops g fun v g => (convert_fair _ v).bind fun _ => fair_ok _
  | box => exact (needType_fair heap i).bind fun _ => pops g fun _ _ => fair_ok _
  | unboxAny =>
    refine (needType_fair heap i).bind fun sig => pops g fun v g => ?_
    dsimp only
    split
    · exact fair_ok _
    · split
      · exact fair_ok _
      · exact fair_fault (by simp) _
  | ldobj => exact pops g fun address g => (load_fair g heap address).bind fun _ => fair_ok _
  | stobj =>
    exact pops g fun v g => pops g fun address g => (store_fair g heap address v).bind fun _ => fair_ok _
  | initobj =>
    refine (needType_fair heap i).bind fun sig => pops g fun address g => ?_
    exact (store_fair g heap address _).bind fun _ => fair_ok _
  | ldtoken | constrained => exact (needType_fair heap i).bind fun _ => fair_ok _
  | newarr =>
    refine (needType_fair heap i).bind fun _ => pops g fun v g => (int32_fair v).bind fun count => ?_
    dsimp only
    split
    · exact fair_error nofun
    · exact fair_ok _
  | ldlen => exact pops g fun v g => (get_fair v).bind fun _ => fair_ok _
  | ldelem =>
    refine pops g fun v g => (int32_fair v).bind fun index => pops g fun v g => (get_fair v).bind fun ⟨_, a⟩ => ?_
    dsimp only
    split
    · exact fair_ok _
    · exact fair_error nofun
  | stelem =>
    refine pops g fun new g => pops g fun v g => (int32_fair v).bind fun index => pops g fun v g => ?_
    refine (get_fair v).bind fun ⟨_, a⟩ => ?_
    dsimp only
    split
    · exact fair_ok _
    · exact fair_error nofun
  | ldcR4 | ldcR8 | unbox | ldfld | ldflda | stfld | ldsfld | ldsflda | stsfld | castclass | isinst =>
    exact fair_error nofun

end Frame

/-! ## Calls -/

namespace Intrinsic

open Heap

variable (s : Scope) (heap : Heap)

theorem expectType_fair (v : Value) : heap.Fair (expectType heap v) := by
  cases v with
  | type sig => exact fair_ok _
  | _ => exact fair_fault (by simp) _

theorem enumInfo_fair (sig : Sig) : heap.Fair (s.enumInfo sig) := by
  unfold Scope.enumInfo
  split
  · exact fair_ok _
  · exact fair_error nofun

theorem unbox_fair (v : Value) : heap.Fair (unbox heap v) := by
  cases v with
  | boxed sig v => exact fair_ok _
  | null => exact fair_error nofun
  | _ => exact fair_fault (by simp) _

theorem boxedBits_fair (v : Value) : heap.Fair (boxedBits s heap v) := by
  refine (unbox_fair heap v).bind fun ⟨sig, inner⟩ => ?_
  dsimp only
  split
  · exact (enum_fair _ inner).bind fun _ => fair_ok _
  · exact (enumInfo_fair s heap sig).bind fun _ => (enum_fair _ inner).bind fun _ => fair_ok _

theorem getTypeFromHandle_fair (args : List Value) : heap.Fair (getTypeFromHandle args) := by
  unfold getTypeFromHandle
  split
  · exact fair_ok _
  · exact fair_error nofun

theorem getValues_fair (args : List Value) : heap.Fair (getValues s heap args) := by
  unfold getValues
  split
  · exact (expectType_fair heap _).bind fun sig => (enumInfo_fair s heap sig).bind fun _ => fair_ok _
  · exact fair_error nofun

theorem isDefined_fair (args : List Value) : heap.Fair (isDefined s heap args) := by
  unfold isDefined
  split
  · refine (expectType_fair heap _).bind fun sig => (enumInfo_fair s heap sig).bind fun d => ?_
    split
    · exact fair_ok _
    · refine (boxedBits_fair s heap _).bind fun ⟨boxed, bits⟩ => ?_
      dsimp only
      split
      · exact fair_error nofun
      · exact fair_ok _
  · exact fair_error nofun

theorem getUnderlyingType_fair (args : List Value) : heap.Fair (getUnderlyingType s heap args) := by
  unfold getUnderlyingType
  split
  · exact (expectType_fair heap _).bind fun sig => (enumInfo_fair s heap sig).bind fun _ => fair_ok _
  · exact fair_error nofun

theorem hasFlag_fair (args : List Value) : heap.Fair (hasFlag s heap args) := by
  unfold hasFlag
  split
  · refine (boxedBits_fair s heap _).bind fun ⟨left, value⟩ => (boxedBits_fair s heap _).bind fun ⟨right, flag⟩ => ?_
    dsimp only
    split
    · exact fair_error nofun
    · exact fair_ok _
  · exact fair_error nofun

theorem toText_fair (args : List Value) : heap.Fair (toText s heap args) := by
  unfold toText
  split
  · exact fair_ok _
  · refine (unbox_fair heap _).bind fun ⟨sig, inner⟩ => ?_
    dsimp only
    split
    · exact (enum_fair _ inner).bind fun _ => fair_ok _
    · split
      · exact (enum_fair _ inner).bind fun _ => fair_ok _
      · exact fair_error nofun
  · exact fair_error nofun

theorem equals_fair (args : List Value) : heap.Fair (equals s heap args) := by
  unfold equals
  split
  · exact fair_ok _
  · exact (boxedBits_fair s heap _).bind fun _ => (boxedBits_fair s heap _).bind fun _ => fair_ok _
  · exact fair_error nofun

theorem convertToString_fair (m : MethodRef) (args : List Value) : heap.Fair (convertToString heap m args) := by
  unfold convertToString
  split
  · exact fair_error nofun
  · split
    · exact (enum_fair _ _).bind fun _ => fair_ok _
    · exact fair_error nofun

theorem invoke?_fair {m : MethodRef} {args : List Value} {r : Except MachineFault (Value × Heap)}
    (known : invoke? s heap m args = some r) : heap.Fair r := by
  unfold invoke? at known
  dsimp only at known
  split at known
  · exact Option.some.inj known ▸ (getTypeFromHandle_fair heap args).map
  split at known
  · exact Option.some.inj known ▸ getValues_fair s heap args
  split at known
  · exact Option.some.inj known ▸ (isDefined_fair s heap args).map
  split at known
  · exact Option.some.inj known ▸ (getUnderlyingType_fair s heap args).map
  split at known
  · exact Option.some.inj known ▸ (hasFlag_fair s heap args).map
  split at known
  · exact Option.some.inj known ▸ (toText_fair s heap args).map
  split at known
  · exact Option.some.inj known ▸ (equals_fair s heap args).map
  split at known
  · exact Option.some.inj known ▸ (convertToString_fair heap m args).map
  split at known
  · exact Option.some.inj known ▸ (fair_ok _).map
  · cases known

end Intrinsic

namespace Machine

open Heap

variable {m : Machine}

theorem body?_ne_endless (ref : MethodRef) : m.body? ref ≠ .error .endless := by
  unfold body?
  split
  · nofun
  · split <;> nofun

theorem resume_ne_endless (a : Action) (f : Frame) (ref : MethodRef) (v : Option Value) :
    a.resume f ref v ≠ .error .endless := by
  have call : afterCall f ref v ≠ .error .endless := by
    unfold afterCall
    split <;> split <;> nofun
  cases a with
  | new =>
    cases v <;> nofun
  | _ => exact call

/-- A host whose calls come back. -/
def Answers (m : Machine) : Prop := ∀ trace heap ref args, m.host.answer trace heap ref args ≠ .error .endless

/-- A call that no method of the module answers. -/
theorem dispatch_fair (answers : m.Answers) {ref : MethodRef} {args : List Value} {w : World}
    (held : (m.dispatch (m.executeWithin 0) ref args w).1 = .error .endless) :
    (m.dispatch (m.executeWithin 0) ref args w).2 = w ∧ ∃ v, ¬ w.heap.Ends v := by
  match own : m.body? ref with
  | .error e =>
    simp only [dispatch, own] at held
    exact absurd (own.trans (congrArg _ (Except.error.inj held))) (body?_ne_endless ref)
  | .ok (some body) =>
    simp only [dispatch, own, executeWithin] at held
    cases held
  | .ok none =>
    simp only [dispatch, own] at held ⊢
    cases known : Intrinsic.invoke? m.scope w.heap ref args with
    | some r =>
      simp only [known] at held ⊢
      cases r with
      | error e => exact ⟨rfl, Intrinsic.invoke?_fair _ _ known (congrArg _ (Except.error.inj held))⟩
      | ok r => cases held
    | none =>
      simp only [known] at held
      cases answer : m.host.answer w.trace w.heap ref args with
      | error e =>
        simp only [answer] at held
        exact absurd (answer.trans (congrArg _ (Except.error.inj held))) (answers _ _ _ _)
      | ok r =>
        simp only [answer] at held
        cases held

/-- An instruction that is held up has changed nothing by then. -/
theorem step_fair (answers : m.Answers) {f : Frame} {h : Handle} {i : Instr} {w : World}
    (held : (m.step (m.executeWithin 0) f h i w).1 = .error .endless) :
    (m.step (m.executeWithin 0) f h i w).2 = w ∧ ∃ v, ¬ w.heap.Ends v := by
  have called {g : Frame} {a : Action} {ref : MethodRef} {args : List Value} (act : f.act w.heap h i = .ok (g, a))
      (target : a.callee? = some (ref, args)) :
      (m.step (m.executeWithin 0) f h i w).2 = w ∧ ∃ v, ¬ w.heap.Ends v := by
    rw [step_of_callee? act target] at held ⊢
    have fair := @dispatch_fair m answers ref args w
    generalize m.dispatch (m.executeWithin 0) ref args w = out at held fair ⊢
    obtain ⟨e | v, w'⟩ := out
    · exact fair (congrArg _ (Except.error.inj held))
    · dsimp only at held
      cases resumed : a.resume g ref v with
      | error e =>
        rw [resumed] at held
        exact absurd (resumed.trans (congrArg _ (Except.error.inj held))) (resume_ne_endless a g ref v)
      | ok f' =>
        rw [resumed] at held
        cases held
  cases act : f.act w.heap h i with
  | error e =>
    simp only [step, act] at held ⊢
    exact ⟨trivial, f.act_fair w.heap h i (act.trans (congrArg _ (Except.error.inj held)))⟩
  | ok p =>
    obtain ⟨g, a⟩ := p
    cases a with
    | next | alloc | store | ret | throw =>
      simp only [step, act] at held
      cases held
    | jump goal =>
      simp only [step, act] at held ⊢
      exact ⟨trivial, (g.goTo_fair w.heap goal).map held⟩
    | call | new => exact called act rfl

end Machine

end CilForge
