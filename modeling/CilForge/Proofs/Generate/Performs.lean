import CilForge.Proofs.Generate.Answers
import CilForge.Proofs.Generate.Lookup

/-!
# Generated methods at work

The body that is generated for an operation does the operation, in every module that knows the enum and
does not stand in for the platform (`performs_script`).
-/

namespace CilForge

open Script Lookup

namespace Script

/-- Run from the lines of `back` on, the method of a script ends within `n` instructions and with
another memory. -/
def Runs (m : Machine) (carries : Carries) (s : Script) (args : Array Value) (back : Script)
    (stack : List Value) (mem : Memory) (n : Nat) (o : Outcome) (mem' : Memory) : Prop :=
  back <:+ s → ∃ k ≤ n, m.Ends carries (s.frame args back stack) mem k o mem'

variable {m : Machine} {R : Carries} {s : Script} {args : Array Value} {back : Script}
  {stack stack' : List Value} {mem mem₁ mem' : Memory} {n : Nat} {o : Outcome} {p : Pending}

theorem Plays.runs (plays : Plays m R s args back stack mem n o) : Runs m R s args back stack mem n o mem :=
  plays

theorem Runs.line {f : Frame} {a : Action}
    (act : ∀ h, (s.frame args back stack).act mem.heap h (s.resolve p) = .ok (f, a))
    (done : f.perform mem a = some (s.frame args back stack', mem₁))
    (runs : Runs m R s args back stack' mem₁ n o mem') :
    Runs m R s args (.code p :: back) stack mem (n + 1) o mem' := by
  intro suffix
  obtain ⟨k, le, ends⟩ := runs ((List.suffix_cons _ _).trans suffix)
  exact ⟨1 + k, by omega, .step (.move (acts_code suffix act) done) ends⟩

theorem Runs.next (act : ∀ h, (s.frame args back stack).act mem.heap h (s.resolve p) =
      .ok (s.frame args back stack', .next))
    (runs : Runs m R s args back stack' mem n o mem') :
    Runs m R s args (.code p :: back) stack mem (n + 1) o mem' :=
  .line act rfl runs

theorem Runs.within {args : List Value} {depth : Nat}
    (runs : Runs m (m.Within depth) s args.toArray s [] mem n o mem') :
    ∃ k ≤ n, m.Within (depth + 1) s.body args mem k o mem' := by
  obtain ⟨k, le, ends⟩ := runs (List.suffix_refl s)
  have start : s.frame args.toArray s [] = .start s.body args := by
    simp [frame, ahead, Frame.start, body]
  rw [start] at ends
  exact ⟨k, le, ends⟩

end Script

/-! ## The array of all values -/

namespace Heap

variable (heap : Heap) (element : Sig)

theorem get_alloc (values : Array Value) :
    Heap.get (heap.alloc element values).2 (.array heap.size) = .ok (heap.size, ⟨element, values⟩) := by
  simp [Heap.get, alloc]

theorem store_alloc (front back : List Value) (old new : Value) :
    Heap.store (heap.alloc element (front ++ old :: back).toArray).2 heap.size front.length new =
      (heap.alloc element (front ++ new :: back).toArray).2 := by
  refine Array.ext_getElem? fun i => ?_
  simp only [store, alloc, Array.getElem?_modify, Array.getElem?_push]
  by_cases last : heap.size = i
  · simp [last]
  · rw [if_neg last, if_neg (Ne.symm last), if_neg (Ne.symm last)]

end Heap

namespace Operation

variable {m : Machine} {R : Carries} {d : EnumInfo} {mem mem' : Memory} {s : Script} {args : Array Value}
  {back : Script} {heap : Heap} {n : Nat} {o : Outcome} {stack : List Value}

theorem runs_load {k : IntKind} (x : EnumValue k)
    (runs : Runs m R s args back (.ofEnum x :: stack) mem n o mem') :
    Runs m R s args (plain x.load :: back) stack mem (n + 1) o mem' := by
  unfold EnumValue.load
  cases wide : k.isWide with
  | true => rw [Value.ofEnum_wide wide] at runs; exact .next (fun _ => rfl) runs
  | false => rw [Value.ofEnum_narrow wide] at runs; exact .next (fun _ => rfl) runs

theorem runs_stelem {e : Sig} {v old : Value} {front rest : List Value} (few : front.length < 2 ^ 31)
    (runs : Runs m R s args back stack
      { mem with heap := (heap.alloc e (front ++ v :: rest).toArray).2 } n o mem') :
    Runs m R s args (plain (.typed .stelem e) :: back)
      (v :: .i32 (BitVec.ofNat 32 front.length) :: .array heap.size :: stack)
      { mem with heap := (heap.alloc e (front ++ old :: rest).toArray).2 } (n + 1) o mem' := by
  have place : (BitVec.ofNat 32 front.length).toNat = front.length := by
    rw [BitVec.toNat_ofNat]
    omega
  refine .line (f := s.frame args back stack) (a := .store heap.size front.length v) (fun h => ?_) ?_ runs
  · have opcode : (s.resolve (.plain (.typed .stelem e))).opcode = .stelem := rfl
    simp only [Frame.act, opcode, reduceCtorEq, if_false, frame, Frame.pop, Heap.int32, Heap.get_alloc, bind,
      Except.bind, place]
    simp
    rfl
  · rw [Frame.perform, Heap.store_alloc]

theorem runs_fill : ∀ (xs : List (EnumValue d.kind)) (front : List Value), front.length + xs.length < 2 ^ 31 →
    Runs m R s args ((xs.zipIdx front.length).flatMap (valueScript d) ++ [plain ⟨.ret, .none⟩]) [.array heap.size]
      { mem with heap := (heap.alloc d.sig (front ++ List.replicate xs.length (Value.default d.sig)).toArray).2 }
      (4 * xs.length + 1) (.returned (some (.array heap.size)))
      { mem with heap := (heap.alloc d.sig (front ++ xs.map Value.ofEnum).toArray).2 }
  | [], front, few => (Plays.runs plays_ret)
  | x :: xs, front, few => by
    have rest := runs_fill xs (front ++ [.ofEnum x]) (by simp at few ⊢; omega)
    rw [List.length_append, List.append_assoc, List.append_assoc] at rest
    exact .next (fun _ => rfl) (.next (fun _ => rfl) (runs_load x (runs_stelem (by simp at few; omega) rest)))

theorem runs_newarr {e : Sig} {count : Nat} (few : count < 2 ^ 31)
    (runs : Runs m R s args back (.array mem.heap.size :: stack)
      { mem with heap := (mem.heap.alloc e (List.replicate count (Value.default e)).toArray).2 } n o mem') :
    Runs m R s args (plain (.typed .newarr e) :: back) (.i32 (BitVec.ofNat 32 count) :: stack) mem (n + 1) o
      mem' := by
  have number : (BitVec.ofNat 32 count).toNat = count ∧ ¬ (BitVec.ofNat 32 count).toInt < 0 := by
    have same : (BitVec.ofNat 32 count).toNat = count := by
      rw [BitVec.toNat_ofNat]
      omega
    refine ⟨same, ?_⟩
    rw [BitVec.toInt_eq_toNat_of_lt (by omega)]
    omega
  refine .line (f := s.frame args back stack) (a := .alloc e count) (fun h => ?_) ?_ runs
  · have opcode : (s.resolve (.plain (.typed .newarr e))).opcode = .newarr := rfl
    simp only [Frame.act, opcode, reduceCtorEq, if_false, frame, Frame.pop, Heap.int32, bind, Except.bind, number]
    rfl
  · rw [Frame.perform, List.toArray_replicate]
    rfl

theorem length_values (d : EnumInfo) : d.valuesInOrder.length = d.declared.length := by
  rw [EnumInfo.valuesInOrder, List.length_mergeSort, List.length_map]

theorem runs_values (few : d.valuesInOrder.length < 2 ^ 31) :
    Runs m R (valuesScript d) #[] (valuesScript d) [] mem (4 * d.valuesInOrder.length + 3)
      (.returned (some (.array mem.heap.size)))
      { mem with heap := (mem.heap.alloc d.sig (d.valuesInOrder.map Value.ofEnum).toArray).2 } :=
  .next (fun _ => rfl) (runs_newarr few (runs_fill d.valuesInOrder [] (by simpa using few)))

/-- With more values than that, the size of the array counts as negative. -/
theorem negativeSize_of_many {w : World} (many : 2 ^ 31 ≤ d.declared.length) (fits : d.declared.length < 2 ^ 32)
    (room : w.executed + 2 ≤ m.limits.maxInstructions) (frames : 0 < m.limits.maxCallDepth) :
    ∃ w', m.execute (valuesScript d).body [] w = (.error (.negativeSize (d.declared.length - 2 ^ 32)), w') := by
  obtain ⟨depth, frames⟩ := Nat.exists_eq_add_of_lt frames
  have size : (BitVec.ofNat 32 d.valuesInOrder.length).toInt = d.declared.length - 2 ^ 32 := by
    rw [length_values, BitVec.toInt_eq_toNat_cond, BitVec.toNat_ofNat, Nat.mod_eq_of_lt fits, if_neg (by omega)]
    rfl
  obtain ⟨rest, code⟩ : ∃ rest, (Frame.start (valuesScript d).body []).ahead =
      (⟨0⟩, .ldcI4 (BitVec.ofNat 32 d.valuesInOrder.length)) :: (⟨1⟩, .typed .newarr d.sig) :: rest := ⟨_, rfl⟩
  let f : Frame := { Frame.start (valuesScript d).body [] with
    ahead := (⟨1⟩, .typed .newarr d.sig) :: rest
    stack := [.i32 (BitVec.ofNat 32 d.valuesInOrder.length)] }
  have first : m.runFrame (m.executeWithin depth) (m.limits.maxInstructions + 1) (.start (valuesScript d).body []) w =
      m.runFrame (m.executeWithin depth) m.limits.maxInstructions f (w.later 1 w.memory) :=
    Machine.runFrame_succ code (by omega)
  have refused (behind : List (Handle × Instr)) (heap : Heap) : Frame.act { f with ahead := behind } heap ⟨1⟩
      (.typed .newarr d.sig) = .error (.negativeSize (d.declared.length - 2 ^ 32)) := by
    have opcode : (Instr.typed .newarr d.sig).opcode = .newarr := rfl
    have negative : (d.declared.length : Int) - 2 ^ 32 < 0 := by omega
    simp only [Frame.act, opcode, reduceCtorEq, if_false, f, Frame.pop, Heap.int32, bind, Except.bind, size,
      if_pos negative]
    rfl
  obtain ⟨fuel, budget⟩ : ∃ fuel, m.limits.maxInstructions = fuel + 1 := Nat.exists_eq_succ_of_ne_zero (by omega)
  refine ⟨(w.later 1 w.memory).later 1 w.memory, ?_⟩
  rw [Machine.execute, frames, Nat.zero_add, Machine.executeWithin]
  refine first.trans ?_
  rw [budget, Machine.runFrame_succ (f := f) rfl (by simp; omega), Machine.step, refused]
  rfl

theorem plays_ceq {a b : Value} {c : Bool} {n : Nat} (equal : mem.heap.equal a b = .ok c)
    (plays : Plays m R s args back (.bool c :: stack) mem n o) :
    Plays m R s args (plain ⟨.ceq, .none⟩ :: back) (b :: a :: stack) mem (n + 1) o := by
  refine .next (fun h => ?_) plays
  have unfolded : (s.frame args back (b :: a :: stack)).act mem.heap h (s.resolve (.plain ⟨.ceq, .none⟩)) =
      (mem.heap.equal a b).bind fun c => .ok (s.frame args back (.bool c :: stack), .next) := rfl
  rw [unfolded, equal]
  rfl

theorem plays_equals (x y : EnumValue d.kind) : Plays m R equalsScript #[.ofEnum x, .ofEnum y] equalsScript [] mem
    4 (.returned (some (.bool (decide (x = y))))) :=
  .next (fun _ => rfl) (.next (fun _ => rfl) (plays_ceq (Heap.equal_ofEnum mem.heap x y) plays_ret))

theorem nameOf?_isSome (d : EnumInfo) (x : EnumValue d.kind) :
    (d.nameOf? x).isSome = true ↔ ∃ c ∈ d.declared, c.value = x := by
  have := values_distinct d.declared x
  rw [List.mem_map, List.mem_map] at this
  rw [← this, EnumInfo.nameOf?, Option.isSome_map, List.find?_isSome]
  simp [EnumInfo.constants]

/-- A method with the body that is generated for an operation does the operation. -/
theorem performs_script {op : Operation} {density : Density} {ref : MethodRef} {depth : Nat}
    (found : m.body? ref = .ok (some (op.script d density).body)) (sig : ref.sig = op.sig d.sig)
    (info : m.scope.enumInfo? d.sig = some d) (convert : m.body? (Platform.convertToString d.kind) = .ok none)
    (object : m.body? Platform.objectToString = .ok none) (short : (op.script d density).body.HasShortSwitches)
    (few : d.declared.length < 2 ^ 31) : m.Performs (m.Within (depth + 1)) op d ref := by
  have ends {args : List Value} {mem mem' : Memory} {n : Nat} {o : Outcome}
      (runs : Runs m (m.Within depth) (op.script d density) args.toArray (op.script d density) [] mem n o mem') :
      ∃ k, m.Within (depth + 1) (op.script d density).body args mem k o mem' := by
    obtain ⟨k, -, within⟩ := runs.within
    exact ⟨k, within⟩
  refine ⟨sig, _, found, fun args mem v mem' gives => ?_⟩
  cases gives with
  | @toString x => exact ends (plays_names short info convert object x).runs
  | @isDefined x =>
    have same : Value.bool (d.nameOf? x).isSome = .i32 (if ∃ c ∈ d.declared, c.value = x then 1 else 0) := by
      simp only [Value.bool, nameOf?_isSome]
    rw [same]
    exact ends (plays_membership short x).runs
  | getValues alloc =>
    cases alloc
    exact ends (runs_values (by rwa [length_values]))
  | @equals x y => exact ends (plays_equals x y).runs

end Operation

end CilForge
