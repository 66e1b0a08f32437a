import CilForge.Proofs.CallSite.Sight
import CilForge.Proofs.Module.Extends
import Mathlib.Data.List.Perm.Subperm
import Mathlib.Data.Nat.Find
import Std.Data.String.ToNat

/-!
# Names of generated methods

A generated method is found again under the name it was given, also when the holder has got more
methods. No search for call sites takes it for a method of the platform.
-/

namespace CilForge.Generated

/-! ## Looking up a name -/

structure Grown (methods methods' : Array MethodDef) : Prop where
  size : methods.size ≤ methods'.size
  there : ∀ (j : Nat) d, methods[j]? = some d → ∃ d', methods'[j]? = some d' ∧ d'.name = d.name ∧ d'.sig = d.sig

variable {methods methods' : Array MethodDef} {sig : MethodSig} {base name : String} {i : Nat}

theorem findIdx?_eq_some {P : MethodDef → Bool} : methods.findIdx? P = some i ↔
    ∃ d, methods[i]? = some d ∧ P d = true ∧ ∀ j < i, ∀ e, methods[j]? = some e → P e = false := by
  rw [Array.findIdx?_eq_some_iff_getElem]
  constructor
  · rintro ⟨lt, yes, before⟩
    refine ⟨methods[i], Array.getElem?_eq_getElem lt, yes, fun j below e there => ?_⟩
    obtain ⟨lt', rfl⟩ := Array.getElem?_eq_some_iff.1 there
    exact Bool.eq_false_iff.2 (before j below)
  · rintro ⟨d, there, yes, before⟩
    obtain ⟨lt, rfl⟩ := Array.getElem?_eq_some_iff.1 there
    refine ⟨lt, yes, fun j below => ?_⟩
    exact Bool.eq_false_iff.1 (before j below _ (Array.getElem?_eq_getElem (Nat.lt_trans below lt)))

theorem Grown.findIdx? (grown : Grown methods methods') (found : methods.findIdx? (·.name = name) = some i) :
    methods'.findIdx? (·.name = name) = some i := by
  obtain ⟨d, there, yes, before⟩ := findIdx?_eq_some.1 found
  obtain ⟨d', there', same, -⟩ := grown.there i d there
  refine findIdx?_eq_some.2 ⟨d', there', by simpa [same] using yes, fun j below e here => ?_⟩
  have lt : j < methods.size := Nat.lt_trans below (Array.getElem?_eq_some_iff.1 there).1
  obtain ⟨e', here', same, -⟩ := grown.there j _ (Array.getElem?_eq_getElem lt)
  obtain rfl : e' = e := Option.some.inj (here'.symm.trans here)
  rw [same]
  exact before j below _ (Array.getElem?_eq_getElem lt)

theorem settle_of_found (found : methods.findIdx? (·.name = name) = some i) : settle methods sig name =
    if (methods[i]?.map (·.sig)) = some sig then some (name, some i) else none := by
  rw [settle, found]

theorem Grown.settle_eq (grown : Grown methods methods') (found : methods.findIdx? (·.name = name) = some i) :
    settle methods' sig name = settle methods sig name := by
  obtain ⟨d, there, -⟩ := findIdx?_eq_some.1 found
  obtain ⟨d', there', -, same⟩ := grown.there i d there
  rw [settle_of_found found, settle_of_found (grown.findIdx? found), there, there', Option.map_some,
    Option.map_some, same]

theorem settle_eq_none (taken : settle methods sig name = none) :
    ∃ i, methods.findIdx? (·.name = name) = some i := by
  unfold Generated.settle at taken
  split at taken
  · cases taken
  · exact ⟨_, ‹_›⟩

theorem settle_eq_some {name' : String} {index : Option Nat} (found : settle methods sig name = some (name', index)) :
    name' = name ∧ (index = none ∧ methods.findIdx? (·.name = name) = none ∨
      ∃ i, index = some i ∧ methods.findIdx? (·.name = name) = some i ∧
        methods[i]?.map (·.sig) = some sig) := by
  unfold Generated.settle at found
  split at found
  · cases found
    exact ⟨rfl, .inl ⟨rfl, ‹_›⟩⟩
  · split at found
    · cases found
      exact ⟨rfl, .inr ⟨_, rfl, ‹_›, ‹_›⟩⟩
    · cases found

/-! ## Candidates -/

theorem candidate_injective : Function.Injective (candidate base) := by
  intro m n eq
  have shape (n : Nat) : (candidate base (n + 1)).toList = base.toList ++ '_' :: (n + 2).repr.toList := by
    change (base ++ "_" ++ (n + 2).repr).toList = _
    simp
  have cons (n : Nat) : candidate base (n + 1) ≠ base := by
    intro eq
    have := congrArg (List.length ∘ String.toList) eq
    simp [shape] at this
  cases m with
  | zero =>
    cases n with
    | zero => rfl
    | succ n => exact absurd eq.symm (cons n)
  | succ m =>
    cases n with
    | zero => exact absurd eq (cons m)
    | succ n =>
      have := congrArg String.toList eq
      rw [shape, shape, List.append_cancel_left_eq, List.cons.injEq, String.toList_inj] at this
      have := Nat.repr_injective this.2
      omega

theorem exists_settled (methods : Array MethodDef) (sig : MethodSig) (base : String) :
    ∃ n ≤ methods.size, (settle methods sig (candidate base n)).isSome = true := by
  refine Classical.byContradiction fun none => ?_
  have taken : ∀ n ≤ methods.size, candidate base n ∈ methods.toList.map (·.name) := by
    intro n le
    have free : settle methods sig (candidate base n) = .none := by
      rw [← Option.not_isSome_iff_eq_none]
      exact fun some => none ⟨n, le, some⟩
    obtain ⟨i, found⟩ := settle_eq_none free
    obtain ⟨d, there, named, -⟩ := findIdx?_eq_some.1 found
    refine List.mem_map.2 ⟨d, Array.mem_toList_iff.2 (Array.mem_of_getElem? there), ?_⟩
    simpa using named
  have nodup : ((List.range (methods.size + 1)).map (candidate base)).Nodup :=
    List.pairwise_map.2 (List.nodup_range.imp fun ne eq => ne (candidate_injective eq))
  have sub : (List.range (methods.size + 1)).map (candidate base) ⊆ methods.toList.map (·.name) := by
    intro x mem
    obtain ⟨n, lt, rfl⟩ := List.mem_map.1 mem
    exact taken n (Nat.lt_succ_iff.1 (List.mem_range.1 lt))
  have := (List.subperm_of_subset nodup sub).length_le
  rw [List.length_map, List.length_range, List.length_map, Array.length_toList] at this
  omega

theorem chooseName_spec (methods : Array MethodDef) (sig : MethodSig) (base : String) :
    ∃ n ≤ methods.size, settle methods sig (candidate base n) = some (chooseName methods sig base) ∧
      ∀ k < n, settle methods sig (candidate base k) = none := by
  have exists_one := exists_settled methods sig base
  have least : ∃ n, (n ≤ methods.size ∧ (settle methods sig (candidate base n)).isSome = true) ∧
      ∀ k < n, settle methods sig (candidate base k) = none := by
    refine ⟨Nat.find exists_one, Nat.find_spec exists_one, fun k lt => ?_⟩
    have le : k ≤ methods.size := Nat.le_trans (Nat.le_of_lt lt) (Nat.find_spec exists_one).1
    rw [← Option.not_isSome_iff_eq_none]
    exact fun some => Nat.find_min exists_one lt ⟨le, some⟩
  obtain ⟨n, ⟨le, some⟩, before⟩ := least
  obtain ⟨choice, found⟩ := Option.isSome_iff_exists.1 some
  refine ⟨n, le, ?_, before⟩
  obtain ⟨k, size⟩ : ∃ k, methods.size + 1 = n + (k + 1) := ⟨methods.size - n, by omega⟩
  have first : (List.range (methods.size + 1)).findSome? (fun n => settle methods sig (candidate base n)) =
      Option.some choice := by
    rw [size, List.range_add, List.range_succ_eq_map, List.findSome?_append]
    have none : (List.range n).findSome? (fun n => settle methods sig (candidate base n)) = Option.none := by
      rw [List.findSome?_eq_none_iff]
      exact fun k mem => before k (List.mem_range.1 mem)
    rw [none]
    simp [found]
  rw [found, chooseName, first]
  rfl

theorem chooseName_eq {n : Nat} {choice : String × Option Nat}
    (here : settle methods sig (candidate base n) = some choice)
    (before : ∀ k < n, settle methods sig (candidate base k) = none) :
    chooseName methods sig base = choice := by
  obtain ⟨n', -, settled, before'⟩ := chooseName_spec methods sig base
  rcases Nat.lt_trichotomy n n' with lt | rfl | lt
  · rw [before' n lt] at here
    cases here
  · exact Option.some.inj (settled.symm.trans here)
  · rw [before n' lt] at settled
    cases settled

theorem Grown.taken (grown : Grown methods methods') (taken : settle methods sig name = none) :
    settle methods' sig name = none := by
  obtain ⟨j, there⟩ := settle_eq_none taken
  rw [grown.settle_eq there, taken]

theorem Grown.chooseName_eq (grown : Grown methods methods')
    (found : chooseName methods sig base = (name, some i)) :
    chooseName methods' sig base = (name, some i) := by
  obtain ⟨n, -, settled, before⟩ := chooseName_spec methods sig base
  refine Generated.chooseName_eq (n := n) ?_ fun k lt => grown.taken (before k lt)
  rw [found] at settled
  obtain ⟨-, ⟨free, -⟩ | ⟨j, -, there, -⟩⟩ := settle_eq_some settled
  · cases free
  · rw [grown.settle_eq there, settled]

theorem grown_push (methods : Array MethodDef) (d : MethodDef) : Grown methods (methods.push d) := by
  refine ⟨by simp, fun j e there => ⟨e, ?_, rfl, rfl⟩⟩
  rw [Array.getElem?_push, if_neg (Nat.ne_of_lt (Array.getElem?_eq_some_iff.1 there).1), there]

/-- A method that is made under the chosen name is found from then on. -/
theorem chooseName_push (free : chooseName methods sig base = (name, none)) {d : MethodDef}
    (named : d.name = name) (typed : d.sig = sig) :
    chooseName (methods.push d) sig base = (name, some methods.size) := by
  obtain ⟨n, -, settled, before⟩ := chooseName_spec methods sig base
  refine chooseName_eq (n := n) ?_ fun k lt => (grown_push methods d).taken (before k lt)
  rw [free] at settled
  obtain ⟨rfl, ⟨-, unused⟩ | ⟨j, some, -⟩⟩ := settle_eq_some settled
  · have there : (methods.push d).findIdx? (·.name = candidate base n) = some methods.size := by
      refine findIdx?_eq_some.2 ⟨d, by simp, by simp [named], fun j below e there => ?_⟩
      rw [Array.getElem?_push, if_neg (Nat.ne_of_lt below)] at there
      rw [Array.findIdx?_eq_none_iff] at unused
      exact unused e (Array.mem_of_getElem? there)
    rw [settle_of_found there]
    simp [typed]
  · cases some

/-! ## Generated methods and the platform -/

theorem underscore_mem_baseName (op : Operation) (enum : TypeName) : '_' ∈ (baseName op enum).toList := by
  simp [baseName]

theorem underscore_mem_candidate (mem : '_' ∈ base.toList) (n : Nat) : '_' ∈ (candidate base n).toList := by
  unfold candidate
  split
  · exact mem
  · change '_' ∈ (base ++ "_" ++ (n + 1).repr).toList
    simp

theorem unknown_of_underscore {m : MethodRef} (mem : '_' ∈ m.name.toList) : Platform.isKnown m = false := by
  refine Bool.eq_false_iff.2 fun yes => ?_
  have name : m.name ∈ ["GetTypeFromHandle", "GetValues", "IsDefined", "GetUnderlyingType", "HasFlag",
      "ToString", "Equals"] := by
    simp only [Platform.isKnown, Platform.isGetTypeFromHandle, Platform.isEnumGetValues,
      Platform.isEnumIsDefined, Platform.isEnumGetUnderlyingType, Platform.isEnumHasFlag,
      Platform.isVirtualToString, Platform.isVirtualEquals, MethodRef.isNamed, Bool.or_eq_true,
      Bool.and_eq_true, decide_eq_true_eq] at yes
    simp only [List.mem_cons]
    tauto
  generalize m.name = s at name mem
  revert s
  decide

end CilForge.Generated
