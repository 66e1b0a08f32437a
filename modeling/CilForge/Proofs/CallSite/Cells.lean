import CilForge.Proofs.CallSite.Search
import CilForge.Proofs.CallSite.Turn

/-!
# Code without handles

What a search goes by is what it sees of each line, and whether control can come to the line from
elsewhere. On lists of such cells a site is a matter of the cells alone, and a change of a site puts
some cells in the place of others.
-/

namespace CilForge.CallSite

open Edit

structure Cell where
  instr : Instr
  join : Bool

/-- Cells to all of which but the first control comes from the one before. -/
def stretch (join : Bool) : List Instr → List Cell
  | [] => []
  | i :: is => ⟨i, join⟩ :: is.map (⟨·, false⟩)

def Starts (desc : Sig → Option EnumInfo) (cs : List Cell) : Prop :=
  ∃ r F V B join post, Shape desc r F V B ∧ cs = stretch join (F ++ V ++ B) ++ post

def cellsOf (b : Body) (lines : Lines) : List Cell :=
  lines.map fun p => ⟨p.2.seen, isJoin b p.1⟩

variable {b : Body} {lines : Lines}

theorem instrs_stretch (join : Bool) : ∀ is : List Instr, (stretch join is).map (·.instr) = is
  | [] => rfl
  | i :: is => by simp [stretch, Function.comp_def]

theorem cellsOf_append (lines' : Lines) : cellsOf b (lines ++ lines') = cellsOf b lines ++ cellsOf b lines' :=
  List.map_append

theorem instrs_cellsOf : (cellsOf b lines).map (·.instr) = sight lines := by
  simp [cellsOf, sight, Function.comp_def]

theorem cellsOf_stretch {p : Handle × Instr} (alone : Alone b lines) :
    cellsOf b (p :: lines) = stretch (isJoin b p.1) (sight (p :: lines)) := by
  simp only [cellsOf, sight, stretch, List.map_cons, List.map_map]
  congr 1
  exact List.map_congr_left fun q mem => by simp [alone q mem]

theorem alone_of_stretch {join : Bool} {is : List Instr}
    (cells : cellsOf b lines = stretch join is) : Alone b lines.tail := by
  cases lines with
  | nil => exact List.forall_mem_nil _
  | cons p lines =>
    cases is with
    | nil => cases cells
    | cons i is =>
      obtain ⟨-, rest⟩ := List.cons.inj cells
      intro q mem
      have cell : Cell.mk q.2.seen (isJoin b q.1) ∈ is.map (⟨·, false⟩) :=
        rest ▸ List.mem_map_of_mem mem
      obtain ⟨_, -, eq⟩ := List.mem_map.1 cell
      exact (congrArg Cell.join eq).symm

variable {desc : Sig → Option EnumInfo} {r : Recipe} {pre front operand back post : Lines}

theorem Shape.front_ne_nil {F V B : List Instr} (shape : Shape desc r F V B) : F ≠ [] := by
  cases shape <;> exact List.cons_ne_nil _ _

theorem Stands.exists_head (stands : Stands desc b r pre front operand back post) :
    ∃ A a rest, front = (A, a) :: rest := by
  cases front with
  | nil => exact absurd rfl stands.shape.front_ne_nil
  | cons p rest => exact ⟨p.1, p.2, rest, rfl⟩

theorem Stands.apart (num : b.Numbered) {A : Handle} {a : Instr} {rest : Lines}
    (stands : Stands desc b r pre ((A, a) :: rest) operand back post) :
    (∀ p ∈ pre, p.1 ≠ A) ∧ ∀ p ∈ rest ++ operand ++ back ++ post, p.1 ≠ A := by
  have nodup := num.nodup
  unfold Body.handles at nodup
  rw [stands.code] at nodup
  exact Edit.Edited.apart (i := a) (by simpa using nodup)

theorem Stands.cells (stands : Stands desc b r pre front operand back post) {A : Handle}
    (head : front.head?.map (·.1) = some A) :
    cellsOf b (front ++ operand ++ back) =
      stretch (isJoin b A) (sight front ++ sight operand ++ sight back) := by
  obtain ⟨A', a, rest, rfl⟩ := stands.exists_head
  cases head
  have := cellsOf_stretch (p := (A', a)) stands.alone
  simpa [sight] using this

theorem stands_of_cells {join : Bool} {F V B : List Instr} {rest : List Cell}
    (code : b.code = pre ++ lines) (shape : Shape desc r F V B)
    (cells : cellsOf b lines = stretch join (F ++ V ++ B) ++ rest) :
    ∃ front operand back post, lines = front ++ operand ++ back ++ post ∧
      Stands desc b r pre front operand back post ∧ sight front = F ∧ sight operand = V ∧
      sight back = B ∧ cellsOf b post = rest := by
  obtain ⟨site, post, rfl, cells, last⟩ := List.map_eq_append_iff.1 cells
  have alone := alone_of_stretch cells
  have instrs : sight site = F ++ V ++ B := by
    rw [← instrs_cellsOf (b := b), ← instrs_stretch join (F ++ V ++ B)]
    exact congrArg _ cells
  obtain ⟨site', back, rfl, instrs', hB⟩ := List.map_eq_append_iff.1 instrs
  obtain ⟨front, operand, rfl, hF, hV⟩ := List.map_eq_append_iff.1 instrs'
  refine ⟨front, operand, back, post, rfl, ⟨code, alone, ?_⟩, hF, hV, hB, last⟩
  change Shape desc r (front.map _) (operand.map _) (back.map _)
  rw [hF, hV, hB]
  exact shape

variable {ctx : Context} {m : ModuleDef} {A : Handle} {a : Instr}

theorem starts_iff (nodup : b.handles.Nodup) (code : b.code = pre ++ (A, a) :: lines) :
    Starts (known ctx m) (cellsOf b ((A, a) :: lines)) ↔
      ∃ s, search ctx m b A = .ok (some s) := by
  constructor
  · rintro ⟨r, F, V, B, join, rest, shape, cells⟩
    obtain ⟨front, operand, back, post, eq, stands, -⟩ := stands_of_cells code shape cells
    obtain ⟨A', a', rest', rfl⟩ := stands.exists_head
    cases eq
    exact ⟨_, search_of_stands nodup stands rfl⟩
  · rintro ⟨s, found⟩
    obtain ⟨r, front, operand, back, post, stands, eq, -⟩ := search_some nodup code found
    obtain ⟨A', a', rest', rfl⟩ := stands.exists_head
    refine ⟨r, _, _, _, isJoin b A, cellsOf b post, stands.shape, ?_⟩
    rw [eq, cellsOf_append, stands.cells rfl]
    cases eq
    rfl

/-! ## A site that has been changed -/

def Bears (i : Instr) : Prop := i.operand ≠ .none

theorem targets_of_bears {i : Instr} (bears : Bears i.seen) : i.targets = [] := by
  obtain ⟨opcode, operand⟩ := i
  cases operand with
  | target goal => exact absurd rfl bears
  | switch goals => exact absurd rfl bears
  | _ => rfl

theorem bears_of {α : Type} {v : Instr → Option α} (blank : ∀ o, v ⟨o, .none⟩ = none) {i : Instr}
    {x : α} (yes : v i = some x) : Bears i := by
  obtain ⟨opcode, operand⟩ := i
  rintro (rfl : operand = .none)
  rw [blank] at yes
  cases yes

theorem blank_called? (o : Opcode) : called? ⟨o, .none⟩ = none := by
  unfold called?
  split <;> rfl

theorem bears_of_calls {i : Instr} {opcode : Opcode} {test : MethodRef → Bool}
    (yes : calls i opcode test = true) : Bears i := by
  obtain ⟨-, m, method, -⟩ := calls_iff.1 yes
  exact bears_of (v := Instr.method?) (fun _ => rfl) method

theorem bears_of_any {i : Instr} {test : MethodRef → Bool} (yes : (called? i).any test = true) :
    Bears i := by
  obtain ⟨m, called, -⟩ := (Option.any_eq_true ..).1 yes
  exact bears_of blank_called? called

theorem bears_of_pair {i : Instr} {p : Pattern} (yes : pairPattern? i = some p) : Bears i :=
  bears_of (fun o => by rw [pairPattern?, blank_called?]) yes

theorem bears_of_constant {i : Instr} {w : BitVec 64} (constant : constant? i = some w) : Bears i :=
  bears_of (fun o => by cases o <;> rfl) constant

theorem bears_of_type {i : Instr} {e : Sig} (type : i.type? = some e) : Bears i :=
  bears_of (v := Instr.type?) (fun _ => rfl) type

theorem bears_of_valueType {i : Instr} {e : Sig} (value : valueType? i = some e) : Bears i :=
  bears_of (fun _ => rfl) value

/-- The lines that are replaced carry operands of their own, and so name no other lines. -/
theorem Shape.bears {F V B : List Instr} (shape : Shape desc r F V B) : ∀ i ∈ F ++ B, Bears i := by
  cases shape with
  | getValues _ value resolves values _ =>
    simp [bears_of_valueType value, bears_of_calls resolves, bears_of_any values]
  | underlying _ value _ _ underlying _ => simp [bears_of_valueType value, bears_of_any underlying]
  | definedName _ value resolves _ string test _ =>
    have named := bears_of (v := Instr.string?) (fun _ => rfl) string
    simp [bears_of_valueType value, bears_of_calls resolves, named, bears_of_calls test]
  | definedConstant _ value resolves constant _ typed test _ =>
    have typed : Bears _ := typed.elim bears_of_type bears_of_type
    simp [bears_of_valueType value, bears_of_calls resolves, bears_of_constant constant, typed,
      bears_of_calls test]
  | defined _ value resolves _ _ _ _ _ typed test _ =>
    have typed : Bears _ := typed.elim bears_of_type bears_of_type
    simp [bears_of_valueType value, bears_of_calls resolves, typed, bears_of_calls test]
  | literalText constant _ value text _ =>
    simp [bears_of_constant constant, bears_of_valueType value, bears_of_calls text]
  | literalPair constant _ value constant' boxes' pattern _ =>
    simp [Instr.isTyped] at boxes'
    simp [bears_of_constant constant, bears_of_valueType value, bears_of_constant constant',
      bears_of_type boxes'.2, bears_of_pair pattern]
  | boxText _ value text _ => simp [bears_of_valueType value, bears_of_calls text]
  | pair _ value _ _ _ boxes' pattern _ =>
    simp [Instr.isTyped] at boxes'
    simp [bears_of_valueType value, bears_of_type boxes'.2, bears_of_pair pattern]
  | constrained _ value text _ => simp [bears_of_valueType value, bears_of_calls text]

section
variable {F B : Lines} {f : Handle} {b' : Body} {ref : MethodRef}
  (stands : Stands desc b r pre front operand back post)
  (turned : Turned (fun h => isJoin b h = true) r ref A b pre operand post F B f b')
include stands turned

/-- What led to the first line of the site leads to the first of the new lines. -/
theorem Turned.isJoin_iff {h : Handle} :
    isJoin b' h = true ↔ ∃ t, isJoin b t = true ∧ Handle.swap A f t = h := by
  have ed := turned.edited
  constructor
  · intro joined
    rw [isJoin, Bool.or_eq_true] at joined
    rcases joined with target | boundary
    · obtain ⟨q, line, mem⟩ := Body.isTarget_iff.1 target
      rw [ed.code] at line
      obtain ⟨p, hp, rfl⟩ := List.mem_map.1 line
      rw [relabel, Instr.targets_mapTargets] at mem
      obtain ⟨t, ht, eq⟩ := List.mem_map.1 mem
      exact ⟨t, ed.targets p hp t ht, eq⟩
    · obtain ⟨q, mem, hh⟩ := List.any_eq_true.1 boundary
      rw [ed.regions] at mem
      obtain ⟨r, hr, rfl⟩ := List.mem_map.1 mem
      rw [List.contains_iff_mem, Body.boundaries_rebound] at hh
      obtain ⟨t, ht, eq⟩ := List.mem_map.1 hh
      exact ⟨t, ed.bounds r hr t ht, eq⟩
  · rintro ⟨t, joined, rfl⟩
    rw [isJoin, Bool.or_eq_true] at joined ⊢
    rcases joined with target | boundary
    · obtain ⟨p, line, ht⟩ := Body.isTarget_iff.1 target
      have kept : p ∈ pre ++ (F ++ operand ++ B ++ post) := by
        have gone : p ∉ front ++ back := by
          intro mem
          have bears := stands.shape.bears p.2.seen (by
            rw [sight, sight, ← List.map_append]
            exact List.mem_map_of_mem mem)
          rw [targets_of_bears bears] at ht
          cases ht
        rw [stands.code] at line
        simp only [List.mem_append] at line gone ⊢
        tauto
      refine .inl (Body.isTarget_iff.2 ⟨relabel (Handle.swap A f) p, ?_, ?_⟩)
      · rw [ed.code]
        exact List.mem_map_of_mem kept
      · rw [relabel, Instr.targets_mapTargets]
        exact List.mem_map_of_mem ht
    · obtain ⟨r, mem, hh⟩ := List.any_eq_true.1 boundary
      refine .inr (List.any_eq_true.2 ⟨r.rebound A f, ?_, ?_⟩)
      · rw [ed.regions]
        exact List.mem_map_of_mem mem
      · rw [List.contains_iff_mem, Body.boundaries_rebound]
        exact List.mem_map_of_mem (List.contains_iff_mem.1 hh)

theorem Turned.isJoin_first : isJoin b' f = isJoin b A := by
  rw [Bool.eq_iff_iff, turned.isJoin_iff stands]
  constructor
  · rintro ⟨t, joined, eq⟩
    unfold Handle.swap at eq
    split at eq
    · rename_i same
      exact same ▸ joined
    · subst eq
      exact turned.edited.first.elim (fun same => same ▸ joined) fun other => absurd joined other
  · exact fun joined => ⟨A, joined, if_pos rfl⟩

theorem Turned.isJoin_other {h : Handle} (ne : h ≠ f) (other : h ≠ A) : isJoin b' h = isJoin b h := by
  rw [Bool.eq_iff_iff, turned.isJoin_iff stands]
  constructor
  · rintro ⟨t, joined, eq⟩
    unfold Handle.swap at eq
    split at eq
    · exact absurd eq.symm ne
    · exact eq ▸ joined
  · exact fun joined => ⟨h, joined, if_neg other⟩

theorem Turned.cells (num : b.Numbered) (linked : b.Linked) (head : front.head?.map (·.1) = some A) :
    ∃ pre' post', b'.code = pre' ++ post' ∧ pre'.map (·.1) = pre.map (·.1) ∧
      cellsOf b' pre' = cellsOf b pre ∧
      cellsOf b' post' = stretch (isJoin b A) ((r.plan.front r.info).map Instr.seen ++ sight operand ++
        (r.plan.back ref b.locals.size).map Instr.seen) ++ cellsOf b post := by
  have ed := turned.edited
  obtain ⟨A', a, rest, rfl⟩ := stands.exists_head
  obtain rfl : A' = A := by simpa using head
  obtain ⟨i, new, split⟩ := turned.exists_head
  have nodup := ed.nodup
  rw [split] at nodup
  have newApart := Edited.apart (i := i) (P := pre) (Q := new ++ post) (by simpa using nodup)
  have oldApart := stands.apart num
  -- lines around the site keep their cells
  have around {p : Handle × Instr} (mem : p ∈ pre ++ post) : isJoin b' p.1 = isJoin b p.1 := by
    refine turned.isJoin_other stands ?_ ?_ <;> rcases List.mem_append.1 mem with mem | mem
    · exact newApart.1 p mem
    · exact newApart.2 p (List.mem_append_right _ mem)
    · exact oldApart.1 p mem
    · exact oldApart.2 p (List.mem_append_right _ mem)
  -- and the new lines are entered at the first one only
  have alone : Alone b' (new.map (relabel (Handle.swap A' f))) := by
    intro q mem
    obtain ⟨p, line, rfl⟩ := List.mem_map.1 mem
    refine Bool.eq_false_iff.2 fun joined => ?_
    obtain ⟨t, joined, eq⟩ := (turned.isJoin_iff stands).1 joined
    unfold Handle.swap at eq
    split at eq
    · exact newApart.2 p (List.mem_append_left _ line) eq.symm
    change t = p.1 at eq
    subst eq
    have site : p ∈ F ++ operand ++ B := split ▸ List.mem_cons_of_mem _ line
    simp only [List.mem_append] at site
    by_cases old : p ∈ operand
    · have := stands.alone p (by simp [old])
      rw [joined] at this
      cases this
    · have fresh := turned.fresh p (by simp only [List.mem_append]; tauto)
      have := (edited_self num linked A').old p.1 joined
      omega
  have kept {l : Lines} (sub : ∀ p ∈ l, p ∈ pre ++ post) :
      cellsOf b' (l.map (relabel (Handle.swap A' f))) = cellsOf b l := by
    unfold cellsOf
    rw [List.map_map]
    refine List.map_congr_left fun p mem => ?_
    simp [relabel, around (sub p mem)]
  refine ⟨pre.map (relabel (Handle.swap A' f)),
    (F ++ operand ++ B ++ post).map (relabel (Handle.swap A' f)), ?_, ?_, ?_, ?_⟩
  · rw [ed.code, List.map_append]
  · rw [List.map_map]
    rfl
  · exact kept (by simp +contextual)
  · rw [List.map_append, cellsOf_append, kept (l := post) (by simp +contextual), split, List.map_cons,
      cellsOf_stretch alone]
    have same : sight ((F ++ operand ++ B).map (relabel (Handle.swap A' f))) =
        (r.plan.front r.info).map Instr.seen ++ sight operand ++
          (r.plan.back ref b.locals.size).map Instr.seen := by
      rw [← turned.front, ← turned.back]
      simp [sight, relabel, Function.comp_def]
    rw [← List.map_cons, ← split, same]
    exact congrArg (stretch · _ ++ _) (turned.isJoin_first stands)

end

end CilForge.CallSite
