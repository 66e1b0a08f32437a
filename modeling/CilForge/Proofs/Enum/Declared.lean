import CilForge.Module.Enum
import CilForge.Proofs.Enum.Names
import CilForge.Proofs.Enum.Number
import CilForge.Proofs.Results

/-!
# Enums read as they were declared

A declaration puts its numbers into a type as constants of the enum's kind, and reading the type widens
each constant by its own sign and cuts it to the kind again. Nothing is lost on the way beyond what the
kind cannot hold (`ofWord_word?`), so what is read is what was declared (`ofType_addTo`).
-/

namespace CilForge

section
variable {k : IntKind}

/-! ## Constants -/

theorem Constant.ofWord?_sig (k : IntKind) (w : BitVec 64) :
    Constant.ofWord? k.sig w = some (.int k (.ofWord k w)) := by
  cases k <;> rfl

/-- Widening a constant by its own sign and cutting it again gives it back. -/
theorem Constant.ofWord_word? (v : EnumValue k) :
    (Constant.int k v).word?.map (EnumValue.ofWord k) = some v := by
  have le : k.bits ≤ 64 := k.bits_le
  have signed : (v.signExtend 64).setWidth k.bits = v := by
    refine BitVec.eq_of_getLsbD_eq fun i lt => ?_
    have below : i < 64 := Nat.lt_of_lt_of_le lt le
    simp only [BitVec.getLsbD_setWidth, BitVec.getLsbD_signExtend, lt, below, decide_true, Bool.true_and, if_true]
  have unsigned : (v.setWidth 64).setWidth k.bits = v := EnumValue.ofWord_stack64 v
  rw [Constant.word?, Option.map_some, Option.some.injEq, EnumValue.ofWord]
  split
  · exact signed
  · exact unsigned

/-! ## First occurrences -/

def firstConstants (cs : List (EnumConstant k)) : List (EnumConstant k) :=
  (cs.zipIdx.filter fun p => (cs.take p.2).all fun c => c.value ≠ p.1.value).map (·.1)

theorem firstConstants_snoc (cs : List (EnumConstant k)) (c : EnumConstant k) :
    firstConstants (cs ++ [c]) = firstConstants cs ++ if cs.all fun d => d.value ≠ c.value then [c] else [] := by
  have front : ∀ p ∈ cs.zipIdx, (cs ++ [c]).take p.2 = cs.take p.2 := by
    intro p mem
    have lt : p.2 < cs.length := by simpa using List.snd_lt_add_of_mem_zipIdx mem
    exact List.take_append_of_le_length (Nat.le_of_lt lt)
  have last : (cs ++ [c]).take (0 + cs.length) = cs := by rw [Nat.zero_add, List.take_left]
  unfold firstConstants
  rw [List.zipIdx_append, List.filter_append, List.map_append,
    List.filter_congr fun p mem => by rw [front p mem]]
  simp only [List.zipIdx_singleton, List.filter_cons, List.filter_nil, last]
  split <;> rfl

theorem distinctConstants_eq (cs : List (EnumConstant k)) : distinctConstants cs = firstConstants cs := by
  induction cs using List.reverseRecOn with
  | nil => rfl
  | append_singleton cs c ih =>
    rw [firstConstants_snoc, distinctConstants_snoc, ih]
    -- the constants kept so far have the values of all that came before
    have known : c.value ∈ (firstConstants cs).map (·.value) ↔ c.value ∈ cs.map (·.value) :=
      ih ▸ values_distinct cs c.value
    have old : (firstConstants cs).any (·.value = c.value) = true ↔ c.value ∈ (firstConstants cs).map (·.value) := by
      simp only [List.any_eq_true, decide_eq_true_eq, List.mem_map]
    have new : (cs.all fun d => d.value ≠ c.value) = true ↔ c.value ∉ cs.map (·.value) := by
      simp only [List.all_eq_true, decide_eq_true_eq, List.mem_map, not_exists, not_and, ne_eq]
    by_cases before : c.value ∈ cs.map (·.value)
    · rw [if_pos (old.2 (known.2 before)), if_neg fun all => new.1 all before, List.append_nil]
    · rw [if_neg fun any => before (known.1 (old.1 any)), if_pos (new.2 before)]

end

/-! ## Reading a declaration -/

namespace EnumDecl

variable (e : EnumDecl) (k : IntKind) (m : ModuleDef)

theorem readConstant_constantField (under : e.underlying = k.sig) (sig : Sig) (name : TypeName)
    (v : String × BitVec 64) : ∃ f, e.constantField sig v = .ok f ∧ f.isLiteral = true ∧
      EnumInfo.readConstant name k f = .ok ⟨v.1, .ofWord k v.2⟩ := by
  have constant : Constant.ofWord? e.underlying v.2 = some (.int k (.ofWord k v.2)) := by
    rw [under, Constant.ofWord?_sig]
  have literal (f : FieldDef) (some : f.constant.isSome = true) (flags : f.flags =
      FieldFlags.isPublic ||| FieldFlags.isStatic ||| FieldFlags.isLiteral ||| FieldFlags.hasDefault) :
      f.isLiteral = true := by
    rw [FieldDef.isLiteral, FieldDef.isStatic, flags, some]
    decide
  refine ⟨_, by rw [constantField, constant], literal _ rfl rfl, ?_⟩
  have read := Constant.ofWord_word? (EnumValue.ofWord k v.2)
  obtain ⟨w, word, cut⟩ := Option.map_eq_some_iff.1 read
  simp only [EnumInfo.readConstant, Option.bind_some, word, cut]

theorem constants_written (under : e.underlying = k.sig) (sig : Sig) (name : TypeName) :
    ∃ fields, e.values.mapM (e.constantField sig) = .ok fields ∧ (∀ f ∈ fields, f.isLiteral = true) ∧
      fields.mapM (EnumInfo.readConstant name k) = .ok (e.values.map fun v => ⟨v.1, .ofWord k v.2⟩) := by
  choose field written literal read using e.readConstant_constantField k under sig name
  refine ⟨e.values.map field, mapM_eq_ok fun v _ => written v, ?_, ?_⟩
  · intro f mem
    obtain ⟨v, -, rfl⟩ := List.mem_map.1 mem
    exact literal v
  · refine mapM_of_forall₂ ?_
    rw [List.forall₂_map_left_iff, List.forall₂_map_right_iff]
    exact List.forall₂_same.2 fun v _ => read v

theorem ofType_fields (under : e.underlying = k.sig) {fields : List FieldDef} {name : TypeName} {t : TypeDef}
    {declared : List (EnumConstant k)} (base : t.base = some (.system "Enum")) (plain : t.genericParams = 0)
    (written : t.fields = (e.valueField :: fields).toArray) (literal : ∀ f ∈ fields, f.isLiteral = true)
    (read : fields.mapM (EnumInfo.readConstant name k) = .ok declared) : EnumInfo.ofType name t =
      .ok { name, kind := k, declared, isFlags := t.hasAttribute (.system "FlagsAttribute") } := by
  have instanceField : e.valueField.isStatic = false := by
    have flags : (FieldFlags.isPublic ||| FieldFlags.specialName ||| FieldFlags.runtimeSpecialName) &&&
        FieldFlags.isStatic = 0 := by decide
    simp only [FieldDef.isStatic, valueField, flags, ne_eq, not_true_eq_false, decide_false]
  have isEnum : t.isEnum = true := by rw [TypeDef.isEnum, base]; exact decide_eq_true rfl
  have value : t.fields.find? (fun f => f.name = "value__" && !f.isStatic) = some e.valueField := by
    rw [written, List.find?_toArray]
    exact List.find?_cons_of_pos (by rw [instanceField]; rfl)
  have constants : t.fields.toList.filter (·.isLiteral) = fields := by
    rw [written, List.filter_cons_of_neg (by rw [FieldDef.isLiteral, instanceField]; exact Bool.false_ne_true)]
    exact List.filter_eq_self.2 literal
  have kind : IntKind.ofSig? e.valueField.sig = some k := by
    rw [valueField, under]
    exact IntKind.ofSig?_sig k
  simp only [EnumInfo.ofType, isEnum, plain, value, kind, constants, read, bind, Except.bind]
  rfl

/-- A declaration is refused only for want of its enclosing type. Otherwise it becomes the last type of the
module; from this type its kind and whether it is a set of flags are read as declared, the constants in
order with their numbers cut to the kind, and of these the first of each value are the distinct ones. -/
theorem ofType_addTo (name : TypeName) :
    (∃ p, e.enclosing = some p ∧ m.types.size ≤ p ∧
      ({ e with underlying := k.sig } : EnumDecl).addTo m = .error (.invariant (.noEnclosingType p))) ∨
    ∃ m' t d, ({ e with underlying := k.sig } : EnumDecl).addTo m = .ok (m.types.size, m') ∧
      m'.types[m.types.size]? = some t ∧ EnumInfo.ofType name t = .ok d ∧
      d = { name, kind := k, isFlags := e.isFlags, declared := e.values.map fun v => ⟨v.1, .ofWord k v.2⟩ } ∧
      d.constants = firstConstants d.declared := by
  generalize decl : ({ e with underlying := k.sig } : EnumDecl) = e'
  have under : e'.underlying = k.sig := by rw [← decl]
  have same : e'.enclosing = e.enclosing ∧ e'.values = e.values ∧ e'.isFlags = e.isFlags := by
    rw [← decl]
    exact ⟨rfl, rfl, rfl⟩
  obtain ⟨enclosing, values, isFlags⟩ := same
  rw [← enclosing, ← values, ← isFlags]
  obtain ⟨fields, written, literal, read⟩ := e'.constants_written k under (e'.sig m) name
  have flags : (if e'.isFlags then [TypeName.system "FlagsAttribute"] else []).contains (.system "FlagsAttribute") =
      e'.isFlags := by
    cases e'.isFlags <;> simp
  have last {types : Array TypeDef} (size : types.size = m.types.size) (t : TypeDef) :
      (types.push t)[m.types.size]? = some t := by simp [← size]
  have info {t : TypeDef} (base : t.base = some (.system "Enum")) (plain : t.genericParams = 0)
      (all : t.fields = (e'.valueField :: fields).toArray)
      (attributes : t.attributes = if e'.isFlags then [.system "FlagsAttribute"] else []) : EnumInfo.ofType name t =
        .ok { name, kind := k, isFlags := e'.isFlags, declared := e'.values.map fun v => ⟨v.1, .ofWord k v.2⟩ } := by
    rw [e'.ofType_fields k under base plain all literal read, TypeDef.hasAttribute, attributes, flags]
  simp only [addTo, written, bind, Except.bind, ModuleDef.addType]
  cases place : e'.enclosing with
  | none =>
    exact .inr ⟨_, _, _, rfl, last rfl _, info rfl rfl rfl rfl, rfl, distinctConstants_eq _⟩
  | some p =>
    by_cases there : p < m.types.size
    · simp only [there, if_true]
      exact .inr ⟨_, _, _, rfl, last (Array.size_modify ..) _, info rfl rfl rfl rfl, rfl, distinctConstants_eq _⟩
    · simp only [there, if_false]
      exact .inl ⟨p, rfl, Nat.le_of_not_lt there, rfl⟩

end EnumDecl

end CilForge
