import CilForge.Proofs.Body.Check
import CilForge.Proofs.Body.Expand
import CilForge.Proofs.Listing.Decimal
import CilForge.Proofs.Listing.Names
import CilForge.Body.Listing
import Std.Data.String.ToInt
import Std.Data.String.ToNat

/-!
# What a listing tells

Two bodies with one listing have the same instructions, where targets are compared by place, up to what
the text of an operand does not show: how the full name of a type is split, and which of the bits that are
no number a floating point operand has. Names are to be such that they can be read where they stand.
-/

namespace CilForge

open Text

namespace Opcode

theorem mem_all (o : Opcode) : o ∈ all := by cases o <;> decide

theorem mnemonic_inj {o p : Opcode} (eq : o.mnemonic = p.mnemonic) : o = p := by
  have nodup : (all.map mnemonic).Nodup := by decide +kernel
  exact List.inj_on_of_nodup_map nodup o.mem_all p.mem_all eq

theorem mnemonic_plain (o : Opcode) : ∀ c ∈ o.mnemonic.toList, ¬ c = ' ' := by
  cases o <;> exact plain_of_all (by decide)

end Opcode

/-! ## Operands -/

def placeLabel (h : Handle) : String := "IL_" ++ decimalPadded 4 h.index

theorem placeLabel_inj {h k : Handle} (eq : placeLabel h = placeLabel k) : h = k := by
  have texts := congrArg String.toList eq
  rw [placeLabel, placeLabel, String.toList_append, String.toList_append] at texts
  exact congrArg Handle.mk (decimalPadded_inj (String.toList_inj.1 (List.append_cancel_left texts)))

theorem placeLabel_plain (h : Handle) : ∀ c ∈ (placeLabel h).toList, ¬ c = ',' := by
  have letter : ∀ c ∈ "IL_".toList, ¬ c = ',' := plain_of_all (by decide)
  have digit : ∀ y < 10, ¬ Nat.digitChar y = ',' := by decide
  intro c mem
  rw [placeLabel, String.toList_append] at mem
  rcases List.mem_append.1 mem with mem | mem
  · exact letter c mem
  · obtain ⟨y, lt, rfl⟩ := mem_decimalPadded mem
    exact digit y lt

theorem reads_placeLabel : Reads (fun c => c = ',') (fun _ => True) (fun h => (placeLabel h).toList) id := by
  intro h k r s _ _ closes closes' eq
  obtain ⟨labels, rest⟩ := append_inj_of_stop (placeLabel_plain h) (placeLabel_plain k) closes closes' eq
  exact ⟨placeLabel_inj (String.toList_inj.1 labels), rest⟩

namespace Operand

def shown : Operand → Operand
  | float32 bits => float32 (if Decimal.single.NaN bits.toNat then 0x7fc00000 else bits)
  | float64 bits => float64 (if Decimal.double.NaN bits.toNat then 0x7ff8000000000000 else bits)
  | type sig => type sig.shown
  | field ref => field ref.shown
  | method ref => method ref.shown
  | o => o

def Legible : Operand → Prop
  | type sig => sig.Legible
  | field ref => ref.Legible
  | method ref => ref.Legible
  | _ => True

/-- Names are split where their full texts are, and floating point operands are numbers. -/
def Regular : Operand → Prop
  | float32 bits => ¬ Decimal.single.NaN bits.toNat
  | float64 bits => ¬ Decimal.double.NaN bits.toNat
  | type sig => sig.Regular
  | field ref => ref.Regular
  | method ref => ref.Regular
  | _ => True

theorem kind_shown (o : Operand) : o.shown.kind = o.kind := by cases o <;> rfl

theorem eq_of_shown {o p : Operand} (regular : o.Regular) (regular' : p.Regular) (eq : o.shown = p.shown) : o = p := by
  have kind : o.kind = p.kind := by rw [← kind_shown, eq, kind_shown]
  cases o <;> cases p <;> try cases kind
  case float32.float32 x y =>
    rw [shown, shown, if_neg regular, if_neg regular'] at eq
    exact eq
  case float64.float64 x y =>
    rw [shown, shown, if_neg regular, if_neg regular'] at eq
    exact eq
  case type.type s t => rw [Sig.eq_of_shown regular regular' (Operand.type.inj eq)]
  case field.field f g => rw [FieldRef.eq_of_shown regular regular' (Operand.field.inj eq)]
  case method.method m n => rw [MethodRef.eq_of_shown regular regular' (Operand.method.inj eq)]
  all_goals exact eq

theorem standard_inj {α : Type} {P : α → Prop} [DecidablePred P] {c x y : α} (standard : P c) :
    x = y ∨ P x ∧ P y ↔ (if P x then c else x) = if P y then c else y := by
  constructor
  · rintro (rfl | ⟨hx, hy⟩)
    · rfl
    · rw [if_pos hx, if_pos hy]
  · intro eq
    split at eq <;> split at eq
    case isTrue.isTrue hx hy => exact .inr ⟨hx, hy⟩
    case isTrue.isFalse hx hy => exact absurd (eq ▸ standard) hy
    case isFalse.isTrue hx hy => exact absurd (eq ▸ standard) hx
    case isFalse.isFalse hx hy => exact .inl eq

theorem text_inj {o p : Operand} (kind : o.kind = p.kind) (legible : o.Legible) (legible' : p.Legible) :
    o.text placeLabel = p.text placeLabel ↔ o.shown = p.shown := by
  cases o <;> cases p <;> try cases kind
  case none.none => exact iff_of_true rfl rfl
  case int32.int32 x y =>
    refine (String.append_right_inj " ").trans (Iff.trans Int.repr_inj (BitVec.toInt_inj.trans ?_))
    exact ⟨congrArg Operand.int32, Operand.int32.inj⟩
  case int64.int64 x y =>
    refine (String.append_right_inj " ").trans (Iff.trans Int.repr_inj (BitVec.toInt_inj.trans ?_))
    exact ⟨congrArg Operand.int64, Operand.int64.inj⟩
  case float32.float32 x y =>
    refine (String.append_right_inj " ").trans ((Decimal.Format.text_inj (by decide) x.isLt y.isLt).trans ?_)
    rw [BitVec.toNat_inj, standard_inj (P := fun x : BitVec 32 => Decimal.single.NaN x.toNat) (c := 0x7fc00000)
      (by decide)]
    exact ⟨congrArg Operand.float32, Operand.float32.inj⟩
  case float64.float64 x y =>
    refine (String.append_right_inj " ").trans ((Decimal.Format.text_inj (by decide) x.isLt y.isLt).trans ?_)
    rw [BitVec.toNat_inj, standard_inj (P := fun x : BitVec 64 => Decimal.double.NaN x.toNat) (c := 0x7ff8000000000000)
      (by decide)]
    exact ⟨congrArg Operand.float64, Operand.float64.inj⟩
  case string.string x y =>
    refine (String.append_right_inj " ").trans ⟨fun eq => by rw [quoted_inj eq],
      fun eq => by rw [Operand.string.inj eq]⟩
  case type.type s t =>
    refine (String.append_right_inj " ").trans ((Sig.text_inj legible legible').trans ?_)
    exact ⟨congrArg Operand.type, Operand.type.inj⟩
  case field.field f g =>
    refine (String.append_right_inj " ").trans ((FieldRef.text_inj legible legible').trans ?_)
    exact ⟨congrArg Operand.field, Operand.field.inj⟩
  case method.method m n =>
    refine (String.append_right_inj " ").trans ((MethodRef.text_inj legible legible').trans ?_)
    exact ⟨congrArg Operand.method, Operand.method.inj⟩
  case localVar.localVar x y =>
    refine (String.append_right_inj " V_").trans (Iff.trans Nat.repr_inj ?_)
    exact ⟨congrArg Operand.localVar, Operand.localVar.inj⟩
  case argument.argument x y =>
    refine (String.append_right_inj " A_").trans (Iff.trans Nat.repr_inj ?_)
    exact ⟨congrArg Operand.argument, Operand.argument.inj⟩
  case target.target x y =>
    refine (String.append_right_inj " ").trans ⟨fun eq => by rw [placeLabel_inj eq],
      fun eq => by rw [Operand.target.inj eq]⟩
  case switch.switch x y =>
    constructor
    · intro eq
      have lists := congrArg String.toList ((String.append_right_inj " (").1 ((String.append_left_inj ")").1 eq))
      rw [toList_intercalate, toList_intercalate] at lists
      -- a label starts with no comma, so the joined text falls apart in one way
      have starts (h : Handle) (_ : True) : ∃ c t, (placeLabel h).toList = c :: t ∧ ¬ c = ',' :=
        ⟨'I', 'L' :: '_' :: (decimalPadded 4 h.index).toList, by rw [placeLabel, String.toList_append]; rfl, by decide⟩
      obtain ⟨goals, -⟩ := (reads_placeLabel.joined rfl starts) x y [] [] (fun _ _ => trivial) (fun _ _ => trivial)
        closes_nil closes_nil (by rw [lists])
      rw [List.map_id, List.map_id] at goals
      rw [goals]
    · intro eq
      rw [Operand.switch.inj eq]

theorem text_congr {label label' : Handle → String} {o : Operand} (same : ∀ h ∈ o.targets, label h = label' h) :
    o.text label = o.text label' := by
  cases o with
  | target goal => exact congrArg (" " ++ ·) (same goal (List.mem_singleton_self goal))
  | switch goals =>
    exact congrArg (fun labels => " (" ++ String.intercalate ", " labels ++ ")") (List.map_congr_left same)
  | _ => rfl

theorem text_mapTargets (label : Handle → String) (f : Handle → Handle) (o : Operand) :
    (o.mapTargets f).text label = o.text fun h => label (f h) := by
  cases o with
  | switch goals => rw [mapTargets, text, text, List.map_map]; rfl
  | _ => rfl

theorem legible_mapTargets {f : Handle → Handle} {o : Operand} : (o.mapTargets f).Legible ↔ o.Legible := by
  cases o <;> exact Iff.rfl

theorem regular_mapTargets {f : Handle → Handle} {o : Operand} : (o.mapTargets f).Regular ↔ o.Regular := by
  cases o <;> exact Iff.rfl

theorem kind_mapTargets (f : Handle → Handle) (o : Operand) : (o.mapTargets f).kind = o.kind := by cases o <;> rfl

theorem closes_text (label : Handle → String) (o : Operand) : Closes (fun c => c = ' ') (o.text label).toList := by
  have spaced (rest : String) : Closes (fun c => c = ' ') (" " ++ rest).toList := by
    rw [String.toList_append]
    exact closes_cons rfl
  have spaced' (c d : Char) (rest : String) : Closes (fun c => c = ' ') (String.ofList [' ', c, d] ++ rest).toList := by
    rw [String.toList_append, String.toList_ofList]
    exact closes_cons rfl
  cases o with
  | none => exact closes_nil
  | localVar index => exact spaced' 'V' '_' _
  | argument index => exact spaced' 'A' '_' _
  | switch goals =>
    rw [text, String.append_assoc, String.toList_append]
    exact closes_cons rfl
  | _ => exact spaced _

end Operand

namespace Instr

def shown (i : Instr) : Instr := { i with operand := i.operand.shown }

/-- Instructions whose opcodes take their operands, and whose operands can be read. -/
structure Readable (i : Instr) : Prop where
  formed : i.wellFormed = true
  legible : i.operand.Legible

theorem Readable.mapTargets {i : Instr} (readable : i.Readable) (f : Handle → Handle) : (i.mapTargets f).Readable where
  formed := by
    have formed := readable.formed
    unfold wellFormed at formed ⊢
    rwa [Instr.mapTargets, Operand.kind_mapTargets]
  legible := Operand.legible_mapTargets.2 readable.legible

theorem textWith_inj {i j : Instr} (readable : i.Readable) (readable' : j.Readable) :
    i.textWith placeLabel = j.textWith placeLabel ↔ i.shown = j.shown := by
  have operands (same : i.opcode = j.opcode) :
      i.operand.text placeLabel = j.operand.text placeLabel ↔ i.operand.shown = j.operand.shown := by
    have kind := of_decide_eq_true readable.formed
    rw [same, of_decide_eq_true readable'.formed] at kind
    exact Operand.text_inj kind.symm readable.legible readable'.legible
  constructor
  · intro eq
    have texts := congrArg String.toList eq
    rw [textWith, textWith, String.toList_append, String.toList_append] at texts
    obtain ⟨mnemonics, texts⟩ := append_inj_of_stop i.opcode.mnemonic_plain j.opcode.mnemonic_plain
      (Operand.closes_text _ _) (Operand.closes_text _ _) texts
    have same := Opcode.mnemonic_inj (String.toList_inj.1 mnemonics)
    rw [shown, shown, same, (operands same).1 (String.toList_inj.1 texts)]
  · intro eq
    injection eq with same shown
    rw [textWith, textWith, same, (operands same).2 shown]

theorem eq_of_shown {i j : Instr} (regular : i.operand.Regular) (regular' : j.operand.Regular)
    (eq : i.shown = j.shown) :
    i = j := by
  injection eq with opcodes operands
  exact congr (congrArg mk opcodes) (Operand.eq_of_shown regular regular' operands)

end Instr

/-! ## Lines -/

theorem eq_of_zipIdx_map {α β : Type} {f : Nat → α → β} (inj : ∀ n, Function.Injective (f n)) :
    ∀ {l m : List α} {n : Nat},
    (l.zipIdx n).map (fun p => f p.2 p.1) = (m.zipIdx n).map (fun p => f p.2 p.1) → l = m
  | [], [], _, _ => rfl
  | [], _ :: _, _, eq => nomatch eq
  | _ :: _, [], _, eq => nomatch eq
  | a :: l, b :: m, n, eq => by
    rw [List.zipIdx_cons, List.zipIdx_cons, List.map_cons, List.map_cons, List.cons.injEq] at eq
    have first : a = b := inj n eq.1
    rw [first, eq_of_zipIdx_map inj eq.2]

theorem map_eq_map_iff_of {α β γ : Type} {ok : α → Prop} {f : α → β} {g : α → γ}
    (same : ∀ a b, ok a → ok b → (f a = f b ↔ g a = g b)) : ∀ {l m : List α}, (∀ a ∈ l, ok a) → (∀ a ∈ m, ok a) →
      (l.map f = m.map f ↔ l.map g = m.map g)
  | [], [], _, _ => iff_of_true rfl rfl
  | [], _ :: _, _, _ => iff_of_false nofun nofun
  | _ :: _, [], _, _ => iff_of_false nofun nofun
  | a :: l, b :: m, ok_l, ok_m => by
    rw [List.forall_mem_cons] at ok_l ok_m
    simp only [List.map_cons, List.cons.injEq]
    exact and_congr (same a b ok_l.1 ok_m.1) (map_eq_map_iff_of same ok_l.2 ok_m.2)

/-! ## Bodies -/

namespace Body

def byPlace (b : Body) : List Instr := b.code.map fun p => p.2.mapTargets fun h => ⟨(b.position? h).getD b.size⟩

def numberedLines (code : List Instr) : List String :=
  code.zipIdx.map fun p => placeLabel ⟨p.2⟩ ++ (": " ++ p.1.textWith placeLabel)

variable {b b' : Body}

theorem label_places (nodup : b.handles.Nodup) {h : Handle} (live : h ∈ b.handles) :
    b.places.label h = placeLabel ⟨(b.position? h).getD b.size⟩ := by
  obtain ⟨u, i, v, code⟩ := exists_split live
  have here : b.code[u.length]? = some (h, i) := by rw [code]; simp
  rw [Places.label, getElem?_places nodup code, position?_of_get nodup here]
  rfl

theorem listing_eq (reach : b.Reachable) :
    b.listing = numberedLines b.byPlace ++ b.regions.map b.places.regionLine := by
  have texts : ∀ p ∈ b.code, p.2.textWith b.places.label =
      (p.2.mapTargets fun h => ⟨(b.position? h).getD b.size⟩).textWith placeLabel := fun p line => by
    rw [Instr.textWith, Instr.textWith, Instr.mapTargets, Operand.text_mapTargets]
    exact congrArg _ (Operand.text_congr fun h mem =>
      label_places reach.numbered.nodup (reach.linked.targets p line h mem))
  rw [listing, numberedLines, byPlace, List.zipIdx_map, List.map_map]
  refine congrArg (· ++ _) (List.map_congr_left fun p mem => ?_)
  change Places.codeLine _ _ _ = placeLabel _ ++ (": " ++ Instr.textWith placeLabel (Instr.mapTargets _ _))
  rw [← texts _ (List.fst_mem_of_mem_zipIdx mem), Places.codeLine, placeLabel, String.append_assoc, String.append_assoc]
  rfl

theorem numberedLines_inj {code code' : List Instr} :
    numberedLines code = numberedLines code' ↔
      code.map (·.textWith placeLabel) = code'.map (·.textWith placeLabel) := by
  have lines (code : List Instr) : numberedLines code =
      ((code.map (·.textWith placeLabel)).zipIdx.map fun p => placeLabel ⟨p.2⟩ ++ (": " ++ p.1)) := by
    rw [numberedLines, List.zipIdx_map, List.map_map]
    rfl
  rw [lines, lines]
  refine ⟨eq_of_zipIdx_map (f := fun n x => placeLabel ⟨n⟩ ++ (": " ++ x)) fun n x y eq => ?_, fun eq => by rw [eq]⟩
  exact (String.append_right_inj ": ").1 ((String.append_right_inj (placeLabel ⟨n⟩)).1 eq)

/-- The lines of instructions begin with a letter, those of regions with a dot. -/
theorem lines_append {code code' : List Instr} {places places' : Places} {regions regions' : List Region}
    (eq : numberedLines code ++ regions.map places.regionLine =
      numberedLines code' ++ regions'.map places'.regionLine) :
    numberedLines code = numberedLines code' ∧ regions.map places.regionLine = regions'.map places'.regionLine := by
  have letter (code : List Instr) : ∀ line ∈ numberedLines code, ¬ line.toList.head? = some '.' := by
    intro line mem
    obtain ⟨p, -, rfl⟩ := List.mem_map.1 mem
    have first : "IL_".toList.head? = some 'I' := by decide
    rw [placeLabel, String.append_assoc, String.toList_append, List.head?_append, first]
    exact fun dot => absurd (Option.some.inj dot) (by decide)
  have dot (places : Places) (regions : List Region) :
      Closes (fun line => line.toList.head? = some '.') (regions.map places.regionLine) := by
    have first : ".try ".toList.head? = some '.' := by decide
    have begins (r : Region) : ∃ rest, places.regionLine r = ".try " ++ rest := by
      simp only [Places.regionLine, toString, String.append_assoc]
      exact ⟨_, rfl⟩
    cases regions with
    | nil => exact closes_nil
    | cons r regions =>
      obtain ⟨rest, line⟩ := begins r
      refine closes_cons ?_
      rw [line, String.toList_append, List.head?_append, first]
      rfl
  exact append_inj_of_stop (letter code) (letter code') (dot places regions) (dot places' regions') eq

theorem listing_eq_iff (reach : b.Reachable) (reach' : b'.Reachable) (readable : ∀ p ∈ b.code, p.2.Readable)
    (readable' : ∀ p ∈ b'.code, p.2.Readable) : b.listing = b'.listing ↔
      b.byPlace.map Instr.shown = b'.byPlace.map Instr.shown ∧
        b.regions.map b.places.regionLine = b'.regions.map b'.places.regionLine := by
  have lines {b : Body} (readable : ∀ p ∈ b.code, p.2.Readable) : ∀ i ∈ b.byPlace, i.Readable := by
    intro i mem
    obtain ⟨p, line, rfl⟩ := List.mem_map.1 mem
    exact (readable p line).mapTargets _
  have code := numberedLines_inj.trans
    (map_eq_map_iff_of (fun _ _ => Instr.textWith_inj) (lines readable) (lines readable'))
  rw [listing_eq reach, listing_eq reach', ← code]
  exact ⟨lines_append, fun ⟨eq, eq'⟩ => by rw [eq, eq']⟩

theorem byPlace_eq_of_shown (regular : ∀ p ∈ b.code, p.2.operand.Regular)
    (regular' : ∀ p ∈ b'.code, p.2.operand.Regular)
    (eq : b.byPlace.map Instr.shown = b'.byPlace.map Instr.shown) : b.byPlace = b'.byPlace := by
  have lines {b : Body} (regular : ∀ p ∈ b.code, p.2.operand.Regular) : ∀ i ∈ b.byPlace, i.operand.Regular := by
    intro i mem
    obtain ⟨p, line, rfl⟩ := List.mem_map.1 mem
    exact Operand.regular_mapTargets.2 (regular p line)
  have same (i j : Instr) (regular : i.operand.Regular) (regular' : j.operand.Regular) :
      i.shown = j.shown ↔ id i = id j :=
    ⟨Instr.eq_of_shown regular regular', congrArg Instr.shown⟩
  have lists := (map_eq_map_iff_of same (lines regular) (lines regular')).1 eq
  rwa [List.map_id, List.map_id] at lists

/-- **A listing tells the code.** Bodies have one listing if they show the same instructions, targets by place, and
the same regions; where names are split regularly and every constant is a number, the instructions are the same. -/
theorem listing_identifies (reach : b.Reachable) (reach' : b'.Reachable)
    (formed : ∀ p ∈ b.code, p.2.wellFormed = true) (formed' : ∀ p ∈ b'.code, p.2.wellFormed = true)
    (legible : ∀ p ∈ b.code, p.2.operand.Legible) (legible' : ∀ p ∈ b'.code, p.2.operand.Legible) :
    (b.listing = b'.listing ↔ b.byPlace.map Instr.shown = b'.byPlace.map Instr.shown ∧
      b.regions.map b.places.regionLine = b'.regions.map b'.places.regionLine) ∧
    ((∀ p ∈ b.code, p.2.operand.Regular) → (∀ p ∈ b'.code, p.2.operand.Regular) →
      b.listing = b'.listing → b.byPlace = b'.byPlace) := by
  have told := listing_eq_iff reach reach' (fun p line => ⟨formed p line, legible p line⟩)
    fun p line => ⟨formed' p line, legible' p line⟩
  exact ⟨told, fun regular regular' eq => byPlace_eq_of_shown regular regular' (told.1 eq).1⟩

/-- A loop around a boxed value. -/
def boxing : Body where
  code := [(⟨0⟩, .typed .box (.valueType ⟨"App", "E"⟩)), (⟨1⟩, .branch .br ⟨0⟩)]
  nextIndex := 2

/-- The same loop behind an instruction that has been removed. -/
def reboxing : Body where
  code := [(⟨1⟩, .typed .box (.valueType ⟨"App", "E"⟩)), (⟨2⟩, .branch .br ⟨1⟩)]
  nextIndex := 3

theorem listing_identifies_boxing : boxing.Reachable ∧ reboxing.Reachable ∧ boxing.code ≠ reboxing.code ∧
    boxing.listing = reboxing.listing ∧ boxing.byPlace = reboxing.byPlace := by
  have reach : boxing.Reachable :=
    .edit (.push (.branch .br ⟨0⟩)) (.edit (.push (.typed .box (.valueType ⟨"App", "E"⟩))) .empty)
  have reach' : reboxing.Reachable :=
    .edit (.remove ⟨0⟩) (.edit (.push (.branch .br ⟨1⟩)) (.edit (.push (.typed .box (.valueType ⟨"App", "E"⟩)))
      (.edit (.push ⟨.nop, .none⟩) .empty)))
  have legible : (Operand.type (.valueType ⟨"App", "E"⟩)).Legible := by
    exact List.forall_mem_singleton.2 (plain_of_all (by decide))
  have regular : (Operand.type (.valueType ⟨"App", "E"⟩)).Regular := by
    exact List.forall_mem_singleton.2 (show TypeName.parse _ = _ by decide)
  have each {P : Operand → Prop} (boxed : P (.type (.valueType ⟨"App", "E"⟩))) (goes : ∀ h, P (.target h)) :
      (∀ p ∈ boxing.code, P p.2.operand) ∧ ∀ p ∈ reboxing.code, P p.2.operand := by
    constructor <;> (intro p line; rcases List.mem_pair.1 line with rfl | rfl)
    exacts [boxed, goes _, boxed, goes _]
  obtain ⟨told, same⟩ := listing_identifies reach reach' (by decide) (by decide) (each legible fun _ => trivial).1
    (each legible fun _ => trivial).2
  have bare (places : Places) : ([] : List Region).map places.regionLine = [] := rfl
  have eq := told.2 ⟨rfl, (bare _).trans (bare _).symm⟩
  exact ⟨reach, reach', by decide, eq, same (each regular fun _ => trivial).1 (each regular fun _ => trivial).2 eq⟩

def single (i : Instr) : Body where
  code := [(⟨0⟩, i)]
  nextIndex := 1

theorem single_reachable {i : Instr} (free : i.targets = []) : (single i).Reachable := by
  have edited : (Edit.Op.push i).apply {} = single i := by
    rw [Edit.Op.apply, Edit.push, free]
    rfl
  exact edited ▸ .edit (.push i) .empty

theorem byPlace_single {i : Instr} (free : i.targets = []) : (single i).byPlace = [i] := by
  obtain ⟨o, operand⟩ := i
  cases operand with
  | target goal => cases free
  | switch goals =>
    obtain rfl : goals = [] := free
    rfl
  | _ => rfl

theorem single_listing {i j : Instr} (free : i.targets = []) (free' : j.targets = [])
    (texts : i.textWith placeLabel = j.textWith placeLabel) : (single i).listing = (single j).listing := by
  have lines : numberedLines [i] = numberedLines [j] := numberedLines_inj.2 (congrArg (fun line => [line]) texts)
  rw [listing_eq (single_reachable free), listing_eq (single_reachable free'),
    byPlace_single free, byPlace_single free', lines]
  exact congrArg (numberedLines [j] ++ ·) List.map_nil

/-- Different instructions, each alone in a body, whose bodies have one listing. -/
structure Indistinct (i j : Instr) : Prop where
  reach : (single i).Reachable
  reach' : (single j).Reachable
  formed : i.wellFormed = true
  formed' : j.wellFormed = true
  listing : (single i).listing = (single j).listing
  differ : (single i).byPlace ≠ (single j).byPlace

theorem indistinct_of_text {i j : Instr} (free : i.targets = []) (free' : j.targets = []) (formed : i.wellFormed = true)
    (formed' : j.wellFormed = true) (texts : i.textWith placeLabel = j.textWith placeLabel) (ne : i ≠ j) :
    Indistinct i j := by
  refine ⟨single_reachable free, single_reachable free', formed, formed', single_listing free free' texts, ?_⟩
  rw [byPlace_single free, byPlace_single free']
  exact fun eq => ne (List.cons.inj eq).1

/-- A name that is split in two ways, a name that looks like a generic type, and two values that are no number. -/
theorem indistinct_operands :
    Indistinct (.typed .box (.valueType ⟨"A.B", "C"⟩)) (.typed .box (.valueType ⟨"A", "B.C"⟩)) ∧
    Indistinct (.typed .box (.cls ⟨"", "L<int32>"⟩)) (.typed .box (.generic (.cls ⟨"", "L"⟩) [.prim .int32])) ∧
    Indistinct ⟨.ldcR4, .float32 0x7fc00000⟩ ⟨.ldcR4, .float32 0x7fc00001⟩ := by
  have nan : Decimal.single.text 0x7fc00000 = Decimal.single.text 0x7fc00001 :=
    (Decimal.Format.text_inj (by decide) (by decide) (by decide)).2 (.inr (by decide))
  refine ⟨?_, ?_, ?_⟩
  · exact indistinct_of_text rfl rfl rfl rfl rfl (by decide)
  · exact indistinct_of_text rfl rfl rfl rfl rfl (by decide)
  · exact indistinct_of_text rfl rfl rfl rfl (congrArg ("ldc.r4 " ++ ·) nan) (by decide)

end Body

end CilForge
