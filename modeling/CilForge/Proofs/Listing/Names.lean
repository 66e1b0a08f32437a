import CilForge.Instr
import CilForge.Proofs.Listing.Words

/-!
# Texts of signatures and references

A signature is written as a word or a name with suffixes behind it. If no name holds a character that
signatures are put together with, the text gives the signature back, but for one thing: how the full
name of a type is split into a namespace and a name.
-/

namespace CilForge

open Text

def Breaks (c : Char) : Prop := c ∈ [' ', ',', '<', '>', '[', '&']

instance : DecidablePred Breaks := fun c => inferInstanceAs (Decidable (c ∈ _))

def EndsSig (c : Char) : Prop := c ∈ [' ', ',', '>']

instance : DecidablePred EndsSig := fun c => inferInstanceAs (Decidable (c ∈ _))

namespace TypeName

def shown (n : TypeName) : TypeName := ⟨"", n.text⟩

def Legible (n : TypeName) : Prop := ∀ c ∈ n.text.toList, ¬ Breaks c

theorem shown_inj {m n : TypeName} : m.shown = n.shown ↔ m.text = n.text := by
  simp [shown]

theorem text_shown (n : TypeName) : n.shown.text = n.text := rfl

def Regular (n : TypeName) : Prop := parse n.text = n

theorem eq_of_shown {m n : TypeName} (regular : m.Regular) (regular' : n.Regular) (eq : m.shown = n.shown) : m = n := by
  rw [← regular, shown_inj.1 eq, regular']

end TypeName

namespace Sig

mutual

def typeNames : Sig → List TypeName
  | .prim _ | .typeParam _ | .methodParam _ => []
  | .valueType name | .cls name => [name]
  | .generic base args => typeNames base ++ typeNamesList args
  | .array inner | .byRef inner => typeNames inner

def typeNamesList : List Sig → List TypeName
  | [] => []
  | s :: rest => typeNames s ++ typeNamesList rest

end

mutual

def mapNames (f : TypeName → TypeName) : Sig → Sig
  | .prim p => .prim p
  | .valueType name => .valueType (f name)
  | .cls name => .cls (f name)
  | .generic base args => .generic (mapNames f base) (mapNamesList f args)
  | .typeParam index => .typeParam index
  | .methodParam index => .methodParam index
  | .array element => .array (mapNames f element)
  | .byRef inner => .byRef (mapNames f inner)

def mapNamesList (f : TypeName → TypeName) : List Sig → List Sig
  | [] => []
  | s :: rest => mapNames f s :: mapNamesList f rest

end

def shown (s : Sig) : Sig := s.mapNames TypeName.shown

def Legible (s : Sig) : Prop := ∀ n ∈ s.typeNames, n.Legible

def Regular (s : Sig) : Prop := ∀ n ∈ s.typeNames, n.Regular

theorem mapNamesList_eq (f : TypeName → TypeName) : ∀ l : List Sig, mapNamesList f l = l.map (mapNames f)
  | [] => rfl
  | s :: l => by rw [mapNamesList, mapNamesList_eq f l, List.map_cons]

theorem textList_eq : ∀ l : List Sig, textList l = l.map text
  | [] => rfl
  | s :: l => by rw [textList, textList_eq l, List.map_cons]

theorem typeNamesList_eq : ∀ l : List Sig, typeNamesList l = l.flatMap typeNames
  | [] => rfl
  | s :: l => by rw [typeNamesList, typeNamesList_eq l, List.flatMap_cons]

section
variable {P : Sig → Prop} (prim : ∀ p, P (.prim p)) (valueType : ∀ n, P (.valueType n)) (cls : ∀ n, P (.cls n))
  (typeParam : ∀ i, P (.typeParam i)) (methodParam : ∀ i, P (.methodParam i)) (array : ∀ s, P s → P (.array s))
  (byRef : ∀ s, P s → P (.byRef s)) (generic : ∀ s l, P s → (∀ a ∈ l, P a) → P (.generic s l))
include prim valueType cls typeParam methodParam array byRef generic

theorem ind : ∀ s, P s
  | .prim p => prim p
  | .valueType n => valueType n
  | .cls n => cls n
  | .typeParam i => typeParam i
  | .methodParam i => methodParam i
  | .array s => array s (ind s)
  | .byRef s => byRef s (ind s)
  | .generic s l => generic s l (ind s) fun a _ => ind a

end

/-! ## Names -/

theorem mapNames_eq_self {f : TypeName → TypeName} {s : Sig} (kept : ∀ n ∈ s.typeNames, f n = n) :
    s.mapNames f = s := by
  induction s using ind with
  | prim p => rfl
  | typeParam i => rfl
  | methodParam i => rfl
  | valueType n => rw [mapNames, kept n (List.mem_singleton_self n)]
  | cls n => rw [mapNames, kept n (List.mem_singleton_self n)]
  | array s ih => rw [mapNames, ih kept]
  | byRef s ih => rw [mapNames, ih kept]
  | generic s l ih each =>
    have args : ∀ a ∈ l, mapNames f a = a := fun a mem => each a mem fun n named =>
      kept n (List.mem_append_right _ (typeNamesList_eq l ▸ List.mem_flatMap.2 ⟨a, mem, named⟩))
    rw [mapNames, mapNamesList_eq, ih fun n mem => kept n (List.mem_append_left _ mem), List.map_congr_left args,
      List.map_id']

theorem mapNames_mapNames (f g : TypeName → TypeName) (s : Sig) : (s.mapNames f).mapNames g = s.mapNames (g ∘ f) := by
  induction s using ind with
  | prim p => rfl
  | typeParam i => rfl
  | methodParam i => rfl
  | valueType n => rfl
  | cls n => rfl
  | array s ih => rw [mapNames, mapNames, mapNames, ih]
  | byRef s ih => rw [mapNames, mapNames, mapNames, ih]
  | generic s l ih each =>
    rw [mapNames, mapNames, mapNames, mapNamesList_eq, mapNamesList_eq, mapNamesList_eq, ih, List.map_map,
      List.map_congr_left (f := mapNames g ∘ mapNames f) each]

theorem text_shown (s : Sig) : s.shown.text = s.text := by
  unfold shown
  induction s using ind with
  | prim p => rfl
  | typeParam i => rfl
  | methodParam i => rfl
  | valueType n => rfl
  | cls n => rfl
  | array s ih => rw [mapNames, text, text, ih]
  | byRef s ih => rw [mapNames, text, text, ih]
  | generic s l ih each =>
    rw [mapNames, text, text, mapNamesList_eq, textList_eq, textList_eq, ih, List.map_map,
      List.map_congr_left (f := text ∘ mapNames TypeName.shown) each]

/-- Names that are split where their full texts are can be split again. -/
theorem parse_shown {s : Sig} (regular : s.Regular) : s.shown.mapNames (fun n => TypeName.parse n.text) = s := by
  rw [shown, mapNames_mapNames]
  exact mapNames_eq_self regular

theorem eq_of_shown {s t : Sig} (regular : s.Regular) (regular' : t.Regular) (eq : s.shown = t.shown) : s = t := by
  rw [← parse_shown regular, eq, parse_shown regular']

theorem map_parse_shown {l : List Sig} (regular : ∀ s ∈ l, s.Regular) :
    (l.map shown).map (mapNames fun n => TypeName.parse n.text) = l := by
  rw [List.map_map]
  exact (List.map_congr_left fun s mem => parse_shown (regular s mem)).trans (List.map_id l)

end Sig

/-! ## First words -/

/-- The text up to its space, if it has one. -/
def Primitive.word (p : Primitive) : List Char := p.text.toList.takeWhile (· ≠ ' ')

def Primitive.behind (p : Primitive) : List Char := p.text.toList.dropWhile (· ≠ ' ')

namespace Sig

def word : Sig → List Char
  | .prim p => p.word
  | .valueType _ => ['v', 'a', 'l', 'u', 'e', 't', 'y', 'p', 'e']
  | .cls _ => ['c', 'l', 'a', 's', 's']
  | .typeParam index => '!' :: Nat.toDigits 10 index
  | .methodParam index => '!' :: '!' :: Nat.toDigits 10 index
  | .generic s _ | .array s | .byRef s => word s

/-- What a signature without suffixes has behind its first word. -/
def behind : Sig → List Char
  | .prim p => p.behind
  | .valueType name | .cls name => ' ' :: name.text.toList
  | _ => []

def Bare : Sig → Prop
  | .generic _ _ | .array _ | .byRef _ => False
  | _ => True

theorem toList_repr (n : Nat) : (toString n).toList = Nat.toDigits 10 n := by
  rw [Nat.toString_eq_ofList_toDigits, String.toList_ofList]

theorem text_bare {s : Sig} (bare : s.Bare) : s.text.toList = s.word ++ s.behind := by
  cases s with
  | prim p => exact List.takeWhile_append_dropWhile.symm
  | valueType n =>
    rw [text, String.toList_append, word, behind]
    rfl
  | cls n =>
    rw [text, String.toList_append, word, behind]
    rfl
  | typeParam i =>
    rw [text, String.toList_append, toList_repr, word]
    exact (List.append_nil _).symm
  | methodParam i =>
    rw [text, String.toList_append, toList_repr, word]
    exact (List.append_nil _).symm
  | generic s l | array s | byRef s => exact bare.elim

theorem mem_digits {n : Nat} {c : Char} (mem : c ∈ Nat.toDigits 10 n) : ¬ Breaks c ∧ c ≠ '!' := by
  have digit : ∀ y < 10, ¬ Breaks (Nat.digitChar y) ∧ Nat.digitChar y ≠ '!' := by decide
  obtain ⟨y, lt, rfl⟩ := mem_toDigits (by decide) mem
  exact digit y lt

def sort : Sig → Nat
  | .prim _ => 0
  | .valueType _ => 1
  | .cls _ => 2
  | .typeParam _ => 3
  | .methodParam _ => 4
  | .generic s _ | .array s | .byRef s => sort s

theorem word_cases (s : Sig) : (∃ p : Primitive, s.word = p.word ∧ s.sort = 0) ∨
    (s.word = ['v', 'a', 'l', 'u', 'e', 't', 'y', 'p', 'e'] ∧ s.sort = 1) ∨
    (s.word = ['c', 'l', 'a', 's', 's'] ∧ s.sort = 2) ∨
    (∃ i, s.word = '!' :: Nat.toDigits 10 i ∧ s.sort = 3) ∨
    ∃ i, s.word = '!' :: '!' :: Nat.toDigits 10 i ∧ s.sort = 4 := by
  induction s using ind with
  | prim p => exact .inl ⟨p, rfl, rfl⟩
  | valueType n => exact .inr (.inl ⟨rfl, rfl⟩)
  | cls n => exact .inr (.inr (.inl ⟨rfl, rfl⟩))
  | typeParam i => exact .inr (.inr (.inr (.inl ⟨i, rfl, rfl⟩)))
  | methodParam i => exact .inr (.inr (.inr (.inr ⟨i, rfl, rfl⟩)))
  | array s ih => exact ih
  | byRef s ih => exact ih
  | generic s l ih _ => exact ih

theorem word_plain (s : Sig) : ∀ c ∈ s.word, ¬ Breaks c := by
  rcases s.word_cases with ⟨p, word, -⟩ | ⟨word, -⟩ | ⟨word, -⟩ | ⟨i, word, -⟩ | ⟨i, word, -⟩ <;> rw [word]
  · cases p <;> exact plain_of_all rfl
  · exact plain_of_all rfl
  · exact plain_of_all rfl
  · exact List.forall_mem_cons.2 ⟨by decide, fun c mem => (mem_digits mem).1⟩
  · exact List.forall_mem_cons.2 ⟨by decide, List.forall_mem_cons.2 ⟨by decide, fun c mem => (mem_digits mem).1⟩⟩

theorem word_ne_nil (s : Sig) : s.word ≠ [] := by
  rcases s.word_cases with ⟨p, word, -⟩ | ⟨word, -⟩ | ⟨word, -⟩ | ⟨i, word, -⟩ | ⟨i, word, -⟩ <;> rw [word]
  · cases p <;> decide
  all_goals exact List.cons_ne_nil _ _

def sortOf (w : List Char) : Nat :=
  if w = ['v', 'a', 'l', 'u', 'e', 't', 'y', 'p', 'e'] then 1
  else if w = ['c', 'l', 'a', 's', 's'] then 2
  else if w.head? = some '!' then (if w.tail.head? = some '!' then 4 else 3)
  else 0

theorem sortOf_word (s : Sig) : sortOf s.word = s.sort := by
  rcases s.word_cases with ⟨p, word, sort⟩ | ⟨word, sort⟩ | ⟨word, sort⟩ | ⟨i, word, sort⟩ | ⟨i, word, sort⟩ <;>
    rw [word, sort]
  · cases p <;> decide
  · decide
  · decide
  · have second : (Nat.toDigits 10 i).head? ≠ some '!' := fun is => (mem_digits (List.mem_of_head? is)).2 rfl
    simp [sortOf, second]
  · simp [sortOf]

theorem closes_behind {s : Sig} (bare : s.Bare) {r : List Char} (closes : Closes Breaks r) :
    Closes Breaks (s.behind ++ r) := by
  cases s with
  | prim p =>
    have space : p.behind = [] ∨ ∃ t, p.behind = ' ' :: t := by
      cases p <;> first | exact .inl rfl | exact .inr ⟨_, rfl⟩
    rcases space with none | ⟨t, some⟩
    · rw [behind, none]
      exact closes
    · rw [behind, some]
      exact closes_cons (by decide)
  | valueType n => exact closes_cons (by decide)
  | cls n => exact closes_cons (by decide)
  | typeParam i => exact closes
  | methodParam i => exact closes
  | generic s l | array s | byRef s => exact bare.elim

theorem prim_append {p q : Primitive} {r s : List Char} (words : p.word = q.word) (eq : p.behind ++ r = q.behind ++ s) :
    p = q ∧ r = s := by
  have apart : ∀ p ∈ Primitive.all, ∀ q ∈ Primitive.all, p.word = q.word →
      p = q ∨ 2 ≤ p.behind.length ∧ 2 ≤ q.behind.length ∧ p.behind.take 2 ≠ q.behind.take 2 := by decide
  have listed (p : Primitive) : p ∈ Primitive.all := by cases p <;> decide
  rcases apart p (listed p) q (listed q) words with rfl | ⟨long, long', differ⟩
  · exact ⟨rfl, List.append_cancel_left eq⟩
  · have := congrArg (List.take 2) eq
    rw [List.take_append_of_le_length long, List.take_append_of_le_length long'] at this
    exact absurd this differ

theorem reads_bare : Reads Breaks (fun s => Bare s ∧ s.Legible) (fun s => s.text.toList) shown := by
  rintro a b r s ⟨bare, legible⟩ ⟨bare', legible'⟩ closes closes' eq
  dsimp only at eq
  rw [text_bare bare, text_bare bare', List.append_assoc, List.append_assoc] at eq
  obtain ⟨words, eq⟩ := append_inj_of_stop (word_plain a) (word_plain b) (closes_behind bare closes)
    (closes_behind bare' closes') eq
  have sorts : a.sort = b.sort := by rw [← sortOf_word, ← sortOf_word, words]
  have named {m n : TypeName} (legible : m.Legible) (legible' : n.Legible)
      (eq : ' ' :: m.text.toList ++ r = ' ' :: n.text.toList ++ s) : m.shown = n.shown ∧ r = s := by
    obtain ⟨names, rest⟩ := append_inj_of_stop legible legible' closes closes' (List.cons.inj eq).2
    exact ⟨TypeName.shown_inj.2 (String.toList_inj.1 names), rest⟩
  cases a <;> cases b <;> first | exact bare.elim | exact bare'.elim | cases sorts
  · obtain ⟨rfl, rest⟩ := prim_append words eq
    exact ⟨rfl, rest⟩
  · obtain ⟨names, rest⟩ := named (legible _ (List.mem_singleton_self _)) (legible' _ (List.mem_singleton_self _)) eq
    exact ⟨congrArg valueType names, rest⟩
  · obtain ⟨names, rest⟩ := named (legible _ (List.mem_singleton_self _)) (legible' _ (List.mem_singleton_self _)) eq
    exact ⟨congrArg cls names, rest⟩
  · rw [toDigits_inj (by decide) (by decide) (List.cons.inj words).2]
    exact ⟨rfl, eq⟩
  · rw [toDigits_inj (by decide) (by decide) (List.cons.inj (List.cons.inj words).2).2]
    exact ⟨rfl, eq⟩

/-! ## Suffixes -/

inductive Suffix where
  | args (l : List Sig)
  | array
  | byRef

namespace Suffix

def on : Suffix → Sig → Sig
  | args l, s => .generic s l
  | array, s => .array s
  | byRef, s => .byRef s

def text : Suffix → List Char
  | args l => '<' :: joined (fun s => s.text.toList) l ++ ['>']
  | array => ['[', ']']
  | byRef => ['&']

def inner : Suffix → List Sig
  | args l => l
  | _ => []

def shown : Suffix → Suffix
  | args l => args (l.map Sig.shown)
  | array => array
  | byRef => byRef

end Suffix

def wrap (s : Sig) (xs : List Suffix) : Sig := xs.foldl (fun s x => x.on s) s

theorem exists_wrap (s : Sig) : ∃ core xs, core.Bare ∧ s = wrap core xs := by
  induction s using ind with
  | prim p => exact ⟨.prim p, [], trivial, rfl⟩
  | valueType n => exact ⟨.valueType n, [], trivial, rfl⟩
  | cls n => exact ⟨.cls n, [], trivial, rfl⟩
  | typeParam i => exact ⟨.typeParam i, [], trivial, rfl⟩
  | methodParam i => exact ⟨.methodParam i, [], trivial, rfl⟩
  | array s ih =>
    obtain ⟨core, xs, bare, rfl⟩ := ih
    exact ⟨core, xs ++ [.array], bare, by rw [wrap, wrap, List.foldl_append]; rfl⟩
  | byRef s ih =>
    obtain ⟨core, xs, bare, rfl⟩ := ih
    exact ⟨core, xs ++ [.byRef], bare, by rw [wrap, wrap, List.foldl_append]; rfl⟩
  | generic s l ih _ =>
    obtain ⟨core, xs, bare, rfl⟩ := ih
    exact ⟨core, xs ++ [.args l], bare, by rw [wrap, wrap, List.foldl_append]; rfl⟩

theorem toList_text_on (x : Suffix) (s : Sig) : (x.on s).text.toList = s.text.toList ++ x.text := by
  cases x with
  | args l =>
    rw [Suffix.on, text, textList_eq, String.toList_append, String.toList_append, String.toList_append,
      toList_intercalate, List.append_assoc, List.append_assoc]
    rfl
  | array => rw [Suffix.on, text, String.toList_append]; rfl
  | byRef => rw [Suffix.on, text, String.toList_append]; rfl

theorem toList_text_wrap : ∀ (xs : List Suffix) (s : Sig),
    (wrap s xs).text.toList = s.text.toList ++ xs.flatMap Suffix.text
  | [], s => (List.append_nil _).symm
  | x :: xs, s => by
    rw [List.flatMap_cons, ← List.append_assoc, ← toList_text_on]
    exact toList_text_wrap xs (x.on s)

theorem shown_on (x : Suffix) (s : Sig) : (x.on s).shown = x.shown.on s.shown := by
  cases x with
  | args l => rw [Suffix.on, shown, mapNames, mapNamesList_eq]; rfl
  | array | byRef => rfl

theorem shown_wrap : ∀ (xs : List Suffix) (s : Sig), (wrap s xs).shown = wrap s.shown (xs.map Suffix.shown)
  | [], _ => rfl
  | x :: xs, s => by
    have rest := shown_wrap xs (x.on s)
    rw [shown_on] at rest
    exact rest

theorem typeNames_on (x : Suffix) (s : Sig) : (x.on s).typeNames = s.typeNames ++ x.inner.flatMap typeNames := by
  cases x with
  | args l => rw [Suffix.on, typeNames, typeNamesList_eq]; rfl
  | array | byRef => exact (List.append_nil _).symm

theorem typeNames_wrap : ∀ (xs : List Suffix) (s : Sig),
    (wrap s xs).typeNames = s.typeNames ++ xs.flatMap fun x => x.inner.flatMap typeNames
  | [], s => (List.append_nil _).symm
  | x :: xs, s => by
    rw [List.flatMap_cons, ← List.append_assoc, ← typeNames_on]
    exact typeNames_wrap xs (x.on s)

theorem Legible.wrap {xs : List Suffix} {s : Sig} (legible : (wrap s xs).Legible) :
    s.Legible ∧ ∀ x ∈ xs, ∀ a ∈ x.inner, a.Legible := by
  unfold Legible at legible
  rw [typeNames_wrap] at legible
  refine ⟨fun n mem => legible n (List.mem_append_left _ mem), fun x mem a inner n named => ?_⟩
  exact legible n (List.mem_append_right _ (List.mem_flatMap.2 ⟨x, mem, List.mem_flatMap.2 ⟨a, inner, named⟩⟩))

theorem length_wrap {xs : List Suffix} {s : Sig} {x : Suffix} (mem : x ∈ xs) {a : Sig} (inner : a ∈ x.inner) :
    a.text.toList.length < (wrap s xs).text.toList.length := by
  have part : a.text.toList.length < x.text.length := by
    cases x with
    | args l =>
      have joins := length_le_joined (fun s : Sig => s.text.toList) (l := l) inner
      simp only [Suffix.text, List.length_append, List.length_cons]
      omega
    | array | byRef => cases inner
  have whole : x.text.length ≤ (xs.flatMap Suffix.text).length := length_le_flatMap mem
  rw [toList_text_wrap, List.length_append]
  omega

theorem not_ends_of_not_breaks {c : Char} (plain : ¬ Breaks c) : ¬ EndsSig c := fun ends => by
  refine plain ?_
  unfold EndsSig at ends
  unfold Breaks
  revert ends
  simp
  tauto

theorem closes_suffixes {xs : List Suffix} {r : List Char} (closes : Closes EndsSig r) :
    Closes Breaks (xs.flatMap Suffix.text ++ r) := by
  cases xs with
  | nil => exact closes.mono fun c ends => by_contra fun plain => not_ends_of_not_breaks plain ends
  | cons x xs =>
    cases x with
    | args l => exact closes_cons (by decide)
    | array => exact closes_cons (by decide)
    | byRef => exact closes_cons (by decide)

theorem word_wrap : ∀ (xs : List Suffix) (s : Sig), (wrap s xs).word = s.word
  | [], _ => rfl
  | x :: xs, s => (word_wrap xs (x.on s)).trans (by cases x <;> rfl)

theorem exists_word (s : Sig) : ∃ rest, s.text.toList = s.word ++ rest ∧ Closes Breaks rest := by
  obtain ⟨core, xs, bare, rfl⟩ := exists_wrap s
  refine ⟨core.behind ++ (xs.flatMap Suffix.text ++ []), ?_, closes_behind bare (closes_suffixes closes_nil)⟩
  rw [toList_text_wrap, text_bare bare, word_wrap, List.append_nil, List.append_assoc]

theorem text_starts (s : Sig) : ∃ c t, s.text.toList = c :: t ∧ ¬ EndsSig c := by
  obtain ⟨rest, text, -⟩ := exists_word s
  cases word : s.word with
  | nil => exact absurd word s.word_ne_nil
  | cons c t =>
    refine ⟨c, t ++ rest, by rw [text, word, List.cons_append], ?_⟩
    exact not_ends_of_not_breaks (s.word_plain c (word ▸ List.mem_cons_self))

/-- A suffix can be told from what follows it if the signatures in it can. -/
theorem suffix_append {ok : Sig → Prop} (reads : Reads EndsSig ok (fun s => s.text.toList) shown) {x y : Suffix}
    (hx : ∀ a ∈ x.inner, ok a) (hy : ∀ a ∈ y.inner, ok a) {r s : List Char} (eq : x.text ++ r = y.text ++ s) :
    x.shown = y.shown ∧ r = s := by
  cases x with
  | args l =>
    cases y with
    | args m =>
      have joins := reads.joined (by decide) fun a _ => text_starts a
      have inner : joined (fun s : Sig => s.text.toList) l ++ '>' :: r =
          joined (fun s : Sig => s.text.toList) m ++ '>' :: s := by
        simpa [Suffix.text] using eq
      obtain ⟨args, rest⟩ := joins l m _ _ hx hy (closes_cons (by decide)) (closes_cons (by decide)) inner
      exact ⟨congrArg Suffix.args args, (List.cons.inj rest).2⟩
    | array | byRef => exact absurd (List.cons.inj eq).1 (by decide)
  | array =>
    cases y with
    | args m | byRef => exact absurd (List.cons.inj eq).1 (by decide)
    | array => exact ⟨rfl, List.append_cancel_left eq⟩
  | byRef =>
    cases y with
    | args m | array => exact absurd (List.cons.inj eq).1 (by decide)
    | byRef => exact ⟨rfl, List.append_cancel_left eq⟩

theorem reads_suffixes {ok : Sig → Prop} (reads : Reads EndsSig ok (fun s => s.text.toList) shown) :
    Reads EndsSig (fun xs => ∀ x ∈ xs, ∀ a ∈ Suffix.inner x, ok a)
      (List.flatMap Suffix.text) (List.map Suffix.shown) := by
  have each : Reads (fun c => EndsSig c ∨ Breaks c) (fun x => ∀ a ∈ Suffix.inner x, ok a) Suffix.text Suffix.shown :=
    fun _ _ _ _ legible legible' _ _ eq => suffix_append reads legible legible' eq
  refine each.flatMap fun x _ => ?_
  cases x with
  | args l => exact ⟨'<', _, rfl, by decide, by decide⟩
  | array => exact ⟨'[', _, rfl, by decide, by decide⟩
  | byRef => exact ⟨'&', _, rfl, by decide, by decide⟩

theorem reads : Reads EndsSig Legible (fun s => s.text.toList) shown := by
  -- by the length of the texts, since the arguments of a signature stand within it
  have bounded (n : Nat) : Reads EndsSig (fun s => s.Legible ∧ s.text.toList.length < n)
      (fun s => s.text.toList) shown := by
    induction n with
    | zero => exact fun _ _ _ _ short => absurd short.2 (Nat.not_lt_zero _)
    | succ n ih =>
      rintro a b r s ⟨legible, short⟩ ⟨legible', short'⟩ closes closes' eq
      obtain ⟨core, xs, bare, rfl⟩ := exists_wrap a
      obtain ⟨core', ys, bare', rfl⟩ := exists_wrap b
      have inner {xs : List Suffix} {core : Sig} (legible : (wrap core xs).Legible)
          (short : (wrap core xs).text.toList.length < n + 1) (x : Suffix) (mem : x ∈ xs) (a : Sig)
          (there : a ∈ x.inner) :
          a.Legible ∧ a.text.toList.length < n :=
        ⟨legible.wrap.2 x mem a there, Nat.lt_of_lt_of_le (length_wrap mem there) (Nat.le_of_lt_succ short)⟩
      have texts : core.text.toList ++ (xs.flatMap Suffix.text ++ r) =
          core'.text.toList ++ (ys.flatMap Suffix.text ++ s) := by
        dsimp only at eq
        rwa [toList_text_wrap, toList_text_wrap, List.append_assoc, List.append_assoc] at eq
      obtain ⟨cores, texts⟩ := reads_bare core core' _ _ ⟨bare, legible.wrap.1⟩ ⟨bare', legible'.wrap.1⟩
        (closes_suffixes closes) (closes_suffixes closes') texts
      obtain ⟨suffixes, rest⟩ := reads_suffixes ih xs ys r s (inner legible short) (inner legible' short')
        closes closes' texts
      exact ⟨by rw [shown_wrap, shown_wrap, cores, suffixes], rest⟩
  intro a b r s legible legible' closes closes' eq
  exact bounded (max a.text.toList.length b.text.toList.length + 1) a b r s ⟨legible, by omega⟩ ⟨legible', by omega⟩
    closes closes' eq

theorem text_inj {s t : Sig} (legible : s.Legible) (legible' : t.Legible) : s.text = t.text ↔ s.shown = t.shown := by
  constructor
  · intro eq
    have texts := congrArg (fun x : String => x.toList ++ []) eq
    exact (reads s t [] [] legible legible' closes_nil closes_nil texts).1
  · intro eq
    rw [← text_shown s, eq, text_shown]

end Sig

/-! ## References -/

/-- A name of a type that can be told from a member behind it. -/
def TypeName.Declares (n : TypeName) : Prop := ∀ c ∈ n.text.toList, ¬ c = ':'

theorem TypeName.declares_append {m n : TypeName} (declares : m.Declares) (declares' : n.Declares) {r s : List Char}
    (eq : m.text.toList ++ ':' :: ':' :: r = n.text.toList ++ ':' :: ':' :: s) : m.shown = n.shown ∧ r = s := by
  obtain ⟨names, rest⟩ := append_inj_of_stop declares declares' (closes_cons rfl) (closes_cons rfl) eq
  exact ⟨TypeName.shown_inj.2 (String.toList_inj.1 names), (List.cons.inj (List.cons.inj rest).2).2⟩

namespace FieldRef

def shown (f : FieldRef) : FieldRef := ⟨f.declaring.shown, f.name, f.type.shown⟩

structure Legible (f : FieldRef) : Prop where
  type : f.type.Legible
  declaring : f.declaring.Declares

theorem toList_text (f : FieldRef) :
    f.text.toList = f.type.text.toList ++ ' ' :: (f.declaring.text.toList ++ ':' :: ':' :: f.name.toList) := by
  simp only [text, String.toList_append, List.append_assoc]
  rfl

theorem text_inj {f g : FieldRef} (legible : f.Legible) (legible' : g.Legible) :
    f.text = g.text ↔ f.shown = g.shown := by
  constructor
  · intro eq
    have texts := congrArg String.toList eq
    rw [toList_text, toList_text] at texts
    obtain ⟨types, texts⟩ := Sig.reads f.type g.type _ _ legible.type legible'.type (closes_cons (by decide))
      (closes_cons (by decide)) texts
    obtain ⟨names, fields⟩ := TypeName.declares_append legible.declaring legible'.declaring (List.cons.inj texts).2
    rw [shown, shown, types, names, String.toList_inj.1 fields]
  · intro eq
    injection eq with names fields types
    rw [text, text, ← f.type.text_shown, ← f.declaring.text_shown, types, names, fields,
      Sig.text_shown, TypeName.text_shown]

structure Regular (f : FieldRef) : Prop where
  type : f.type.Regular
  declaring : f.declaring.Regular

theorem eq_of_shown {f g : FieldRef} (regular : f.Regular) (regular' : g.Regular) (eq : f.shown = g.shown) : f = g := by
  injection eq with names fields types
  have declares := TypeName.eq_of_shown regular.declaring regular'.declaring names
  have typed := Sig.eq_of_shown regular.type regular'.type types
  cases f
  cases g
  exact congr (congr (congrArg FieldRef.mk declares) fields) typed

end FieldRef

namespace MethodRef

def shown (m : MethodRef) : MethodRef where
  declaring := m.declaring.shown
  name := m.name
  sig := ⟨m.sig.hasThis, m.sig.ret.shown, m.sig.params.map Sig.shown⟩

structure Legible (m : MethodRef) : Prop where
  ret : m.sig.ret.Legible
  declaring : m.declaring.Declares
  name : ∀ c ∈ m.name.toList, ¬ c = '('
  params : ∀ s ∈ m.sig.params, s.Legible

def marker (hasThis : Bool) : List Char := if hasThis then ['i', 'n', 's', 't', 'a', 'n', 'c', 'e', ' '] else []

theorem toList_text (m : MethodRef) : m.text.toList = marker m.sig.hasThis ++
    (m.sig.ret.text.toList ++ ' ' :: (m.declaring.text.toList ++ ':' :: ':' :: (m.name.toList ++
      '(' :: (joined (fun s => s.text.toList) m.sig.params ++ [')'])))) := by
  simp only [text, String.toList_append, toList_intercalate, List.append_assoc, marker]
  split <;> rfl

theorem word_ne_marker (s : Sig) : s.word ≠ ['i', 'n', 's', 't', 'a', 'n', 'c', 'e'] := by
  rcases s.word_cases with ⟨p, word, -⟩ | ⟨word, -⟩ | ⟨word, -⟩ | ⟨i, word, -⟩ | ⟨i, word, -⟩ <;> rw [word]
  · cases p <;> decide
  · decide
  · decide
  all_goals exact fun eq => absurd (List.cons.inj eq).1 (by decide)

/-- No signature begins like a marker. -/
theorem marker_ne {s : Sig} {r t : List Char} (closes : Closes Breaks r) : s.text.toList ++ r ≠ marker true ++ t := by
  intro eq
  obtain ⟨rest, text, behind⟩ := s.exists_word
  rw [text, List.append_assoc] at eq
  have word : ∀ c ∈ ['i', 'n', 's', 't', 'a', 'n', 'c', 'e'], ¬ Breaks c := plain_of_all rfl
  exact word_ne_marker s (append_inj_of_stop s.word_plain word (behind.append closes) (s := ' ' :: t)
    (closes_cons (by decide)) eq).1

theorem marker_append {s t : Sig} {this this' : Bool} {r r' : List Char} (closes : Closes Breaks r)
    (closes' : Closes Breaks r') (eq : marker this ++ (s.text.toList ++ r) = marker this' ++ (t.text.toList ++ r')) :
    this = this' ∧ s.text.toList ++ r = t.text.toList ++ r' := by
  cases this <;> cases this'
  · exact ⟨rfl, eq⟩
  · exact absurd eq (marker_ne closes)
  · exact absurd eq.symm (marker_ne closes')
  · exact ⟨rfl, List.append_cancel_left eq⟩

theorem text_inj {m n : MethodRef} (legible : m.Legible) (legible' : n.Legible) :
    m.text = n.text ↔ m.shown = n.shown := by
  constructor
  · intro eq
    have texts := congrArg String.toList eq
    rw [toList_text, toList_text] at texts
    obtain ⟨this, texts⟩ := marker_append (closes_cons (by decide)) (closes_cons (by decide)) texts
    obtain ⟨rets, texts⟩ := Sig.reads _ _ _ _ legible.ret legible'.ret (closes_cons (by decide))
      (closes_cons (by decide)) texts
    obtain ⟨types, texts⟩ := TypeName.declares_append legible.declaring legible'.declaring (List.cons.inj texts).2
    obtain ⟨names, texts⟩ := append_inj_of_stop legible.name legible'.name (closes_cons rfl) (closes_cons rfl) texts
    have lists := List.append_cancel_right (List.cons.inj texts).2
    obtain ⟨params, -⟩ := (Sig.reads.joined (by decide) fun a _ => a.text_starts) m.sig.params n.sig.params [] []
      legible.params legible'.params closes_nil closes_nil (by rw [lists])
    rw [shown, shown, this, rets, types, String.toList_inj.1 names, params]
  · intro eq
    injection eq with types names sigs
    injection sigs with this rets params
    have texts (l : List Sig) : l.map Sig.text = (l.map Sig.shown).map Sig.text := by
      rw [List.map_map]
      exact List.map_congr_left fun s _ => s.text_shown.symm
    rw [text, text, this, names, ← m.sig.ret.text_shown, rets, Sig.text_shown, ← m.declaring.text_shown, types,
      TypeName.text_shown, texts, params, ← texts]

structure Regular (m : MethodRef) : Prop where
  ret : m.sig.ret.Regular
  declaring : m.declaring.Regular
  params : ∀ s ∈ m.sig.params, s.Regular

theorem eq_of_shown {m n : MethodRef} (regular : m.Regular) (regular' : n.Regular)
    (eq : m.shown = n.shown) : m = n := by
  injection eq with types names sigs
  injection sigs with this rets lists
  have declares := TypeName.eq_of_shown regular.declaring regular'.declaring types
  have returns := Sig.eq_of_shown regular.ret regular'.ret rets
  have params : m.sig.params = n.sig.params := by
    rw [← Sig.map_parse_shown regular.params, lists, Sig.map_parse_shown regular'.params]
  obtain ⟨declaring, name, ⟨hasThis, ret, ps⟩⟩ := m
  obtain ⟨declaring', name', ⟨hasThis', ret', ps'⟩⟩ := n
  exact congr (congr (congrArg MethodRef.mk declares) names) (congr (congr (congrArg MethodSig.mk this) returns) params)

end MethodRef

end CilForge
