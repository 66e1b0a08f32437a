import CilForge.Text.Quoted
import Mathlib.Data.List.Basic

/-!
# Texts read from the front

A text that is put together of parts can be taken apart again where each part tells its own end: a word
by the first character that no word has, a joined list by what stands between and behind its items, a
quoted text by its escapes.
-/

namespace CilForge.Text

/-- Nothing follows, or a character that closes what stands in front of it. -/
def Closes {α : Type} (stop : α → Prop) (r : List α) : Prop := ∀ c ∈ r.head?, stop c

theorem closes_nil {α : Type} {stop : α → Prop} : Closes stop [] := nofun

theorem closes_cons {α : Type} {stop : α → Prop} {c : α} {r : List α} (closing : stop c) : Closes stop (c :: r) :=
  fun _ is => Option.some.inj is ▸ closing

theorem Closes.mono {α : Type} {stop stop' : α → Prop} {r : List α} (closes : Closes stop r)
    (weaker : ∀ c, stop c → stop' c) : Closes stop' r := fun c is => weaker c (closes c is)

theorem Closes.append {α : Type} {stop : α → Prop} {r s : List α} (closes : Closes stop r) (closes' : Closes stop s) :
    Closes stop (r ++ s) := by
  cases r with
  | nil => exact closes'
  | cons c r => exact closes

theorem plain_of_all {stop : Char → Prop} [DecidablePred stop] {w : List Char}
    (all : (w.all fun c => !decide (stop c)) = true) : ∀ c ∈ w, ¬ stop c := fun c mem stops => by
  have plain := List.all_eq_true.1 all c mem
  rw [decide_eq_true stops] at plain
  cases plain

/-- A word ends where the first character stands that no word has. -/
theorem append_inj_of_stop {α : Type} {stop : α → Prop} : ∀ {v w r s : List α},
    (∀ c ∈ v, ¬ stop c) → (∀ c ∈ w, ¬ stop c) →
    Closes stop r → Closes stop s → v ++ r = w ++ s → v = w ∧ r = s
  | [], [], _, _, _, _, _, _, eq => ⟨rfl, eq⟩
  | [], d :: w, _, _, _, word, closes, _, eq => by
    have head : some d = some d := rfl
    rw [List.nil_append] at eq
    rw [eq] at closes
    exact absurd (closes d rfl) (word d List.mem_cons_self)
  | c :: v, [], _, _, word, _, _, closes, eq => by
    rw [List.nil_append] at eq
    rw [← eq] at closes
    exact absurd (closes c rfl) (word c List.mem_cons_self)
  | c :: v, d :: w, _, _, word, word', closes, closes', eq => by
    rw [List.cons_append, List.cons_append, List.cons.injEq] at eq
    obtain ⟨rfl, eq⟩ := eq
    obtain ⟨rfl, rest⟩ := append_inj_of_stop (fun c mem => word c (List.mem_cons_of_mem _ mem))
      (fun c mem => word' c (List.mem_cons_of_mem _ mem)) closes closes' eq
    exact ⟨rfl, rest⟩

/-- The texts can be told from what follows them, and `keep` of their sources can be told from the texts. -/
def Reads {α β : Type} (stop : Char → Prop) (ok : α → Prop) (text : α → List Char) (keep : α → β) : Prop :=
  ∀ a b r s, ok a → ok b → Closes stop r → Closes stop s → text a ++ r = text b ++ s → keep a = keep b ∧ r = s

def followed {α : Type} (text : α → List Char) (l : List α) : List Char := l.flatMap fun a => ',' :: ' ' :: text a

def joined {α : Type} (text : α → List Char) : List α → List Char
  | [] => []
  | a :: l => text a ++ followed text l

theorem toList_intercalate {α : Type} (text : α → String) : ∀ l : List α,
    (String.intercalate ", " (l.map text)).toList = joined (fun a => (text a).toList) l
  | [] => rfl
  | [a] => by simp [joined, followed]
  | a :: b :: l => by
    have rest := toList_intercalate text (b :: l)
    rw [String.toList_intercalate, List.map_map] at rest ⊢
    rw [List.map_cons, List.map_cons, List.intercalate_cons_cons, ← List.map_cons, rest]
    simp [joined, followed]

theorem length_le_flatMap {α β : Type} {f : α → List β} {l : List α} {a : α} (mem : a ∈ l) :
    (f a).length ≤ (l.flatMap f).length := by
  obtain ⟨u, v, rfl⟩ := List.append_of_mem mem
  rw [List.flatMap_append, List.flatMap_cons, List.length_append, List.length_append]
  omega

theorem length_le_joined {α : Type} (text : α → List Char) {l : List α} {a : α} (mem : a ∈ l) :
    (text a).length ≤ (joined text l).length := by
  cases l with
  | nil => cases mem
  | cons b l =>
    rw [joined, List.length_append]
    rcases List.mem_cons.1 mem with rfl | mem
    · omega
    · have := length_le_flatMap (f := fun a => ',' :: ' ' :: text a) mem
      simp only [List.length_cons] at this
      rw [followed]
      omega

section
variable {α β : Type} {stop : Char → Prop} {ok : α → Prop} {text : α → List Char} {keep : α → β}

/-- Texts one behind the other can be told apart if each begins with a character that ends the one before,
and all of them end where another character stands. -/
theorem Reads.flatMap {opens : Char → Prop} (reads : Reads (fun c => stop c ∨ opens c) ok text keep)
    (starts : ∀ a, ok a → ∃ c t, text a = c :: t ∧ opens c ∧ ¬ stop c) :
    Reads stop (fun l => ∀ a ∈ l, ok a) (List.flatMap text) (List.map keep)
  | [], [], _, _, _, _, _, _, eq => ⟨rfl, eq⟩
  | [], b :: m, r, s, _, legible, closes, _, eq => by
    obtain ⟨c, t, shape, -, word⟩ := starts b (legible b List.mem_cons_self)
    have head : r = c :: (t ++ m.flatMap text ++ s) := by simpa [shape] using eq
    exact absurd (closes c (head ▸ rfl)) word
  | a :: l, [], r, s, legible, _, _, closes, eq => by
    obtain ⟨c, t, shape, -, word⟩ := starts a (legible a List.mem_cons_self)
    have head : s = c :: (t ++ l.flatMap text ++ r) := by simpa [shape] using eq.symm
    exact absurd (closes c (head ▸ rfl)) word
  | a :: l, b :: m, r, s, legible, legible', closes, closes', eq => by
    have next {l : List α} {r : List Char} (legible : ∀ x ∈ l, ok x) (closes : Closes stop r) :
        Closes (fun c => stop c ∨ opens c) (l.flatMap text ++ r) := by
      cases l with
      | nil => exact closes.mono fun _ => Or.inl
      | cons x l =>
        obtain ⟨c, t, shape, opens, -⟩ := starts x (legible x List.mem_cons_self)
        rw [List.flatMap_cons, shape]
        exact closes_cons (.inr opens)
    have others := fun x mem => legible x (List.mem_cons_of_mem a mem)
    have others' := fun x mem => legible' x (List.mem_cons_of_mem b mem)
    rw [List.flatMap_cons, List.flatMap_cons, List.append_assoc, List.append_assoc] at eq
    obtain ⟨first, eq⟩ := reads a b _ _ (legible a List.mem_cons_self) (legible' b List.mem_cons_self)
      (next others closes) (next others' closes') eq
    obtain ⟨more, rest⟩ := Reads.flatMap reads starts l m r s others others' closes closes' eq
    exact ⟨by rw [List.map_cons, List.map_cons, first, more], rest⟩

/-- A joined list ends where no comma follows an item, and no item what comes first. -/
theorem Reads.joined (reads : Reads stop ok text keep) (comma : stop ',')
    (starts : ∀ a, ok a → ∃ c t, text a = c :: t ∧ ¬ stop c) :
    Reads (fun c => stop c ∧ c ≠ ',') (fun l => ∀ a ∈ l, ok a) (joined text) (List.map keep) := by
  have item : Reads (fun c => (stop c ∧ c ≠ ',') ∨ c = ',') ok (fun a => ',' :: ' ' :: text a) keep :=
    fun a b r s legible legible' closes closes' eq => by
      have weaker : ∀ c, (stop c ∧ c ≠ ',') ∨ c = ',' → stop c := by
        rintro c (closing | rfl)
        · exact closing.1
        · exact comma
      exact reads a b r s legible legible' (closes.mono weaker) (closes'.mono weaker)
        (List.cons.inj (List.cons.inj eq).2).2
  have more := item.flatMap fun a _ => ⟨',', _, rfl, rfl, fun closing => closing.2 rfl⟩
  rintro (_ | ⟨a, l⟩) (_ | ⟨b, m⟩) r s legible legible' closes closes' eq
  · exact ⟨rfl, eq⟩
  · obtain ⟨c, t, shape, word⟩ := starts b (legible' b List.mem_cons_self)
    have head : r = c :: (t ++ followed text m ++ s) := by simpa [Text.joined, shape] using eq
    exact absurd (closes c (head ▸ rfl)).1 word
  · obtain ⟨c, t, shape, word⟩ := starts a (legible a List.mem_cons_self)
    have head : s = c :: (t ++ followed text l ++ r) := by simpa [Text.joined, shape] using eq.symm
    exact absurd (closes' c (head ▸ rfl)).1 word
  · have next {l : List α} {r : List Char} (closes : Closes (fun c => stop c ∧ c ≠ ',') r) :
        Closes stop (followed text l ++ r) := by
      cases l with
      | nil => exact closes.mono fun _ => And.left
      | cons x l => exact closes_cons comma
    rw [Text.joined, Text.joined, List.append_assoc, List.append_assoc] at eq
    obtain ⟨first, eq⟩ := reads a b _ _ (legible a List.mem_cons_self) (legible' b List.mem_cons_self)
      (next closes) (next closes') eq
    obtain ⟨others, rest⟩ := more l m r s (fun x mem => legible x (List.mem_cons_of_mem _ mem))
      (fun x mem => legible' x (List.mem_cons_of_mem _ mem)) closes closes' eq
    exact ⟨by rw [List.map_cons, List.map_cons, first, others], rest⟩

end

/-! ## Numerals -/

theorem toDigits_inj {b m n : Nat} (base : 1 < b) (small : b ≤ 16)
    (eq : Nat.toDigits b m = Nat.toDigits b n) : m = n := by
  have digit : ∀ x < 16, ∀ y < 16, Nat.digitChar x = Nat.digitChar y → x = y := by decide
  induction m using Nat.strongRecOn generalizing n with
  | ind m ih =>
    rw [Nat.toDigits_eq_if (n := m) base, Nat.toDigits_eq_if (n := n) base] at eq
    split at eq <;> split at eq
    · exact digit m (by omega) n (by omega) (List.singleton_inj.1 eq)
    · have := congrArg List.length eq
      simp at this
    · have := congrArg List.length eq
      simp at this
    · obtain ⟨high, low⟩ := List.append_inj' eq rfl
      have rest : m % b = n % b := digit _ (Nat.lt_of_lt_of_le (Nat.mod_lt m (by omega)) small) _
        (Nat.lt_of_lt_of_le (Nat.mod_lt n (by omega)) small) (List.singleton_inj.1 low)
      have above : m / b = n / b := ih (m / b) (Nat.div_lt_self (by omega) base) high
      rw [← Nat.div_add_mod m b, ← Nat.div_add_mod n b, above, rest]

theorem mem_toDigits {b n : Nat} {c : Char} (base : 1 < b) (mem : c ∈ Nat.toDigits b n) :
    ∃ x < b, c = Nat.digitChar x := by
  induction n using Nat.strongRecOn with
  | ind n ih =>
    rw [Nat.toDigits_eq_if base] at mem
    split at mem
    · exact ⟨n, by assumption, List.mem_singleton.1 mem⟩
    · rcases List.mem_append.1 mem with high | low
      · exact ih (n / b) (Nat.div_lt_self (by omega) base) high
      · exact ⟨n % b, Nat.mod_lt n (by omega), List.mem_singleton.1 low⟩

theorem decimalPadded_inj {width m n : Nat} (eq : decimalPadded width m = decimalPadded width n) : m = n := by
  have value (k : Nat) : Nat.ofDigitChars 10 (zeroPad width (Nat.toDigits 10 k)) 0 = k := by
    rw [zeroPad, Nat.ofDigitChars_append, Nat.ofDigitChars_replicate_zero, Nat.mul_zero, Nat.ofDigitChars_ten_toDigits]
  rw [← value m, ← value n, String.ofList_injective eq]

theorem mem_decimalPadded {width n : Nat} {c : Char} (mem : c ∈ (decimalPadded width n).toList) :
    ∃ y < 10, c = Nat.digitChar y := by
  rw [decimalPadded, String.toList_ofList, zeroPad, List.mem_append] at mem
  rcases mem with zero | digit
  · exact ⟨0, by decide, (List.mem_replicate.1 zero).2⟩
  · exact mem_toDigits (by decide) digit

/-! ## Quoted texts -/

def letters : List (Char × Char) :=
  [('"', '"'), ('\\', '\\'), ('\x00', '0'), ('\t', 't'), ('\r', 'r'), ('\n', 'n')]

theorem escaped_cases (c : Char) : (∃ x, (c, x) ∈ letters ∧ escaped c = ['\\', x]) ∨
    escaped c = '\\' :: 'u' :: '\x7b' :: Nat.toDigits 16 c.toNat ++ ['\x7d'] ∨
    c ≠ '\\' ∧ escaped c = [c] := by
  unfold escaped
  split
  · exact .inl ⟨_, by simp [letters], rfl⟩
  · exact .inl ⟨_, by simp [letters], rfl⟩
  · exact .inl ⟨_, by simp [letters], rfl⟩
  · exact .inl ⟨_, by simp [letters], rfl⟩
  · exact .inl ⟨_, by simp [letters], rfl⟩
  · exact .inl ⟨_, by simp [letters], rfl⟩
  · split
    · exact .inr (.inl rfl)
    · exact .inr (.inr ⟨by assumption, rfl⟩)

theorem escaped_append {c d : Char} {r s : List Char} (eq : escaped c ++ r = escaped d ++ s) : c = d ∧ r = s := by
  have letter : ∀ p ∈ letters, ∀ q ∈ letters, p.2 = q.2 → p.1 = q.1 := by decide
  have code : ∀ p ∈ letters, p.2 ≠ 'u' := by decide
  have other : ∀ y < 16, Nat.digitChar y ≠ '\x7d' := by decide
  have brace (n : Nat) : ∀ x ∈ Nat.toDigits 16 n, ¬ x = '\x7d' := fun x mem => by
    obtain ⟨y, lt, rfl⟩ := mem_toDigits (by decide) mem
    exact other y lt
  rcases escaped_cases c with ⟨x, mem, here⟩ | here | ⟨plain, here⟩ <;>
    rcases escaped_cases d with ⟨y, mem', there⟩ | there | ⟨plain', there⟩ <;>
    rw [here, there] at eq <;> simp only [List.cons_append, List.nil_append, List.cons.injEq] at eq
  · obtain ⟨-, rfl, rest⟩ := eq
    exact ⟨letter _ mem _ mem' rfl, rest⟩
  · exact absurd eq.2.1 (code _ mem)
  · exact absurd eq.1.symm plain'
  · exact absurd eq.2.1.symm (code _ mem')
  · rw [List.append_assoc, List.append_assoc] at eq
    obtain ⟨digits, rest⟩ := append_inj_of_stop (brace c.toNat) (brace d.toNat)
      (closes_cons rfl) (closes_cons rfl) eq.2.2.2
    have code := toDigits_inj (by decide) (by decide) digits
    exact ⟨Char.toNat_inj.1 code, (List.cons.inj rest).2⟩
  · exact absurd eq.1.symm plain'
  · exact absurd eq.1 plain
  · exact absurd eq.1 plain
  · exact eq

theorem escaped_starts (c : Char) : ∃ d t, escaped c = d :: t ∧ d ≠ '"' := by
  rcases escaped_cases c with ⟨x, -, text⟩ | text | ⟨-, text⟩
  · exact ⟨_, _, text, by decide⟩
  · exact ⟨_, _, text, by decide⟩
  · refine ⟨_, _, text, ?_⟩
    rintro rfl
    simp [escaped] at text

theorem quoted_inj {s t : String} (eq : quoted s = quoted t) : s = t := by
  have inner := String.ofList_injective eq
  rw [List.cons_append, List.cons_append, List.cons.injEq] at inner
  have each : Reads (fun c => c = '"' ∨ True) (fun _ => True) escaped id := fun _ _ _ _ _ _ _ _ eq => escaped_append eq
  have all := each.flatMap fun c _ => by
    obtain ⟨d, u, text, quote⟩ := escaped_starts c
    exact ⟨d, u, text, trivial, quote⟩
  obtain ⟨texts, -⟩ := all s.toList t.toList _ _ (fun _ _ => trivial) (fun _ _ => trivial)
    (closes_cons rfl) (closes_cons rfl) inner.2
  exact String.toList_inj.1 (by simpa using texts)

end CilForge.Text
