import Mathlib.Data.List.Forall2

/-!
# Results of steps that may fail

A chain of steps gives a result if each of its steps does, and the results of a step for all items of
a list are known from those for each item.
-/

namespace CilForge

theorem Except.bind_eq_ok {ε α β : Type} {x : Except ε α} {k : α → Except ε β} {r : β} :
    (x >>= k) = .ok r ↔ ∃ a, x = .ok a ∧ k a = .ok r := by
  cases x with
  | error e => exact ⟨nofun, nofun⟩
  | ok a => exact ⟨fun h => ⟨a, rfl, h⟩, fun ⟨_, eq, h⟩ => by cases eq; exact h⟩

theorem Except.unit_bind_eq_ok {ε β : Type} {x : Except ε Unit} {k : Unit → Except ε β} {r : β} :
    (x >>= k) = .ok r ↔ x = .ok () ∧ k () = .ok r := by
  rw [Except.bind_eq_ok]
  exact ⟨fun ⟨_, first, rest⟩ => ⟨first, rest⟩, fun ⟨first, rest⟩ => ⟨(), first, rest⟩⟩

/-- A step for its failure alone fails nowhere in a list just where it fails for no item. -/
theorem forM_eq_ok {ε α : Type} {f : α → Except ε Unit} :
    ∀ {l : List α}, l.forM f = .ok () ↔ ∀ x ∈ l, f x = .ok ()
  | [] => by simp [List.forM, pure, Except.pure]
  | x :: l => by
    rw [List.forall_mem_cons, ← forM_eq_ok]
    exact Except.unit_bind_eq_ok

theorem forall₂_of_mapM {ε α β : Type} {f : α → Except ε β} {l : List α} {r : List β}
    (h : l.mapM f = .ok r) : List.Forall₂ (fun a b => f a = .ok b) l r := by
  induction l generalizing r with
  | nil => cases h; exact .nil
  | cons a l ih =>
    rw [List.mapM_cons] at h
    obtain ⟨b, hb, h⟩ := Except.bind_eq_ok.1 h
    obtain ⟨bs, hbs, h⟩ := Except.bind_eq_ok.1 h
    cases h
    exact .cons hb (ih hbs)

theorem mapM_of_forall₂ {ε α β : Type} {f : α → Except ε β} {l : List α} {r : List β}
    (h : List.Forall₂ (fun a b => f a = .ok b) l r) : l.mapM f = .ok r := by
  induction h with
  | nil => rfl
  | cons h _ ih => rw [List.mapM_cons, h, ih]; rfl

theorem mem_left_of_forall₂ {α β : Type} {R : α → β → Prop} {l : List α} {r : List β}
    (h : List.Forall₂ R l r) {a : α} (ha : a ∈ l) : ∃ b ∈ r, R a b := by
  induction h with
  | nil => cases ha
  | cons hab _ ih =>
    rcases List.mem_cons.1 ha with rfl | ha
    · exact ⟨_, List.mem_cons_self .., hab⟩
    · obtain ⟨b, hb, h⟩ := ih ha
      exact ⟨b, List.mem_cons_of_mem _ hb, h⟩

theorem mem_right_of_forall₂ {α β : Type} {R : α → β → Prop} {l : List α} {r : List β}
    (h : List.Forall₂ R l r) {b : β} (hb : b ∈ r) : ∃ a ∈ l, R a b :=
  mem_left_of_forall₂ h.flip hb

theorem mapM_eq_ok {α β ε : Type} {f : α → Except ε β} {g : α → β} {l : List α}
    (each : ∀ x ∈ l, f x = .ok (g x)) : l.mapM f = .ok (l.map g) :=
  mapM_of_forall₂ (List.forall₂_map_right_iff.2 (List.forall₂_same.2 each))

theorem mapM_eq_some {α β : Type} {f : α → Option β} {g : α → β} {l : List α}
    (each : ∀ a ∈ l, f a = some (g a)) : l.mapM f = some (l.map g) := by
  induction l with
  | nil => rfl
  | cons a l ih =>
    rw [List.mapM_cons, each a List.mem_cons_self, ih fun b mem => each b (List.mem_cons_of_mem a mem)]
    rfl

theorem mapM_isSome_iff {α β : Type} {f : α → Option β} {l : List α} :
    (l.mapM f).isSome ↔ ∀ a ∈ l, (f a).isSome := by
  induction l with
  | nil => simp
  | cons a l ih =>
    rw [List.mapM_cons, List.forall_mem_cons, ← ih]
    cases f a with
    | none => simp
    | some b => cases l.mapM f <;> simp

theorem mapM_mono {α β : Type} {f g : α → Option β} {l : List α} {r : List β}
    (under : ∀ x ∈ l, ∀ y, f x = some y → g x = some y) (given : l.mapM f = some r) : l.mapM g = some r := by
  induction l generalizing r with
  | nil => exact given
  | cons x l ih =>
    rw [List.mapM_cons] at given ⊢
    obtain ⟨y, first, given⟩ := Option.bind_eq_some_iff.1 given
    obtain ⟨ys, rest, given⟩ := Option.bind_eq_some_iff.1 given
    rw [under x List.mem_cons_self y first, ih (fun x mem => under x (.tail _ mem)) rest]
    exact given

theorem allM_mono {α : Type} {f g : α → Option Bool} {l : List α} {r : Bool}
    (under : ∀ x ∈ l, ∀ y, f x = some y → g x = some y) (given : l.allM f = some r) : l.allM g = some r := by
  induction l generalizing r with
  | nil => exact given
  | cons x l ih =>
    obtain ⟨y, first, given⟩ := Option.bind_eq_some_iff.1 given
    refine Option.bind_eq_some_iff.2 ⟨y, under x List.mem_cons_self y first, ?_⟩
    cases y with
    | true => exact ih (fun x mem => under x (.tail _ mem)) given
    | false => exact given

/-- A step that gives `g x` just where `P x` holds gives the list of them just where all hold. -/
theorem mapM_eq_ok_iff {α β ε : Type} {f : α → Except ε β} {g : α → β} {P : α → Prop}
    (step : ∀ x y, f x = .ok y ↔ P x ∧ g x = y) {l : List α} {r : List β} :
    l.mapM f = .ok r ↔ (∀ x ∈ l, P x) ∧ l.map g = r := by
  constructor
  · intro h
    have all (x) (mem : x ∈ l) : P x :=
      have ⟨y, _, eq⟩ := mem_left_of_forall₂ (forall₂_of_mapM h) mem
      ((step x y).1 eq).1
    have given : l.mapM f = .ok (l.map g) := mapM_eq_ok fun x mem => (step x _).2 ⟨all x mem, rfl⟩
    exact ⟨all, Except.ok.inj (given.symm.trans h)⟩
  · rintro ⟨all, rfl⟩
    exact mapM_eq_ok fun x mem => (step x _).2 ⟨all x mem, rfl⟩

end CilForge
