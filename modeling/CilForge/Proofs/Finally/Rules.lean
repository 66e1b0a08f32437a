import CilForge.Finally.Layout

/-!
# Rules for finally regions

What a body has to obey for its regions to make sense: ranges are nested properly, control enters
and leaves handlers only by way of `leave` and `endfinally`, and handlers end with an empty stack.
-/

namespace CilForge.Finally

namespace Span

variable {s t : Span} {p : Nat}

theorem contains_iff : s.contains p = true ↔ s.start ≤ p ∧ p < s.stop := by
  simp [contains]

theorem encloses_iff : s.encloses t = true ↔ s.start ≤ t.start ∧ t.stop ≤ s.stop := by
  simp [encloses]

theorem overlaps_iff : s.overlaps t = true ↔ s.start < t.stop ∧ t.start < s.stop := by
  simp [overlaps]

theorem len_eq (h : s.start ≤ s.stop) (short : s.stop ≤ 0x100000000) :
    s.len = s.stop - s.start := by
  unfold len
  rw [BitVec.toNat_sub, BitVec.toNat_ofNat, BitVec.toNat_ofNat]
  omega

theorem contains_of_encloses (h : s.encloses t = true) (mem : t.contains p = true) :
    s.contains p = true := by
  rw [encloses_iff] at h
  rw [contains_iff] at mem ⊢
  omega

theorem overlaps_of_contains (hs : s.contains p = true) (ht : t.contains p = true) :
    s.overlaps t = true := by
  rw [contains_iff] at hs ht
  rw [overlaps_iff]
  omega

end Span

namespace Ranges

def LiesIn (r : Ranges) (s : Span) : Prop :=
  s.encloses r.trySpan = true ∧ s.encloses r.handlerSpan = true

def Disjoint (r s : Ranges) : Prop :=
  ∀ x ∈ [r.trySpan, r.handlerSpan], ∀ y ∈ [s.trySpan, s.handlerSpan], x.overlaps y = false

def Nested (r s : Ranges) : Prop :=
  r.Disjoint s ∨ r.LiesIn s.trySpan ∨ r.LiesIn s.handlerSpan ∨ s.LiesIn r.trySpan ∨
    s.LiesIn r.handlerSpan

structure Proper (r : Ranges) : Prop where
  tryNonempty : r.trySpan.start < r.trySpan.stop
  handlerNonempty : r.handlerSpan.start < r.handlerSpan.stop
  apart : r.trySpan.overlaps r.handlerSpan = false

end Ranges

/-- Control may go from one place to another, without running a handler on the way. -/
def Flows (b : Body) (p q : Nat) : Prop :=
  ∃ h i, b.code[p]? = some (h, i) ∧
    ((i.opcode.isTerminal = false ∧ q = p + 1 ∧ q < b.size) ∨
      (i.opcode.isBranch = true ∧ ∃ t ∈ i.targets, b.position? t = some q))

/-- What a body with finally regions at these places has to obey. -/
structure Rules (b : Body) (regions : List Ranges) : Prop where
  proper : ∀ r ∈ regions, r.Proper
  nested : regions.Pairwise Ranges.Nested
  /-- The method does not start in a handler. -/
  entry : ∀ r ∈ regions, r.handlerSpan.contains 0 = false
  /-- Control neither enters nor leaves a handler. -/
  flow : ∀ p q, Flows b p q → ∀ r ∈ regions, r.handlerSpan.contains p = r.handlerSpan.contains q
  ends : ∀ depths, b.depths = .ok depths → ∀ h i d, (h, i) ∈ b.code → i.opcode = .endfinally →
    depths[h]? = some d → d = 0
  pops : ∀ p ∈ b.code, p.2.counts.1 ≤ 255

/-- A handler does not start with the handler of a region that lies inside it. -/
def StartsOwn (regions : List Ranges) : Prop :=
  ∀ r ∈ regions, ∀ s ∈ regions, s.LiesIn r.handlerSpan →
    s.handlerSpan.contains r.handlerSpan.start = false

/-! ## Checking the rules -/

namespace Ranges

instance (r : Ranges) (s : Span) : Decidable (r.LiesIn s) := inferInstanceAs (Decidable (_ ∧ _))

instance (r s : Ranges) : Decidable (r.Disjoint s) :=
  inferInstanceAs (Decidable (∀ x ∈ _, ∀ y ∈ _, _ = _))

instance (r s : Ranges) : Decidable (r.Nested s) := inferInstanceAs (Decidable (_ ∨ _ ∨ _ ∨ _ ∨ _))

instance (r : Ranges) : Decidable r.Proper :=
  decidable_of_iff (r.trySpan.start < r.trySpan.stop ∧ r.handlerSpan.start < r.handlerSpan.stop ∧
      r.trySpan.overlaps r.handlerSpan = false)
    ⟨fun h => ⟨h.1, h.2.1, h.2.2⟩, fun h => ⟨h.tryNonempty, h.handlerNonempty, h.apart⟩⟩

end Ranges

instance (regions : List Ranges) : Decidable (StartsOwn regions) :=
  inferInstanceAs (Decidable (∀ r ∈ regions, ∀ s ∈ regions, _ → _))

theorem Flows.iff {b : Body} {p q : Nat} : Flows b p q ↔ ∃ x ∈ b.code[p]?,
    (x.2.opcode.isTerminal = false ∧ q = p + 1 ∧ q < b.size) ∨
      (x.2.opcode.isBranch = true ∧ ∃ t ∈ x.2.targets, b.position? t = some q) := by
  constructor
  · rintro ⟨h, i, code, flow⟩
    exact ⟨(h, i), code, flow⟩
  · rintro ⟨⟨h, i⟩, code, flow⟩
    exact ⟨h, i, code, flow⟩

instance (b : Body) (p q : Nat) : Decidable (Flows b p q) := decidable_of_iff' _ Flows.iff

theorem Flows.lt {b : Body} {p q : Nat} (flows : Flows b p q) : p < b.size ∧ q < b.size := by
  obtain ⟨h, i, code, flow⟩ := flows
  refine ⟨(List.getElem?_eq_some_iff.1 code).1, ?_⟩
  rcases flow with straight | ⟨-, t, -, there⟩
  · exact straight.2.2
  · exact (List.findIdx?_eq_some_iff_getElem.1 there).1

/-! ## Two regions at a place -/

namespace Ranges

variable {r s : Ranges} {p : Nat}

theorem Nested.symm (h : r.Nested s) : s.Nested r := by
  rcases h with disjoint | rt | rh | st | sh
  · refine .inl fun x hx y hy => ?_
    have := disjoint y hy x hx
    simp only [Span.overlaps, Bool.and_eq_false_iff, decide_eq_false_iff_not] at this ⊢
    omega
  · exact .inr (.inr (.inr (.inl rt)))
  · exact .inr (.inr (.inr (.inr rh)))
  · exact .inr (.inl st)
  · exact .inr (.inr (.inl sh))

theorem Disjoint.not_contains (h : r.Disjoint s) {x y : Span} (hx : x ∈ [r.trySpan, r.handlerSpan])
    (hy : y ∈ [s.trySpan, s.handlerSpan]) (px : x.contains p = true) : y.contains p = false := by
  have := h x hx y hy
  rw [Bool.eq_false_iff] at this ⊢
  exact fun py => this (Span.overlaps_of_contains px py)

theorem Proper.not_both (h : r.Proper) (inTry : r.trySpan.contains p = true) :
    r.handlerSpan.contains p = false := by
  rw [Bool.eq_false_iff]
  intro inHandler
  have := Span.overlaps_of_contains inTry inHandler
  rw [h.apart] at this
  cases this

section
variable (hr : r.Proper) (hs : s.Proper) (h : r.Nested s)
include hr hs h

theorem Nested.of_try_try (pr : r.trySpan.contains p = true) (ps : s.trySpan.contains p = true) :
    r.LiesIn s.trySpan ∨ s.LiesIn r.trySpan := by
  rcases h with disjoint | rt | rh | st | sh
  · have := disjoint.not_contains (by simp) (by simp) pr (y := s.trySpan)
    rw [this] at ps
    cases ps
  · exact .inl rt
  · have := hs.not_both ps
    rw [Span.contains_of_encloses rh.1 pr] at this
    cases this
  · exact .inr st
  · have := hr.not_both pr
    rw [Span.contains_of_encloses sh.1 ps] at this
    cases this

theorem Nested.of_try_handler (pr : r.trySpan.contains p = true)
    (ps : s.handlerSpan.contains p = true) : r.LiesIn s.handlerSpan ∨ s.LiesIn r.trySpan := by
  rcases h with disjoint | rt | rh | st | sh
  · have := disjoint.not_contains (by simp) (by simp) pr (y := s.handlerSpan)
    rw [this] at ps
    cases ps
  · have := hs.not_both (Span.contains_of_encloses rt.1 pr)
    rw [this] at ps
    cases ps
  · exact .inl rh
  · exact .inr st
  · have := hr.not_both pr
    rw [Span.contains_of_encloses sh.2 ps] at this
    cases this

theorem Nested.of_handler_handler (pr : r.handlerSpan.contains p = true)
    (ps : s.handlerSpan.contains p = true) : r.LiesIn s.handlerSpan ∨ s.LiesIn r.handlerSpan := by
  rcases h with disjoint | rt | rh | st | sh
  · have := disjoint.not_contains (by simp) (by simp) pr (y := s.handlerSpan)
    rw [this] at ps
    cases ps
  · have := hs.not_both (Span.contains_of_encloses rt.2 pr)
    rw [this] at ps
    cases ps
  · exact .inl rh
  · have := hr.not_both (Span.contains_of_encloses st.2 ps)
    rw [this] at pr
    cases pr
  · exact .inr sh

end

theorem Proper.shorter (h : r.Proper) {s : Span} (lies : r.LiesIn s) :
    r.trySpan.stop - r.trySpan.start < s.stop - s.start ∧
      r.handlerSpan.stop - r.handlerSpan.start < s.stop - s.start := by
  obtain ⟨tryIn, handlerIn⟩ := lies
  obtain ⟨tryNonempty, handlerNonempty, apart⟩ := h
  rw [Span.encloses_iff] at tryIn handlerIn
  simp only [Span.overlaps, Bool.and_eq_false_iff, decide_eq_false_iff_not] at apart
  omega

end Ranges

end CilForge.Finally
