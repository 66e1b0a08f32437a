import CilForge.Decimal.Shortest
import Mathlib.Data.List.TakeWhile
import Mathlib.Data.Rat.Cast.Order
import Mathlib.Order.Monotone.Basic
import Mathlib.Tactic.FieldSimp
import Mathlib.Tactic.Linarith
import Mathlib.Tactic.Positivity
import Mathlib.Tactic.Ring

/-!
# Decimals tell numbers apart

The decimal of a binary number lies in the interval of the reals that round to it, and the intervals of
different numbers have nothing in common: they follow each other without a gap, and of two neighbours one
has both ends and the other has neither. Reading the decimal therefore gives the number back.
-/

namespace CilForge.Decimal

/-! ## Intervals -/

def Interval.Holds (i : Interval) (x : ℚ) : Prop :=
  if i.closed then (i.low : ℚ) ≤ x * i.den ∧ x * i.den ≤ i.high else (i.low : ℚ) < x * i.den ∧ x * i.den < i.high

def Format.around (f : Format) (n : Nat) : Interval := f.interval (n / 2 ^ f.fractionBits) (n % 2 ^ f.fractionBits)

variable {f : Format} {m n : Nat} {x : ℚ}

theorem low_interval (f : Format) (e r : Nat) : (f.interval e r).low =
    (4 * (if e = 0 then r else r + 2 ^ f.fractionBits) - if r = 0 ∧ 1 < e then 1 else 2) * 2 ^ max 1 e := by
  have power : (if e = 0 then 1 else e) = max 1 e := by split <;> omega
  simp [Format.interval, Nat.shiftLeft_eq, power]

theorem high_interval (f : Format) (e r : Nat) : (f.interval e r).high =
    (4 * (if e = 0 then r else r + 2 ^ f.fractionBits) + 2) * 2 ^ max 1 e := by
  have power : (if e = 0 then 1 else e) = max 1 e := by split <;> omega
  simp [Format.interval, Nat.shiftLeft_eq, power]

theorem value_interval (f : Format) (e r : Nat) : (f.interval e r).value =
    4 * (if e = 0 then r else r + 2 ^ f.fractionBits) * 2 ^ max 1 e := by
  have power : (if e = 0 then 1 else e) = max 1 e := by split <;> omega
  simp [Format.interval, Nat.shiftLeft_eq, power]

theorem value_lt_high (f : Format) (e r : Nat) : (f.interval e r).value < (f.interval e r).high := by
  rw [value_interval, high_interval]
  refine Nat.mul_lt_mul_of_pos_right ?_ (by positivity)
  omega

theorem low_lt_value {e r : Nat} (nonzero : ¬ (e = 0 ∧ r = 0)) : (f.interval e r).low < (f.interval e r).value := by
  rw [low_interval, value_interval]
  have pos : 0 < 2 ^ f.fractionBits := by positivity
  refine Nat.mul_lt_mul_of_pos_right ?_ (by positivity)
  split <;> split <;> omega

theorem low_lt_high (f : Format) (n : Nat) : (f.around n).low < (f.around n).high := by
  rw [Format.around, low_interval, high_interval]
  refine Nat.mul_lt_mul_of_pos_right ?_ (by positivity)
  omega

theorem high_around (f : Format) (n : Nat) : (f.around n).high = (f.around (n + 1)).low := by
  rw [Format.around, Format.around, low_interval, high_interval]
  obtain ⟨w, size⟩ : ∃ w, w = 2 ^ f.fractionBits := ⟨_, rfl⟩
  have pos : 0 < w := by rw [size]; positivity
  rw [← size]
  have split := Nat.div_add_mod n w
  have lt := Nat.mod_lt n pos
  obtain ⟨e, he⟩ : ∃ e, e = n / w := ⟨_, rfl⟩
  obtain ⟨r, hr⟩ : ∃ r, r = n % w := ⟨_, rfl⟩
  rw [← hr] at lt
  rw [← he, ← hr] at split ⊢
  by_cases last : r + 1 = w
  · have div : (n + 1) / w = e + 1 := by
      rw [← split, Nat.add_assoc, last, ← Nat.mul_succ, Nat.mul_div_cancel_left _ pos]
    have mod : (n + 1) % w = 0 := by
      rw [← split, Nat.add_assoc, last, ← Nat.mul_succ, Nat.mul_mod_right]
    rw [div, mod]
    -- the last number of a binade, or of those below all binades
    by_cases zero : e = 0
    · simp [zero]
      omega
    · have less : max 1 e = e := by omega
      have more : max 1 (e + 1) = e + 1 := by omega
      rw [less, more, if_neg zero, if_neg (by omega), if_pos (by omega), pow_succ]
      have : 4 * (r + w) + 2 = (4 * (0 + w) - 1) * 2 := by omega
      rw [this]
      ring
  · have div : (n + 1) / w = e := by
      rw [← split, Nat.add_assoc, Nat.mul_add_div pos, Nat.div_eq_of_lt (by omega), Nat.add_zero]
    have mod : (n + 1) % w = r + 1 := by
      rw [← split, Nat.add_assoc, Nat.mul_add_mod, Nat.mod_eq_of_lt (by omega)]
    have inner : ¬ (r + 1 = 0 ∧ 1 < e) := by omega
    rw [div, mod, if_neg inner]
    congr 1
    split <;> omega

theorem closed_around (wide : 0 < f.fractionBits) : (f.around n).closed = true ↔ n % 2 = 0 := by
  obtain ⟨w, size⟩ : ∃ w, w = 2 ^ f.fractionBits := ⟨_, rfl⟩
  have even : w % 2 = 0 := by
    rw [size, ← Nat.succ_pred_eq_of_pos wide, Nat.succ_eq_add_one, pow_succ, Nat.mul_mod_left]
  have rest : n % w % 2 = n % 2 := Nat.mod_mod_of_dvd n (Nat.dvd_of_mod_eq_zero even)
  simp only [Format.around, Format.interval, decide_eq_true_eq, Nat.shiftLeft_eq, Nat.one_mul, ← size]
  split
  · rw [rest]
  · rw [Nat.add_mod, even, Nat.add_zero, Nat.mod_mod, rest]

theorem strictMono_low (f : Format) : StrictMono fun n => (f.around n).low :=
  strictMono_nat_of_lt_succ fun n => (high_around f n) ▸ low_lt_high f n

theorem holds_zero (f : Format) : (f.around 0).Holds 0 := by
  have closed : (f.around 0).closed = true := by simp [Format.around, Format.interval]
  rw [Interval.Holds, if_pos closed, Format.around, low_interval, high_interval]
  simp

theorem Interval.Holds.bounds {i : Interval} (holds : i.Holds x) : (i.low : ℚ) ≤ x * i.den ∧ x * i.den ≤ i.high := by
  unfold Holds at holds
  split at holds
  · exact holds
  · exact ⟨le_of_lt holds.1, le_of_lt holds.2⟩

theorem Interval.Holds.closed {i : Interval} (holds : i.Holds x) (edge : x * i.den = i.low ∨ x * i.den = i.high) :
    i.closed = true := by
  unfold Holds at holds
  split at holds
  · assumption
  · rcases edge with edge | edge
    · exact absurd holds.1 (by rw [edge]; exact lt_irrefl _)
    · exact absurd holds.2 (by rw [edge]; exact lt_irrefl _)

theorem holds_unique (wide : 0 < f.fractionBits) (hm : (f.around m).Holds x) (hn : (f.around n).Holds x) : m = n := by
  have apart {m n : Nat} (hm : (f.around m).Holds x) (hn : (f.around n).Holds x) : ¬ m < n := fun lt => by
    have den : (f.around m).den = (f.around n).den := rfl
    have above := hm.bounds.2
    have below := hn.bounds.1
    rw [high_around, den] at above
    have low : (f.around n).low ≤ (f.around (m + 1)).low := by exact_mod_cast le_trans below above
    have next : n = m + 1 := Nat.le_antisymm ((strictMono_low f).le_iff_le.1 low) lt
    subst next
    have edge : x * (f.around (m + 1)).den = (f.around (m + 1)).low := le_antisymm above below
    have here := (closed_around wide).1 (hm.closed (.inr (by rw [high_around, den, edge])))
    have there := (closed_around wide).1 (hn.closed (.inl edge))
    omega
  exact Nat.le_antisymm (Nat.not_lt.1 (apart hn hm)) (Nat.not_lt.1 (apart hm hn))

/-! ## Searching -/

theorem scaled_neg (i : Interval) {t : Nat} (pos : 0 < t) : i.scaled (-(t : Int)) =
    { i with low := i.low * 10 ^ t, value := i.value * 10 ^ t, high := i.high * 10 ^ t } := by
  rw [Interval.scaled, if_neg (by omega)]
  simp

theorem holds_of_contains {i : Interval} {k : Int} (hit : (i.scaled k).contains (n * (i.scaled k).den) = true) :
    i.Holds (n * (10 : ℚ) ^ k) := by
  unfold Interval.Holds
  by_cases up : 0 ≤ k
  · obtain ⟨t, rfl⟩ := Int.eq_ofNat_of_zero_le up
    have value : n * (10 : ℚ) ^ (t : Int) * i.den = (n * (i.den * 10 ^ t) : Nat) := by
      push_cast
      rw [zpow_natCast]
      ring
    rw [Interval.scaled, if_pos up] at hit
    rw [value]
    cases closed : i.closed <;> simp [Interval.contains, closed] at hit ⊢ <;> exact_mod_cast hit
  · obtain ⟨t, rfl, down⟩ : ∃ t : Nat, k = -t ∧ 0 < t := ⟨(-k).toNat, by omega, by omega⟩
    have value : n * (10 : ℚ) ^ (-(t : Int)) * i.den = (n * i.den : Nat) / (10 ^ t : Nat) := by
      push_cast
      rw [zpow_neg, zpow_natCast]
      ring
    have pos : (0 : ℚ) < (10 ^ t : Nat) := by positivity
    rw [scaled_neg i down] at hit
    rw [value, le_div_iff₀ pos, div_le_iff₀ pos, lt_div_iff₀ pos, div_lt_iff₀ pos]
    cases closed : i.closed <;> simp [Interval.contains, closed] at hit ⊢ <;> exact_mod_cast hit

/-- A grid that is finer than the part of the interval below its number hits it. -/
theorem pick_isSome {i : Interval} (pos : 0 < i.den) (fine : i.low + i.den ≤ i.value) (below : i.value < i.high) :
    i.pick.isSome = true := by
  have le : i.value / i.den * i.den ≤ i.value := Nat.div_mul_le_self _ _
  have lt : i.value < i.value / i.den * i.den + i.den := Nat.lt_div_mul_add pos
  have hit : i.contains (i.value / i.den * i.den) = true := by
    unfold Interval.contains
    split <;> simp <;> omega
  unfold Interval.pick
  simp only [hit]
  cases i.contains ((i.value / i.den + 1) * i.den) with
  | true =>
    simp only
    split <;> rfl
  | false => rfl

theorem contains_of_pick {i : Interval} (picked : i.pick = some n) : i.contains (n * i.den) = true := by
  unfold Interval.pick at picked
  dsimp only at picked
  split at picked
  · split at picked <;> cases picked <;> assumption
  · cases picked
    assumption
  · cases picked
    assumption
  · cases picked

theorem pick_search {i : Interval} : ∀ {fuel : Nat} {k : Int}, (∃ j < fuel, (i.scaled (k - j)).pick.isSome = true) →
    (i.scaled (i.search fuel k).2).pick = some (i.search fuel k).1
  | 0, _, hits => by
    obtain ⟨j, lt, -⟩ := hits
    cases lt
  | fuel + 1, k, hits => by
    unfold Interval.search
    cases picked : (i.scaled k).pick with
    | some n => exact picked
    | none =>
      refine pick_search (k := k - 1) ?_
      obtain ⟨j, lt, hit⟩ := hits
      cases j with
      | zero =>
        rw [Int.natCast_zero, Int.sub_zero, picked] at hit
        cases hit
      | succ j => exact ⟨j, Nat.lt_of_succ_lt_succ lt, by rwa [show k - 1 - (j : Int) = k - (j + 1 : Nat) by omega]⟩

/-- The last grid is so fine that it hits the interval of every number but zero. -/
theorem pick_last {e r : Nat} (nonzero : ¬ (e = 0 ∧ r = 0)) :
    ((f.interval e r).scaled (-((1 <<< (f.exponentBits - 1) / 3 + f.fractionBits + 1 : Nat) : Int))).pick.isSome = true := by
  obtain ⟨bias, hbias⟩ : ∃ bias, bias = 1 <<< (f.exponentBits - 1) := ⟨_, rfl⟩
  obtain ⟨t, ht⟩ : ∃ t, t = bias / 3 + f.fractionBits + 1 := ⟨_, rfl⟩
  have unit : (f.interval e r).den ≤ 10 ^ t := by
    calc (f.interval e r).den = 2 ^ (bias - 1 + f.fractionBits + 2) := by rw [hbias]; exact Nat.one_shiftLeft _
      _ ≤ 2 ^ (3 * t) := Nat.pow_le_pow_right (by decide) (by omega)
      _ = 8 ^ t := by rw [Nat.pow_mul]
      _ ≤ 10 ^ t := Nat.pow_le_pow_left (by decide) t
  have part : (f.interval e r).low + 1 ≤ (f.interval e r).value := low_lt_value nonzero
  rw [← hbias, ← ht, scaled_neg _ (by omega)]
  refine pick_isSome ?_ ?_ (Nat.mul_lt_mul_of_pos_right (value_lt_high f e r) (by positivity))
  · rw [show (f.interval e r).den = _ from Nat.one_shiftLeft _]
    positivity
  · calc (f.interval e r).low * 10 ^ t + (f.interval e r).den ≤ (f.interval e r).low * 10 ^ t + 10 ^ t :=
          Nat.add_le_add_left unit _
      _ = ((f.interval e r).low + 1) * 10 ^ t := (Nat.succ_mul _ _).symm
      _ ≤ (f.interval e r).value * 10 ^ t := Nat.mul_le_mul_right _ part

theorem holds_digits {e r : Nat} (nonzero : ¬ (e = 0 ∧ r = 0)) :
    (f.interval e r).Holds ((f.digits e r).1 * (10 : ℚ) ^ (f.digits e r).2) := by
  refine holds_of_contains (contains_of_pick (pick_search
    ⟨2 * (1 <<< (f.exponentBits - 1) / 3) + f.fractionBits + 1, by omega, ?_⟩))
  convert pick_last nonzero using 4
  omega

/-! ## Reading -/

def numeral (t : List Char) : ℚ :=
  let whole := t.takeWhile (· ≠ '.')
  let fraction := (t.dropWhile (· ≠ '.')).tail
  (Nat.ofDigitChars 10 (whole ++ fraction) 0 : Nat) / 10 ^ fraction.length

theorem ofDigitChars_zeros (t : List Char) (z : Nat) :
    Nat.ofDigitChars 10 (t ++ List.replicate z '0') 0 = Nat.ofDigitChars 10 t 0 * 10 ^ z := by
  rw [Nat.ofDigitChars_append, Nat.ofDigitChars_replicate_zero, Nat.mul_comm]

theorem zeros_ofDigitChars (t : List Char) (z : Nat) :
    Nat.ofDigitChars 10 (List.replicate z '0' ++ t) 0 = Nat.ofDigitChars 10 t 0 := by
  rw [Nat.ofDigitChars_append, Nat.ofDigitChars_replicate_zero, Nat.mul_zero]

theorem numeral_whole {t : List Char} (point : '.' ∉ t) : numeral t = Nat.ofDigitChars 10 t 0 := by
  have all : ∀ c ∈ t, (decide (c ≠ '.')) = true := fun c mem => decide_eq_true fun is => point (is ▸ mem)
  have whole : t.takeWhile (· ≠ '.') = t := List.takeWhile_eq_self_iff.2 all
  have rest : t.dropWhile (· ≠ '.') = [] := List.dropWhile_eq_nil_iff.2 all
  simp only [numeral, whole, rest]
  simp

theorem numeral_point {t u : List Char} (point : '.' ∉ t) :
    numeral (t ++ '.' :: u) = Nat.ofDigitChars 10 (t ++ u) 0 / 10 ^ u.length := by
  have all : ∀ c ∈ t, (decide (c ≠ '.')) = true := fun c mem => decide_eq_true fun is => point (is ▸ mem)
  have whole : (t ++ '.' :: u).takeWhile (· ≠ '.') = t := by
    rw [List.takeWhile_append_of_pos all, List.takeWhile_cons_of_neg (by simp), List.append_nil]
  have rest : (t ++ '.' :: u).dropWhile (· ≠ '.') = '.' :: u := by
    rw [List.dropWhile_append_of_pos all, List.dropWhile_cons_of_neg (by simp)]
  simp only [numeral, whole, rest, List.tail_cons]

theorem mem_padded {c : Char} {z : Nat} (mem : c ∈ List.replicate z '0' ++ Nat.toDigits 10 n) : c.isDigit = true := by
  rcases List.mem_append.1 mem with zero | digit
  · rw [(List.mem_replicate.1 zero).2]
    rfl
  · exact Nat.isDigit_of_mem_toDigits (by decide) (by decide) digit

/-- With a negative power the digits are cut in two, and zeros at the end are left out. -/
theorem plain_neg (n : Nat) {t : Nat} (pos : 0 < t) : ∃ p z whole fraction,
    whole ++ fraction ++ List.replicate z '0' = List.replicate p '0' ++ Nat.toDigits 10 n ∧
    fraction.length + z = t ∧
    (plain n (-t)).toList = if fraction = [] then whole else whole ++ '.' :: fraction := by
  obtain ⟨digits, is⟩ : ∃ digits, digits = Nat.toDigits 10 n := ⟨_, rfl⟩
  obtain ⟨padded, hp⟩ : ∃ padded, padded = List.replicate (t + 1 - digits.length) '0' ++ digits := ⟨_, rfl⟩
  obtain ⟨back, hb⟩ : ∃ back, back = (padded.drop (padded.length - t)).reverse := ⟨_, rfl⟩
  have zeros : back.takeWhile (· = '0') = List.replicate (back.takeWhile (· = '0')).length '0' :=
    List.eq_replicate_of_mem fun c mem => by simpa using List.mem_takeWhile_imp mem
  have cut : padded.drop (padded.length - t) =
      (back.dropWhile (· = '0')).reverse ++ List.replicate (back.takeWhile (· = '0')).length '0' := by
    rw [← List.reverse_reverse (padded.drop _), ← hb, ← List.takeWhile_append_dropWhile (p := (· = '0')) (l := back),
      List.reverse_append, List.takeWhile_append_dropWhile]
    rw [zeros, List.reverse_replicate, List.length_replicate]
  refine ⟨t + 1 - digits.length, (back.takeWhile (· = '0')).length, padded.take (padded.length - t),
    (back.dropWhile (· = '0')).reverse, ?_, ?_, ?_⟩
  · rw [List.append_assoc, ← cut, List.take_append_drop, hp, is]
  · have := congrArg List.length cut
    rw [List.length_drop, List.length_append, List.length_replicate] at this
    have long : t + 1 ≤ padded.length := by
      rw [hp, List.length_append, List.length_replicate]
      omega
    omega
  · have down : ¬ (0 : Int) ≤ -t := by omega
    have places : (- -(t : Int)).toNat = t := by omega
    simp only [plain, if_neg down, places, ← is, ← hp, ← hb, List.isEmpty_iff]
    split <;> simp

theorem mem_plain {c : Char} {k : Int} (mem : c ∈ (plain n k).toList) : c.isDigit = true ∨ c = '.' := by
  by_cases up : 0 ≤ k
  · simp only [plain, if_pos up, String.toList_ofList, List.mem_append] at mem
    rcases mem with digit | zero
    · exact .inl (Nat.isDigit_of_mem_toDigits (by decide) (by decide) digit)
    · rw [(List.mem_replicate.1 zero).2]
      exact .inl rfl
  · obtain ⟨t, rfl, down⟩ : ∃ t : Nat, k = -t ∧ 0 < t := ⟨(-k).toNat, by omega, by omega⟩
    obtain ⟨p, z, whole, fraction, cut, -, text⟩ := plain_neg n down
    have digit (d : Char) (there : d ∈ whole ++ fraction) : d.isDigit = true :=
      mem_padded (cut ▸ List.mem_append_left _ there)
    rw [text] at mem
    split at mem
    · exact .inl (digit c (List.mem_append_left _ mem))
    · rw [List.mem_append, List.mem_cons] at mem
      rcases mem with first | point | second
      · exact .inl (digit c (List.mem_append_left _ first))
      · exact .inr point
      · exact .inl (digit c (List.mem_append_right _ second))

theorem point_not_mem {t : List Char} (digits : ∀ c ∈ t, c.isDigit = true) : '.' ∉ t := fun mem =>
  absurd (digits _ mem) (by decide)

theorem numeral_plain (n : Nat) (k : Int) : numeral (plain n k).toList = n * (10 : ℚ) ^ k := by
  by_cases up : 0 ≤ k
  · obtain ⟨t, rfl⟩ := Int.eq_ofNat_of_zero_le up
    have text : (plain n t).toList = Nat.toDigits 10 n ++ List.replicate t '0' := by
      simp [plain]
    rw [text, numeral_whole, ofDigitChars_zeros, Nat.ofDigitChars_ten_toDigits, zpow_natCast]
    · push_cast
      rfl
    · refine point_not_mem fun c mem => ?_
      rcases List.mem_append.1 mem with digit | zero
      · exact Nat.isDigit_of_mem_toDigits (by decide) (by decide) digit
      · rw [(List.mem_replicate.1 zero).2]
        rfl
  · obtain ⟨t, rfl, down⟩ : ∃ t : Nat, k = -t ∧ 0 < t := ⟨(-k).toNat, by omega, by omega⟩
    obtain ⟨p, z, whole, fraction, cut, split, text⟩ := plain_neg n down
    have point : '.' ∉ whole := point_not_mem fun d mem =>
      mem_padded (cut ▸ List.mem_append_left _ (List.mem_append_left _ mem))
    have value : Nat.ofDigitChars 10 (whole ++ fraction) 0 * 10 ^ z = n := by
      rw [← ofDigitChars_zeros, cut, zeros_ofDigitChars, Nat.ofDigitChars_ten_toDigits]
    have read : numeral (plain n (-t)).toList = Nat.ofDigitChars 10 (whole ++ fraction) 0 / 10 ^ fraction.length := by
      rw [text]
      split
      · rename_i none
        rw [numeral_whole point, none]
        simp
      · exact numeral_point point
    rw [read, ← value, ← split, zpow_neg, zpow_natCast, pow_add]
    push_cast
    field_simp

/-! ## Texts -/

namespace Format

def NaN (f : Format) (bits : Nat) : Prop :=
  bits >>> f.fractionBits % (1 <<< f.exponentBits) = 1 <<< f.exponentBits - 1 ∧ bits % (1 <<< f.fractionBits) ≠ 0

instance (f : Format) (bits : Nat) : Decidable (f.NaN bits) := inferInstanceAs (Decidable (_ ∧ _))

def size (f : Format) (bits : Nat) : Nat := bits % 2 ^ (f.fractionBits + f.exponentBits)

def sign (f : Format) (bits : Nat) : List Char :=
  if bits >>> (f.fractionBits + f.exponentBits) % 2 = 1 then ['-'] else []

variable {bits other : Nat}

theorem size_div (f : Format) (bits : Nat) :
    f.size bits / 2 ^ f.fractionBits = bits >>> f.fractionBits % (1 <<< f.exponentBits) := by
  rw [size, pow_add, Nat.mod_mul_right_div_self, Nat.shiftRight_eq_div_pow, Nat.one_shiftLeft]

theorem size_mod (f : Format) (bits : Nat) :
    f.size bits % 2 ^ f.fractionBits = bits % (1 <<< f.fractionBits) := by
  rw [size, pow_add, Nat.mod_mul_right_mod, Nat.one_shiftLeft]

theorem text_cases (f : Format) (bits : Nat) :
    (f.NaN bits ∧ (f.text bits).toList = "NaN".toList) ∨
    (f.size bits = (2 ^ f.exponentBits - 1) * 2 ^ f.fractionBits ∧ (f.text bits).toList = f.sign bits ++ "inf".toList) ∨
    ∃ t, (f.text bits).toList = f.sign bits ++ t ∧ (∀ c ∈ t, c.isDigit = true ∨ c = '.') ∧
      (f.around (f.size bits)).Holds (numeral t) := by
  have sign : (if bits >>> (f.fractionBits + f.exponentBits) % 2 = 1 then "-" else "").toList = f.sign bits := by
    unfold Format.sign
    split <;> rfl
  have split := Nat.div_add_mod (f.size bits) (2 ^ f.fractionBits)
  rw [size_div, size_mod] at split
  unfold text
  by_cases special : bits >>> f.fractionBits % (1 <<< f.exponentBits) = 1 <<< f.exponentBits - 1
  · by_cases zero : bits % (1 <<< f.fractionBits) = 0
    · refine .inr (.inl ⟨?_, ?_⟩)
      · rw [← split, special, zero, Nat.one_shiftLeft, Nat.add_zero, Nat.mul_comm]
      · simp only [special, zero, if_true, String.toList_append, sign]
    · refine .inl ⟨⟨special, zero⟩, ?_⟩
      simp only [special, zero, if_true, if_false]
  · refine .inr (.inr ?_)
    simp only [special, if_false]
    by_cases zero : bits >>> f.fractionBits % (1 <<< f.exponentBits) = 0 ∧ bits % (1 <<< f.fractionBits) = 0
    · refine ⟨['0'], by simp [zero.1, zero.2, sign], List.forall_mem_singleton.2 (.inl rfl), ?_⟩
      have none : f.size bits = 0 := by rw [← split, zero.1, zero.2, Nat.mul_zero, Nat.add_zero]
      have read : numeral ['0'] = 0 := by
        rw [numeral_whole (by decide), show Nat.ofDigitChars 10 ['0'] 0 = 0 from rfl, Nat.cast_zero]
      rw [none, read]
      exact holds_zero f
    · have holds := holds_digits (f := f) zero
      obtain ⟨shown, digits⟩ : ∃ shown, shown =
        f.digits (bits >>> f.fractionBits % (1 <<< f.exponentBits)) (bits % (1 <<< f.fractionBits)) := ⟨_, rfl⟩
      rw [← digits, ← numeral_plain] at holds
      refine ⟨(plain shown.1 shown.2).toList, ?_, fun c mem => mem_plain mem, ?_⟩
      · simp [zero, sign, digits]
      · rwa [around, size_div, size_mod]

theorem sign_cases (f : Format) (bits : Nat) : f.sign bits = ['-'] ∨ f.sign bits = [] := by
  unfold sign
  split
  · exact .inl rfl
  · exact .inr rfl

theorem not_mem_sign {c : Char} {t : List Char} (minus : c ≠ '-') (rest : c ∉ t) : c ∉ f.sign bits ++ t := by
  rcases f.sign_cases bits with sign | sign <;> simp [sign, minus, rest]

theorem not_mem_digits {c : Char} {t : List Char} (digits : ∀ d ∈ t, d.isDigit = true ∨ d = '.')
    (other : ¬ (c.isDigit = true ∨ c = '.')) : c ∉ t := fun mem => other (digits c mem)

theorem sign_append {t u : List Char} (ht : '-' ∉ t) (hu : '-' ∉ u) (eq : f.sign bits ++ t = f.sign other ++ u) :
    f.sign bits = f.sign other ∧ t = u := by
  rcases f.sign_cases bits with here | here <;> rcases f.sign_cases other with there | there <;>
    rw [here, there] at eq
  · exact ⟨here.trans there.symm, List.append_cancel_left eq⟩
  · exact absurd (show '-' ∈ [] ++ u from eq ▸ List.mem_cons_self) hu
  · exact absurd (show '-' ∈ [] ++ t from eq ▸ List.mem_cons_self) ht
  · exact ⟨here.trans there.symm, eq⟩

theorem eq_of_sign_of_size (fits : bits < 2 ^ (f.fractionBits + f.exponentBits + 1))
    (fits' : other < 2 ^ (f.fractionBits + f.exponentBits + 1)) (sign : f.sign bits = f.sign other)
    (size : f.size bits = f.size other) : bits = other := by
  obtain ⟨w, hw⟩ : ∃ w, w = 2 ^ (f.fractionBits + f.exponentBits) := ⟨_, rfl⟩
  unfold Format.sign at sign
  unfold Format.size at size
  rw [Nat.shiftRight_eq_div_pow, Nat.shiftRight_eq_div_pow, ← hw] at sign
  rw [pow_succ, ← hw] at fits fits'
  rw [← hw] at size
  have top : bits / w < 2 := Nat.div_lt_of_lt_mul fits
  have top' : other / w < 2 := Nat.div_lt_of_lt_mul fits'
  have high : bits / w = other / w := by
    generalize bits / w = x at top sign
    generalize other / w = y at top' sign
    split at sign <;> split at sign
    · omega
    · cases sign
    · cases sign
    · omega
  rw [← Nat.div_add_mod bits w, ← Nat.div_add_mod other w, high, size]

theorem text_inj (wide : 0 < f.fractionBits) (fits : bits < 2 ^ (f.fractionBits + f.exponentBits + 1))
    (fits' : other < 2 ^ (f.fractionBits + f.exponentBits + 1)) :
    f.text bits = f.text other ↔ bits = other ∨ f.NaN bits ∧ f.NaN other := by
  constructor
  · intro eq
    replace eq := congrArg String.toList eq
    rcases f.text_cases bits with ⟨nan, here⟩ | ⟨inf, here⟩ | ⟨t, here, digits, holds⟩ <;>
      rcases f.text_cases other with ⟨nan', there⟩ | ⟨inf', there⟩ | ⟨u, there, digits', holds'⟩ <;>
      rw [here, there] at eq
    · exact .inr ⟨nan, nan'⟩
    · exact absurd (eq ▸ (by decide : 'N' ∈ "NaN".toList)) (not_mem_sign (by decide) (by decide))
    · exact absurd (eq ▸ (by decide : 'N' ∈ "NaN".toList))
        (not_mem_sign (by decide) (not_mem_digits digits' (by decide)))
    · exact absurd (eq ▸ (by decide : 'N' ∈ "NaN".toList)) (not_mem_sign (by decide) (by decide))
    · exact .inl (eq_of_sign_of_size fits fits' (sign_append (by decide) (by decide) eq).1 (inf.trans inf'.symm))
    · exact absurd (eq ▸ List.mem_append_right _ (by decide : 'i' ∈ "inf".toList))
        (not_mem_sign (by decide) (not_mem_digits digits' (by decide)))
    · exact absurd (eq ▸ (by decide : 'N' ∈ "NaN".toList))
        (not_mem_sign (by decide) (not_mem_digits digits (by decide)))
    · exact absurd (eq ▸ List.mem_append_right _ (by decide : 'i' ∈ "inf".toList))
        (not_mem_sign (by decide) (not_mem_digits digits (by decide)))
    · obtain ⟨sign, rfl⟩ := sign_append (not_mem_digits digits (by decide)) (not_mem_digits digits' (by decide)) eq
      exact .inl (eq_of_sign_of_size fits fits' sign (holds_unique wide holds holds'))
  · rintro (rfl | ⟨nan, nan'⟩)
    · rfl
    · simp [text, nan.1, nan.2, nan'.1, nan'.2]

end Format

end CilForge.Decimal
