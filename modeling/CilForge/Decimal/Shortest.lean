/-!
# Shortest decimals of binary floating point numbers

A finite binary number stands for every real that rounds to it. Its decimal is the multiple of the
largest power of ten among those reals, the nearer one if two qualify and the larger one on a tie,
and it is written in full, never with an exponent.
-/

namespace CilForge.Decimal

/-- The widths of the fraction and exponent fields of a binary format. -/
structure Format where
  fractionBits : Nat
  exponentBits : Nat

def single : Format := ⟨23, 8⟩

def double : Format := ⟨52, 11⟩

/-- The reals that round to a positive number: `low`, `value` and `high` over the common
denominator `den`, with the ends included or not. -/
structure Interval where
  low : Nat
  value : Nat
  high : Nat
  den : Nat
  closed : Bool

/-- The rounding interval of a positive finite number given by its two fields. -/
def Format.interval (f : Format) (exponent fraction : Nat) : Interval :=
  let mantissa := if exponent = 0 then fraction else fraction + 1 <<< f.fractionBits
  -- `mantissa * 2 ^ power / 2 ^ shift` is the number
  let power := if exponent = 0 then 1 else exponent
  let shift := 1 <<< (f.exponentBits - 1) - 1 + f.fractionBits + 2
  let below := if fraction = 0 && 1 < exponent then 1 else 2
  { low := (4 * mantissa - below) <<< power
    value := (4 * mantissa) <<< power
    high := (4 * mantissa + 2) <<< power
    den := 1 <<< shift
    closed := mantissa % 2 = 0 }

def Interval.contains (i : Interval) (n : Nat) : Bool :=
  if i.closed then i.low ≤ n && n ≤ i.high else i.low < n && n < i.high

/-- The interval over the unit `10 ^ k` instead of one. -/
def Interval.scaled (i : Interval) (k : Int) : Interval :=
  if 0 ≤ k then { i with den := i.den * Nat.pow 10 k.toNat }
  else
    let s := Nat.pow 10 (-k).toNat
    { i with low := i.low * s, value := i.value * s, high := i.high * s }

/-- The multiple of the unit that stands for the number, if a neighbour of it is in the
interval. -/
def Interval.pick (i : Interval) : Option Nat :=
  let down := i.value / i.den
  let up := down + 1
  match i.contains (down * i.den), i.contains (up * i.den) with
  | true, true => if i.value - down * i.den < up * i.den - i.value then some down else some up
  | true, false => some down
  | false, true => some up
  | false, false => none

/-- The first hit on the grids `10 ^ k`, from coarse to fine. -/
def Interval.search (i : Interval) : Nat → Int → Nat × Int
  | 0, k => (i.value / i.den, k)
  | fuel + 1, k =>
    match (i.scaled k).pick with
    | some n => (n, k)
    | none => i.search fuel (k - 1)

/-- Digits and power of ten of the decimal; the grids run from above the largest number of the
format to below its smallest. -/
def Format.digits (f : Format) (exponent fraction : Nat) : Nat × Int :=
  let top := 1 <<< (f.exponentBits - 1) / 3
  (f.interval exponent fraction).search (2 * top + f.fractionBits + 2) top

def plain (n : Nat) (k : Int) : String :=
  let digits := Nat.toDigits 10 n
  if 0 ≤ k then String.ofList (digits ++ List.replicate k.toNat '0')
  else
    let places := (-k).toNat
    let padded := List.replicate (places + 1 - digits.length) '0' ++ digits
    let cut := padded.length - places
    let fraction := ((padded.drop cut).reverse.dropWhile (· = '0')).reverse
    if fraction.isEmpty then String.ofList (padded.take cut)
    else String.ofList (padded.take cut ++ '.' :: fraction)

def Format.text (f : Format) (bits : Nat) : String :=
  let fraction := bits % (1 <<< f.fractionBits)
  let exponent := bits >>> f.fractionBits % (1 <<< f.exponentBits)
  let sign := if (bits >>> (f.fractionBits + f.exponentBits)) % 2 = 1 then "-" else ""
  if exponent = 1 <<< f.exponentBits - 1 then
    if fraction = 0 then sign ++ "inf" else "NaN"
  else if exponent = 0 && fraction = 0 then sign ++ "0"
  else
    let (n, k) := f.digits exponent fraction
    sign ++ plain n k

end CilForge.Decimal
