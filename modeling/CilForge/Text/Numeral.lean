/-!
# Numerals of fixed shape

Hexadecimal and zero padded numerals, as tokens, labels and bit sets are written.
-/

namespace CilForge.Text

/-- Left padding with zeros up to a width; a longer text is kept whole. -/
def zeroPad (width : Nat) (digits : List Char) : List Char :=
  List.replicate (width - digits.length) '0' ++ digits

def decimalPadded (width n : Nat) : String :=
  String.ofList (zeroPad width (Nat.toDigits 10 n))

def hex (n : Nat) : String :=
  String.ofList (Nat.toDigits 16 n)

def hexPadded (width n : Nat) : String :=
  String.ofList (zeroPad width (Nat.toDigits 16 n))

end CilForge.Text
