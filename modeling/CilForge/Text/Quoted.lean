import CilForge.Text.Numeral
import CilForge.Text.Unprintable

/-!
# Quoted text

The text of a string literal: the two characters that would end or start an escape take a
backslash, four control characters have a letter, and what has no shape of its own is written by
its code point.
-/

namespace CilForge.Text

def escaped (c : Char) : List Char :=
  match c with
  | '"' => ['\\', '"']
  | '\\' => ['\\', '\\']
  | '\x00' => ['\\', '0']
  | '\t' => ['\\', 't']
  | '\r' => ['\\', 'r']
  | '\n' => ['\\', 'n']
  | c =>
    if unprintable c then
      '\\' :: 'u' :: '\x7b' :: Nat.toDigits 16 c.toNat ++ ['\x7d']
    else [c]

def quoted (s : String) : String :=
  String.ofList ('"' :: s.toList.flatMap escaped ++ ['"'])

end CilForge.Text
