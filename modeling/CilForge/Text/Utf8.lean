/-!
# Lenient UTF-8

Reads bytes as text. Where the bytes are no well formed sequence, each maximal beginning of one
becomes a single replacement character, and reading goes on behind it.
-/

namespace CilForge.Text

/-- The bytes that may follow a lead byte: their number and the range of the first of them. -/
def tailShape (lead : Nat) : Option (Nat × Nat × Nat) :=
  if lead < 0xc2 then none
  else if lead < 0xe0 then some (1, 0x80, 0xbf)
  else if lead = 0xe0 then some (2, 0xa0, 0xbf)
  else if lead = 0xed then some (2, 0x80, 0x9f)
  else if lead < 0xf0 then some (2, 0x80, 0xbf)
  else if lead = 0xf0 then some (3, 0x90, 0xbf)
  else if lead < 0xf4 then some (3, 0x80, 0xbf)
  else if lead = 0xf4 then some (3, 0x80, 0x8f)
  else none

/-- Takes up to `count` continuation bytes, the first within `lo` to `hi`; gives the code
accumulated, the number still missing and what is left. -/
def takeTail (count lo hi code : Nat) : List Nat → Nat × Nat × List Nat
  | b :: rest =>
    match count with
    | 0 => (code, 0, b :: rest)
    | more + 1 =>
      if lo ≤ b && b ≤ hi then takeTail more 0x80 0xbf (code * 64 + b % 64) rest
      else (code, count, b :: rest)
  | [] => (code, count, [])

theorem length_takeTail_le (count lo hi code : Nat) (bytes : List Nat) :
    (takeTail count lo hi code bytes).2.2.length ≤ bytes.length := by
  induction bytes generalizing count lo hi code with
  | nil => simp [takeTail]
  | cons b rest ih =>
    cases count with
    | zero => simp [takeTail]
    | succ more =>
      simp only [takeTail]
      split
      · exact Nat.le_succ_of_le (ih ..)
      · simp

def leadBits (count lead : Nat) : Nat :=
  lead % (1 <<< (6 - count))

def decodeLossy (bytes : List Nat) : List Char :=
  match bytes with
  | [] => []
  | b :: rest =>
    if b < 0x80 then Char.ofNat b :: decodeLossy rest
    else
      match tailShape b with
      | none => '\ufffd' :: decodeLossy rest
      | some (count, lo, hi) =>
        let taken := takeTail count lo hi (leadBits count b) rest
        (if taken.2.1 = 0 then Char.ofNat taken.1 else '\ufffd') :: decodeLossy taken.2.2
termination_by bytes.length
decreasing_by
  all_goals simp only [List.length_cons]
  · omega
  · omega
  · have := length_takeTail_le count lo hi (leadBits count b) rest; omega

def ofBytesLossy (bytes : List UInt8) : String :=
  String.ofList (decodeLossy (bytes.map (·.toNat)))

end CilForge.Text
