import CilForge.Text.Numeral

/-!
# Metadata tokens

A token names a row of a metadata table: eight bits of table number above twenty-four of row.
-/

namespace CilForge

structure Token where
  value : BitVec 32 := 0
deriving DecidableEq, Inhabited

namespace Token

def ofParts (table : BitVec 8) (row : Nat) : Token :=
  ⟨table.setWidth 32 <<< 24 ||| (BitVec.ofNat 32 row &&& 0x00ffffff)⟩

def type (row : Nat) : Token := ofParts 0x02 row

def method (row : Nat) : Token := ofParts 0x06 row

def table (t : Token) : Nat := (t.value >>> 24).toNat

def row (t : Token) : Nat := (t.value &&& 0x00ffffff).toNat

def isNull (t : Token) : Bool := t.value = 0

def text (t : Token) : String := "0x" ++ Text.hexPadded 8 t.value.toNat

/-- The token with its two parts spelled out. -/
def details (t : Token) : String :=
  s!"Token({t.text}, table: 0x{Text.hexPadded 2 t.table}, row: {t.row})"

end Token

end CilForge
