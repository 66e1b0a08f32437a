import CilForge.Instr

/-!
# Protected regions

A region guards a range of instructions by a handler. Ranges are half open; a range without an end
runs to the end of the method.
-/

namespace CilForge

/-- What kind of handler a region has, as a set of bits. -/
structure RegionFlags where
  bits : BitVec 16
deriving DecidableEq

namespace RegionFlags

def finallyOnly : RegionFlags := ⟨2⟩

/-- The named bits in order, then the unnamed ones as one number. -/
def text (f : RegionFlags) : String :=
  let named := [(0, "FILTER"), (1, "FINALLY"), (2, "FAULT")].filterMap fun (bit, name) =>
    if f.bits.getLsbD bit then some name else none
  let rest := f.bits >>> 3 <<< 3
  let parts := if rest = 0 then named else named ++ ["0x" ++ Text.hex rest.toNat]
  let shown := if parts.isEmpty then "0x0" else String.intercalate " | " parts
  "ExceptionHandlerFlags(" ++ shown ++ ")"

end RegionFlags

structure Region where
  flags : RegionFlags := .finallyOnly
  tryStart : Handle
  tryEnd : Option Handle
  handlerStart : Handle
  handlerEnd : Option Handle
  catchType : Option Sig := none
  filterStart : Option Handle := none
deriving DecidableEq

namespace Region

/-- A pure finally region: no other bit is set. -/
def isFinally (r : Region) : Bool := r.flags = .finallyOnly

def boundaries (r : Region) : List Handle :=
  r.tryStart :: r.tryEnd.toList ++ r.handlerStart :: r.handlerEnd.toList ++ r.filterStart.toList

/-- The instructions a region cannot do without: it has to start somewhere. -/
def starts (r : Region) : List Handle :=
  r.tryStart :: r.handlerStart :: r.filterStart.toList

def rebound (r : Region) (old new : Handle) : Region :=
  let move h := if h = old then new else h
  { r with
    tryStart := move r.tryStart
    tryEnd := r.tryEnd.map move
    handlerStart := move r.handlerStart
    handlerEnd := r.handlerEnd.map move
    filterStart := r.filterStart.map move }

def openEnds (r : Region) (old : Handle) : Region :=
  let drop (e : Option Handle) := if e = some old then none else e
  { r with tryEnd := drop r.tryEnd, handlerEnd := drop r.handlerEnd }

end Region

end CilForge
