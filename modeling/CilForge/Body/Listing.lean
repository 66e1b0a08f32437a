import CilForge.Body.Basic

/-!
# Listings

The text of a body: one line for each instruction, numbered by place, with branch targets by place
as well, then one line for each region.
-/

namespace CilForge.Body

namespace Places

def label (places : Places) (h : Handle) : String :=
  match places[h]? with
  | some p => "IL_" ++ Text.decimalPadded 4 p
  | none => "?" ++ h.text

def endLabel (places : Places) : Option Handle → String
  | some h => places.label h
  | none => "end"

def codeLine (places : Places) (p : Nat) (i : Instr) : String :=
  s!"IL_{Text.decimalPadded 4 p}: {i.textWith places.label}"

def regionLine (places : Places) (r : Region) : String :=
  s!".try {places.label r.tryStart} to {places.endLabel r.tryEnd} {r.flags.text} " ++
    s!"{places.label r.handlerStart} to {places.endLabel r.handlerEnd}"

end Places

def listing (b : Body) : List String :=
  let places := b.places
  (b.code.zipIdx.map fun (p, n) => places.codeLine n p.2) ++ b.regions.map places.regionLine

/-- The listing as one text, each line closed by a line feed. -/
def text (b : Body) : String := String.join (b.listing.map (· ++ "\n"))

end CilForge.Body
