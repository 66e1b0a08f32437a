import CilForge.Body.Basic

/-!
# Nesting of regions

Regions are arranged by their protected ranges: a region hangs below the innermost one that
encloses it. The way from a place outwards gives the regions that a jump leaves.
-/

namespace CilForge.Finally

structure Span where
  start : Nat
  stop : Nat
deriving DecidableEq

namespace Span

def contains (s : Span) (p : Nat) : Bool := s.start ≤ p && p < s.stop

def encloses (s t : Span) : Bool := s.start ≤ t.start && t.stop ≤ s.stop

def overlaps (s t : Span) : Bool := s.start < t.stop && t.start < s.stop

/-- The length in 64 bit arithmetic: an inverted range counts as a very long one. -/
def len (s : Span) : Nat := (BitVec.ofNat 64 s.stop - BitVec.ofNat 64 s.start).toNat

def hull (s t : Span) : Span := ⟨min s.start t.start, max s.stop t.stop⟩

end Span

/-- The ranges of a region, by its number in the body. -/
structure Ranges where
  region : Nat
  trySpan : Span
  handlerSpan : Span
  handlerStart : Handle

/-- A region in its place; one without a parent hangs below the method itself. -/
structure Node extends Ranges where
  parent : Option Nat

def Node.extent (n : Node) : Span := n.trySpan.hull n.handlerSpan

/-- The nodes in the order of their insertion, so that parents come first. -/
abbrev Nesting := Array Node

namespace Nesting

/-- Goes down from the root, at each node to its first child that passes the test. Children come
behind their parents, so one sweep over the nodes is enough. -/
def descend (t : Nesting) (test : Node → Bool) : Option Nat :=
  t.toList.zipIdx.foldl
    (fun current (n, i) => if n.parent = current && test n then some i else current) none

def insert (t : Nesting) (r : Ranges) : Nesting :=
  t.push { r with parent := t.descend (·.trySpan.encloses r.trySpan) }

/-- Long ranges go first, and of two of one length the one that starts first. -/
def before (a b : Ranges) : Bool :=
  b.trySpan.len < a.trySpan.len ||
    (a.trySpan.len = b.trySpan.len && a.trySpan.start ≤ b.trySpan.start)

def ofRegions (regions : List Ranges) : Nesting :=
  (regions.mergeSort before).foldl insert #[]

def innermost (t : Nesting) (p : Nat) : Option Nat := t.descend (·.trySpan.contains p)

def outwards (t : Nesting) (i : Nat) : List Nat :=
  i :: match (t[i]?).bind (·.parent) with
    | some p => if p < i then t.outwards p else []
    | none => []
termination_by i

/-- The regions that a jump between two places leaves, the innermost first. -/
def exits (t : Nesting) (source target : Nat) : List Nat :=
  match t.innermost source with
  | none => []
  | some i => (t.outwards i).takeWhile fun n => !(t[n]?).any (·.trySpan.contains target)

def nodeOf? (t : Nesting) (region : Nat) : Option Nat := t.findIdx? (·.region = region)

end Nesting

end CilForge.Finally
