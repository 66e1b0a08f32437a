import CilForge.Generate

/-!
# Settings

Which transformations are wanted, where generated methods go, and how lookups are generated.
-/

namespace CilForge

structure Settings where
  callSites : Bool := true
  flattening : Bool := true
  /-- Only types with this attribute are flattened, if one is given. -/
  marker : Option String := none
  holder : TypeName := ⟨"", "<EnumHelpers>"⟩
  density : Density := {}
  /-- Whether a transformed body is checked before it is kept. -/
  verify : Bool := true

namespace Settings

def callSitesOnly : Settings := { flattening := false }

def flatteningOnly : Settings := { callSites := false }

def anyEnabled (s : Settings) : Bool := s.callSites || s.flattening

end Settings

end CilForge
