/-!
# Type names

A type is named by its namespace and its own name; the name of a nested type is the path of names
from the outermost type, joined by slashes.
-/

namespace CilForge

structure TypeName where
  ns : String := ""
  name : String
deriving DecidableEq, Hashable, Inhabited

namespace TypeName

/-- The namespace ends at the last dot before the first slash. -/
def parse (full : String) : TypeName :=
  let chars := full.toList
  let outer := chars.takeWhile (· ≠ '/')
  match outer.reverse.dropWhile (· ≠ '.') with
  | [] => ⟨"", full⟩
  | _ :: before =>
    ⟨String.ofList before.reverse, String.ofList (chars.drop (before.length + 1))⟩

def text (n : TypeName) : String :=
  if n.ns.isEmpty then n.name else n.ns ++ "." ++ n.name

def system (name : String) : TypeName := ⟨"System", name⟩

end TypeName

end CilForge
