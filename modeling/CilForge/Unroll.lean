/-!
# Recursion that may have no end

On data that lead back to themselves a function that calls itself need not come to an end. What is computed here is
cut off below a number of calls inside each other. Where calls inside can be made for finitely many arguments only,
one call more than there are of them is enough for all that come to an end.
-/

namespace CilForge

/-- The function that calls itself by `body`, as far as no more than `n` calls lie inside each other. -/
def unroll {α β : Type} (body : (α → Option β) → α → Option β) : Nat → α → Option β
  | 0, _ => none
  | n + 1, x => body (unroll body n) x

end CilForge
