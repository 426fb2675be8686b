/-!
# The first free name

Out of numbered candidates, the first that is not taken.  Of `n + 1` different
candidates at least one is free of `n` taken names, so the search is bounded.
-/

namespace SafeRefactor.Text

/-- The first of `candidate 0`, `candidate 1`, … that is not taken. -/
def firstFree (taken : List String) (candidate : Nat → String) : String :=
  (((List.range (taken.length + 1)).map candidate).find? (fun name => !taken.contains name)).getD
    (candidate 0)

end SafeRefactor.Text
