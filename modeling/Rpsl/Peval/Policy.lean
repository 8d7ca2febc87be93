import Rpsl.Resolve.NormalForm

/-!
# Evaluated policies

The result types of `resolve/peval/peval.go`: what an aut-num's import or export is for one BGP
session, as ordered clauses.
-/

namespace Rpsl.Peval

open Text Resolve Rpsl.Policy

/-- `Clause`: one flattened term that applies to the session. -/
structure Clause where
  index : Nat
  actions : List Action
  filter : NormalFilter

/-- `Undecided`: a term the session might match that could not be decided. -/
structure Undecided where
  index : Nat

/-- `Policy`: a route takes the first clause it matches, and one matching none is refused
(by an import) or not announced (by an export). -/
structure Policy where
  clauses : List Clause
  undecided : List Undecided

end Rpsl.Peval
