import Rpsl.Consist.Consist
import Rpsl.Types.PrefixSubset

/-!
# Terms that never decide

The part of `resolve/consist/lint.go` that finds the terms of an evaluated policy that accept no
route (`lint/empty`) or none that earlier terms do not (`lint/shadowed`). The conjuncts of the
earlier clauses are kept in a `cover`: per signature asked about, those whose tests are among the
signature's, brought up to date when the signature is next asked about.
-/

namespace Rpsl.Consist

open Text Peval

/-- `coverLarge`: a space with at least this many ranges is large. -/
def coverLarge : Nat := 1024

/-- `coverKeep`: so many large spaces are kept apart. -/
def coverKeep : Nat := 16

/-- `rangesAtLeast`, after `c` ranges. -/
def rangesFrom (n : Nat) : Nat → List PrefixRange → Bool
  | _, [] => false
  | c, _ :: rs => if n ≤ c + 1 then true else rangesFrom n (c + 1) rs

def rangesAtLeast (s : PrefixSpace) (n : Nat) : Bool := rangesFrom n 0 s.ranges

/-- `sigCover`: the conjuncts of `earlier[:n]` whose tests are among `sig`. -/
structure SigCover where
  sig : List Text
  folded : PrefixSpace := .empty
  large : List PrefixSpace := []
  n : Nat := 0

namespace SigCover

def take (sc : SigCover) (s : PrefixSpace) : SigCover :=
  if sc.large.length < coverKeep && rangesAtLeast s coverLarge then
    { sc with large := sc.large ++ [s] }
  else { sc with folded := sc.folded.union s }

/-- `covers`; `shared` says which nodes of the tries are one pointer. -/
def covers (shared : Family → List Bool → Bool) (sc : SigCover) (s : PrefixSpace) : Bool :=
  if sc.large.isEmpty then s.subset shared sc.folded
  else s.subsetOfUnion shared (sc.folded :: sc.large)

/-- The loop of `shadowed` that brings a signature's cover up to date. -/
def update (sc : SigCover) (earlier : List Conj) : SigCover :=
  let sc' := (earlier.drop sc.n).foldl
    (fun sc e => if subset e.sig sc.sig then sc.take e.space else sc) sc
  { sc' with n := earlier.length }

end SigCover

structure Cover where
  earlier : List Conj := []
  bySig : Text → Option SigCover := fun _ => none

/-- What a call of `shadowed` leaves open: the order a map is ranged over in, and which nodes of
the tries it walks are one pointer. -/
structure Choices where
  order : List Text → List Text
  perm : ∀ ks, (order ks).Perm ks
  shared : Text → Family → List Bool → Bool

namespace Cover

def add (c : Cover) (cs : List Conj) : Cover := { c with earlier := c.earlier ++ cs }

/-- The loop of `shadowed` over the groups, by key. -/
def ask (shared : Text → Family → List Bool → Bool) (cs : List Conj) :
    List Text → Cover → Bool × Cover
  | [], c => (true, c)
  | k :: ks, c =>
    let g := group cs k
    let sc := ((c.bySig k).getD { sig := (g.head?.map Conj.sig).getD [] }).update c.earlier
    let c := { c with bySig := Function.update c.bySig k (some sc) }
    if sc.covers (shared k) (union g) then ask shared cs ks c else (false, c)

def shadowed (ch : Choices) (c : Cover) (cs : List Conj) : Bool × Cover :=
  c.ask ch.shared cs (ch.order (cs.map Conj.key).dedup)

end Cover

/-- What `linter.policy` reports of a term here. -/
inductive Rule
  | empty
  | shadowed
deriving DecidableEq, Repr

/-- The last loop of `linter.policy`, from the clause numbered `i`: each clause with what it is
reported as. `skip` are the clauses whose routes are unknown because they depend on the peer, toward
the sentinel. -/
def policyFrom (skip : Clause → Bool) (choices : Nat → Choices) :
    Nat → Cover → List Clause → List (Clause × Option Rule)
  | _, _, [] => []
  | i, cov, cl :: cls =>
    if skip cl then (cl, none) :: policyFrom skip choices (i + 1) cov cls
    else
      let cs := (sideOf ⟨[cl], []⟩).conjs
      if (union cs).isEmpty then
        (cl, some .empty) :: policyFrom skip choices (i + 1) cov cls
      else
        let (sh, cov) := cov.shadowed (choices i) cs
        (cl, if sh then some .shadowed else none) ::
          policyFrom skip choices (i + 1) (cov.add cs) cls

/-- The clauses of a policy with what they are reported as. -/
def lintPolicy (skip : Clause → Bool) (choices : Nat → Choices) (P : Policy) :
    List (Clause × Option Rule) :=
  policyFrom skip choices 0 {} P.clauses

end Rpsl.Consist
