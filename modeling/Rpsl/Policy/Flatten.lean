import Rpsl.Policy.Expr

/-!
# Flattening EXCEPT and REFINE

`policy/flatten.go`: the (peering, actions, filter) terms a policy expression denotes for one
address family, under a budget of filter nodes; after the error that the flattener records when the
budget is spent it goes on with what it has. Beside the terms the flattener keeps the capacity of
each slice of terms it asks for.
-/

namespace Rpsl.Policy

open Text

def maxParseDepth : Nat := 1000

def maxFlattenDepth : Nat := maxParseDepth

def maxFlattenNodes : Nat := 2 ^ 20

/-- What wraps `ErrFlattenTooLarge`. -/
inductive FlattenError
  | nodes
  | depth
deriving DecidableEq, Repr

structure Term where
  via : Option Peering
  peering : Option Peering
  actions : List Action
  filter : Filter

structure WTerm extends Term where
  w : Nat

/-! ## Filters -/

mutual

def filterSize : Filter → Nat → Nat
  | .nil, depth => if maxFlattenDepth < depth then 1 else 0
  | .and terms, depth =>
    if maxFlattenDepth < depth then 1 else 1 + filterSizes terms (depth + 1)
  | .or terms, depth =>
    if maxFlattenDepth < depth then 1 else 1 + filterSizes terms (depth + 1)
  | .not inner, depth =>
    if maxFlattenDepth < depth then 1 else 1 + filterSize inner (depth + 1)
  | _, _ => 1

def filterSizes : List Filter → Nat → Nat
  | [], _ => 0
  | f :: fs, depth => filterSize f depth + filterSizes fs depth

end

/-- The terms a filter adds to an AND: an AND's own are spliced in. -/
def Filter.conjuncts : Filter → List Filter
  | .and terms => terms
  | f => [f]

/-- The terms a filter adds to an OR. -/
def Filter.disjuncts : Filter → List Filter
  | .or terms => terms
  | f => [f]

def andFilters : Filter → Filter → Filter
  | .nil, b => b
  | a, .nil => a
  | a, b => .and (a.conjuncts ++ b.conjuncts)

def orFilters : List Filter → Filter
  | [] => .nil
  | [f] => f
  | fs => .or (fs.flatMap Filter.disjuncts)

/-- Is it the nil interface? -/
def Filter.isNil : Filter → Bool
  | .nil => true
  | _ => false

/-! ## Peerings -/

def isAnyPeering : Peering → Bool
  | .as_ (.setRef n) none none => n.isAny
  | _ => false

/-! ## The flattener -/

/-- `flattener`, and the capacities of the slices of terms asked for so far. -/
structure Flattener where
  spent : Nat
  err : Option FlattenError
  caps : List Nat

namespace Flattener

def start : Flattener := ⟨0, none, []⟩

/-- A slice of terms is made. -/
def request (f : Flattener) (cap : Nat) : Flattener := { f with caps := f.caps ++ [cap] }

/-- `charge`: does the budget still hold? -/
def charge (f : Flattener) (w : Nat) : Bool × Flattener :=
  if f.err.isSome then (false, f)
  else
    let f := { f with spent := f.spent + (w + 1) }
    if maxFlattenNodes < f.spent then (false, { f with err := some .nodes }) else (true, f)

/-- A loop that charges for each term and appends it to `out`; `none` where it returns nil. -/
def build (f : Flattener) (out : List WTerm) : List WTerm → Option (List WTerm) × Flattener
  | [] => (some out, f)
  | t :: ts =>
    match f.charge t.w with
    | (true, f) => build f (out ++ [t]) ts
    | (false, f) => (none, f)

end Flattener

/-! ## Terms -/

/-- The term of a pair in `exceptTerms`: right's peering and actions, both filters. -/
def exceptTerm (l r : WTerm) : WTerm :=
  ⟨⟨r.via, r.peering, r.actions, andFilters l.filter r.filter⟩, l.w + r.w + 1⟩

/-- What is left of a left-hand term. -/
def restTerm (right : List WTerm) (l : WTerm) : WTerm :=
  let covered := right.filter fun r => !r.filter.isNil
  let rest := orFilters (covered.map (·.filter))
  let restW := covered.foldl (fun n r => n + r.w) 2
  if rest.isNil then l
  else ⟨⟨l.via, l.peering, l.actions, andFilters l.filter (.not rest)⟩, l.w + restW + 1⟩

/-- The term a factor gives for a peer. -/
def factorTerm (filter : Filter) (p : PeerAction) : WTerm :=
  ⟨⟨p.via, p.peering, p.actions, filter⟩, filterSize filter 0⟩

section

variable (addrText : Addr → Text)

/-- `intersectPeerings`: the more specific of two peerings that meet. -/
def intersectPeerings : Option Peering → Option Peering → Option Peering
  | none, b => b
  | a, none => a
  | some a, some b =>
    if isAnyPeering a then some b
    else if isAnyPeering b then some a
    else if a.text addrText = b.text addrText then some a
    else none

/-- `intersectVias`: none where the vias do not meet; two absent ones do. -/
def intersectVias (a b : Option Peering) : Option (Option Peering) :=
  if a.isNone ∧ b.isNone then some none else (intersectPeerings addrText a b).map some

/-- The term of a pair in `refineTerms`, if their peerings meet. -/
def refineTerm (l r : WTerm) : Option WTerm :=
  match intersectPeerings addrText l.peering r.peering with
  | none => none
  | some pe =>
    (intersectVias addrText l.via r.via).map fun via =>
      ⟨⟨via, some pe, l.actions ++ r.actions, andFilters l.filter r.filter⟩, l.w + r.w + 1⟩

namespace Flattener

def refineTerms (f : Flattener) (left right : List WTerm) : List WTerm × Flattener :=
  let (out, f) := f.build [] (left.flatMap fun l => right.filterMap (refineTerm addrText l))
  (out.getD [], f)

def exceptTerms (f : Flattener) (left right : List WTerm) : List WTerm × Flattener :=
  if right.isEmpty then (left, f)
  else
    let f := f.request (right.length * left.length + left.length)
    match f.build [] (left.flatMap fun l => right.map (exceptTerm l)) with
    | (none, f) => ([], f)
    | (some out, f) =>
      let (out, f) := f.build out (left.map (restTerm right))
      (out.getD [], f)

/-- `flatten` of a factor. -/
def factor (f : Flattener) (peers : List PeerAction) (filter : Filter) : List WTerm × Flattener :=
  let f := f.request peers.length
  let (out, f) := f.build [] (peers.map (factorTerm filter))
  (out.getD [], f)

/-- The checks `flatten` begins with: may it go on? -/
def enter (f : Flattener) (depth : Nat) : Bool × Flattener :=
  if f.err.isSome then (false, f)
  else if maxFlattenDepth < depth then (false, { f with err := some .depth })
  else (true, f)

end Flattener

variable (af : AddrFamily)

/-- `covers`. -/
def scopeCovers (afis : List AddrFamily) : Bool := afis.isEmpty || afis.any (·.covers af)

mutual

def Flattener.flatten (f : Flattener) : Expr → Nat → List WTerm × Flattener
  | .nil, _ => ([], f)
  | .factor peers filter, depth =>
    match f.enter depth with
    | (false, f) => ([], f)
    | (true, f) => f.factor peers filter
  | .list exprs, depth =>
    match f.enter depth with
    | (false, f) => ([], f)
    | (true, f) => Flattener.flattenList f exprs (depth + 1)
  | .refine l r afis _, depth =>
    match f.enter depth with
    | (false, f) => ([], f)
    | (true, f) =>
      let (left, f) := Flattener.flatten f l (depth + 1)
      if scopeCovers af afis then
        let (right, f) := Flattener.flatten f r (depth + 1)
        f.refineTerms addrText left right
      else (left, f)
  | .except l r afis _, depth =>
    match f.enter depth with
    | (false, f) => ([], f)
    | (true, f) =>
      let (left, f) := Flattener.flatten f l (depth + 1)
      if scopeCovers af afis then
        let (right, f) := Flattener.flatten f r (depth + 1)
        f.exceptTerms left right
      else (left, f)

/-- The loop of `flatten` over a list. -/
def Flattener.flattenList (f : Flattener) : List Expr → Nat → List WTerm × Flattener
  | [], _ => ([], f)
  | e :: es, depth =>
    let (ts, f) := Flattener.flatten f e depth
    let (us, f) := Flattener.flattenList f es depth
    (ts ++ us, f)

end

/-- `Flatten`, with the capacities of the slices of terms it asks for. -/
def flattenAlloc (e : Expr) : Except FlattenError (List Term) × List Nat :=
  let (ts, f) := Flattener.start.flatten addrText af e 0
  match f.err with
  | some err => (.error err, f.caps)
  | none =>
    if ts.isEmpty then (.ok [], f.caps)
    else (.ok (ts.map WTerm.toTerm), f.caps ++ [ts.length])

/-- `Flatten`. -/
def flatten (e : Expr) : Except FlattenError (List Term) := (flattenAlloc addrText af e).1

end

end Rpsl.Policy
