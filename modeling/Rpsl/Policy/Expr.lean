import Rpsl.Policy.Filter
import Rpsl.Types.AddrFamily

/-!
# Policy expressions

The peering and expression nodes of `policy/ast.go` and the text of a peering
(`policy/strings.go`). How an address is printed is the standard library's and is a parameter.
-/

namespace Rpsl.Policy

open Text

/-! ## Peerings -/

inductive RouterOp
  | and
  | or
  | except
deriving DecidableEq, Repr

inductive RouterExpr
  | addr (a : Addr)
  | name (name : Text)
  | setRef (name : SetName)
  | binary (op : RouterOp) (l r : RouterExpr)

/-- `Peering`. An AS expression or a router that is absent is the nil interface; a regexp is none
where it did not parse. -/
inductive Peering
  | as_ (as : ASExpr) (router atRouter : Option RouterExpr)
  | setRef (name : SetName)
  | regexp (raw : Text) (re : Option ASPathRE)

/-! ## Text -/

def precOr : Nat := 1
def precAnd : Nat := 2

def paren (s : Text) (have_ want : Nat) : Text :=
  if have_ < want then '(' :: s ++ [')'] else s

/-- How an AS operator is written, and how tightly it binds. -/
def ASOp.spelling : ASOp → Text × Nat
  | .or => (lit " OR ", precOr)
  | .and => (lit " AND ", precAnd)
  | .except => (lit " EXCEPT ", precAnd)

/-- `asExprString`. -/
def ASExpr.textAt : ASExpr → Nat → Text
  | .nil, _ => []
  | .num a, _ => a.text
  | .setRef n, _ => n.text
  | .template t, _ => t.text
  | .binary op l r, want =>
    let (sep, have_) := op.spelling
    paren (l.textAt have_ ++ sep ++ r.textAt (have_ + 1)) have_ want

/-- How a router operator is written, and how tightly it binds. -/
def RouterOp.spelling : RouterOp → Text × Nat
  | .or => (lit " OR ", precOr)
  | .and => (lit " AND ", precAnd)
  | .except => (lit " EXCEPT ", precAnd)

section

variable (addrText : Addr → Text)

/-- `routerExprString`. -/
def RouterExpr.textAt : RouterExpr → Nat → Text
  | .addr a, _ => addrText a
  | .name n, _ => n
  | .setRef n, _ => n.text
  | .binary op l r, want =>
    let (sep, have_) := op.spelling
    paren (l.textAt have_ ++ sep ++ r.textAt (have_ + 1)) have_ want

/-- `PeeringAS.String`, `PeeringSetRef.String` and `PeeringRegexp.String`. -/
def Peering.text : Peering → Text
  | .as_ as router atRouter =>
    as.textAt precOr ++
    (router.elim [] fun r => ' ' :: r.textAt addrText precOr) ++
    (atRouter.elim [] fun r => lit " at " ++ r.textAt addrText precOr)
  | .setRef n => n.text
  | .regexp raw _ => '<' :: raw ++ ['>']

end

/-! ## Expressions -/

structure PeerAction where
  via : Option Peering
  peering : Option Peering
  actions : List Action

/-- `Expr`; `nil` is the nil interface. -/
inductive Expr
  | nil
  | factor (peers : List PeerAction) (filter : Filter)
  | list (exprs : List Expr)
  | except (left right : Expr) (afis : List AddrFamily) (mp : Bool)
  | refine (left right : Expr) (afis : List AddrFamily) (mp : Bool)

def ipv4Unicast : AddrFamily := ⟨.v4, .unicast⟩

end Rpsl.Policy
