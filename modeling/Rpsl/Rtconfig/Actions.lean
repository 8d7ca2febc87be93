import Rpsl.Policy.Action
import Rpsl.Rtconfig.Community

/-!
# What a clause sets

`rtconfig/actions.go`: a clause's actions, read in order into operations no vendor's syntax is part
of. How an address is read is the standard library's.
-/

namespace Rpsl.Rtconfig

open Text Policy
open Resolve (trimSpace)
open SetNameTemplate (fold)

/-- `setOps`: the community operations do not depend on an order. A `localPref` or `med` of -1 is
none. -/
structure SetOps where
  localPref : Int := -1
  med : Int := -1
  medIGP : Bool := false
  commSet : List Community := []
  commSetGiven : Bool := false
  commAdd : List Community := []
  commDel : List Community := []
  prepend : List ASN := []
  nextHop : Option Addr := none
  nextHopSelf : Bool := false
deriving DecidableEq

namespace Generator

-- `netip.ParseAddr`: the address and its zone
variable (parseAddr : Text → Option (Addr × Text)) (g : Generator)

/-- The values `communityAction` reads. -/
def communityVals (a : Action) : Except UnsupportedError (List Text) :=
  if a.op = .assign ∨ a.op = .append ∨ a.op = .method ∧ a.method = lit "append" then
    .ok (a.communities.getD [])
  else if a.op = .method ∧ a.method = lit "delete" then .ok a.args
  else .error (g.unsupported .action a.text)

/-- `communityAction`: "=" replaces, ".=" and append add, delete removes. -/
def communityAction (ops : SetOps) (a : Action) : Except UnsupportedError SetOps := do
  let vals ← g.communityVals a
  let cs ← parseCommunities g.vendor vals a.text
  if a.op = .assign then
    .ok { ops with commSet := cs, commSetGiven := true, commAdd := [], commDel := [] }
  else if a.method = lit "delete" then
    if ops.commSetGiven then .ok { ops with commSet := without ops.commSet cs }
    else .ok { ops with commAdd := without ops.commAdd cs, commDel := union ops.commDel cs }
  else
    if ops.commSetGiven then .ok { ops with commSet := union ops.commSet cs }
    else .ok { ops with commDel := without ops.commDel cs, commAdd := union ops.commAdd cs }

/-- One action of `compileActions`. -/
def compileAction (afi : AFI) (ops : SetOps) (a : Action) : Except UnsupportedError SetOps :=
  if a.attr = lit "pref" ∧ a.op = .assign then
    match a.int with
    | none => .error (g.unsupported .actionValue a.text)
    | some n =>
      if n < 0 then .error (g.unsupported .actionValue a.text)
      else if g.maxPref < n then .error (g.unsupported .pref a.text)
      else .ok { ops with localPref := g.maxPref - n }
  else if a.attr = lit "med" ∧ a.op = .assign then
    if fold (trimSpace a.value) = lit "igp_cost" then
      if g.supports .medIGP then .ok { ops with med := -1, medIGP := true }
      else .error (g.unsupported .actionValue a.text)
    else
      match a.int with
      | none => .error (g.unsupported .actionValue a.text)
      | some n =>
        if n < 0 then .error (g.unsupported .actionValue a.text)
        else .ok { ops with med := n, medIGP := false }
  else if a.attr = lit "community" then g.communityAction ops a
  else if a.attr = lit "aspath" ∧ a.op = .method ∧ a.method = lit "prepend" then
    match a.prepends with
    | none => .error (g.unsupported .actionValue a.text)
    | some as => .ok { ops with prepend := as ++ ops.prepend }
  else if a.attr = lit "next-hop" ∧ a.op = .assign then
    if fold (trimSpace a.value) = lit "self" then
      if g.supports .nextHopSelf then .ok { ops with nextHop := none, nextHopSelf := true }
      else .error (g.unsupported .actionValue a.text)
    else
      match parseAddr (trimSpace a.value) with
      | none => .error (g.unsupported .actionValue a.text)
      | some (addr, zone) =>
        -- a next-hop of the other family is no next-hop for this session
        if zone ≠ [] ∨ (addr.fam = .v4 ↔ afi ≠ .v4) then
          .error (g.unsupported .actionValue a.text)
        else .ok { ops with nextHop := some addr, nextHopSelf := false }
  else .error (g.unsupported .action a.text)

def compileActions (acts : List Action) (afi : AFI) (term : Text) :
    Except UnsupportedError SetOps := do
  let ops ← acts.foldlM (g.compileAction parseAddr afi) {}
  -- Junos sets a named community's members, and a community has at least one
  if g.vendor = .junos ∧ ops.commSetGiven ∧ ops.commSet = [] then
    .error (g.unsupported .actionValue term)
  else .ok ops

end Generator

end Rpsl.Rtconfig
