import Rpsl.Types.RangeParse
import Rpsl.Types.AddrText

/-!
# Routers

`types/routerid.go`: a router is an address or the DNS name of an inet-rtr, in canonical form.
What `netip.ParseAddr` reads is a parameter: an address and its zone.
-/

namespace Rpsl

open Text

/-- `netip.Addr.Unmap`: an IPv4-mapped IPv6 address as the IPv4 one. -/
def Addr.unmap : Addr → Addr
  | ⟨.v4, v⟩ => ⟨.v4, v⟩
  | ⟨.v6, v⟩ => if v.toNat / 2 ^ 32 = 0xffff then ⟨.v4, BitVec.ofNat 32 v.toNat⟩ else ⟨.v6, v⟩

/-- `RouterID`, other than the zero one. -/
inductive RouterID
  | addr (a : Addr)
  | name (name : Text)
deriving DecidableEq

namespace RouterID

/-- `RouterID.String`. -/
def text : RouterID → Text
  | addr a => a.text
  | name n => n

/-- `MaxRouterNameLen`. -/
def maxNameLen : Nat := 253

/-- `validRouterName`, of one label. -/
def validLabel (label : Text) : Bool :=
  decide (label.length ≤ 63) && label.head?.any (· != '-') && label.getLast?.any (· != '-') &&
    label.all fun c => isAlnum c || c == '-'

def validRouterName (name : Text) : Bool :=
  let labels := name.splitOn '.'
  !name.isEmpty && decide (name.length ≤ maxNameLen) &&
    !(labels.getLast?.any fun last => isNumber last) && labels.all validLabel

/-- `ParseRouterID`. -/
def parse (parseAddr : Text → Option (Addr × Text)) (s : Text) : Option RouterID :=
  let t := trimBlank s
  let t := if t.getLast? = some '.' then t.dropLast else t
  if t.isEmpty then none
  else
    match parseAddr ((unpadIPv4 t).getD t) with
    | some (a, _) => some (.addr a.unmap)
    | none => if validRouterName t then some (.name (lower t)) else none

end RouterID

end Rpsl
