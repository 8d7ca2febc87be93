import Rpsl.Auth.Rules

/-!
# Creating a route

`auth/route.go`: whether a credential may create a route object. Three permissions are asked for in
turn (RFC 2725 §4), of the new object's own maintainers, of the origin AS and of the address space,
and the first that is not given refuses the creation.
-/

namespace Rpsl.Auth

open Text Lib Rpsl.Resolve Rpsl.Object

/-- An `object.Object` as a caller hands it over: the nil interface, or a pointer that may be
nil (`some none`). -/
abbrev Given := Option (Option Object)

/-- `RouteRequest`; a prefix that is not valid is none. -/
structure RouteRequest where
  pfx : Option Prefix
  originAS : ASN
  mntBy : List Text
  origin : Given
  space : Given

/-- `RouteRequestFor` and `RouteRequestFor6`. -/
def routeRequestFor (r : Route) (origin space : Given) : RouteRequest :=
  ⟨r.pfx, r.origin, r.authorities.mntBy, origin, space⟩

def autNumAS : Given → Option ASN
  | some (some (.autNum as _ _)) => some as
  | _ => none

/-- The object a pointer points to, if it points to one. -/
def Given.object (o : Given) : Option Object := o.join

/-- `netip.Prefix.String`. -/
def prefixText (p : Option Prefix) : Text := p.elim (lit "invalid Prefix") Prefix.text

/-- A step of `RouteCreation`: whose permission it asks for. -/
inductive Party
  | mntBy
  | origin
  | space
deriving DecidableEq, Repr

namespace Party

def what : Party → Text
  | mntBy => lit "the route object's own maintainers"
  | origin => lit "the origin AS"
  | space => lit "the address space"

/-- The maintainers that may give it. -/
def names (req : RouteRequest) : Party → List Text
  | mntBy => req.mntBy
  | origin => req.origin.object.elim [] (routeAuthority · req.pfx)
  | space => req.space.object.elim [] (routeAuthority · req.pfx)

/-- Is there no object to ask? -/
def isNil (req : RouteRequest) : Party → Bool
  | mntBy => false
  | origin => req.origin.isNone
  | space => req.space.isNone

/-- `mismatch`: why the object asked is not the one it must be. -/
def mismatch (req : RouteRequest) : Party → Option Text
  | mntBy => none
  | origin =>
    if req.originAS = 0 then some (lit "the request names no origin AS")
    else if autNumAS req.origin ≠ some req.originAS then
      some (lit "the object given is not the aut-num of " ++ req.originAS.text)
    else none
  | space =>
    if (req.space.object.bind (covers · req.pfx)).isNone then
      some (lit "the object given does not cover " ++ prefixText req.pfx)
    else none

end Party

section

variable (db : Database) (cred : Credential) (v : Verifier) (req : RouteRequest)

/-- The body of `RouteCreation`'s loop: does the party consent? -/
def consents (party : Party) : Check Bool := do
  if party.isNil req then
    fail (party.what ++ lit ": not in the registry, so it authorises nothing")
  else
    match party.mismatch req with
    | some why => fail (party.what ++ lit ": " ++ why)
    | none =>
      let names := party.names req
      if names = [] then
        fail (party.what ++ lit ": delegates no maintainer for this prefix")
      else
        let got ← checkMntners db names cred v
        say (party.what ++ lit " (" ++ showNames names ++ lit "): " ++ got.text)
        return got.ok

/-- The loop of `RouteCreation`. -/
def allConsent : List Party → Check Bool
  | [] => return true
  | party :: parties => do
    if ← consents db cred v req party then allConsent parties else return false

def routeCreation : Except Err Decision :=
  (allConsent db cred v req [.mntBy, .origin, .space] []).map fun r => ⟨r.1, r.2⟩

end

end Rpsl.Auth
