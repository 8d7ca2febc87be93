import Rpsl.Policy.Expr
import Rpsl.Types.RouterId
import Rpsl.Types.SetRef

/-!
# Typed objects

What the resolver reads of decoded objects (`object/sets.go`, `object/members.go`,
`object/srcmembers.go`, `object/rtrmember.go`): sets with their members, and the objects that may
claim membership of a set.
-/

namespace Rpsl.Object

open Text Rpsl.Policy

/-- The text an object was decoded from (`ast.Object`), as its attributes: names in canonical form
and values, in order. -/
structure Raw where
  attrs : List (Text × Text)
  text : Text
deriving DecidableEq

namespace Raw

/-- `ast.Object.Key`: the value of the first attribute. -/
def key (r : Raw) : Text := (r.attrs.head?.map Prod.snd).getD []

def getFirst (r : Raw) (name : Text) : Option Text := (r.attrs.find? (·.1 = name)).map Prod.snd

end Raw

/-! ## Sets -/

inductive SetMember
  | invalid
  | as_ (a : ASN) (op : RangeOperator)
  | set (name : SetName) (source : Text) (op : RangeOperator)
  | range (r : PrefixRange)
deriving DecidableEq

/-- `memberKey`: a member's primary key with the registry removed. -/
inductive MemberKey
  | as_ (a : ASN)
  | set (name : SetName)
  | range (r : PrefixRange)
deriving DecidableEq

/-- `keyOf`. -/
def SetMember.key : SetMember → Option MemberKey
  | invalid => none
  | as_ a _ => some (.as_ a)
  | set name _ _ => some (.set name)
  | range r => some (.range r)

inductive RtrSetMember
  | invalid
  | router (r : RouterID)
  | set (name : SetName)

/-- What a set holds besides its name: members and src-members of an as-set or a route-set, the
filters of a filter-set, the routers of an rtr-set, the peerings of a peering-set (none is the nil
interface). -/
inductive SetBody
  | members (listed src : List SetMember)
  | filter (filter mpFilter : Option Filter)
  | routers (members : List RtrSetMember)
  | peerings (peerings : List (Option Peering))
  | other

/-- Routers are what an rtr-set holds, peerings what a peering-set does. -/
def SetBody.fits : SetBody → SetClass → Bool
  | .routers _, cls => cls = .rtrSet
  | .peerings _, cls => cls = .peeringSet
  | _, _ => true

structure NamedSet where
  cls : SetClass
  name : SetName
  source : Text
  refMntners : List Text
  body : SetBody
  raw : Option Raw
  fits : body.fits cls = true := by rfl

/-- The src-members a resolver follows: a set name under two registries is left out, and a key is
kept once. -/
def followedSrc (src : List SetMember) : List SetMember :=
  let single := src.filter fun m =>
    match m with
    | .set name source _ => src.all fun m' =>
        match m' with
        | .set name' source' _ => name' ≠ name || source' = source
        | _ => true
    | _ => true
  single.foldl (fun out m =>
    match m.key with
    | some k => if out.any (fun m' => m'.key = some k) then out else out ++ [m]
    | none => out) []

/-- `DirectMembers`: every src-members: member, then each listed member whose key none of them
has. -/
def directMembers (listed src : List SetMember) : List SetMember :=
  if src.isEmpty then listed
  else
    let out := followedSrc src
    out ++ listed.filter fun m =>
      match m.key with
      | some k => !out.any fun m' => m'.key = some k
      | none => true

/-! ## Objects that claim membership -/

/-- `Route` and `Route6`: a prefix that did not decode is none, such an origin is 0. -/
structure Route where
  pfx : Option Prefix
  origin : ASN
  memberOf : List SetName
  mntBy : List Text
  source : Text
  raw : Option Raw

/-- `AutNum`, without its policy. -/
structure AutNum where
  asn : ASN
  memberOf : List SetName
  mntBy : List Text
  source : Text
  raw : Option Raw

/-- `InetRtr`; of its ifaddr: and interface: values their addresses. -/
structure InetRtr where
  name : Text
  ifaddr : List Addr
  interface : List Addr
  memberOf : List SetName
  mntBy : List Text
  source : Text
  raw : Option Raw

end Rpsl.Object

namespace Rpsl

/-- `object.Object`; a class the engine reads nothing of is `other`. -/
inductive Object
  | set (s : Object.NamedSet)
  | route (r : Object.Route)
  | route6 (r : Object.Route)
  | autNum (a : Object.AutNum)
  | inetRtr (i : Object.InetRtr)
  | other (cls : Text) (raw : Option Object.Raw)

end Rpsl
