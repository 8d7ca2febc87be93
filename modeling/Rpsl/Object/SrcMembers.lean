import Rpsl.Resolve.Claims
import Rpsl.Types.RangeParse

/-!
# src-members: as written

`object/srcmembers.go`: how the items of a set's src-members: become the members the set keeps.
What the resolver follows of them is `directMembers`.
-/

namespace Rpsl.Object

open Text
open Rpsl.Policy (spaceLen)
open Rpsl.Resolve (trimSpace)

/-- The ways an item is refused. -/
inductive SrcMemberError
  | invalid
  | prefixRange
  | operator
  | asnOperator
  | unscoped
  | setRef
  | notNestable (cls : SetClass)
  | setOperator (cls : SetClass)
deriving DecidableEq, Repr

/-- `nestable` of `object/members.go`: may a set of class `container` list one of class
`member`? -/
def mayList (container member : SetClass) : Bool :=
  match container with
  | .routeSet => member = .routeSet || member = .asSet
  | .unknown => true
  | _ => member = container

/-- `strings.ContainsFunc(s, unicode.IsSpace)`. -/
def containsSpace : Text → Bool
  | [] => false
  | c :: s => spaceLen (c :: s) != 0 || containsSpace s

section

-- `netip.ParseAddr` and `netip.ParsePrefix`
variable (netipParseAddr : Text → Option Addr) (netipParsePrefix : Text → Option Prefix)

/-- `ParseAddr` of a text without a length; `noLength` is whether there is one. -/
def hostAddr (base : Text) : Option Addr :=
  if base.contains '/' then none else netipParseAddr ((unpadIPv4 base).getD base)

def withLength (text : Text) : Text :=
  let (base, op) := cutAt '^' text
  match hostAddr netipParseAddr base with
  | none => text
  | some a => base ++ '/' :: ofNat a.fam.width ++ op.elim [] ('^' :: ·)

/-- `ParseSrcMember`, of an item with its operator cut off: the operator is none where there is
no '^'. -/
def parseSrcBase (container : SetClass) (base : Text) (op : Option RangeOperator) :
    Except SrcMemberError SetMember :=
  match ASN.parse base with
  | some a => if op.isSome then .error .asnOperator else .ok (.as_ a .none)
  | none =>
    if (cutScope base).isNone then
      .error (if (SetName.parse base).isSome then .unscoped else .invalid)
    else
      match SetRef.parse base with
      | none => .error .setRef
      | some ref =>
        if !mayList container ref.name.cls then .error (.notNestable ref.name.cls)
        else if op.isSome && !(container = .routeSet && ref.name.cls = .routeSet) then
          .error (.setOperator ref.name.cls)
        else .ok (.set ref.name ref.source (op.getD .none))

/-- `ParseSrcMember`. A prefix is tried first: "2001:db8::/32" contains "::" too. -/
def parseSrcMember (container : SetClass) (item : Text) : Except SrcMemberError SetMember :=
  let s := trimSpace item
  if s.isEmpty || containsSpace s then .error .invalid
  else
    match parsePrefixRange netipParsePrefix (withLength netipParseAddr s) with
    | some r => if container = .routeSet then .ok (.range r) else .error .prefixRange
    | none =>
      match cutAt '^' s with
      | (base, none) => parseSrcBase container base none
      | (base, some opText) =>
        match parseRangeOperator opText with
        | none => .error .operator
        | some op => parseSrcBase container base (some op)

/-- The items that parse, in order. -/
def parsedSrc (container : SetClass) (items : List Text) : List SetMember :=
  items.filterMap fun it => (parseSrcMember netipParseAddr netipParsePrefix container it).toOption

end

/-- The registries a set name is listed under. -/
def registries (ps : List SetMember) (name : SetName) : List Text :=
  (ps.filterMap fun m =>
    match m with
    | .set n source _ => if n = name then some source else none
    | _ => none).dedup

/-- An item that names a set listed under two registries. -/
def SetMember.conflicts (ps : List SetMember) : SetMember → Bool
  | .set name _ _ => decide (1 < (registries ps name).length)
  | _ => false

/-- A member is kept unless one with its key is. -/
def keepKey (out : List SetMember) (m : SetMember) : List SetMember :=
  match m.key with
  | some k => if out.any (fun m' => m'.key = some k) then out else out ++ [m]
  | none => out

section

variable (netipParseAddr : Text → Option Addr) (netipParsePrefix : Text → Option Prefix)

/-- `decoder.srcMembers`: of the items that parse, those not in conflict, one for each key. -/
def srcMembers (container : SetClass) (items : List Text) : List SetMember :=
  let ps := parsedSrc netipParseAddr netipParsePrefix container items
  (ps.filter fun m => !m.conflicts ps).foldl keepKey []

/-- The members followed of a set whose src-members: are `items`. -/
def followed (container : SetClass) (listed : List SetMember) (items : List Text) :
    List SetMember :=
  directMembers listed (srcMembers netipParseAddr netipParsePrefix container items)

end

end Rpsl.Object
