import Rpsl.Lib.Unicode
import Rpsl.Resolve.Claims
import Rpsl.Types.AddrRange
import Rpsl.Types.AddrText

/-!
# Objects as authorisation reads them

The typed objects of `object/` as far as `auth/` reads them, and what `auth/memdb.go` and
`auth/rules.go` take of an object: its primary key, its address space, and the items of its
attributes.
-/

namespace Rpsl.Object

open Text

inductive AuthMethod
  | unknown
  | none_
  | md5
  | crypt
  | pgpKey
  | x509
  | sso
  | bcrypt
  | mailFrom
  | irrdInternal
deriving DecidableEq, Repr

/-- `object.Auth`: an auth: line. -/
structure Auth where
  method : AuthMethod
  value : Text
  raw : Text
deriving DecidableEq

end Rpsl.Object

namespace Rpsl.Auth

open Text Lib Rpsl.Resolve Rpsl.Object

/-! ## Typed objects -/

/-- `policy.MntRoutes`, but the text it was read from. -/
structure MntRoutes where
  mntner : Text
  any : Bool
  ranges : List PrefixRange

/-- The maintainer attributes that decide routing authority, of the classes that have them. -/
structure Authorities where
  mntRoutes : List MntRoutes
  mntLower : List Text
  mntBy : List Text

/-- `object.Route` and `object.Route6`: a prefix that did not decode is none. -/
structure Route where
  pfx : Option Prefix
  origin : ASN
  authorities : Authorities
  raw : Option Raw

/-- `object.Inetnum`: an address that did not decode is none. -/
structure Inetnum where
  lo : Option Addr
  hi : Option Addr
  mntIrt : List Text
  authorities : Authorities
  raw : Option Raw

structure Inet6num where
  pfx : Option Prefix
  mntIrt : List Text
  authorities : Authorities
  raw : Option Raw

structure AsBlock where
  lo : ASN
  hi : ASN
  raw : Option Raw

structure Mntner where
  handle : Text
  auth : List Auth
  raw : Option Raw

structure Irt where
  auth : List Auth
  raw : Option Raw

/-- `object.Object`; a class authorisation reads no field of is `other`, by its name. -/
inductive Object
  | route (r : Route)
  | route6 (r : Route)
  | inetnum (i : Inetnum)
  | inet6num (i : Inet6num)
  | asBlock (b : AsBlock)
  | person (nicHdl : Text) (raw : Option Raw)
  | role (nicHdl : Text) (raw : Option Raw)
  | mntner (m : Mntner)
  | autNum (as : ASN) (authorities : Authorities) (raw : Option Raw)
  | domain (name : Text) (raw : Option Raw)
  | set (cls : SetClass) (name : SetName) (raw : Option Raw)
  | irt (i : Irt)
  | other (cls : Text) (raw : Option Raw)

namespace Object

def raw : Object → Option Raw
  | route r | route6 r => r.raw
  | inetnum i => i.raw
  | inet6num i => i.raw
  | asBlock b => b.raw
  | mntner m => m.raw
  | irt i => i.raw
  | person _ r | role _ r | autNum _ _ r | domain _ r | set _ _ r | other _ r => r

/-- `Object.Class`. -/
def cls : Object → Text
  | route _ => lit "route"
  | route6 _ => lit "route6"
  | inetnum _ => lit "inetnum"
  | inet6num _ => lit "inet6num"
  | asBlock _ => lit "as-block"
  | person _ _ => lit "person"
  | role _ _ => lit "role"
  | mntner _ => lit "mntner"
  | autNum _ _ _ => lit "aut-num"
  | domain _ _ => lit "domain"
  | set c _ _ => c.text
  | irt _ => lit "irt"
  | other c _ => c

end Object

/-! ## Keys -/

def trimSuffix (s suffix : Text) : Text :=
  if suffix.isSuffixOf s then s.take (s.length - suffix.length) else s

def normalKey (cls key : Text) : Text :=
  let key := trimSpace key
  let default := toUpper key
  if cls = lit "aut-num" then
    -- a bare number too, as LACNIC writes an aut-num's key; "" stays "": "AS" is no AS number
    let text := if key.all Char.isDigit then lit "AS" ++ key else key
    ((ASN.parse text).map ASN.text).getD default
  else if cls = lit "as-set" ∨ cls = lit "route-set" ∨ cls = lit "rtr-set" ∨
      cls = lit "peering-set" ∨ cls = lit "filter-set" then
    ((SetName.parse key).map SetName.text).getD default
  else if cls = lit "domain" then toUpper (trimSuffix key (lit "."))
  else default

/-- The key of a class that has no rule of its own: the first attribute's value. -/
def rawKey (raw : Option Raw) : Option (Text × Text) :=
  match raw with
  | none => none
  | some r =>
    let cls := (r.attrs.head?.map Prod.fst).getD []
    if cls = [] then none
    else
      let key := normalKey cls r.key
      if key = [] then none else some (cls, key)

/-- `primaryKey`: an object's class and its key in canonical form. -/
def primaryKey : Object → Option (Text × Text)
  | .route r => r.pfx.map fun p => (lit "route", p.masked.text ++ r.origin.text)
  | .route6 r => r.pfx.map fun p => (lit "route6", p.masked.text ++ r.origin.text)
  | .inetnum i =>
    match i.lo, i.hi with
    | some lo, some hi => some (lit "inetnum", lo.text ++ lit " - " ++ hi.text)
    | _, _ => none
  | .inet6num i => i.pfx.map fun p => (lit "inet6num", p.masked.text)
  | .asBlock b => some (lit "as-block", b.lo.text ++ lit " - " ++ b.hi.text)
  | .person h _ => if h = [] then none else some (lit "person", toUpper h)
  | .role h _ => if h = [] then none else some (lit "role", toUpper h)
  | o => rawKey o.raw

/-- `prefixRange`: the first and last address of a prefix. -/
def prefixRange (p : Option Prefix) : Option (Addr × Addr) :=
  p.map fun p => (p.masked.addr, lastAddr p.masked)

/-- `addressRange`: the addresses an address-space object holds. -/
def addressRange : Object → Option (Addr × Addr)
  | .inetnum i =>
    match i.lo, i.hi with
    | some lo, some hi => some (lo, hi)
    | _, _ => none
  | .inet6num i => prefixRange i.pfx
  | .route r | .route6 r => prefixRange r.pfx
  | _ => none

/-! ## Attributes -/

/-- The pieces of a list value, each with whether a line break ends it: commas separate, and so does
a line break at a place from `first` to `last`. -/
def cutItems (first last : Nat) : Nat → Text → List (Text × Bool)
  | _, [] => [([], false)]
  | i, c :: s =>
    if c = ',' then ([], false) :: cutItems first last (i + 1) s
    else if c = '\n' ∧ first ≤ i ∧ i < last then ([], true) :: cutItems first last (i + 1) s
    else
      match cutItems first last (i + 1) s with
      | (p, b) :: ps => (c :: p, b) :: ps
      | [] => []

/-- The pieces that are items: one beside a line break is none when it is empty. -/
def keepItems : Bool → List (Text × Bool) → List Text
  | _, [] => []
  | afterBreak, (p, atBreak) :: ps =>
    if trimSpace p ≠ [] ∨ ¬ (afterBreak ∨ atBreak) then trimSpace p :: keepItems atBreak ps
    else keepItems atBreak ps

/-- `ast.Attribute.List`, the items' texts. -/
def listItems (v : Text) : List Text :=
  if trimSpace v = [] then []
  else
    let first := v.length - (trimLeftFrom 0 v).length
    keepItems false (cutItems first (trimRight v).length 0 v)

/-- The items of an attribute of an object's text, those not empty. -/
def rawValues (raw : Option Raw) (attr : Text) : List Text :=
  match raw with
  | none => []
  | some r => (r.attrs.filter (·.1 = attr)).flatMap fun a => (listItems a.2).filter (· ≠ [])

def values (o : Object) (attr : Text) : List Text := rawValues o.raw attr

/-- `firstPresent`: the items of the first of the attributes that has any. -/
def firstPresent (raw : Option Raw) : List Text → List Text
  | [] => []
  | a :: as => if rawValues raw a = [] then firstPresent raw as else rawValues raw a

def describeObject (o : Object) : Text :=
  match primaryKey o with
  | none => o.cls
  | some (cls, key) => cls ++ ' ' :: key

/-- `mntIrt`: the classes that carry the attribute have it as a field. -/
def mntIrt : Object → List Text
  | .inetnum i => i.mntIrt
  | .inet6num i => i.mntIrt
  | o => values o (lit "mnt-irt")

/-! ## Reverse zones -/

/-- `parseOctet`; `strconv.Atoi` takes a sign, and a negative number wraps in the octet. -/
def parseOctet (s : Text) : Option Nat :=
  if s = [] ∨ 3 < s.length ∨ (1 < s.length ∧ s.head? = some '0') then none
  else
    match s with
    | '-' :: ds => (parseUint ds 8).map fun n => (256 - n) % 256
    | '+' :: ds => parseUint ds 8
    | ds => parseUint ds 8

/-- The part before the first "-", and the part after it when there is one. -/
def cutDash (s : Text) : Text × Option Text :=
  let a := s.takeWhile (· != '-')
  (a, if a.length < s.length then some (s.drop (a.length + 1)) else none)

/-- An octet's label: only the first of four labels may be a range. -/
def parseLabel (range : Bool) (l : Text) : Option (Nat × Nat) :=
  match cutDash l with
  | (a, none) => (parseOctet a).map fun x => (x, x)
  | (a, some b) =>
    if !range then none
    else
      match parseOctet a, parseOctet b with
      | some x, some y => if y < x then none else some (x, y)
      | _, _ => none

/-- The number of octets, most significant first. -/
def ofOctets (os : List Nat) : Nat := os.foldl (fun n o => n * 256 + o) 0

def reverseV4 (labels : List Text) : Option (Addr × Addr) :=
  if labels.length < 1 ∨ 4 < labels.length then none
  else do
    let octets ← (List.range labels.length).zip labels |>.mapM fun (i, l) =>
      parseLabel (i = 0 && labels.length = 4) l
    let first := octets.reverse.map Prod.fst ++ List.replicate (4 - labels.length) 0
    let last := octets.reverse.map Prod.snd ++ List.replicate (4 - labels.length) 255
    some (⟨.v4, BitVec.ofNat 32 (ofOctets first)⟩, ⟨.v4, BitVec.ofNat 32 (ofOctets last)⟩)

/-- A hexadecimal digit. -/
def parseNibble (l : Text) : Option Nat :=
  match l with
  | [c] =>
    if c.isDigit then some (c.toNat - 48)
    else if 'a' ≤ c ∧ c ≤ 'f' then some (c.toNat - 87)
    else none
  | _ => none

/-- `reverseV6`, of labels in lower case. -/
def reverseV6 (labels : List Text) : Option (Addr × Addr) :=
  if labels.length < 1 ∨ 32 < labels.length then none
  else do
    let nibbles ← labels.mapM parseNibble
    let n := nibbles.reverse.foldl (fun n d => n * 16 + d) 0
    let rest := 4 * (32 - labels.length)
    some (⟨.v6, BitVec.ofNat 128 (n * 2 ^ rest)⟩,
      ⟨.v6, BitVec.ofNat 128 (n * 2 ^ rest + (2 ^ rest - 1))⟩)

/-- A domain's name as reverse zones are compared. -/
def reverseName (name : Text) : Text := toLower (trimSuffix (trimSpace name) (lit "."))

def reverseRange (name : Text) : Option (Addr × Addr) :=
  let name := reverseName name
  if (lit ".in-addr.arpa").isSuffixOf name then
    reverseV4 ((trimSuffix name (lit ".in-addr.arpa")).splitOn '.')
  else if (lit ".ip6.arpa").isSuffixOf name then
    reverseV6 ((trimSuffix name (lit ".ip6.arpa")).splitOn '.')
  else none

def isReverseName (name : Text) : Bool :=
  let n := reverseName name
  (lit ".in-addr.arpa").isSuffixOf n || (lit ".ip6.arpa").isSuffixOf n

end Rpsl.Auth
