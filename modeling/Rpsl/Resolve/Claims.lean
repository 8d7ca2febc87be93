import Rpsl.Object.Object

/-!
# Membership claims

`resolve/claims.go`: which objects may claim membership of a set, and when the claim is honoured
(RFC 2622 mbrs-by-ref).
-/

namespace Rpsl.Resolve

open Text Rpsl.Policy Object

/-- The spaces `s` begins with are dropped; `skip` bytes of one are left to pass over. -/
def trimLeftFrom (skip : Nat) : Text → Text
  | [] => []
  | c :: s =>
    match skip with
    | skip + 1 => trimLeftFrom skip s
    | 0 =>
      match spaceLen (c :: s) with
      | 0 => c :: s
      | n + 1 => trimLeftFrom n s

/-- The spaces `s` ends with are dropped. -/
def trimRight : Text → Text
  | [] => []
  | c :: s => if (fieldsFrom 0 [] (c :: s)).isEmpty then [] else c :: trimRight s

def trimSpace (s : Text) : Text := trimRight (trimLeftFrom 0 s)

/-- `equalFoldASCII`; `lowerASCII` is `Text.lower`. -/
def equalFoldASCII (a b : Text) : Bool := a.length == b.length && lower a == lower b

/-- `asnDecodes`: an object built without text is taken at its word. -/
def asnDecodes (raw : Option Raw) (attr : Text) : Bool :=
  match raw with
  | none => true
  | some r => (r.getFirst attr).any fun v => (ASN.parse (trimSpace v)).isSome

/-- The fields a membership claim is judged by. -/
structure Claim where
  memberOf : List SetName
  mntBy : List Text
  source : Text

/-- `claimant`: none for an object that cannot claim membership. -/
def claimant : Object → Option Claim
  | .autNum a =>
    if asnDecodes a.raw (lit "aut-num") then some ⟨a.memberOf, a.mntBy, a.source⟩ else none
  | .route r => some ⟨r.memberOf, r.mntBy, r.source⟩
  | .route6 r => some ⟨r.memberOf, r.mntBy, r.source⟩
  | .inetRtr i => some ⟨i.memberOf, i.mntBy, i.source⟩
  | _ => none

def claimAllowed (o : Object) (set : NamedSet) : Bool :=
  match claimant o with
  | none => false
  | some c =>
    let allow := set.refMntners.map fun m => lower (trimSpace m)
    c.memberOf.contains set.name &&
    equalFoldASCII (trimSpace c.source) (trimSpace set.source) &&
    (allow.contains (lit "any") ||
      c.mntBy.any fun m =>
        !(lower (trimSpace m)).isEmpty && allow.contains (lower (trimSpace m)))

/-- `claimClassOK`: the claims a set of its class accepts. -/
def claimClassOK (set : NamedSet) (o : Object) : Bool :=
  match set.name.cls, o with
  | .asSet, .autNum _ => true
  | .routeSet, .route _ => true
  | .routeSet, .route6 _ => true
  | .rtrSet, .inetRtr _ => true
  | _, _ => false

end Rpsl.Resolve
