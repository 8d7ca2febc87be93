import Rpsl.Types.SetName

/-!
# Route origin validation

`resolve/rpki/rpki.go`: validated ROA payloads, indexed for each address family by exact prefix
with a bit mask of the prefix lengths present, and the RFC 6811 state of a route.
-/

namespace Rpsl.Rpki

/-- `VRP`, less the trust anchor, which nothing here reads. The prefix is none where it is not
valid. -/
structure VRP where
  pfx : Option Prefix
  maxLength : UInt8
  asn : ASN
deriving DecidableEq

inductive State
  | notFound
  | valid
  | invalid
deriving DecidableEq, Repr

structure Grant where
  maxLength : UInt8
  asn : ASN
deriving DecidableEq

/-- `family`: the grants by prefix, and the lengths present (bit n: some VRP has length n). -/
structure FamilyIndex where
  byPrefix : List (Prefix × List Grant)
  lengths : Vector UInt64 3

namespace FamilyIndex

def empty : FamilyIndex := ⟨[], Vector.replicate 3 0⟩

/-- The grants of a prefix; those of one that is not in the map are none. -/
def grants (f : FamilyIndex) (q : Prefix) : List Grant := (f.byPrefix.lookup q).getD []

/-- The bit of length `l` in its word of `lengths`. -/
def lengthBit (l : Nat) : UInt64 := 1 <<< UInt64.ofNat (l % 64)

/-- Is there a VRP of length `l`? -/
def hasLength (f : FamilyIndex) (l : Nat) : Bool :=
  f.lengths[l / 64]?.getD 0 &&& lengthBit l != 0

def add (f : FamilyIndex) (q : Prefix) (g : Grant) : FamilyIndex where
  byPrefix := (q, f.grants q ++ [g]) :: f.byPrefix.filter (·.1 ≠ q)
  lengths := f.lengths.setIfInBounds (q.bits / 64)
    (f.lengths[q.bits / 64]?.getD 0 ||| lengthBit q.bits)

end FamilyIndex

structure VRPs where
  all : List VRP
  v4 : FamilyIndex
  v6 : FamilyIndex

/-- Why `check` refuses a VRP. -/
inductive VRPError
  | noPrefix
  | hostBits (p : Prefix)
  | maxLength (p : Prefix) (n : UInt8)
deriving DecidableEq

/-- `check`; the prefix it returns is the VRP's. -/
def check (v : VRP) : Except VRPError Prefix :=
  match v.pfx with
  | none => .error .noPrefix
  | some p =>
    if p ≠ p.masked then .error (.hostBits p)
    else if v.maxLength.toNat < p.bits ∨ p.bitLen < v.maxLength.toNat then
      .error (.maxLength p v.maxLength)
    else .ok p

namespace VRPs

def fam (s : VRPs) (p : Prefix) : FamilyIndex := if p.is4 then s.v4 else s.v6

/-- `s.fam(v.Prefix).add(v)`. -/
def addGrant (s : VRPs) (p : Prefix) (v : VRP) : VRPs :=
  if p.is4 then { s with v4 := s.v4.add p ⟨v.maxLength, v.asn⟩ }
  else { s with v6 := s.v6.add p ⟨v.maxLength, v.asn⟩ }

/-- `indexVRPs`'s loop; `i` is the index of the first VRP left, which an error names. -/
def indexFrom (s : VRPs) : Nat → List VRP → Except (Nat × VRPError) VRPs
  | _, [] => .ok s
  | i, v :: vs =>
    match check v with
    | .error err => .error (i, err)
    | .ok p => indexFrom (s.addGrant p v) (i + 1) vs

/-- `NewVRPs`. -/
def new (vs : List VRP) : Except (Nat × VRPError) VRPs := indexFrom ⟨vs, .empty, .empty⟩ 0 vs

/-- `Validate`'s loop over the grants of one prefix: none when one of them matches, otherwise
whether VRPs cover the route's prefix so far. -/
def tryGrants (p : Prefix) (origin : ASN) : Bool → List Grant → Option Bool
  | covered, [] => some covered
  | _, g :: gs =>
    if g.asn ≠ 0 ∧ g.asn = origin ∧ p.bits ≤ g.maxLength.toNat then none
    else tryGrants p origin true gs

/-- `Validate`'s loop over the lengths. -/
def tryLengths (f : FamilyIndex) (p : Prefix) (origin : ASN) : Bool → List Nat → State
  | covered, [] => if covered then .invalid else .notFound
  | covered, l :: ls =>
    if !f.hasLength l then tryLengths f p origin covered ls
    else
      match tryGrants p origin covered (f.grants (p.up l)) with
      | none => .valid
      | some covered => tryLengths f p origin covered ls

/-- `Validate`; the nil `VRPs` is none, as is a prefix that is not valid. -/
def validate (s : Option VRPs) (p : Option Prefix) (origin : ASN) : State :=
  match s, p with
  | some s, some p => tryLengths (s.fam p) p origin false (List.range (p.bits + 1))
  | _, _ => .notFound

end VRPs

end Rpsl.Rpki
