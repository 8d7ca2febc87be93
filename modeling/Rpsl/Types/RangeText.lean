import Mathlib.Data.List.Sort
import Rpsl.Types.SetName

/-!
# Ranges as text

`PrefixRange.String` and the order ranges are listed in. How a prefix is printed is the standard
library's: what is used of it is that no two prefixes print alike, and what they are written with.
-/

namespace Rpsl

open Text

/-- What a prefix is written with. -/
def isPrefixChar (c : Char) : Bool :=
  c.isDigit || ('a' ≤ c && c ≤ 'f') || c == '.' || c == ':' || c == '/'

/-- `netip.Prefix.String`. -/
structure PrefixText where
  text : Prefix → Text
  inj : ∀ {p q}, text p = text q → p = q
  chars : ∀ p, ∀ c ∈ text p, isPrefixChar c = true

namespace PrefixRange

/-- `PrefixRange.Op`, of a range with a prefix. -/
def rangeOp (r : PrefixRange) (p : Prefix) : RangeOp :=
  if r.lo = p.bits ∧ r.hi = p.bits then .exact
  else if r.lo = p.bits ∧ r.hi = p.bitLen then .plus
  else if r.lo = p.bits + 1 ∧ r.hi = p.bitLen then .minus
  else if r.lo = r.hi then .length
  else .range

/-- `PrefixRange.String`. -/
def text (pt : PrefixText) (r : PrefixRange) : Text :=
  match r.pfx with
  | none => []
  | some p =>
    match r.rangeOp p with
    | .exact => pt.text p
    | .plus => pt.text p ++ lit "^+"
    | .minus => pt.text p ++ lit "^-"
    | .length => pt.text p ++ '^' :: ofNat r.lo
    | .range => pt.text p ++ '^' :: ofNat r.lo ++ '-' :: ofNat r.hi

end PrefixRange

/-- `netip.Addr.Compare`: IPv4 before IPv6, then by number. -/
def Addr.lt (a b : Addr) : Bool :=
  decide (a.bitLen < b.bitLen) ||
    (decide (a.bitLen = b.bitLen) && decide (a.val.toNat < b.val.toNat))

/-- `prefixLess`: by address, then length. -/
def Prefix.less (p q : Prefix) : Bool :=
  p.addr.lt q.addr || (!q.addr.lt p.addr && decide (p.bits < q.bits))

/-- The order `RangeSet.List` sorts by: prefix, then window. -/
def PrefixRange.listLE (r s : PrefixRange) : Bool :=
  match r.pfx, s.pfx with
  | some p, some q =>
    p.less q ||
      (!q.less p && (decide (r.lo < s.lo) || (decide (r.lo = s.lo) && decide (r.hi ≤ s.hi))))
  | none, _ => true
  | some _, none => false

end Rpsl
