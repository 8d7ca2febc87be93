import Rpsl.Types.AddrRange
import Rpsl.Types.PrefixRange

/-!
# The prefixes of a range, one by one

`PrefixRange.All` and `PrefixRange.Materialize`: the prefixes a range denotes, length by length, by
counting in the bits between the range's prefix and the length.

An address is changed in place bit by bit: bit `7 - pos%8` of byte `pos/8` is bit `pos` of the
address, the most significant first.
-/

namespace Rpsl

namespace Addr

/-- `b[pos/8] |= mask`. -/
def bitOn (a : Addr) (pos : Nat) : Addr :=
  ⟨a.fam, a.val ||| BitVec.twoPow a.fam.width (a.fam.width - 1 - pos)⟩

/-- `b[pos/8] &^= mask`. -/
def bitOff (a : Addr) (pos : Nat) : Addr :=
  ⟨a.fam, a.val &&& ~~~ BitVec.twoPow a.fam.width (a.fam.width - 1 - pos)⟩

end Addr

/-- `increment`: one is added to the bits from `start` to before the second argument; `false` when
they wrap back to zero. -/
def increment (start : Nat) : Nat → Addr → Addr × Bool
  | 0, a => (a, false)
  | pos + 1, a =>
    if pos < start then (a, false)
    else if a.bitAt pos = false then (a.bitOn pos, true)
    else increment start pos (a.bitOff pos)

namespace PrefixRange

/-- The inner loop of `All`: what it yields at one length, from an address on; `none` when the fuel
does not reach its end. -/
def level (baseBits len : Nat) : Nat → Addr → Option (List (Option Prefix))
  | 0, _ => none
  | fuel + 1, a =>
    let p := prefixFrom a len
    match increment baseBits len a with
    | (_, false) => some [p]
    | (next, true) => (level baseBits len fuel next).map (p :: ·)

/-- The lengths of the range's window. -/
def lengths (r : PrefixRange) : List Nat := List.range' r.lo (r.hi + 1 - r.lo)

/-- `PrefixRange.All`: what it yields to a consumer that does not stop. -/
def all (fuel : Nat) (r : PrefixRange) : Option (List (Option Prefix)) :=
  match r.pfx with
  | none => some []
  | some p =>
    if r.isEmpty then some []
    else (r.lengths.mapM fun len => level p.bits len fuel p.addr).map List.flatten

/-- The first loop of `Materialize`: does the count stay within the cap? -/
def withinCap (bits : Nat) (maxPrefixes : Int) : Int → List Nat → Bool
  | _, [] => true
  | total, len :: lens =>
    let w := len - bits
    if 31 ≤ w then false
    else
      let total := total + 2 ^ w
      if maxPrefixes < total then false else withinCap bits maxPrefixes total lens

/-- `ErrTooManyPrefixes`. -/
inductive TooMany
  | tooManyPrefixes
deriving DecidableEq, Repr

def materialize (fuel : Nat) (r : PrefixRange) (maxPrefixes : Int) :
    Option (Except TooMany (List (Option Prefix))) :=
  match r.pfx with
  | none => some (.ok [])
  | some p =>
    if r.isEmpty then some (.ok [])
    else if withinCap p.bits maxPrefixes 0 r.lengths then (r.all fuel).map .ok
    else some (.error .tooManyPrefixes)

end PrefixRange

end Rpsl
