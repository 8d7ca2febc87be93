import Rpsl.Types.Addr

/-!
# Address ranges

`types/addrrange.go`: the addresses from one to another as prefixes. Addresses are unsigned 128-bit
numbers of two 64-bit halves there, IPv4 in the low 32 bits.
-/

namespace Rpsl

structure U128 where
  hi : UInt64
  lo : UInt64
deriving DecidableEq

def trailingZeros64 (x : UInt64) : Nat := (List.range 64).findIdx fun i => x.toNat.testBit i

def len64 (x : UInt64) : Nat := x.toNat.size

namespace U128

/-- `u128Of`. -/
def ofAddr (a : Addr) : U128 :=
  match a with
  | ⟨.v4, v⟩ => ⟨0, UInt64.ofNat v.toNat⟩
  | ⟨.v6, v⟩ => ⟨UInt64.ofNat (v.toNat >>> 64), UInt64.ofNat v.toNat⟩

def addr (u : U128) (f : Family) : Addr :=
  match f with
  | .v4 => ⟨.v4, BitVec.ofNat 32 u.lo.toNat⟩
  | .v6 => ⟨.v6, u.hi.toBitVec ++ u.lo.toBitVec⟩

/-- `lowOnes`; a shift by 64 leaves nothing, and the subtraction then wraps to all ones. -/
def lowOnes (n : Nat) : U128 :=
  if n = 0 then ⟨0, 0⟩
  else if n < 64 then ⟨0, UInt64.ofNat (1 <<< n) - 1⟩
  else if n = 64 then ⟨0, ~~~0⟩
  else ⟨UInt64.ofNat (1 <<< (n - 64)) - 1, ~~~0⟩

def or (u v : U128) : U128 := ⟨u.hi ||| v.hi, u.lo ||| v.lo⟩

/-- `sub`, with the borrow `bits.Sub64` hands on. -/
def sub (u v : U128) : U128 := ⟨u.hi - v.hi - (if u.lo < v.lo then 1 else 0), u.lo - v.lo⟩

/-- `add1`, with the carry of `bits.Add64`. -/
def add1 (u : U128) : U128 := ⟨u.hi + (if u.lo + 1 = 0 then 1 else 0), u.lo + 1⟩

def trailingZeros (u : U128) : Nat :=
  if u.lo ≠ 0 then trailingZeros64 u.lo else 64 + trailingZeros64 u.hi

def bitLen (u : U128) : Nat := if u.hi ≠ 0 then 64 + len64 u.hi else len64 u.lo

end U128

/-- `netip.PrefixFrom`; `none` is the invalid prefix. -/
def prefixFrom (a : Addr) (bits : Int) : Option Prefix :=
  if h : 0 ≤ bits ∧ bits.toNat ≤ a.fam.width then some ⟨a, bits.toNat, h.2⟩ else none

/-- `LastAddr`, of a valid prefix. -/
def lastAddr (p : Prefix) : Addr :=
  ((U128.ofAddr p.addr).or (U128.lowOnes (p.bitLen - p.bits))).addr p.fam

namespace AddrRange

/-- The length of the block taken at `cur`: its alignment bounds it, and so does the count of
addresses left. -/
def blockBits (cur last : U128) : Nat :=
  let k := cur.trailingZeros
  let left := last.sub cur
  let fit := left.bitLen
  if left = U128.lowOnes fit then min k fit else min k (fit - 1)

/-- The last address of the block taken at `cur`. -/
def blockLast (cur last : U128) : U128 := cur.or (U128.lowOnes (blockBits cur last))

/-- The loop of `AddrRangePrefixes`, of at most `fuel` turns; `none` when they do not do. -/
def loop (f : Family) (last : U128) : Nat → U128 → Option (List (Option Prefix))
  | 0, _ => none
  | fuel + 1, cur =>
    let p := prefixFrom (cur.addr f) (f.width - blockBits cur last)
    if blockLast cur last = last then some [p]
    else (loop f last fuel (blockLast cur last).add1).map (p :: ·)

inductive Error
  | mixesFamilies
  | startsAfterEnd
deriving DecidableEq

end AddrRange

/-- `AddrRangePrefixes`, of at most `fuel` turns of its loop. -/
def addrRangePrefixes (fuel : Nat) (lo hi : Addr) :
    Option (Except AddrRange.Error (List (Option Prefix))) :=
  if lo.bitLen ≠ hi.bitLen then some (.error .mixesFamilies)
  else if hi.val.toNat < lo.val.toNat then some (.error .startsAfterEnd)
  else (AddrRange.loop lo.fam (U128.ofAddr hi) fuel (U128.ofAddr lo)).map .ok

end Rpsl
