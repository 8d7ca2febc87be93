import Rpsl.Types.SetName

/-!
# Addresses as text

How `net/netip` writes addresses and prefixes: an IPv4 address by its octets, an IPv6 address by its
groups, with the first of the longest runs of zero groups left out.
-/

namespace Rpsl

open Text

/-- The group of `w` bits that ends `low` bits above the lowest. -/
def groupOf (n w low : Nat) : Nat := n / 2 ^ low % 2 ^ w

/-- An IPv4 address, by its number. -/
def dotted (n : Nat) : Text :=
  ['.'].intercalate ([24, 16, 8, 0].map fun low => ofNat (groupOf n 8 low))

/-- The number of zero groups a list of groups begins with. -/
def zeroRun (gs : List Nat) : Nat := (gs.takeWhile (· == 0)).length

/-- The run of zero groups that is left out, as its start and its end: the longest of at least two,
the first of these. -/
def zeroGap (gs : List Nat) : Option (Nat × Nat) :=
  (List.range gs.length).foldl (fun best i =>
    let l := zeroRun (gs.drop i)
    if 2 ≤ l ∧ (best.elim 0 fun b => b.2 - b.1) < l then some (i, i + l) else best) none

def hexGroups (gs : List Nat) : Text := [':'].intercalate (gs.map (Nat.toDigits 16))

/-- `netip.Addr.String`, of an address without a zone. -/
def Addr.text : Addr → Text
  | ⟨.v4, v⟩ => dotted v.toNat
  | ⟨.v6, v⟩ =>
    if v.toNat / 2 ^ 32 = 0xffff then lit "::ffff:" ++ dotted (v.toNat % 2 ^ 32)
    else
      let gs := [112, 96, 80, 64, 48, 32, 16, 0].map (groupOf v.toNat 16)
      match zeroGap gs with
      | none => hexGroups gs
      | some (i, j) => hexGroups (gs.take i) ++ lit "::" ++ hexGroups (gs.drop j)

/-- `netip.Prefix.String`. -/
def Prefix.text (p : Prefix) : Text := p.addr.text ++ '/' :: ofNat p.bits

example : Addr.text ⟨.v6, 0x20010db8000000000001000000000000#128⟩ = lit "2001:db8:0:0:1::" := by
  decide +kernel

end Rpsl
