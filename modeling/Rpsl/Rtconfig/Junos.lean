import Rpsl.Lib.FirstFit
import Rpsl.Rtconfig.Vendor
import Rpsl.Types.RangeText

/-!
# Junos route-filters

`rtconfig/junos.go`: a range is written as a route-filter, a prefix with a match type. A Junos
term looks only at the longest of its route-filters that covers a route, so ranges are first split
into groups of pairwise disjoint prefixes, one term each (`junosGroups`).
-/

namespace Rpsl.Rtconfig

open Text

/-- The match type of a route-filter. -/
inductive MatchType
  | exact
  | orlonger
  | longer
  | upto (hi : Nat)
  | prefixLengthRange (lo hi : Nat)
deriving DecidableEq, Repr

/-- The switch of `junosRange` over a prefix of length `bits` in a family `max` wide. -/
def matchType (bits max lo hi : Nat) : MatchType :=
  if lo = bits ∧ hi = bits then .exact
  else if lo = bits ∧ hi = max then .orlonger
  else if lo = bits + 1 ∧ hi = max then .longer
  else if lo = bits then .upto hi
  else .prefixLengthRange lo hi

/-- A group under construction: its ranges, their prefixes, and the prefixes that contain or equal
one of those. -/
structure FilterGroup where
  ranges : List PrefixRange := []
  members : List Prefix := []
  ancestors : List Prefix := []

namespace FilterGroup

/-- The prefixes `p` lies under, itself first: the walk up a prefix. -/
def walkUp (p : Prefix) : List Prefix := (List.range (p.bits + 1)).reverse.map p.up

/-- `nests`: whether `p` contains or equals a member, or a member contains `p`. The walk up an
invalid prefix has no step. -/
def nests (g : FilterGroup) : Option Prefix → Bool
  | none => false
  | some p => g.ancestors.contains p || (walkUp p).any g.members.contains

/-- A range put into the group. The sets are only ever asked for valid prefixes, so an invalid
one is not recorded. -/
def add (g : FilterGroup) (r : PrefixRange) : FilterGroup :=
  match r.pfx with
  | none => { g with ranges := g.ranges ++ [r] }
  | some p =>
    { ranges := g.ranges ++ [r]
      members := p :: g.members
      ancestors := walkUp p ++ g.ancestors }

end FilterGroup

/-- `junosGroups`: each range in turn goes into the first group it does not nest in, a new last one
if there is none. -/
def junosGroups (rs : List PrefixRange) : List (List PrefixRange) :=
  (Lib.FirstFit.run (fun g r => !g.nests r.pfx) FilterGroup.add {} rs).map (·.ranges)

/-! ## How Junos reads a term -/

/-- Whether a route of length `n` under a prefix of length `bits` has the match type. -/
def MatchType.Accepts (bits n : Nat) : MatchType → Prop
  | exact => n = bits
  | orlonger => bits ≤ n
  | longer => bits < n
  | upto hi => bits ≤ n ∧ n ≤ hi
  | prefixLengthRange lo hi => lo ≤ n ∧ n ≤ hi

/-- The route-filters of a term look at a route by longest match: of those whose prefix covers it
the one with the longest prefix decides, by its match type, and the others are not tried. -/
def TermMatches (g : List PrefixRange) (q : Prefix) : Prop :=
  ∃ r ∈ g, ∃ p, r.pfx = some p ∧ p.Covers q ∧
    (∀ s ∈ g, ∀ p', s.pfx = some p' → p'.Covers q → p'.bits ≤ p.bits) ∧
    (matchType p.bits p.bitLen r.lo r.hi).Accepts p.bits q.bits

end Rpsl.Rtconfig
