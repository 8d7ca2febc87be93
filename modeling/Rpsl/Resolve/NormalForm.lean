import Rpsl.Policy.Filter
import Rpsl.Types.PrefixSpace
import Rpsl.Types.RangeText
import Rpsl.Types.SetRef

/-!
# Results of expansion, and filters in normal form

`resolve/result.go` and the data of `resolve/normalize.go`: the sets an expansion returns, and a
filter as a disjunction of conjuncts of prefix, AS-path and community tests. A Go map used as a set
is a list without repeats here; nothing depends on the order of one.
-/

namespace Rpsl.Resolve

open Text Policy

structure RangeSet where
  ranges : List PrefixRange
  missing : List SetRef
deriving DecidableEq

namespace RangeSet

def empty : RangeSet := ⟨[], []⟩
def add (s : RangeSet) (r : PrefixRange) : RangeSet := { s with ranges := s.ranges.insert r }
def len (s : RangeSet) : Nat := s.ranges.length

def list (s : RangeSet) : List PrefixRange := s.ranges.insertionSort fun a b => a.listLE b = true

end RangeSet

/-- `ASNSet`: the ASes listed, or every AS. -/
structure ASNSet where
  asns : List ASN
  missing : List SetRef
  any : Bool
deriving DecidableEq

structure PathMatch where
  negated : Bool
  re : ASPathRE
  sets : List (SetName × ASNSet)

structure CommunityMatch where
  negated : Bool
  test : FilterCommunity

/-- A path test as normal-form text. -/
def PathMatch.text (m : PathMatch) : Text := notIf m.negated ('<' :: m.re.text ++ ['>'])

/-- A community test as normal-form text. -/
def CommunityMatch.text (m : CommunityMatch) : Text := notIf m.negated m.test.text

/-- `Conjunct`; its `Space` is computed where it is asked for. -/
structure Conjunct where
  prefixes : RangeSet
  notPrefixes : RangeSet
  paths : List PathMatch
  communities : List CommunityMatch
  any : Bool

def Conjunct.space (c : Conjunct) : PrefixSpace :=
  (PrefixSpace.spaceOf c.prefixes.ranges).minus (PrefixSpace.spaceOf c.notPrefixes.ranges)

structure NormalFilter where
  conjuncts : List Conjunct
  missing : List SetRef

end Rpsl.Resolve
