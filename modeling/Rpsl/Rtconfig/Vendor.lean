import Rpsl.Types.SetName

/-!
# Vendors and what they cannot express

`rtconfig.go` and `caps.go`: the dialects, the causes an `*UnsupportedError` names, the table of
features by vendor, and the `Generator` with the numbers it has given out.
-/

namespace Rpsl.Rtconfig

inductive Vendor
  | ios
  | junos
  | iosxr
  | bird2
deriving DecidableEq

/-- The `Cause` constants. -/
inductive Cause
  | via
  | safi
  | twoPaths
  | negatedClass
  | sameAS
  | pathShape
  | communityForm
  | communityEquals
  | action
  | actionValue
  | pref
  | anySet
deriving DecidableEq

structure UnsupportedError where
  vendor : Vendor
  cause : Cause
  term : Text
deriving DecidableEq

/-- `Feature`, of those a translation asks for. -/
inductive Feature
  | twoPaths
  | communityEquals
  | communityEqualsMixed
  | medIGP
  | nextHopSelf
deriving DecidableEq

/-- `capabilities`. -/
def Feature.vendors : Feature → List Vendor
  | .twoPaths => [.iosxr, .bird2]
  | .communityEquals => [.ios, .bird2]
  | .communityEqualsMixed => [.bird2]
  | .medIGP => [.ios, .junos, .iosxr]
  | .nextHopSelf => [.junos, .iosxr]

def Vendor.supports (v : Vendor) (f : Feature) : Bool := f.vendors.contains v

/-! ## The generator -/

/-- `Naming`, of the knobs that number route-maps and lists; a zero field takes its default. -/
structure Naming where
  mapFirstNo : Int := 0
  mapIncrementBy : Int := 0
  prefixACLNo : Int := 0
  asPathACLNo : Int := 0
  communityACLNo : Int := 0
deriving DecidableEq

/-- `Generator`, with how many of each list it has written so far. -/
structure Generator where
  vendor : Vendor
  maxPreference : Int := 0
  naming : Naming := {}
  prefixLists : Nat := 0
  pathLists : Nat := 0
  commLists : Nat := 0
deriving DecidableEq

namespace Generator

variable (g : Generator)

def unsupported (cause : Cause) (term : Text) : UnsupportedError := ⟨g.vendor, cause, term⟩

def supports (f : Feature) : Bool := g.vendor.supports f

def maxPref : Int := if g.maxPreference ≤ 0 then 1000 else g.maxPreference

end Generator

end Rpsl.Rtconfig
