import Rpsl.Irrdq.Registry
import Rpsl.Rpki.Rpki
import Rpsl.Types.RangeText

/-!
# Snapshots

`resolve/irrdq`: a `Snapshot` is the registries an answer is computed from, and which of their
routes it shows.
-/

namespace Rpsl.Irrdq

open Text Rpki

/-- `Snapshot`: of its options, the VRPs of RPKI-aware mode. -/
structure Snapshot where
  vrps : Option VRPs

def pseudoSource : Text := lit "RPKI"

def Snapshot.routeVisible {σ : Type} (snap : Snapshot) (r : Registry σ) (p : Prefix)
    (origin : ASN) : Bool :=
  snap.vrps.isNone || r.name == pseudoSource ||
    VRPs.validate snap.vrps (some p.masked) origin != .invalid

def Snapshot.visible {σ : Type} (snap : Snapshot) (r : Registry σ) (rt : Route) : Bool :=
  snap.routeVisible r rt.pfx rt.origin

end Rpsl.Irrdq
