import Rpsl.Lib.Unicode
import Rpsl.Resolve.Expander

/-!
# Expanding rtr-sets and peering-sets

`resolve/expand_more.go`: the routers and the peerings of the sets discovery reaches, and the
Source of the objects policy names outside sets (`resolve/policysource.go`).
-/

namespace Rpsl.Resolve

open Text Rpsl.Policy Object

/-- `PolicySource`, without its aut-nums. `InetRtr` is asked by name and registry; a nil inet-rtr
is none. -/
structure PolicySource (E : Type) extends Source E where
  inetRtr : Text → Text → Except (SourceError E) (Option InetRtr)

def rtrKey (name : Text) : Text := Lib.toUpper (trimSpace name)

structure Routers where
  routers : List RouterID
  missing : List SetRef

def Routers.list (s : Routers) : List RouterID :=
  s.routers.insertionSort fun a b => a.text ≤ b.text

structure Peerings where
  list : List Peering
  missing : List SetRef

/-- `Peerings.add`: one of a text already there is left out. -/
def addPeering (ps : List Peering) (p : Peering) : List Peering :=
  if ps.any fun q => q.text Addr.text = p.text Addr.text then ps else ps ++ [p]

namespace Expander

variable {E : Type} (parseAddr : Text → Option (Addr × Text)) (e : Expander E)

/-- The routers of one set: those it lists and the inet-rtrs that claim membership. -/
def routersOf (nd : SetNode) : List RouterID :=
  match nd.set.body with
  | .routers ms =>
    (ms.filterMap fun m =>
      match m with
      | .router r => some r
      | _ => none) ++
    nd.claims.filterMap fun o =>
      match o with
      | .inetRtr i => RouterID.parse parseAddr i.name
      | _ => none
  | _ => []

def expandRouters (ref : SetRef) : Except (ExpandError E) Routers :=
  if ref.name.cls ≠ .rtrSet then .error (.setClass ref)
  else do
    let g ← e.discover ref false
    .ok ⟨(g.nodes.flatMap fun p => routersOf parseAddr p.2).dedup, g.missing⟩

/-- The peerings of one set, nested references left out. -/
def peeringsOf (nd : SetNode) : List Peering :=
  match nd.set.body with
  | .peerings ps =>
    ps.filterMap fun p =>
      match p with
      | some (.setRef _) => none
      | p => p
  | _ => []

def expandPeerings (ref : SetRef) : Except (ExpandError E) Peerings :=
  if ref.name.cls ≠ .peeringSet then .error (.setClass ref)
  else do
    let g ← e.discover ref false
    .ok ⟨(g.ordered.flatMap peeringsOf).foldl addPeering [], g.missing⟩

end Expander

end Rpsl.Resolve
