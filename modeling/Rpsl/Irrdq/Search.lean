import Rpsl.Irrdq.Snapshot
import Rpsl.Lib.Search
import Rpsl.Lib.Yield

/-!
# Route searches

`Snapshot.search` yields the served routes of some registries that a mode selects for a prefix, one
by one and until its consumer stops. The context is one that is not cancelled.
-/

namespace Rpsl.Irrdq

open Lib

/-- What a search selects: the prefix itself (0), it and every less specific one ('L'), the most
specific less specific one ('l'), every more specific one ('M'). -/
inductive Mode
  | exact
  | allLess
  | oneLess
  | more
deriving DecidableEq, Repr

variable {σ τ : Type}

/-- `entry` of a route. -/
structure Entry (σ : Type) where
  reg : Registry σ
  rt : Route

/-- `Snapshot.served`, of a route. -/
def Snapshot.served (snap : Snapshot) (e : Entry σ) : Bool := snap.visible e.reg e.rt

/-- The place of the first route that is not before the prefix. -/
def Registry.notBefore (r : Registry σ) (p : Prefix) : Nat :=
  Lib.search r.routes.length fun i => r.routes[i]?.any fun rt => prefixCmp rt.pfx p != .lt

namespace Snapshot

variable (snap : Snapshot) (yield : Entry σ → τ → Bool × τ)

/-- The entries at places of a registry's routes. -/
def entriesAt (r : Registry σ) (is : List Nat) : List (Entry σ) :=
  is.filterMap fun i => r.routes[i]?.map (Entry.mk r)

/-- `exact`: the served routes of one prefix. -/
def exact (r : Registry σ) (q : Prefix) (t : τ) : Bool × τ :=
  offer (fun e t => if snap.served e then yield e t else (true, t)) (entriesAt r (r.places q)) t

/-- Is the route at a place of the registry visible? -/
def visibleAt (r : Registry σ) (i : Nat) : Bool := r.routes[i]?.any (snap.visible r)

/-- The places of the prefix and every less specific one, as the loop over the lengths appends
them. -/
def placesLess (r : Registry σ) (p : Prefix) : List Nat :=
  (List.range (p.bits + 1)).flatMap fun bits => (r.places (p.up bits)).filter (snap.visibleAt r)

/-- Case 'L' for one registry. -/
def allLess (r : Registry σ) (p : Prefix) (t : τ) : Bool × τ :=
  offer yield (entriesAt r ((snap.placesLess r p).mergeSort (· ≤ ·))) t

/-- The loop of case 'l' over the lengths below `bits`, down to `best`. -/
def bestBelow (r : Registry σ) (p : Prefix) (best : Int) : Nat → Int
  | 0 => best
  | bits + 1 =>
    if (bits : Int) ≤ best then best
    else if (r.places (p.up bits)).any (snap.visibleAt r) then bits
    else bestBelow r p best bits

/-- The longest less specific length with a visible route in some registry, or -1. -/
def best (regs : List (Registry σ)) (p : Prefix) : Int :=
  regs.foldl (fun best r => snap.bestBelow r p best p.bits) (-1)

/-- The scan of case 'M': up to the first address outside the prefix. -/
def scan (r : Registry σ) (p : Prefix) : List Route → τ → Bool × τ
  | [], t => (true, t)
  | rt :: rts, t =>
    if rt.pfx.is4 ≠ p.is4 ∨ p.contains rt.pfx.addr = false then (true, t)
    else if p.bits < rt.pfx.bits ∧ snap.served ⟨r, rt⟩ then
      match yield ⟨r, rt⟩ t with
      | (true, t) => scan r p rts t
      | (false, t) => (false, t)
    else scan r p rts t

/-- Case 'M' for one registry. -/
def more (r : Registry σ) (p : Prefix) (t : τ) : Bool × τ :=
  snap.scan yield r p (r.routes.drop (r.notBefore p)) t

/-- `Snapshot.search`: the consumer's state at its end. -/
def search (regs : List (Registry σ)) (p : Prefix) (mode : Mode) (t : τ) : τ :=
  match mode with
  | .exact => (offer (fun r t => snap.exact yield r p t) regs t).2
  | .allLess => (offer (fun r t => snap.allLess yield r p t) regs t).2
  | .oneLess =>
    let best := snap.best regs p
    if 0 ≤ best then (offer (fun r t => snap.exact yield r (p.up best.toNat) t) regs t).2 else t
  | .more => (offer (fun r t => snap.more yield r p t) regs t).2

end Snapshot

end Rpsl.Irrdq
