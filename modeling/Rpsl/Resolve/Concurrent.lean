import Rpsl.Resolve.Expander
import Rpsl.Types.Enumerate

/-!
# Expansion with fetches in flight

`Expander.each` runs its calls together, up to `Concurrency` at a time, and each call writes its
own slot. Here the calls of a batch complete in an order that is given (`Orders`); one at a time
they complete in the order of the slots, and together in any order. The context is never
cancelled, so every call of a batch runs.

With the batches run so, `ExpandAS`, `ExpandPrefixRanges` and `ExpandPrefixes` of
`resolve/expander.go`.
-/

namespace Rpsl.Resolve

open Text Rpsl.Policy Object

/-- The call on the element at an index completes and writes its slot. -/
def writeSlot {α β : Type} (xs : List α) (f : α → β) (out : List β) (i : Nat) : List β :=
  match xs[i]? with
  | some x => out.set i (f x)
  | none => out

/-- `each`: the calls complete in the order given. A slot holds `zero` before. -/
def each {α β : Type} (order : List Nat) (xs : List α) (f : α → β) (zero : β) : List β :=
  order.foldl (writeSlot xs f) (xs.map fun _ => zero)

/-- The orders in which the calls of each batch complete: the sets of a level, the claims of the
sets fetched, the routes of the ASes needed. -/
structure Orders where
  level : List SetRef → List Nat
  claims : List (SetRef × NamedSet) → List Nat
  routes : List ASN → List Nat

/-- Every call of every batch completes, once. -/
structure Orders.Complete (o : Orders) : Prop where
  level : ∀ xs, (o.level xs).Perm (List.range xs.length)
  claims : ∀ xs, (o.claims xs).Perm (List.range xs.length)
  routes : ∀ xs, (o.routes xs).Perm (List.range xs.length)

structure PrefixSet where
  prefixes : List (Option Prefix)
  missing : List SetRef

namespace Expander

variable {E : Type} (e : Expander E) (o : Orders)

def fetchLevel (refs : List SetRef) : List (Except (ExpandError E) NamedSet) :=
  each (o.level refs) refs e.fetchOne (.error (.source .notFound))

/-- One turn of `discover`'s loop over a level that has been fetched. -/
def visitFetched (top : SetRef) (anyLeaf : Bool) (depth : Nat) (st : Discovery)
    (p : SetRef × Except (ExpandError E) NamedSet) : Except (ExpandError E) Discovery :=
  match p.2 with
  | .error (.source .notFound) =>
    if depth = 0 then .error (.notFound top) else .ok { st with missing := st.missing ++ [p.1] }
  | .error err => .error err
  | .ok s =>
    (nestedRefs s).foldlM (e.noteRef top anyLeaf depth)
      { st with nodes := st.nodes ++ [(p.1, s)] }

/-- `discover`'s loop over the levels. -/
def discoverLoopIn (top : SetRef) (anyLeaf : Bool) :
    Nat → Nat → List SetRef → Discovery → Except (ExpandError E) Discovery
  | _, _, [], st => .ok st
  | 0, depth, _ :: _, _ => .error (.tooLarge top .depth e.depthLimit depth)
  | fuel + 1, depth, level, st => do
    let st ← (level.zip (e.fetchLevel o level)).foldlM (e.visitFetched top anyLeaf depth)
      { st with next := [], anyRef := none }
    match st.anyRef with
    | some ref => if anyLeaf then .ok st else .error (.anySet ref.name)
    | none => discoverLoopIn top anyLeaf fuel (depth + 1) st.next st

/-- `fetchClaims`: the first error in discovery order. -/
def fetchClaimsIn (nodes : List (SetRef × NamedSet)) :
    Except (ExpandError E) (List (SetRef × SetNode)) :=
  (nodes.zip (each (o.claims nodes) nodes (fun p => e.claimsOf p.2) (.ok []))).mapM
    fun (p, claims) => do
      let claims ← claims
      .ok (p.1, ⟨p.2, claims⟩)

/-- `discover`. -/
def discoverIn (top : SetRef) (anyLeaf : Bool) : Except (ExpandError E) SetGraph :=
  if top.name.isAny then .error (.anySet top.name)
  else do
    let st ← e.discoverLoopIn o top anyLeaf (e.depthLimit + 2) 0 [top]
      ⟨[], [], [], [top], [], none⟩
    let nodes ← if st.any.isEmpty then e.fetchClaimsIn o st.nodes
      else .ok (st.nodes.map fun (ref, s) => (ref, ⟨s, []⟩))
    .ok { top := top
          nodes := nodes
          missing := st.missing.insertionSort fun a b => a.text ≤ b.text
          any := st.any
          reached := st.seen.length
          routes := [] }

/-- `fetchRoutes`: the first error in the order of the ASes. -/
def fetchRoutesIn (g : SetGraph) : Except (ExpandError E) SetGraph := do
  let need := e.neededASes g
  let routes ← (need.zip (each (o.routes need) need (fun a => e.src.originatedRoutes a e.afi)
    (.ok []))).mapM fun (a, res) =>
      match res with
      | .error err => .error (.source (.failed err))
      | .ok ps => .ok (a, ps)
  .ok { g with routes := routes }

/-- `ExpandAS`. -/
def expandASIn (ref : SetRef) : Except (ExpandError E) ASNSet :=
  if ref.name.cls ≠ .asSet then .error (.setClass ref)
  else do
    let g ← e.discoverIn o ref false
    if !g.any.isEmpty then .ok ⟨[], [], true⟩ else .ok ⟨e.neededASes g, g.missing, false⟩

/-- `expandRanges`. -/
def expandRangesIn (ref : SetRef) (maxRanges : Nat) : Except (ExpandError E) RangeSet :=
  if ref.name.cls ≠ .asSet ∧ ref.name.cls ≠ .routeSet then .error (.setClass ref)
  else do
    let g ← e.discoverIn o ref false
    let g ← e.fetchRoutesIn o g
    let v ← e.walk g maxRanges (e.visitLimit + 1) ⟨ref, .empty⟩ ⟨.empty, [], 0⟩
    .ok { v.out with missing := g.missing }

/-- `ExpandPrefixRanges`. -/
def expandPrefixRangesIn (ref : SetRef) : Except (ExpandError E) RangeSet :=
  e.expandRangesIn o ref e.prefixLimit

/-- `ExpandPrefixes`' turn for one prefix. -/
def addPrefix (ref : SetRef) (out : List (Option Prefix)) (p : Option Prefix) :
    Except (ExpandError E) (List (Option Prefix)) :=
  let out := out.insert p
  if e.prefixLimit < out.length then
    .error (.tooLarge ref .prefixes e.prefixLimit out.length)
  else .ok out

/-- `ExpandPrefixes`. A range has at most as many prefixes of one length as there are addresses,
so `All` does not run out of fuel. -/
def expandPrefixesIn (ref : SetRef) : Except (ExpandError E) PrefixSet := do
  let ranges ← e.expandRangesIn o ref (2 ^ 63 - 1)
  let out ← (ranges.list.flatMap fun r => (r.all (2 ^ 128)).getD []).foldlM (e.addPrefix ref) []
  .ok ⟨out, ranges.missing⟩

end Expander

end Rpsl.Resolve
