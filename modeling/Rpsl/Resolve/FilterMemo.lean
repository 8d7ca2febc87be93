import Rpsl.Resolve.NormalForm

/-!
# The memo of filter answers

`resolve/filtermemo.go`: answers by key, in two pools of bounded weight, each with its list in order
of use, and layers of memos over one another. The map and the lists are separate data, so an element
of a list keeps its identity here (`Elem.id`, the pointer `*list.Element`), and an operation returns
nothing where the program would dereference the back of an empty list.

A chain of memos is a list, each layered over those after it. Weights count what is in memory, so
their sums are not wrapped. What `errors.As` finds in an error is a parameter.
-/

namespace Rpsl.Resolve

/-- `filterKey`. -/
structure FilterKey where
  asns : Bool
  text : Text
  afi : AFI
  depth : Int
  prefixes : Int
  visited : Int
  conjuncts : Int
deriving DecidableEq

structure FilterAnswer (ε : Type) where
  key : FilterKey
  nf : NormalFilter
  asns : ASNSet
  err : Option ε
  weight : Int

variable {ε : Type}

/-- `list.Element`, of a `*filterAnswer`. -/
structure Elem (ε : Type) where
  id : Nat
  value : FilterAnswer ε

/-- `memoPool`; the front of the list, most recently used, is its head. -/
structure MemoPool (ε : Type) where
  held : Int := 0
  lru : List (Elem ε) := []

/-- `FilterMemo`, without its lock and the memo it is layered over; `next` is the next element. -/
structure FilterMemo (ε : Type) where
  max : Int
  entries : FilterKey → Option (Elem ε) := fun _ => none
  filters : MemoPool ε := {}
  asns : MemoPool ε := {}
  next : Nat := 0
  hits : Nat := 0
  misses : Nat := 0
  peerDependent : Nat := 0

/-- `MoveToFront`, of an element of the list. -/
def moveToFront (el : Elem ε) (l : List (Elem ε)) : List (Elem ε) :=
  if l.any (·.id == el.id) then el :: l.eraseP (·.id == el.id) else l

namespace FilterMemo

def pool (m : FilterMemo ε) (asns : Bool) : MemoPool ε := if asns then m.asns else m.filters

def setPool (m : FilterMemo ε) (asns : Bool) (p : MemoPool ε) : FilterMemo ε :=
  if asns then { m with asns := p } else { m with filters := p }

/-- The eviction loop of `keep`, over the pool's list from its back. -/
def evict (max : Int) (held : Int) (entries : FilterKey → Option (Elem ε)) :
    List (Elem ε) → Option (MemoPool ε × (FilterKey → Option (Elem ε)))
  | [] => if max < held then none else some (⟨held, []⟩, entries)
  | old :: back =>
    if max < held then
      evict max (held - old.value.weight) (Function.update entries old.value.key none) back
    else some (⟨held, (old :: back).reverse⟩, entries)

def keep (m : FilterMemo ε) (a : FilterAnswer ε) : Option (FilterMemo ε) :=
  if (m.entries a.key).isSome then some m
  else if m.max.tdiv 4 < a.weight then some m
  else
    let p := m.pool a.key.asns
    let el := ⟨m.next, a⟩
    (evict m.max (p.held + a.weight) (Function.update m.entries a.key (some el))
      (el :: p.lru).reverse).map fun x =>
        { m with entries := x.2, next := m.next + 1 }.setPool a.key.asns x.1

/-- A lookup the memo answers itself. -/
def touch (m : FilterMemo ε) (k : FilterKey) (el : Elem ε) : FilterMemo ε :=
  let p := m.pool k.asns
  { m with hits := m.hits + 1 }.setPool k.asns { p with lru := moveToFront el p.lru }

def get (k : FilterKey) :
    List (FilterMemo ε) → Option (Option (FilterAnswer ε) × List (FilterMemo ε))
  | [] => some (none, [])
  | m :: shared =>
    match m.entries k with
    | some el => some (some el.value, m.touch k el :: shared)
    | none => do
      let (a, shared) ← get k shared
      match a with
      | some a =>
        let m ← { m with hits := m.hits + 1 }.keep a
        some (some a, m :: shared)
      | none => some (none, { m with misses := m.misses + 1 } :: shared)

section

-- `memoizable`
variable (memoizable : ε → Bool)

def store (a : FilterAnswer ε) : List (FilterMemo ε) → Option (List (FilterMemo ε))
  | [] => some []
  | m :: shared =>
    if a.err.any (fun e => !memoizable e) then some (m :: shared)
    else do
      let m ← m.keep a
      let shared ← store a shared
      some (m :: shared)

/-- The weight of a `NormalizeFilter` answer. -/
def weightOf (nf : NormalFilter) : Int :=
  1 + (nf.conjuncts.map fun c => (c.prefixes.len + c.notPrefixes.len +
    (c.paths.map fun p => (p.sets.map fun s => s.2.asns.length).sum).sum : Nat)).sum

def put (k : FilterKey) (nf : NormalFilter) (err : Option ε) (usedPeer : Bool)
    (ms : List (FilterMemo ε)) : Option (List (FilterMemo ε)) :=
  if usedPeer then some (ms.map fun x => { x with peerDependent := x.peerDependent + 1 })
  else store memoizable ⟨k, nf, ⟨[], [], false⟩, err, weightOf nf⟩ ms

def putASNs (k : FilterKey) (s : ASNSet) (err : Option ε) (ms : List (FilterMemo ε)) :
    Option (List (FilterMemo ε)) :=
  store memoizable ⟨k, ⟨[], []⟩, s, err, 1 + s.asns.length + s.missing.length⟩ ms

/-- A call of a memo. -/
inductive Call (ε : Type)
  | get (k : FilterKey)
  | put (k : FilterKey) (nf : NormalFilter) (err : Option ε) (usedPeer : Bool)
  | putASNs (k : FilterKey) (s : ASNSet) (err : Option ε)

def call : Call ε → List (FilterMemo ε) → Option (List (FilterMemo ε))
  | .get k, ms => (get k ms).map Prod.snd
  | .put k nf err usedPeer, ms => put memoizable k nf err usedPeer ms
  | .putASNs k s err, ms => putASNs memoizable k s err ms

/-- A call of the memo `n` below the top of the chain, which the ones above do not see. -/
def callAt (ms : List (FilterMemo ε)) (c : Nat × Call ε) : Option (List (FilterMemo ε)) :=
  (call memoizable c.2 (ms.drop c.1)).map (ms.take c.1 ++ ·)

/-- Calls, one after the other, of a chain of new memos with the bounds given. -/
def run (bounds : List Int) (calls : List (Nat × Call ε)) : Option (List (FilterMemo ε)) :=
  calls.foldlM (callAt memoizable) (bounds.map fun max => { max })

end

end FilterMemo

end Rpsl.Resolve
