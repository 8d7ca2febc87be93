import Rpsl.Types.RangeText

/-!
# The prefix tree of list generation

`resolve/internal/filtergen/tree.go`: bgpq4's radix tree, whose nodes are prefixes of the list or
glue between them; its aggregation (-A), which merges two halves of a prefix into an entry with a
range of lengths, on the prefix's node or on a son of it; and its more-specifics (-R, -r), which
turn the entries themselves into ranges of lengths.

A node's son chain is a list. The parent links, which nothing reads, are left out.
-/

namespace Rpsl.Filtergen

/-- What a node or a son holds: its prefix, bgpq4's flags and the lengths of an aggregate. -/
structure Item where
  pfx : Prefix
  glue : Bool := false
  aggregate : Bool := false
  lo : Nat := 0
  hi : Nat := 0

/-- `node`, with its sons and its subtrees for a next bit of 0 and 1. -/
inductive Node
  | nil
  | node (item : Item) (sons : List Item) (l r : Node)

structure Tree where
  v6 : Bool
  maxLen : Nat
  maxPrefixes : Int
  prefixes : Nat
  head : Node

/-- `ErrTooManyPrefixes`; and the zero range in an IPv4 tree, whose more-specifics the source walks
without end. -/
inductive TreeError
  | tooManyPrefixes (max : Int)
  | noRange
deriving DecidableEq

structure Entry where
  pfx : Prefix
  aggregate : Bool
  lo : Nat
  hi : Nat
deriving DecidableEq

def Entry.range (e : Entry) : PrefixRange :=
  (if e.aggregate then PrefixRange.new e.pfx e.lo e.hi
    else PrefixRange.new e.pfx e.pfx.bits e.pfx.bits).getD .zero

/-- The family of a tree. -/
def family (v6 : Bool) : Family := if v6 then .v6 else .v4

/-- `NewTree`. -/
def Tree.new (v6 : Bool) (maxLen maxPrefixes : Int) : Tree where
  v6 := v6
  maxLen :=
    if maxLen ≤ 0 ∨ ((family v6).width : Int) < maxLen then (family v6).width else maxLen.toNat
  maxPrefixes := maxPrefixes
  prefixes := 0
  head := .nil

/-! ## Insertion -/

/-- `eqBits`: how many leading bits two prefixes share, at most the shorter length. -/
def eqBits (a b : Prefix) : Nat :=
  ((List.range (min a.bits b.bits)).find? fun i => a.addr.bitAt i != b.addr.bitAt i).getD
    (min a.bits b.bits)

/-- `bitSet`: bit `n` of the address, counting from 1. -/
def bitSet (a : Addr) (n : Nat) : Bool :=
  if n < 1 ∨ a.bitLen < n then false else a.bitAt (n - 1)

def setBit (a : Addr) (n : Nat) : Addr :=
  ⟨a.fam, a.val ||| BitVec.twoPow a.fam.width (a.fam.width - n)⟩

/-- `insert`'s walk from a node down, and whether a prefix is to be charged. -/
def Node.insert (p : Prefix) : Node → Node × Bool
  | .nil => (.node { pfx := p } [] .nil .nil, true)
  | .node c sons l r =>
    let eb := eqBits p c.pfx
    if eb < p.bits ∧ eb < c.pfx.bits then
      -- they part ways: a glue node at their common prefix holds both
      let ret := Node.node { pfx := p } [] .nil .nil
      let rn : Item := { pfx := p.up eb, glue := true }
      if bitSet p.addr (eb + 1) then (.node rn [] (.node c sons l r) ret, true)
      else (.node rn [] ret (.node c sons l r), true)
    else if eb = p.bits ∧ eb < c.pfx.bits then
      -- `p` covers the node: it takes its place
      if bitSet c.pfx.addr (eb + 1) then (.node { pfx := p } [] .nil (.node c sons l r), true)
      else (.node { pfx := p } [] (.node c sons l r) .nil, true)
    else if eb = c.pfx.bits ∧ eb < p.bits then
      if bitSet p.addr (eb + 1) then
        let (r, new) := Node.insert p r
        (.node c sons l r, new)
      else
        let (l, new) := Node.insert p l
        (.node c sons l r, new)
    else (.node { c with glue := false } sons l r, c.glue)

namespace Tree

/-- `insert`: a prefix over the cap leaves the tree as it was. -/
def insert (t : Tree) (p : Prefix) : Except TreeError Tree :=
  let (head, new) := t.head.insert p
  if !new then .ok { t with head := head }
  else if t.maxPrefixes ≤ t.prefixes then .error (.tooManyPrefixes t.maxPrefixes)
  else .ok { t with head := head, prefixes := t.prefixes + 1 }

/-- One half of a prefix that is not a host's. -/
def half (p : Prefix) (b : Bool) (h : p.bits < p.addr.fam.width) : Prefix :=
  if b then ⟨setBit p.addr (p.bits + 1), p.bits + 1, h⟩ else ⟨p.addr, p.bits + 1, h⟩

/-- `insertSpecifics` at one prefix: it is inserted if it is at least `lo` long. -/
def insertFrom (lo : Nat) (p : Prefix) (t : Tree) : Except TreeError Tree :=
  if lo ≤ p.bits then t.insert p else .ok t

/-- `insertSpecifics`, with how many lengths are left down to `hi`, which is no longer than the
family's addresses. -/
def insertSpecifics (lo : Nat) : Nat → Prefix → Tree → Except TreeError Tree
  | left, p, t => do
    let t ← insertFrom lo p t
    match left with
    | 0 => .ok t
    | left + 1 =>
      if h : p.bits < p.addr.fam.width then do
        let t ← insertSpecifics lo left (half p false h) t
        insertSpecifics lo left (half p true h) t
      else .ok t

def add (t : Tree) (r : PrefixRange) : Except TreeError Tree :=
  match r.pfx with
  | none => if t.v6 then .ok t else .error .noRange
  | some p =>
    let hi := min r.hi t.maxLen
    if p.fam ≠ family t.v6 ∨ t.maxLen < p.bits ∨ hi < r.lo then .ok t
    else insertSpecifics r.lo (hi - p.bits) p t

/-- A sequence of `Add` calls, up to the first that fails. -/
def addAll (t : Tree) (rs : List PrefixRange) : Except TreeError Tree := rs.foldlM add t

end Tree

/-! ## The list -/

/-- The entry of a node or a son; glue has none. -/
def Item.entries (i : Item) : List Entry :=
  if i.glue then []
  else if i.aggregate then [⟨i.pfx, true, i.lo, i.hi⟩]
  else [⟨i.pfx, false, 0, 0⟩]

/-- `foreach` and `emit`: a node and its sons, then its subtrees. -/
def Node.entries : Node → List Entry
  | .nil => []
  | .node c sons l r => (c :: sons).flatMap Item.entries ++ (l.entries ++ r.entries)

def Tree.entries (t : Tree) : List Entry := t.head.entries

/-! ## Aggregation -/

def sonOf (n : Item) (lo hi : Nat) : Item :=
  { pfx := n.pfx, aggregate := true, lo := lo, hi := hi }

def Item.glued (i : Item) : Item := { i with glue := true }

/-- The first son becomes glue. -/
def glueSon : List Item → List Item
  | [] => []
  | s :: ss => s.glued :: ss

/-- Are both aggregates of the same lengths? -/
def sameAggregate (a b : Item) : Bool :=
  a.aggregate && b.aggregate && decide (a.hi = b.hi) && decide (a.lo = b.lo)

/-- The first son, where it is an aggregate of `i`'s lengths. -/
def sonLike (sons : List Item) (i : Item) : Option Item := sons.head?.filter (sameAggregate i)

/-- The first sons of two nodes, where they are aggregates of the same lengths. -/
def sonsAlike (ls rs : List Item) : Option Item := rs.head?.bind (sonLike ls)

/-- The first sons of two nodes, where they are of the same lengths. -/
def sonsOfLengths (ls rs : List Item) : Option Item :=
  rs.head?.bind fun r => ls.head?.filter fun l => decide (r.hi = l.hi) && decide (r.lo = l.lo)

/-- `aggregate`'s step for a node both of whose subtrees are there and aggregated. -/
def merge (c : Item) (sons : List Item) (li : Item) (ls : List Item) (ll lr : Node) (ri : Item)
    (rs : List Item) (rl rr : Node) : Node :=
  let bits := c.pfx.bits
  let halves := li.pfx.bits = bits + 1 ∧ ri.pfx.bits = bits + 1
  let same : Node := .node c sons (.node li ls ll lr) (.node ri rs rl rr)
  if !ri.aggregate && !li.aggregate && !ri.glue && !li.glue && ri.pfx.bits = li.pfx.bits then
    -- both halves are entries
    let n := if ri.pfx.bits = bits + 1 then
        { c with
          aggregate := true
          glue := false
          hi := ri.pfx.bits
          lo := if c.glue then ri.pfx.bits else bits }
      else c
    let li := if ri.pfx.bits = bits + 1 then li.glued else li
    let ri' := if ri.pfx.bits = bits + 1 then ri.glued else ri
    match if halves then sonsAlike ls rs else none with
    | some s =>
      .node n [sonOf c s.lo s.hi] (.node li (glueSon ls) ll lr) (.node ri' (glueSon rs) rl rr)
    | none => .node n sons (.node li ls ll lr) (.node ri' rs rl rr)
  else if sameAggregate ri li then
    if ¬ halves then same
    else if c.glue then
      .node { c with aggregate := true, glue := false, hi := ri.hi, lo := ri.lo } sons
        (.node li.glued ls ll lr) (.node ri.glued rs rl rr)
    else if ri.pfx.bits = ri.lo then
      .node { c with aggregate := true, hi := ri.hi, lo := bits } sons
        (.node li.glued ls ll lr) (.node ri.glued rs rl rr)
    else
      match sonsOfLengths ls rs with
      | some s =>
        .node c [sonOf c ri.lo ri.hi, sonOf c s.lo s.hi] (.node li.glued (glueSon ls) ll lr)
          (.node ri.glued (glueSon rs) rl rr)
      | none =>
        .node c [sonOf c ri.lo ri.hi] (.node li.glued ls ll lr) (.node ri.glued rs rl rr)
  else if (sonLike ls ri).isSome then
    if ¬ halves then same
    else if c.glue then
      .node { c with aggregate := true, glue := false, hi := ri.hi, lo := ri.lo } sons
        (.node li (glueSon ls) ll lr) (.node ri.glued rs rl rr)
    else
      .node c [sonOf c ri.lo ri.hi] (.node li (glueSon ls) ll lr) (.node ri.glued rs rl rr)
  else if (sonLike rs li).isSome then
    if ¬ halves then same
    else if c.glue then
      .node { c with aggregate := true, glue := false, hi := li.hi, lo := li.lo } sons
        (.node li.glued ls ll lr) (.node ri (glueSon rs) rl rr)
    else
      .node c [sonOf c li.lo li.hi] (.node li.glued ls ll lr) (.node ri (glueSon rs) rl rr)
  else same

def Node.aggregate : Node → Node
  | .nil => .nil
  | .node c sons l r =>
    match l.aggregate, r.aggregate with
    | .node li ls ll lr, .node ri rs rl rr => merge c sons li ls ll lr ri rs rl rr
    | l, r => .node c sons l r

def Tree.aggregate (t : Tree) : Tree := { t with head := t.head.aggregate }

/-! ## More-specifics -/

/-- `foreach` with `glueUpTo`: the nodes up to `k` long become glue. -/
def Node.glueUpTo (k : Nat) : Node → Node
  | .nil => .nil
  | .node c sons l r =>
    .node (if c.pfx.bits ≤ k then c.glued else c) sons (l.glueUpTo k) (r.glueUpTo k)

def Node.size : Node → Nat
  | .nil => 0
  | .node _ _ l r => l.size + r.size + 1

theorem Node.size_glueUpTo (k : Nat) (n : Node) : (n.glueUpTo k).size = n.size := by
  induction n with
  | nil => rfl
  | node c sons l r ihl ihr => rw [glueUpTo, size, size, ihl, ihr]

def Node.refine (hi : Nat) : Node → Node
  | .nil => .nil
  | .node c sons l r =>
    if !c.glue && c.pfx.bits < hi then
      .node { c with aggregate := true, lo := c.pfx.bits, hi := hi } sons
        ((l.glueUpTo hi).refine hi) ((r.glueUpTo hi).refine hi)
    else if (!c.glue && c.pfx.bits = hi) || c.glue then
      .node c sons (l.refine hi) (r.refine hi)
    else .node c sons l r
termination_by n => n.size
decreasing_by
  all_goals
    try rw [Node.size_glueUpTo]
    rw [Node.size]
    omega

/-- `refineLow`, in a family of `full` bits. -/
def Node.refineLow (full lo : Nat) : Node → Node
  | .nil => .nil
  | .node c sons l r =>
    if !c.glue && c.pfx.bits ≤ lo then
      .node
        (if !c.aggregate then { c with aggregate := true, lo := lo, hi := full }
          else { c with lo := lo })
        sons ((l.glueUpTo lo).refineLow full lo) ((r.glueUpTo lo).refineLow full lo)
    else if c.glue then .node c sons (l.refineLow full lo) (r.refineLow full lo)
    else .node c sons l r
termination_by n => n.size
decreasing_by
  all_goals
    try rw [Node.size_glueUpTo]
    rw [Node.size]
    omega

def Tree.refine (t : Tree) (hi : Nat) : Tree := { t with head := t.head.refine hi }

def Tree.refineLow (t : Tree) (lo : Nat) : Tree :=
  { t with head := t.head.refineLow (family t.v6).width lo }

end Rpsl.Filtergen
