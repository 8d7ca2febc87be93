import Rpsl.Types.PrefixRange

/-!
# Prefix spaces

`types/prefixspace.go` and `types/prefixspace_ops.go`: an exact set of prefixes of both families
as two binary tries. A node's position is its prefix; bit `l` of its mask says that every prefix
of length `l` under that prefix is in the set, so `::/0^0-128` is one node.

`normalize` and `merge` are translated as they stand, down to the shortcuts. The recursion of
`merge` is on the number of levels left (`width - d`), since only a node above the family's width
has children; a nil pointer is `SpaceNode.nil`.
-/

namespace Rpsl

/-- `lenMask`: a set of prefix lengths, 0 to 128; bit `l` of word `l / 64` is bit `l` here. -/
abbrev LenMask := BitVec 192

namespace LenMask

def has (m : LenMask) (l : Nat) : Bool := m.getLsbD l
def set (m : LenMask) (l : Nat) : LenMask := m ||| (1#192 <<< l)
def isZero (m : LenMask) : Bool := m == 0#192
def andNot (m o : LenMask) : LenMask := m &&& ~~~o

/-- The smallest length in `m`. -/
def lowest (m : LenMask) : Option Nat := (List.range 192).find? m.has

/-- `geMask[d]` holds every length from `d` to 128. -/
def ge (d : Nat) : LenMask := (List.range' d (129 - d)).foldl set 0#192

/-- The lengths `lo..hi`. -/
def window (lo hi : Nat) : LenMask := (ge lo).andNot (ge (hi + 1))

/-- The length `l` alone. -/
def one (l : Nat) : LenMask := window l l

end LenMask

/-- A node of one family's trie; `nil` is the nil pointer. -/
inductive SpaceNode
  | nil
  | node (mask : LenMask) (c0 c1 : SpaceNode)
deriving DecidableEq

namespace SpaceNode

def mask : SpaceNode → LenMask
  | nil => 0#192
  | node m _ _ => m

/-- `kid`: child `b`, nil for a nil node. -/
def kid : SpaceNode → Bool → SpaceNode
  | nil, _ => nil
  | node _ c0 _, false => c0
  | node _ _ c1, true => c1

def isNil : SpaceNode → Bool
  | nil => true
  | node .. => false

/-- `leaf`: no children; a nil node has none. -/
def leaf (n : SpaceNode) : Bool := (n.kid false).isNil && (n.kid true).isNil

/-- `mk`: a node, or nil when it would be empty. -/
def mk (m : LenMask) (c0 c1 : SpaceNode) : SpaceNode :=
  if m.isZero && c0.isNil && c1.isNil then nil else node m c0 c1

/-- `without`: the node less the lengths in `m`. -/
def without (n : SpaceNode) (m : LenMask) : SpaceNode :=
  mk (n.mask.andNot m) (n.kid false) (n.kid true)

/-- `lift`: the lengths both children of a node at depth `d` hold move up to the node. -/
def lift (m : LenMask) (c0 c1 : SpaceNode) (d : Nat) : LenMask × SpaceNode × SpaceNode :=
  if c0.isNil || c1.isNil then (m, c0, c1)
  else
    let common := c0.mask &&& c1.mask &&& LenMask.ge (d + 1)
    if common.isZero then (m, c0, c1)
    else (m ||| common, c0.without common, c1.without common)

/-- `normalize`: the canonical form of the raw trie at depth `d`, less what an ancestor covers. -/
def normalize : SpaceNode → Nat → Nat → LenMask → SpaceNode
  | nil, _, _, _ => nil
  | node mask c0 c1, d, width, covered =>
    let m := (mask &&& LenMask.ge d).andNot covered
    if d < width then
      let below := (covered ||| m) &&& LenMask.ge (d + 1)
      let r := lift m (normalize c0 (d + 1) width below) (normalize c1 (d + 1) width below) d
      mk r.1 r.2.1 r.2.2
    else mk m nil nil

/-- `SpaceOf`'s inner loop: the lengths `w` are added at the node of the path, creating the nodes
on the way. -/
def insert : List Bool → LenMask → SpaceNode → SpaceNode
  | [], w, n => node (n.mask ||| w) (n.kid false) (n.kid true)
  | false :: bs, w, n => node n.mask (insert bs w (n.kid false)) (n.kid true)
  | true :: bs, w, n => node n.mask (n.kid false) (insert bs w (n.kid true))

/-- The descent of `PrefixSpace.Contains`: is the prefix of length `l` of address `a` held at or
below the node at depth `d`? -/
def containsAt : SpaceNode → Addr → Nat → Nat → Bool
  | nil, _, _, _ => false
  | node m c0 c1, a, l, d =>
    if m.has l then true
    else if d = l then false
    else match a.bitAt d with
      | false => c0.containsAt a l (d + 1)
      | true => c1.containsAt a l (d + 1)

/-- `equalNode`; its first case, one pointer twice, is a case of the recursion. -/
def equalNode : SpaceNode → SpaceNode → Bool
  | nil, nil => true
  | node m c0 c1, node m' c0' c1' => m == m' && equalNode c0 c0' && equalNode c1 c1'
  | _, _ => false

end SpaceNode

inductive SetOp
  | union
  | intersect
  | minus
deriving DecidableEq

namespace SetOp

def apply : SetOp → LenMask → LenMask → LenMask
  | union, a, b => a ||| b
  | intersect, a, b => a &&& b
  | minus, a, b => a.andNot b

end SetOp

open SpaceNode in
/-- `merge`'s shortcuts: where nothing is inherited an operand's subtree means the same here as
there, and is returned as it is. -/
def shortcut (op : SetOp) (a b : SpaceNode) (inA inB : LenMask) : Option SpaceNode :=
  if inA.isZero && inB.isZero then
    match op with
    | .union => if a.isNil then some b else if b.isNil then some a else none
    | .intersect => if a.isNil || b.isNil then some nil else none
    | .minus => if a.isNil then some nil else if b.isNil then some a else none
  else none

open SpaceNode in
/-- `merge` with `rem = width - d` levels left. -/
def mergeGo (op : SetOp) : Nat → SpaceNode → SpaceNode → Nat → LenMask → LenMask → SpaceNode
  | rem, a, b, d, inA, inB =>
    match shortcut op a b inA inB with
    | some r => r
    | none =>
      let fa := (inA ||| a.mask) &&& LenMask.ge d
      let fb := (inB ||| b.mask) &&& LenMask.ge d
      if a.leaf && b.leaf then
        -- both operands are the same at every depth below: so is the result
        SpaceNode.mk (op.apply fa fb) nil nil
      else
        -- this node's own prefix, decided exactly
        let m := op.apply fa fb &&& LenMask.one d
        match rem with
        | 0 => SpaceNode.mk m nil nil
        | rem + 1 =>
          let ia := fa &&& LenMask.ge (d + 1)
          let ib := fb &&& LenMask.ge (d + 1)
          let r := lift m (mergeGo op rem (a.kid false) (b.kid false) (d + 1) ia ib)
            (mergeGo op rem (a.kid true) (b.kid true) (d + 1) ia ib) d
          SpaceNode.mk r.1 r.2.1 r.2.2

/-- `merge`: `op` applied to `a` and `b`, nodes at depth `d` of a family `width` bits wide; `inA`
and `inB` are the lengths an ancestor of `a`, or of `b`, holds. -/
def merge (op : SetOp) (a b : SpaceNode) (d width : Nat) (inA inB : LenMask) : SpaceNode :=
  mergeGo op (width - d) a b d inA inB

/-- `PrefixSpace`: the zero value is the empty set. -/
structure PrefixSpace where
  v4 : SpaceNode
  v6 : SpaceNode
deriving DecidableEq

namespace PrefixSpace

def empty : PrefixSpace := ⟨.nil, .nil⟩

def root (s : PrefixSpace) : Family → SpaceNode
  | .v4 => s.v4
  | .v6 => s.v6

/-- One range of `SpaceOf`'s loop over the raw tries; an empty range adds nothing. -/
def addRaw (raw : PrefixSpace) (r : PrefixRange) : PrefixSpace :=
  if r.isEmpty then raw
  else
    match r.pfx with
    | none => raw
    | some p =>
      let w := LenMask.window (max r.lo p.bits) r.hi
      match p.fam with
      | .v4 => { raw with v4 := raw.v4.insert p.path w }
      | .v6 => { raw with v6 := raw.v6.insert p.path w }

/-- `SpaceOf`: the union of `rs`. -/
def spaceOf (rs : List PrefixRange) : PrefixSpace :=
  let raw := rs.foldl addRaw empty
  ⟨raw.v4.normalize 0 32 0#192, raw.v6.normalize 0 128 0#192⟩

/-- `FullSpace`: every prefix of `afi`. -/
def fullSpace (afi : AFI) : PrefixSpace :=
  let v4 := SpaceNode.node (LenMask.window 0 32) .nil .nil
  let v6 := SpaceNode.node (LenMask.window 0 128) .nil .nil
  match afi with
  | .v4 => ⟨v4, .nil⟩
  | .v6 => ⟨.nil, v6⟩
  | _ => ⟨v4, v6⟩

def combine (op : SetOp) (s t : PrefixSpace) : PrefixSpace :=
  ⟨merge op s.v4 t.v4 0 32 0#192 0#192, merge op s.v6 t.v6 0 128 0#192 0#192⟩

def union (s t : PrefixSpace) : PrefixSpace := combine .union s t
def intersect (s t : PrefixSpace) : PrefixSpace := combine .intersect s t
def minus (s t : PrefixSpace) : PrefixSpace := combine .minus s t

def isEmpty (s : PrefixSpace) : Bool := s.v4.isNil && s.v6.isNil

def equal (s t : PrefixSpace) : Bool := s.v4.equalNode t.v4 && s.v6.equalNode t.v6

def contains (s : PrefixSpace) (p : Prefix) : Bool :=
  let q := p.masked
  (s.root q.fam).containsAt q.addr q.bits 0

end PrefixSpace

/-! ## Ranges and Example -/

namespace SpaceNode

/-- `prefixAt`: the prefix whose bits are set so far; invalid past the family's width. -/
def prefixAt (f : Family) (bs : List Bool) : Option Prefix :=
  if h : bs.length ≤ f.width then some (Prefix.ofPath f bs h) else none

/-- The last length of the run of lengths that `hi` is in: `rem = width - hi` lengths are left. -/
def runEnd (m : LenMask) : Nat → Nat → Nat
  | 0, hi => hi
  | rem + 1, hi => if m.has (hi + 1) then runEnd m rem (hi + 1) else hi

/-- The maximal runs of `m`'s lengths among `l..width`, in order. -/
def runs (m : LenMask) (width : Nat) : Nat → Nat → List (Nat × Nat)
  | 0, _ => []
  | fuel + 1, l =>
    if width < l then []
    else if !m.has l then runs m width fuel (l + 1)
    else
      let hi := runEnd m (width - l) l
      (l, hi) :: runs m width fuel (hi + 1)

/-- `walkRanges`: the ranges of the subtree whose node's bits are `bs`. -/
def walkRanges (f : Family) : SpaceNode → List Bool → List PrefixRange
  | nil, _ => []
  | node m c0 c1, bs =>
    (runs m f.width (f.width + 1) bs.length).filterMap (fun w =>
      (prefixAt f bs).bind fun p => PrefixRange.new p w.1 w.2) ++
    (walkRanges f c0 (bs ++ [false]) ++ walkRanges f c1 (bs ++ [true]))

/-- `shortest`: the smallest length any node of the subtree holds. -/
def shortest : SpaceNode → Option Nat
  | nil => none
  | node m c0 c1 =>
    [m.lowest, shortest c0, shortest c1].foldl (fun best l =>
      match best, l with
      | none, l => l
      | some b, none => some b
      | some b, some l => some (if l < b then l else b)) none

/-- `firstWith`: in address order, the first prefix of length `l` the subtree holds. -/
def firstWith (f : Family) (l : Nat) : SpaceNode → List Bool → Option Prefix
  | nil, _ => none
  | node m c0 c1, bs =>
    if m.has l then
      if h : l ≤ f.width then some (Prefix.masked ⟨Addr.ofBits f bs, l, h⟩) else none
    else (firstWith f l c0 (bs ++ [false])).or (firstWith f l c1 (bs ++ [true]))

end SpaceNode

namespace PrefixSpace

def ranges (s : PrefixSpace) : List PrefixRange :=
  s.v4.walkRanges .v4 [] ++ s.v6.walkRanges .v6 []

/-- `PrefixSpace.Example` of one family's trie. -/
def exampleNode (f : Family) (n : SpaceNode) : Option Prefix :=
  n.shortest.bind fun l => n.firstWith f l []

/-- `PrefixSpace.Example`: `none` is `ok` false. -/
def exampleOf (s : PrefixSpace) : Option Prefix := (exampleNode .v4 s.v4).or (exampleNode .v6 s.v6)

end PrefixSpace

end Rpsl
