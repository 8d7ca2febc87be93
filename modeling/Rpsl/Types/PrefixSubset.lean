import Rpsl.Types.PrefixSpace

/-!
# Inclusion of prefix spaces

`Subset` and `SubsetOfUnion` of `types/prefixspace_ops.go`: a trie is walked beside one or several
others, and the walk stops at the first prefix they lack.

The walks compare pointers. One pointer is one node, but equal nodes need not be one pointer, so
`shared` says at which positions they are. The lists of nodes `subsetUnion` walks beside are windows
of one work list, which grows for a child's call and is cut back after it; the list is passed
along, and a window is read from it where the source reads its slice.
-/

namespace Rpsl

namespace SpaceNode

/-- `covered`: the other side holds every length from `d` to `width`, or, `a` being a leaf, every
length `a` holds. -/
def covered (a : SpaceNode) (fa fb : LenMask) (d width : Nat) : Bool :=
  ((LenMask.window d width).andNot fb).isZero || a.leaf && (fa.andNot fb).isZero

section

variable (shared : List Bool → Bool) (width : Nat)

/-- `subsetNode` with `rem = width - d` levels left, at the position `pos`. -/
def subsetNode : Nat → List Bool → SpaceNode → SpaceNode → Nat → LenMask → LenMask → Bool
  | rem, pos, a, b, d, inA, inB =>
    if inA.isZero && (a.isNil || shared pos && decide (a = b)) then true
    else if inA.isZero && b.isNil && inB.isZero then false
    else
      let fa := (inA ||| a.mask) &&& LenMask.ge d
      let fb := (inB ||| b.mask) &&& LenMask.ge d
      if covered a fa fb d width then true
      else if a.leaf && b.leaf then (fa.andNot fb).isZero
      else if !(fa.andNot fb &&& LenMask.one d).isZero then false
      else
        match rem with
        | 0 => true
        | rem + 1 =>
          let ia := fa &&& LenMask.ge (d + 1)
          let ib := fb &&& LenMask.ge (d + 1)
          subsetNode rem (pos ++ [false]) (a.kid false) (b.kid false) (d + 1) ia ib &&
            subsetNode rem (pos ++ [true]) (a.kid true) (b.kid true) (d + 1) ia ib

/-- The window `work[lo:hi]`. -/
def slice (work : List SpaceNode) (lo hi : Nat) : List SpaceNode := (work.take hi).drop lo

/-- The children `i` of some nodes, those that are not nil. -/
def kids (bs : List SpaceNode) (i : Bool) : List SpaceNode := (bs.map (·.kid i)).filter (!·.isNil)

/-- `subsetUnion` against the nodes of the window `work[lo:hi]`: the answer, and the work list
after it. -/
def subsetUnion : Nat → List Bool → SpaceNode → Nat × Nat → Nat → LenMask → LenMask →
    List SpaceNode → Bool × List SpaceNode
  | rem, pos, a, win, d, inA, inB, work =>
    let bs := slice work win.1 win.2
    if inA.isZero && (a.isNil || shared pos && decide (a ∈ bs)) then (true, work)
    else if inA.isZero && bs.isEmpty && inB.isZero then (false, work)
    else
      let fa := (inA ||| a.mask) &&& LenMask.ge d
      let fb := bs.foldl (fun m b => m ||| b.mask) inB &&& LenMask.ge d
      if covered a fa fb d width then (true, work)
      else if a.leaf && bs.all (·.leaf) then ((fa.andNot fb).isZero, work)
      else if !(fa.andNot fb &&& LenMask.one d).isZero then (false, work)
      else
        match rem with
        | 0 => (true, work)
        | rem + 1 =>
          let ia := fa &&& LenMask.ge (d + 1)
          let ib := fb &&& LenMask.ge (d + 1)
          let call (i : Bool) (work : List SpaceNode) : Bool × List SpaceNode :=
            let start := work.length
            let work := work ++ kids (slice work win.1 win.2) i
            let (ok, work) := subsetUnion rem (pos ++ [i]) (a.kid i) (start, work.length) (d + 1)
              ia ib work
            (ok, work.take start)
          let (ok, work) := call false work
          if ok then call true work else (false, work)

end

end SpaceNode

namespace PrefixSpace

variable (shared : Family → List Bool → Bool)

def subset (s t : PrefixSpace) : Bool :=
  s.v4.subsetNode (shared .v4) 32 32 [] t.v4 0 0#192 0#192 &&
    s.v6.subsetNode (shared .v6) 128 128 [] t.v6 0 0#192 0#192

/-- `SubsetOfUnion` of one family: the work list is the roots that are not nil. -/
def subsetOfRoots (f : Family) (s : PrefixSpace) (ts : List PrefixSpace) : Bool :=
  let work := (ts.map (·.root f)).filter (!·.isNil)
  ((s.root f).subsetUnion (shared f) f.width f.width [] (0, work.length) 0 0#192 0#192 work).1

def subsetOfUnion (s : PrefixSpace) (ts : List PrefixSpace) : Bool :=
  match ts with
  | [t] => s.subset shared t
  | ts => s.subsetOfRoots shared .v4 ts && s.subsetOfRoots shared .v6 ts

end PrefixSpace

end Rpsl
