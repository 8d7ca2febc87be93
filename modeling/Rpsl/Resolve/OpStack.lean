import Rpsl.Types.PrefixRange

/-!
# Operator stacks

`resolve/opstack.go`: a stack of range operators met along a path of set members, as the table of
what it does to a range's lower bound in each address family. Equivalent stacks are equal values.
-/

namespace Rpsl.Resolve

/-- `deleted`: the mark of a lower bound whose ranges the stack deletes. -/
def deleted : UInt8 := 0xFF

structure OpStack where
  set : Bool
  hi4 : UInt8
  hi6 : UInt8
  lo4 : Vector UInt8 33
  lo6 : Vector UInt8 129
deriving DecidableEq

namespace OpStack

/-- The zero `opStack`, the empty stack. -/
def empty : OpStack := ⟨false, 0, 0, Vector.replicate 33 0, Vector.replicate 129 0⟩

/-- The table of one family; a bound past its end is not looked up. -/
def lo (s : OpStack) (f : Family) (k : Nat) : UInt8 :=
  match f with
  | .v4 => s.lo4[k]?.getD deleted
  | .v6 => s.lo6[k]?.getD deleted

def hi (s : OpStack) : Family → UInt8
  | .v4 => s.hi4
  | .v6 => s.hi6

/-- One entry of `push`'s table for family `f`. -/
def pushLo (s : OpStack) (o : RangeOperator) (f : Family) (k : Nat) : UInt8 :=
  let w := o.window k f.width
  if w.2 < w.1 then deleted
  else if s.set then s.lo f w.1
  else UInt8.ofNat w.1

/-- `push`'s upper bound for family `f`: the outermost operator's. -/
def pushHi (s : OpStack) (o : RangeOperator) (f : Family) : UInt8 :=
  if s.set then s.hi f else UInt8.ofNat (o.window f.width f.width).2

/-- `push`: `o` is added innermost. -/
def push (s : OpStack) (o : RangeOperator) : OpStack :=
  if o.isZero then s
  else
    { set := true
      hi4 := s.pushHi o .v4
      hi6 := s.pushHi o .v6
      lo4 := Vector.ofFn fun k => s.pushLo o .v4 k
      lo6 := Vector.ofFn fun k => s.pushLo o .v6 k }

/-- `apply`: none where the operators delete the range. -/
def apply (s : OpStack) (r : PrefixRange) : Option PrefixRange :=
  if r.isEmpty then none
  else if !s.set then some r
  else
    match r.pfx with
    | none => none
    | some p =>
      if p.fam.width < r.lo || s.lo p.fam r.lo = deleted then none
      else PrefixRange.new p (s.lo p.fam r.lo).toNat (s.hi p.fam).toNat

end OpStack

end Rpsl.Resolve
