import Rpsl.Types.Addr

/-!
# Prefix ranges and range operators

`types/prefixrange.go` and `types/rangeop.go`: a prefix with a window of more-specific lengths
("192.0.2.0/24^24-28", RFC 2622 §2) and the operator detached from any prefix, as it follows a set
name. What a range denotes is `PrefixRange.contains`; `RangeOperator.apply` composes an operator
over a range.
-/

namespace Rpsl

/-- The prefix-range operator applied after a `^`. -/
inductive RangeOp
  | exact
  | minus
  | plus
  | length
  | range
deriving DecidableEq, Repr

/-- What the constructors promise of a range: no host bits, a window within the prefix's length
and its family's, and an empty window only as `^-` of a host route leaves it. The zero
`PrefixRange` is the one whose prefix is not valid. -/
def RangeWf : Option Prefix → Nat → Nat → Prop
  | none, lo, hi => lo = 0 ∧ hi = 0
  | some p, lo, hi => p.masked = p ∧ p.bits ≤ lo ∧ hi ≤ p.bitLen ∧
      (lo ≤ hi ∨ (lo = p.bitLen + 1 ∧ hi = p.bitLen))

structure PrefixRange where
  pfx : Option Prefix
  lo : Nat
  hi : Nat
  wf : RangeWf pfx lo hi
deriving DecidableEq

namespace PrefixRange

def zero : PrefixRange := ⟨none, 0, 0, rfl, rfl⟩

def isZero (r : PrefixRange) : Bool := r.pfx.isNone

def isEmpty (r : PrefixRange) : Bool := r.isZero || decide (r.hi < r.lo)

/-- `NewPrefixRange`: the range of prefixes under `p` with lengths `lo..hi`, clamped to `p`'s
length and its family's; `none` when the window is empty. -/
def new (p : Prefix) (lo hi : Nat) : Option PrefixRange :=
  let q := p.masked
  if h : max lo q.bits ≤ min hi q.bitLen then
    some ⟨some q, max lo q.bits, min hi q.bitLen,
      by simp [q], Nat.le_max_right _ _, Nat.min_le_right _ _, .inl h⟩
  else none

def contains (r : PrefixRange) (p : Prefix) : Bool :=
  match r.pfx with
  | none => false
  | some b => !r.isEmpty && decide (r.lo ≤ p.bits) && decide (p.bits ≤ r.hi) &&
      b.contains p.masked.addr

/-- `PrefixRange.Intersect`: two ranges overlap only when one base prefix contains the other; the
more specific base bounds the result and the windows intersect. -/
def intersect (r s : PrefixRange) : Option PrefixRange :=
  if r.isEmpty || s.isEmpty then none
  else
    match hr : r.pfx, hs : s.pfx with
    | some p, some q =>
      let base := if p.bits < q.bits then q else p
      let lo := max (max r.lo s.lo) base.bits
      let hi := min r.hi s.hi
      if !p.contains base.addr || !q.contains base.addr then none
      else if h : lo ≤ hi then
        some ⟨some base, lo, hi, by
          have wr := r.wf
          have ws := s.wf
          rw [hr] at wr
          rw [hs] at ws
          have hb : base.masked = base ∧ hi ≤ base.bitLen := by
            by_cases hpq : p.bits < q.bits
            · simp only [base, hpq, if_true]
              exact ⟨ws.1, (Nat.min_le_right _ _).trans ws.2.2.1⟩
            · simp only [base, hpq, if_false]
              exact ⟨wr.1, (Nat.min_le_left _ _).trans wr.2.2.1⟩
          exact ⟨hb.1, Nat.le_max_right _ _, hb.2, .inl h⟩⟩
      else none
    | _, _ => none

end PrefixRange

/-- `types.RangeOperator`: the zero value is `exact`, no operator. -/
structure RangeOperator where
  op : RangeOp
  n : Nat
  m : Nat
deriving DecidableEq, Repr

namespace RangeOperator

def none : RangeOperator := ⟨.exact, 0, 0⟩

def isZero (o : RangeOperator) : Bool := decide (o.op = .exact)

/-- The lengths `o` asks for below a prefix of length `k` of a family `maxBits` wide, clamped to
that length and width: the arithmetic `Apply` and `opStack.push` share. -/
def window (o : RangeOperator) (k maxBits : Nat) : Nat × Nat :=
  let nm := match o.op with
    | .plus => (k, maxBits)
    | .minus => (k + 1, maxBits)
    | _ => (o.n, o.m)
  (max nm.1 k, min nm.2 maxBits)

/-- `RangeOperator.Apply`: an outer `^n-m` over an inner `^k-l` is `^max(n,k)-m`, or deletes the
range (`none`). -/
def apply (o : RangeOperator) (r : PrefixRange) : Option PrefixRange :=
  if o.isZero then some r
  else
    match r.pfx with
    | .none => .none
    | some p =>
      let w := o.window r.lo p.bitLen
      if w.2 < w.1 then .none else PrefixRange.new p w.1 w.2

end RangeOperator

end Rpsl
