import Rpsl.Types.SetName

/-!
# Address families

`types/addrfamily.go`: the afi and sub-family a policy is scoped to (RFC 4012).
-/

namespace Rpsl

inductive SAFI
  | unspecified
  | unicast
  | multicast
deriving DecidableEq, Repr

structure AddrFamily where
  afi : AFI
  safi : SAFI
deriving DecidableEq, Repr

namespace AddrFamily

def covers (a b : AddrFamily) : Bool :=
  if a.afi ≠ .any ∧ a.afi ≠ b.afi then false
  else if a.safi ≠ .unspecified ∧ a.safi ≠ b.safi then false
  else true

end AddrFamily

end Rpsl
