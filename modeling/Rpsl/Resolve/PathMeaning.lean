import Rpsl.Lib.Ere
import Rpsl.Resolve.NormalForm

/-!
# What an AS-path regexp matches

The meaning of AS-path regexps (RFC 2622 section 5.4), which the source prints and translates but
never evaluates: from which place of a path to which other one an expression matches
(`ASPathExpr.Match`), and that it matches somewhere (`PathMatch.Found`).
-/

namespace Rpsl.Resolve

open Lib Policy

def ASNSet.has (s : ASNSet) (a : ASN) : Bool := s.any || s.asns.contains a

/-- `Sets[n]`: a name that is not a key has the zero set. -/
def setOf (sets : List (SetName × ASNSet)) (n : SetName) : ASNSet :=
  (sets.lookup n).getD ⟨[], [], false⟩

end Rpsl.Resolve

namespace Rpsl.Policy.ASPathExpr

open Lib Resolve

section
variable (sets : List (SetName × ASNSet))

mutual

/-- The ASes one position may hold; what is not bound to a peer holds none. -/
def Has : ASPathExpr → ASN → Prop
  | asn b, a => a = b
  | any, _ => True
  | set n, a => n.isAny = true ∨ (setOf sets n).has a = true
  | asnRange lo hi, a => lo ≤ a ∧ a ≤ hi
  | cls false items, a => HasAny items a
  | cls true items, a => ¬ HasAny items a
  | _, _ => False

def HasAny : List ASPathExpr → ASN → Prop
  | [], _ => False
  | e :: es, a => Has e a ∨ HasAny es a

end

/-- The number of repetitions a quantifier allows. -/
def Counts : RepeatOp → Nat → Option Nat → Nat → Prop
  | .star, _, _, _ => True
  | .plus, _, _, n => 1 ≤ n
  | .quest, _, _, n => n ≤ 1
  | .range, min, max, n => min ≤ n ∧ ∀ m ∈ max, n ≤ m

/-- The ASes from one place to the other are one AS, repeated. -/
def SameAS (x y : Place ASN) : Prop := ∃ a n, x.2 = List.replicate n a ++ y.2

mutual

/-- A match from one place of a path to another. -/
def Match : ASPathExpr → Place ASN → Place ASN → Prop
  | alt alts, x, y => MatchAny alts x y
  | seq terms, x, y => MatchSeq terms x y
  | rep inner op min max same, x, y =>
    ∃ n, Counts op min max n ∧ Iter (Match inner) n x y ∧ (same = true → SameAS x y)
  | start, x, y => x = y ∧ x.1 = []
  | end_, x, y => x = y ∧ x.2 = []
  | e, x, y => ∃ a, Has sets e a ∧ Place.Step a x y

def MatchAny : List ASPathExpr → Place ASN → Place ASN → Prop
  | [], _, _ => False
  | e :: es, x, y => Match e x y ∨ MatchAny es x y

def MatchSeq : List ASPathExpr → Place ASN → Place ASN → Prop
  | [], x, y => x = y
  | e :: es, x, y => ∃ z, Match e x z ∧ MatchSeq es z y

end

end

mutual

/-- What `ParseASPathRegexp` builds: an alternation has alternatives, and bounds are in order. -/
def Parsed : ASPathExpr → Prop
  | alt alts => alts ≠ [] ∧ ParsedAll alts
  | seq terms => ParsedAll terms
  | rep inner op min max _ => Parsed inner ∧ (op = .range → ∀ m ∈ max, min ≤ m)
  | _ => True

def ParsedAll : List ASPathExpr → Prop
  | [] => True
  | e :: es => Parsed e ∧ ParsedAll es

end

/-! ## Ends -/

/-- The terms of a regexp. -/
def termsOf : ASPathExpr → List ASPathExpr
  | .seq terms => terms
  | e => [e]

/-- The terms without an anchor at their start, and whether there is one. -/
def stripStart : List ASPathExpr → List ASPathExpr × Bool
  | .start :: terms => (terms, true)
  | terms => (terms, false)

/-- The terms without an anchor at their end, and whether there is one. -/
def stripEnd (terms : List ASPathExpr) : List ASPathExpr × Bool :=
  match terms.getLast? with
  | some .end_ => (terms.dropLast, true)
  | _ => (terms, false)

end Rpsl.Policy.ASPathExpr

namespace Rpsl.Resolve

/-- The regexp matches somewhere in the path. -/
def PathMatch.Found (m : PathMatch) (path : List ASN) : Prop :=
  ∃ x y, x.1 ++ x.2 = path ∧ m.re.body.Match m.sets x y

end Rpsl.Resolve
