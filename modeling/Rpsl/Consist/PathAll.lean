import Rpsl.Policy.ASPathParse
import Rpsl.Resolve.PathMeaning

/-!
# Path tests that every path passes

`resolve/consist/pathall.go`: the AS-path regexps that are found, from their syntax tree alone, to
match every non-empty path.
-/

namespace Rpsl.Consist

open Policy Resolve

mutual

def hasAnchor : ASPathExpr → Bool
  | .start | .end_ => true
  | .alt alts => haveAnchor alts
  | .seq terms => haveAnchor terms
  | .rep inner _ _ _ _ => hasAnchor inner
  | .cls _ items => haveAnchor items
  | _ => false

def haveAnchor : List ASPathExpr → Bool
  | [] => false
  | e :: es => hasAnchor e || haveAnchor es

end

mutual

def nullable : ASPathExpr → Bool
  | .alt alts => anyNullable alts
  | .seq terms => allNullable terms
  | .rep inner _ min _ _ => min == 0 || nullable inner
  | _ => false

def anyNullable : List ASPathExpr → Bool
  | [] => false
  | e :: es => nullable e || anyNullable es

def allNullable : List ASPathExpr → Bool
  | [] => true
  | e :: es => nullable e && allNullable es

end

/-- Does one term match the single AS, and can every other one match the empty path? -/
def oneAmong (ones nulls : List Bool) : Bool :=
  ones.zipIdx.any fun p => p.1 && nulls.zipIdx.all fun q => q.2 == p.2 || q.1

section
variable (sets : List (SetName × ASNSet))

mutual

def onesAll : ASPathExpr → Bool
  | .any => true
  | .set name => name.isAny || (sets.lookup name).any ASNSet.any
  | .cls negated items => !negated && (onesEach items).any id
  | .alt alts => (onesEach alts).any id
  | .seq terms => oneAmong (onesEach terms) (terms.map nullable)
  | .rep inner _ min max _ => min ≤ 1 && max.all (1 ≤ ·) && onesAll inner
  | _ => false

/-- `onesAll` of each. -/
def onesEach : List ASPathExpr → List Bool
  | [] => []
  | e :: es => onesAll e :: onesEach es

end

def everyPath (e : ASPathExpr) : Bool :=
  let left := ASPathExpr.stripStart e.termsOf
  let right := ASPathExpr.stripEnd left.1
  if left.2 && right.2 then false
  else
    let rest := ASPathExpr.ofTerms right.1
    if hasAnchor rest then false else nullable rest || onesAll sets rest

end

/-- `rejectsEveryPath`; a test has a regexp with a body here. -/
def rejectsEveryPath (p : PathMatch) : Bool :=
  match p.re.body with
  | .alt alts => alts.any (everyPath p.sets)
  | e => everyPath p.sets e

end Rpsl.Consist
