import Rpsl.Resolve.PathMeaning
import Rpsl.Rtconfig.Vendor

/-!
# AS-path regexps in the vendors' dialects

`rtconfig/regex.go`: a regexp is rewritten, position by position, into the text of a vendor's own
syntax, and refused where the vendor has none.
-/

namespace Rpsl.Rtconfig

open Policy Resolve Text

def maxRepeat : Nat := 32
def maxClassRange : Nat := 1024

structure Translator where
  v : Vendor
  sets : List (SetName × ASNSet)
  term : Text

def num (a : ASN) : Text := ofNat a.toNat

/-- The numbers from `lo` to `hi`. -/
def asnsFrom (lo hi : ASN) : List ASN :=
  (List.range (hi.toNat - lo.toNat + 1)).map fun i => UInt32.ofNat (lo.toNat + i)

/-- An AS at the end of the list, if it is not in it. -/
def addASN (asns : List ASN) (a : ASN) : List ASN := if a ∈ asns then asns else asns ++ [a]

/-- The variables of the class case of `members`. -/
structure ClassItems where
  asns : List ASN := []
  anyAS : Bool := false
  ranges : List (ASN × ASN) := []

namespace Translator

variable (t : Translator)

def refuse (cause : Cause) : UnsupportedError := ⟨t.v, cause, '<' :: t.term ++ ['>']⟩

/-- The ranges of a class, after its other items. -/
def addRanges : List ASN → List (ASN × ASN) → Except UnsupportedError (List ASN)
  | asns, [] => .ok asns
  | asns, (lo, hi) :: rs =>
    if hi < lo ∨ maxClassRange ≤ (hi - lo).toNat then .error (t.refuse .pathShape)
    else addRanges ((asnsFrom lo hi).foldl addASN asns) rs

mutual

/-- `members`: the ASes one position may hold, none for any AS. -/
def members : ASPathExpr → Except UnsupportedError (Option (List ASN))
  | .asn a => .ok (some [a])
  | .any => .ok none
  | .set name =>
    if name.isAny then .ok none
    else if (setOf t.sets name).any then .error (t.refuse .anySet)
    else .ok (some ((setOf t.sets name).asns.dedup.insertionSort (· ≤ ·)))
  | .cls negated items =>
    if negated then .error (t.refuse .negatedClass)
    else do
      let c ← classItems items {}
      if c.anyAS then .ok none
      else do
        let asns ← t.addRanges c.asns c.ranges
        .ok (some (asns.insertionSort (· ≤ ·)))
  | _ => .error (t.refuse .pathShape)

/-- The loop over a class's items. -/
def classItems : List ASPathExpr → ClassItems → Except UnsupportedError ClassItems
  | [], c => .ok c
  | .asnRange lo hi :: es, c => classItems es { c with ranges := c.ranges ++ [(lo, hi)] }
  | e :: es, c => do
    match ← members e with
    | none => classItems es { c with anyAS := true }
    | some asns => classItems es { c with asns := asns.foldl addASN c.asns }

end

/-! ## IOS and IOS-XR -/

def iosRepeat (inner : Text) (op : RepeatOp) (min : Nat) (max : Option Nat) :
    Except UnsupportedError Text :=
  let g := '(' :: inner ++ [')']
  match op with
  | .star => .ok (g ++ ['*'])
  | .plus => .ok (g ++ ['+'])
  | .quest => .ok (g ++ ['?'])
  | .range =>
    if maxRepeat < min ∨ (max.any fun m => decide (maxRepeat < m)) then .error (t.refuse .pathShape)
    else
      .ok ((List.replicate min inner).flatten ++
        match max with
        | none => g ++ ['*']
        | some max => (List.replicate (max - min) (g ++ ['?'])).flatten)

/-- The text of one position. -/
def iosAtom : Option (List ASN) → Text
  | none => lit "_[0-9]+"
  | some [] => lit "_0"
  | some [a] => '_' :: num a
  | some asns => lit "_(" ++ ['|'].intercalate (asns.map num) ++ [')']

/-- An AS number. -/
def isASN : ASPathExpr → Bool
  | .asn _ => true
  | _ => false

mutual

def ios : ASPathExpr → Except UnsupportedError Text
  | .start => .ok ['^']
  | .end_ => .ok ['$']
  | .seq terms => do
    let parts ← iosAll terms
    .ok parts.flatten
  | .alt alts => do
    let parts ← iosAll alts
    .ok ('(' :: ['|'].intercalate parts ++ [')'])
  | .rep inner op min max same =>
    -- `repeatInner`
    if same && !isASN inner then .error (t.refuse .sameAS)
    else do
      let s ← ios inner
      t.iosRepeat s op min max
  | e => do
    let asns ← t.members e
    .ok (iosAtom asns)

def iosAll : List ASPathExpr → Except UnsupportedError (List Text)
  | [] => .ok []
  | e :: es => do
    let s ← ios e
    let ss ← iosAll es
    .ok (s :: ss)

end

/-! ## Junos -/

/-- `runs`: three or more consecutive numbers are one run. -/
def runs : List ASN → List (ASN × ASN)
  | [] => []
  | a :: as =>
    let more := follow a as
    if 2 ≤ more then (a, UInt32.ofNat (a.toNat + more)) :: runs (as.drop more)
    else (a, a) :: runs as
termination_by as => as.length
decreasing_by all_goals simp; try omega
where
  /-- How many of the list follow `a`, each one more than the one before. -/
  follow : ASN → List ASN → Nat
    | _, [] => 0
    | a, b :: bs => if b = a + 1 then follow b bs + 1 else 0

/-- A run: a number, or its ends with `dash` between. -/
def runText (dash : Text) (r : ASN × ASN) : Text :=
  if r.1 = r.2 then num r.1 else num r.1 ++ dash ++ num r.2

def junosAlt (asns : List ASN) : Text :=
  if asns = [] then ['0']
  else
    match (runs asns).map (runText ['-']) with
    | [part] => part
    | parts => '(' :: ['|'].intercalate parts ++ [')']

def quantifier (op : RepeatOp) (min : Nat) (max : Option Nat) : Text :=
  match op with
  | .star => ['*']
  | .plus => ['+']
  | .quest => ['?']
  | .range =>
    match max with
    | none => '{' :: ofNat min ++ [',', '}']
    | some max =>
      if max = min then '{' :: ofNat min ++ ['}']
      else '{' :: ofNat min ++ ',' :: ofNat max ++ ['}']

def singleAtom : ASPathExpr → Bool
  | .asn _ => true
  | .any => true
  | .set _ => true
  | .cls _ _ => true
  | _ => false

/-- `topLevel`: the terms without the anchors at their ends, and which there are. -/
def topLevel (body : ASPathExpr) : List ASPathExpr × Bool × Bool :=
  let terms := match body with
    | .seq terms => terms
    | e => [e]
  let (terms, start) := match terms with
    | .start :: terms => (terms, true)
    | terms => (terms, false)
  match terms.getLast? with
  | some .end_ => (terms.dropLast, start, true)
  | _ => (terms, start, false)

mutual

def junosExpr : ASPathExpr → Except UnsupportedError Text
  | .start => .error (t.refuse .pathShape)
  | .end_ => .error (t.refuse .pathShape)
  | .seq terms => do
    let parts ← junosExprs terms
    .ok ('(' :: [' '].intercalate parts ++ [')'])
  | .alt alts => do
    let parts ← junosExprs alts
    .ok ('(' :: ['|'].intercalate parts ++ [')'])
  | .rep inner op min max same =>
    if same && !isASN inner then .error (t.refuse .sameAS)
    else do
      let s ← junosExpr inner
      let s := if !singleAtom inner && !(s.head? = some '(' && s.getLast? = some ')') then
        '(' :: s ++ [')'] else s
      .ok (s ++ quantifier op min max)
  | e => do
    match ← t.members e with
    | none => .ok ['.']
    | some asns => .ok (junosAlt asns)

def junosExprs : List ASPathExpr → Except UnsupportedError (List Text)
  | [] => .ok []
  | e :: es => do
    let s ← junosExpr e
    let ss ← junosExprs es
    .ok (s :: ss)

end

def junos (body : ASPathExpr) : Except UnsupportedError Text := do
  let (terms, start, end_) := topLevel body
  let parts ← t.junosExprs terms
  let parts := (if start then [] else [lit ".*"]) ++ parts ++ (if end_ then [] else [lit ".*"])
  if parts = [] then .ok (lit "()") else .ok ([' '].intercalate parts)

/-! ## BIRD -/

/-- The text of one position in a path mask. -/
def birdAtom : Option (List ASN) → Text
  | none => ['?']
  | some [] => ['0']
  | some [a] => num a
  | some asns => '[' :: (lit ", ").intercalate ((runs asns).map (runText (lit ".."))) ++ [']']

mutual

def birdTerm : ASPathExpr → Except UnsupportedError Text
  | .rep .any .star _ _ false => .ok ['*']
  | .rep .any .plus _ _ false => .ok (lit "? *")
  | .rep _ _ _ _ _ => .error (t.refuse .pathShape)
  | .seq terms => do
    let parts ← birdTerms terms
    .ok ([' '].intercalate parts)
  | e =>
    if !singleAtom e then .error (t.refuse .pathShape)
    else do
      let asns ← t.members e
      .ok (birdAtom asns)

def birdTerms : List ASPathExpr → Except UnsupportedError (List Text)
  | [] => .ok []
  | e :: es => do
    let s ← birdTerm e
    let ss ← birdTerms es
    .ok (s :: ss)

end

def bird (body : ASPathExpr) : Except UnsupportedError Text := do
  let (terms, start, end_) := topLevel body
  let parts ← t.birdTerms terms
  let parts := (if start then [] else [['*']]) ++ parts ++ (if end_ then [] else [['*']])
  if parts = [] then .ok (lit "[= =]") else .ok (lit "[= " ++ [' '].intercalate parts ++ lit " =]")

/-- The text for IOS and IOS-XR: the last AS needs a boundary after it too. -/
def iosPath (body : ASPathExpr) : Except UnsupportedError Text := do
  let s ← t.ios body
  .ok (if s.getLast? = some '$' then s else s ++ ['_'])

end Translator

def translatePath (v : Vendor) (m : PathMatch) (term : Text) : Except UnsupportedError Text :=
  let t : Translator := ⟨v, m.sets, term⟩
  match v with
  | .junos => t.junos m.re.body
  | .bird2 => t.bird m.re.body
  | _ => t.iosPath m.re.body

end Rpsl.Rtconfig
