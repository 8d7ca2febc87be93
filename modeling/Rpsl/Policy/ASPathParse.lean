import Rpsl.Policy.Flatten
import Rpsl.Policy.Template

/-!
# Reading AS-path regexps

The tokenizer and the recursive-descent parser of `policy/regexp.go`. Where a token stands in the
body, and which AS numbers are written without "AS", only tells a diagnostic what to point at and
is left out, as are the texts of the errors: `ReError` has one case for each.
-/

namespace Rpsl.Policy

open Text

/-- `reToken`; the end of the tokens is `reEOF`. -/
inductive ReToken
  | word (text : Text)
  | caret
  | dollar
  | dot
  | star
  | plus
  | quest
  | pipe
  | lParen
  | rParen
  | lBrace
  | rBrace
  | comma
  | lBracket
  | rBracket
  | tilde
  | dash
deriving DecidableEq, Repr

/-- The errors of `ParseASPathRegexp`; where a token is none, the regexp has ended. -/
inductive ReError
  | tooLong
  | byte (c : Char)
  | empty
  | unexpected (found : Option ReToken)
  | tooDeep
  | tilde
  | onAnchor
  | bound (upper : Bool) (found : Option ReToken)
  | brace (found : Option ReToken)
  | minMax (lo hi : Nat)
  | paren (found : Option ReToken)
  | unterminated
  | inSet (found : ReToken)
  | emptySet
  | afterDash (found : Option ReToken)
  | range (lo hi : Text)
  | reversed (lo hi : Text)
  | set (w : Text) (cls : SetClass)
  | template (w : Text) (cls : SetClass)
  | term (w : Text)
deriving DecidableEq, Repr

/-! ## Tokens -/

def reSingle : Char → Option ReToken
  | '^' => some .caret
  | '$' => some .dollar
  | '.' => some .dot
  | '*' => some .star
  | '+' => some .plus
  | '?' => some .quest
  | '|' => some .pipe
  | '(' => some .lParen
  | ')' => some .rParen
  | '{' => some .lBrace
  | '}' => some .rBrace
  | ',' => some .comma
  | '[' => some .lBracket
  | ']' => some .rBracket
  | '~' => some .tilde
  | '-' => some .dash
  | _ => none

def isWordStart (c : Char) : Bool := c.isDigit || c.isAlpha
def isWordCont (c : Char) : Bool := isWordStart c || c == ':' || c == '_' || c == '-'

/-- Does the word go on with `c`, before `s`? A dot is of the word before a digit ("AS1.10"). -/
def wordGoesOn (c : Char) (s : Text) : Bool :=
  isWordCont c || (c == '.' && s.head?.any Char.isDigit)

/-- The word a text begins with, and what is after it. -/
def wordSpan : Text → Text × Text
  | [] => ([], [])
  | c :: s => if wordGoesOn c s then (c :: (wordSpan s).1, (wordSpan s).2) else ([], c :: s)

theorem wordSpan_length (s : Text) : (wordSpan s).2.length ≤ s.length := by
  induction s with
  | nil => exact Nat.le_refl _
  | cons c s ih =>
    unfold wordSpan
    split
    · exact Nat.le_succ_of_le ih
    · exact Nat.le_refl _

/-- A token's place among the tokens: `left` may still follow. -/
def emit (left : Nat) (t : ReToken) (rest : Nat → Except ReError (List ReToken)) :
    Except ReError (List ReToken) :=
  match left with
  | 0 => .error .tooLong
  | left + 1 => (rest left).map (t :: ·)

/-- `maxTokens`: the tokens of one policy value. -/
def maxTokens : Nat := 2 ^ 20

/-- `reScan`, and `reTokenize` where `left` is `maxTokens`. -/
def reScan (left : Nat) : Text → Except ReError (List ReToken)
  | [] => .ok []
  | c :: s =>
    match spaceLen (c :: s) with
    | n + 1 => reScan left (s.drop n)
    | 0 =>
      if isWordStart c then
        emit left (.word (c :: (wordSpan s).1)) fun left => reScan left (wordSpan s).2
      else
        match reSingle c with
        | none => .error (.byte c)
        | some t => emit left t fun left => reScan left s
termination_by s => s.length
decreasing_by
  all_goals simp only [List.length_cons, List.length_drop]
  · omega
  · exact Nat.lt_succ_of_le (wordSpan_length s)
  · omega

/-! ## Words -/

/-- `regexpASN`; whether the number is bare is left out. -/
def regexpASN (w : Text) : Option ASN :=
  match parseUint w 32 with
  | some v => some (UInt32.ofNat v)
  | none => ASN.parse w

def classifyWord (w : Text) : Except ReError ASPathExpr :=
  match regexpASN w with
  | some a => .ok (.asn a)
  | none =>
    if SetNameTemplate.isPeerAS w then .ok .peerAS
    else
      match SetName.parse w with
      | some n => if n.cls = .asSet then .ok (.set n) else .error (.set w n.cls)
      | none =>
        match SetNameTemplate.parse w with
        | some t => if t.cls = .asSet then .ok (.template t) else .error (.template w t.cls)
        | none => .error (.term w)

def asnRange (lo hi : Text) : Except ReError ASPathExpr :=
  match regexpASN lo, regexpASN hi with
  | some l, some h => if h < l then .error (.reversed lo hi) else .ok (.asnRange l h)
  | _, _ => .error (.range lo hi)

/-- `classItem`, of a word no "-" follows: "AS1-AS10" is a range. -/
def classItem (w : Text) : Except ReError ASPathExpr :=
  let lo := w.takeWhile (· != '-')
  let hi := (w.dropWhile (· != '-')).drop 1
  if w.contains '-' && (regexpASN lo).isSome && (regexpASN hi).isSome then asnRange lo hi
  else classifyWord w

/-! ## The parser -/

/-- `reParser`: a part is read from the tokens that are left, and returned with those after it. -/
abbrev ReParser (α : Type) := List ReToken → Except ReError (α × List ReToken)

/-- The loop of `parseClass`, to the "]". -/
def classItems : ReParser (List ASPathExpr)
  | .rBracket :: ts => .ok ([], ts)
  | .dot :: ts => do
    let (es, rest) ← classItems ts
    .ok (.any :: es, rest)
  | .word lo :: .dash :: .word hi :: ts => do
    let e ← asnRange lo hi
    let (es, rest) ← classItems ts
    .ok (e :: es, rest)
  | .word _ :: .dash :: ts => .error (.afterDash ts.head?)
  | .word w :: ts => do
    let e ← classItem w
    let (es, rest) ← classItems ts
    .ok (e :: es, rest)
  | [] => .error .unterminated
  | t :: _ => .error (.inSet t)

/-- `parseClass`, after the "[" and the "^". -/
def parseClass (negated : Bool) : ReParser ASPathExpr := fun ts => do
  let (es, rest) ← classItems ts
  if es.isEmpty then .error .emptySet else .ok (.cls negated es, rest)

/-- `quantBound`; a bound is an `int`. -/
def quantBound (upper : Bool) : ReParser Nat
  | .word w :: ts =>
    match parseUint w 63 with
    | some v => .ok (v, ts)
    | none => .error (.bound upper (some (.word w)))
  | ts => .error (.bound upper ts.head?)

/-- The upper bound of a range, after the lower one. -/
def upperBound (lo : Nat) : ReParser (Option Nat)
  | .comma :: .word w :: ts => do
    let (hi, rest) ← quantBound true (.word w :: ts)
    .ok (some hi, rest)
  | .comma :: ts => .ok (none, ts)
  | ts => .ok (some lo, ts)

/-- `parseRange`, after the "{": the bounds. -/
def parseRange : ReParser (Nat × Option Nat) := fun ts => do
  let (lo, ts) ← quantBound false ts
  let (hi, ts) ← upperBound lo ts
  match ts with
  | .rBrace :: ts =>
    match hi with
    | none => .ok ((lo, none), ts)
    | some hi => if hi < lo then .error (.minMax lo hi) else .ok ((lo, some hi), ts)
  | ts => .error (.brace ts.head?)

/-- The "~" of a quantifier. -/
def sameMark : ReParser Bool
  | .tilde :: ts =>
    match ts.head? with
    | some .star | some .plus | some .lBrace => .ok (true, ts)
    | _ => .error .tilde
  | ts => .ok (false, ts)

/-- The quantifier at the front, if one is there: its operator and bounds. -/
def quantifier : ReParser (Option (RepeatOp × Nat × Option Nat))
  | .star :: ts => .ok (some (.star, 0, none), ts)
  | .plus :: ts => .ok (some (.plus, 1, none), ts)
  | .quest :: ts => .ok (some (.quest, 0, some 1), ts)
  | .lBrace :: ts => do
    let ((lo, hi), rest) ← parseRange ts
    .ok (some (.range, lo, hi), rest)
  | ts => .ok (none, ts)

def ASPathExpr.isAnchor : ASPathExpr → Bool
  | .start | .end_ => true
  | _ => false

/-- The loop of `parseTerm`: so many quantifiers, less one, may still be applied to the atom. -/
def quantify : Nat → ASPathExpr → ReParser ASPathExpr
  | 0, _, _ => .error .tooDeep
  | n + 1, atom, ts => do
    let (same, ts) ← sameMark ts
    let (q, ts) ← quantifier ts
    match q with
    | none => .ok (atom, ts)
    | some (op, min, max) =>
      if atom.isAnchor then .error .onAnchor else quantify n (.rep atom op min max same) ts

/-- `parseAtom`; `inner` reads what is in parentheses. -/
def parseAtom (inner : ReParser ASPathExpr) : ReParser ASPathExpr
  | .lParen :: ts => do
    let (e, rest) ← inner ts
    match rest with
    | .rParen :: rest => .ok (e, rest)
    | rest => .error (.paren rest.head?)
  | .lBracket :: .caret :: ts => parseClass true ts
  | .lBracket :: ts => parseClass false ts
  | .dot :: ts => .ok (.any, ts)
  | .caret :: ts => .ok (.start, ts)
  | .dollar :: ts => .ok (.end_, ts)
  | .word w :: ts => do
    let e ← classifyWord w
    .ok (e, ts)
  | ts => .error (.unexpected ts.head?)

/-- `parseTerm`, where `depth` more levels may be opened. -/
def parseTerm (depth : Nat) (inner : ReParser ASPathExpr) : ReParser ASPathExpr := fun ts => do
  let (atom, ts) ← parseAtom inner ts
  quantify (depth + 1) atom ts

/-- `isAtomStart`, of the next token. -/
def isAtomStart : List ReToken → Bool
  | .word _ :: _ | .dot :: _ | .lParen :: _ | .lBracket :: _ | .caret :: _ | .dollar :: _ => true
  | _ => false

/-- The loop of `parseSeq`; each term takes a token of the `n` that are left. -/
def parseTerms (term : ReParser ASPathExpr) : Nat → ReParser (List ASPathExpr)
  | 0, ts => .ok ([], ts)
  | n + 1, ts =>
    if isAtomStart ts then do
      let (e, rest) ← term ts
      let (es, rest) ← parseTerms term n rest
      .ok (e :: es, rest)
    else .ok ([], ts)

/-- A sequence of one term is the term. -/
def ASPathExpr.ofTerms : List ASPathExpr → ASPathExpr
  | [e] => e
  | es => .seq es

def parseSeq (term : ReParser ASPathExpr) : ReParser ASPathExpr := fun ts => do
  let (es, rest) ← parseTerms term ts.length ts
  .ok (.ofTerms es, rest)

/-- The loop of `parseAlt`; each branch takes a token of the `n` that are left. -/
def parseAlts (seq : ReParser ASPathExpr) : Nat → ReParser (List ASPathExpr)
  | n + 1, .pipe :: ts => do
    let (e, rest) ← seq ts
    let (es, rest) ← parseAlts seq n rest
    .ok (e :: es, rest)
  | _, ts => .ok ([], ts)

/-- An alternation of one branch is the branch. -/
def ASPathExpr.ofAlts (first : ASPathExpr) : List ASPathExpr → ASPathExpr
  | [] => first
  | more => .alt (first :: more)

/-- `parseAlt`, where so many more levels may be opened. -/
def parseAlt : Nat → ReParser ASPathExpr
  | 0, _ => .error .tooDeep
  | depth + 1, ts => do
    let seq := parseSeq (parseTerm depth (parseAlt depth))
    let (first, rest) ← seq ts
    let (more, rest) ← parseAlts seq rest.length rest
    .ok (.ofAlts first more, rest)

def parseASPathRegexp (body : Text) : Except ReError ASPathRE := do
  let ts ← reScan maxTokens body
  if ts.isEmpty then .error .empty
  else
    let (e, rest) ← parseAlt maxParseDepth ts
    match rest with
    | [] => .ok ⟨e⟩
    | t :: _ => .error (.unexpected (some t))

end Rpsl.Policy
