import Rpsl.Policy.ASPath

/-!
# Policy filters

The filter nodes of `policy/ast.go`, and the canonical text of the tests that stay symbolic
(`policy/strings.go`).
-/

namespace Rpsl.Policy

open Text

inductive ASOp
  | and
  | or
  | except
deriving DecidableEq, Repr

/-- `ASExpr`; `nil` is the nil interface. -/
inductive ASExpr
  | nil
  | num (a : ASN)
  | setRef (name : SetName)
  | template (t : SetNameTemplate)
  | binary (op : ASOp) (l r : ASExpr)

/-! ## Community tests -/

/-- The length of the white space `s` begins with, as `unicode.IsSpace` reads its UTF-8: 0 for
none. -/
def spaceLen : Text → Nat
  | '\xc2' :: '\x85' :: _ | '\xc2' :: '\xa0' :: _ => 2
  | '\xe1' :: '\x9a' :: '\x80' :: _ | '\xe2' :: '\x81' :: '\x9f' :: _
  | '\xe3' :: '\x80' :: '\x80' :: _ => 3
  | '\xe2' :: '\x80' :: c :: _ =>
    if ('\x80' ≤ c ∧ c ≤ '\x8a') ∨ c = '\xa8' ∨ c = '\xa9' ∨ c = '\xaf' then 3 else 0
  | c :: _ => if c = ' ' ∨ ('\t' ≤ c ∧ c ≤ '\r') then 1 else 0
  | [] => 0

/-- `strings.Fields`; `skip` bytes of a space are left to pass over, and `cur` is the field under
way. -/
def fieldsFrom (skip : Nat) (cur : Text) : Text → List Text
  | [] => if cur.isEmpty then [] else [cur]
  | c :: s =>
    match skip with
    | skip + 1 => fieldsFrom skip cur s
    | 0 =>
      match spaceLen (c :: s) with
      | 0 => fieldsFrom 0 (cur ++ [c]) s
      | n + 1 => (if cur.isEmpty then [] else [cur]) ++ fieldsFrom n [] s

def collapse (s : Text) : Text := [' '].intercalate (fieldsFrom 0 [] s)

inductive CommunityOp
  | contains
  | equals
deriving DecidableEq, Repr

/-- Does the text after a '<' make it an operator, "<=" or "<<=", and not the start of a regexp? -/
def relOp (s : Text) : Bool := ['='].isPrefixOf s || ['<', '='].isPrefixOf s

/-- Does the parenthesis opened `d` deep before `s` close exactly at the end of `s`? Inside a
"<…>" regexp, which the policy lexer reads as one token, parentheses do not count. -/
def closes (inRegexp : Bool) (d : Nat) : Text → Bool
  | [] => false
  | c :: s =>
    if inRegexp then closes (c != '>') d s
    else if c = '(' then closes false (d + 1) s
    else if c = ')' then if d ≤ 1 then s.isEmpty else closes false (d - 1) s
    else closes (c = '<' && !relOp s) d s

/-- The values of a community test as they are printed. -/
def communityBody (values : List Text) : Text := (lit ", ").intercalate (values.map collapse)

/-- What the parser reads a community test from: a parenthesis that closes at the test's end
(`parseFilterMethod`), or words between braces (`parseCommunityEquals`). -/
def CommunityClosed : CommunityOp → List Text → Prop
  | .contains, values => closes false 1 (communityBody values ++ [')'])
  | .equals, values => '}' ∉ communityBody values

instance : (op : CommunityOp) → (values : List Text) → Decidable (CommunityClosed op values)
  | .contains, values =>
    inferInstanceAs (Decidable (closes false 1 (communityBody values ++ [')']) = true))
  | .equals, values => inferInstanceAs (Decidable ('}' ∉ communityBody values))

structure FilterCommunity where
  op : CommunityOp
  values : List Text
  raw : Text
  closed : CommunityClosed op values
deriving DecidableEq

/-- `FilterCommunity.String`. -/
def FilterCommunity.text (f : FilterCommunity) : Text :=
  match f.op with
  | .equals => lit "community == \x7b" ++ communityBody f.values ++ ['}']
  | .contains => lit "community(" ++ communityBody f.values ++ [')']

/-- "NOT " before a negated test. -/
def notIf (negated : Bool) (t : Text) : Text := if negated then lit "NOT " ++ t else t

/-- `policy.Filter`; `nil` is the nil interface. A path term's regexp is none where it did not
parse. -/
inductive Filter
  | nil
  | any
  | peerAS (op : RangeOperator)
  | prefixList (ranges : List PrefixRange)
  | asExpr (as : ASExpr) (op : RangeOperator)
  | setRef (name : SetName) (op : RangeOperator)
  | setTemplate (t : SetNameTemplate) (op : RangeOperator)
  | pathRE (raw : Text) (re : Option ASPathRE)
  | community (c : FilterCommunity)
  | and (terms : List Filter)
  | or (terms : List Filter)
  | not (inner : Filter)

inductive ActionOp
  | assign
  | append
  | method
deriving DecidableEq, Repr

/-- `policy.Action`; `attr` and `method` are lower-cased. -/
structure Action where
  attr : Text
  method : Text
  op : ActionOp
  args : List Text
  value : Text
  raw : Text
deriving DecidableEq

end Rpsl.Policy
