import Rpsl.Policy.Filter
import Rpsl.Resolve.Claims

/-!
# Actions

`policy/actions.go` and `Action.String`: what a policy's actions say, read from the text their
values and arguments keep.
-/

namespace Rpsl.Policy

open Text
open Resolve (trimSpace)

def atoi : Text → Option Int
  | '-' :: s => (parseUint s 64).bind fun n => if n ≤ 2 ^ 63 then some (-n) else none
  | '+' :: s => (parseUint s 63).map Int.ofNat
  | s => (parseUint s 63).map Int.ofNat

def splitTrim (s : Text) : List Text := ((s.splitOn ',').map trimSpace).filter (· ≠ [])

/-- `delimited`: what stands between the first `start` and the last `clo`. -/
def delimited (s : Text) (start clo : Char) : List Text :=
  match s.findIdx? (· = start), s.reverse.findIdx? (· = clo) with
  | some i, some k =>
    let j := s.length - 1 - k
    if j ≤ i then [] else splitTrim ((s.take j).drop (i + 1))
  | _, _ => []

def braceList (s : Text) : List Text :=
  if ['{'].isPrefixOf (trimSpace s) then delimited (trimSpace s) '{' '}' else splitTrim s

namespace Action

variable (a : Action)

def int : Option Int := if a.op = .assign then atoi (trimSpace a.value) else none

def prepends : Option (List ASN) :=
  if a.op ≠ .method ∨ a.attr ≠ lit "aspath" ∨ a.method ≠ lit "prepend" then none
  else a.args.mapM ASN.parse

def communities : Option (List Text) :=
  if a.attr ≠ lit "community" then none
  else if a.op = .assign ∨ a.op = .append then some (braceList a.value)
  else if a.method = lit "append" then some a.args
  else none

/-- `Action.String`: an operator is kept as the method it names. -/
def text : Text :=
  match a.op with
  | .assign => a.attr ++ lit " = " ++ collapse a.value
  | .append => a.attr ++ lit " .= " ++ collapse a.value
  | .method =>
    if (lit "operator").isPrefixOf a.method then
      a.attr ++ ' ' :: a.method.drop 8 ++ ' ' :: collapse ((lit ", ").intercalate a.args)
    else a.attr ++ '.' :: a.method ++ '(' :: (lit ", ").intercalate (a.args.map collapse) ++ [')']

end Action

end Rpsl.Policy
