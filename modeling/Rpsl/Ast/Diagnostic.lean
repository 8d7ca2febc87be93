import Rpsl.Lexer.Lexer
import Rpsl.Types.SetName

/-!
# Diagnostics of the lexer's tokens

`ast.Diagnostic`, and `diagnose` of `rpsl.go`: what a parse reports of malformed lines, of names
that are not attribute names and of a second object in the text. `%q` is a parameter.
-/

namespace Rpsl.Ast

open Lexer

inductive Severity
  | info
  | warning
  | error
deriving DecidableEq

/-- The rules a parse reports. -/
inductive Rule
  | malformedLine
  | invalidAttributeName
  | tooManyErrors
  | multipleObjects
  | objectTooLarge
  | triviaTooLarge
  | readError
  | notUTF8
deriving DecidableEq

/-- The texts of `Diagnostic.Rule`. -/
def Rule.text : Rule → Text
  | .malformedLine => Text.lit "lexer/malformed-line"
  | .invalidAttributeName => Text.lit "lexer/invalid-attribute-name"
  | .tooManyErrors => Text.lit "lexer/too-many-errors"
  | .multipleObjects => Text.lit "rpsl/multiple-objects"
  | .objectTooLarge => Text.lit "rpsl/object-too-large"
  | .triviaTooLarge => Text.lit "rpsl/trivia-too-large"
  | .readError => Text.lit "rpsl/read-error"
  | .notUTF8 => Text.lit "rpsl/not-utf8"

structure Diagnostic where
  severity : Severity
  message : Text
  span : Span
  rule : Rule
deriving DecidableEq

def isLower (c : UInt8) : Bool := 97 ≤ c && c ≤ 122

def validAttrName : Bytes → Bool
  | [] => false
  | c :: cs =>
    isLower c && cs.all fun c => isLower c || (48 ≤ c && c ≤ 57) || c == 45 || c == 95

def maxLexerDiagnostics : Nat := 100

/-- The variables of `diagnose`. -/
structure Diagnosing where
  ds : List Diagnostic := []
  lineDiags : Nat := 0
  extra : Nat := 0
  firstExtra : Span := ⟨0, 0, 0, 0, 0, 0⟩
  seenAttr : Bool := false
  blankAfterAttr : Bool := false
  warned : Bool := false

namespace Diagnosing

def perLine (s : Diagnosing) (d : Diagnostic) : Diagnosing :=
  if s.lineDiags + 1 ≤ maxLexerDiagnostics then
    { s with lineDiags := s.lineDiags + 1, ds := s.ds ++ [d] }
  else
    { s with
      lineDiags := s.lineDiags + 1
      extra := s.extra + 1
      firstExtra := if s.extra = 0 then d.span else s.firstExtra }

/-- A name that is not an attribute name. -/
def checkName (quote : Bytes → Text) (s : Diagnosing) (t : Token) : Diagnosing :=
  if validAttrName t.name then s
  else
    s.perLine
      { severity := .error, message := Text.lit "invalid attribute name " ++ quote t.name
        span := t.span, rule := .invalidAttributeName }

/-- An attribute after a blank line after an attribute. -/
def checkObject (s : Diagnosing) (t : Token) : Diagnosing :=
  if s.blankAfterAttr && !s.warned then
    { s with
      warned := true
      ds := s.ds ++ [
        { severity := .warning
          message := Text.lit "text holds more than one object; use Parse for multi-object input"
          span := t.span, rule := .multipleObjects }] }
  else s

/-- One turn of the loop of `diagnose`. -/
def token (quote : Bytes → Text) (s : Diagnosing) (t : Token) : Diagnosing :=
  match t.kind with
  | .malformed =>
    s.perLine
      { severity := .error
        message := Text.lit "line is not a valid attribute, continuation, comment, or blank"
        span := t.span, rule := .malformedLine }
  | .blank => { s with blankAfterAttr := s.seenAttr }
  | .attribute => { (s.checkName quote t).checkObject t with seenAttr := true }
  | .comment => s

end Diagnosing

def diagnose (quote : Bytes → Text) (toks : List Token) : List Diagnostic :=
  let s := toks.foldl (Diagnosing.token quote) {}
  if 0 < s.extra then
    s.ds ++ [
      { severity := .error
        message := Text.ofNat s.extra ++
          Text.lit " more malformed lines or invalid attribute names not reported"
        span := s.firstExtra, rule := .tooManyErrors }]
  else s.ds

end Rpsl.Ast
