import Rpsl.Lexer.Lexer

/-!
# Objects and their edits

`ast/object.go`: an object is its attributes, each with the lines before it, and the lines after
the last. `Append` and `Set` write attributes as text and splice them between the others.

The inline comment of an attribute, which no edit reads, is left out.
-/

namespace Rpsl.Ast

open Lexer

structure Attribute where
  name : Bytes
  value : Bytes
  raw : Bytes
  span : Span
  segments : List Segment
  lead : Bytes
deriving DecidableEq

structure Object where
  attrs : List Attribute
  trail : Bytes
deriving DecidableEq

def joinRaw (toks : List Token) : Bytes := (toks.map (·.raw)).flatten

/-- The loop of `New`, with the trivia tokens before the next attribute. -/
def newLoop (run : List Token) : List Token → Object
  | [] => ⟨[], joinRaw run⟩
  | t :: ts =>
    if t.kind = .attribute then
      let o := newLoop [] ts
      { o with
        attrs := { name := t.name, value := t.value, raw := t.raw, span := t.span,
                   segments := t.segments, lead := joinRaw run } :: o.attrs }
    else newLoop (run ++ [t]) ts

namespace Object

def new (toks : List Token) : Object := newLoop [] toks

def string (o : Object) : Bytes := (o.attrs.flatMap fun a => a.lead ++ a.raw) ++ o.trail

end Object

/-! ## Values as text -/

/-- The errors that wrap `ErrInvalidAttribute`. -/
inductive EditError
  | name (name : Bytes)
  | value (value name : Bytes)
deriving DecidableEq

def isLetter (c : UInt8) : Bool := (97 ≤ c && c ≤ 122) || (65 ≤ c && c ≤ 90)

/-- A byte of a name after its first. -/
def isNameByte (c : UInt8) : Bool := isLetter c || (48 ≤ c && c ≤ 57) || c == 45 || c == 95

/-- A byte no value can hold: "#", and control characters but tab and newline. -/
def isBadByte (c : UInt8) : Bool := c == hash || c == 0x7f || (c < 0x20 && c != tab && c != nl)

def checkAttr (name value : Bytes) : Except EditError Bytes :=
  let name := canonicalName name
  if !(name.head?.any isLetter) || !name.all isNameByte then .error (.name name)
  else if value.any isBadByte then .error (.value value name)
  else .ok name

/-- `strings.Trim(l, " \t")`. -/
def trim (l : Bytes) : Bytes := (trimPos l 0).1

/-- A line of a value after the first, as `newAttr` writes it. -/
def contLine (indent : Nat) (l : Bytes) : Bytes :=
  if l = [] then [plus] else List.replicate indent space ++ l

def newAttr (name value pre term : Bytes) : Attribute :=
  let lines := (value.splitOn nl).map trim
  { name
    value := join lines
    raw := pre ++ lines.head?.getD [] ++ term ++
      lines.tail.flatMap fun l => contLine pre.length l ++ term
    span := ⟨0, 0, 0, 0, 0, 0⟩
    segments := []
    lead := [] }

def Attribute.namePrefix (a : Attribute) : Bytes :=
  let line := a.raw.takeWhile fun b => b != cr && b != nl
  let pre :=
    match a.segments with
    | s :: _ => if s.srcCol - 1 ≤ line.length then line.take (s.srcCol - 1).toNat
      else a.name ++ [colon, space]
    | [] => a.name ++ [colon, space]
  if pre.getLast?.any isBlank then pre else pre ++ [space]

def lineTerm (raw : Bytes) : Bytes :=
  match raw.findIdx? (· = nl) with
  | some (i + 1) => if raw[i]? = some cr then [cr, nl] else [nl]
  | _ => [nl]

def terminate (s ending : Bytes) : Bytes :=
  if s = [] ∨ s.getLast? = some nl then s
  else if s.getLast? = some cr then s ++ [nl]
  else s ++ ending

/-! ## Edits -/

/-- The last attribute, with its line ended. -/
def terminateLast (ending : Bytes) : List Attribute → List Attribute
  | [] => []
  | [a] => [{ a with raw := terminate a.raw ending }]
  | a :: b :: as => a :: terminateLast ending (b :: as)

/-- The attributes `Set` writes where the first of the name was: the first takes the lines before
it. -/
def place (name pre term : Bytes) : List Bytes → Bytes → List Attribute × Bytes
  | [], carry => ([], carry)
  | v :: vs, carry =>
    ({ newAttr name v pre term with lead := carry } :: (place name pre term vs []).1, [])

/-- The loop of `Set`: what is kept, the lines before the removed ones and whether any was. -/
def setLoop (name : Bytes) (values : List Bytes) :
    List Attribute → Bytes → Bool → List Attribute × Bytes × Bool
  | [], carry, found => ([], carry, found)
  | a :: as, carry, found =>
    if a.name ≠ name then
      match setLoop name values as [] found with
      | (kept, carry', found') => ({ a with lead := carry ++ a.lead } :: kept, carry', found')
    else if found then setLoop name values as (carry ++ a.lead) true
    else
      match place name a.namePrefix (lineTerm a.raw) values (carry ++ a.lead) with
      | (new, carry') =>
        match setLoop name values as carry' true with
        | (kept, carry'', found') => (new ++ kept, carry'', found')

namespace Object

def lineEnding (o : Object) : Bytes :=
  match o.attrs with
  | a :: _ => lineTerm a.raw
  | [] => [nl]

def ensureTrailingNewline (o : Object) : Object :=
  if o.attrs = [] then { o with trail := terminate o.trail o.lineEnding }
  else { o with attrs := terminateLast o.lineEnding o.attrs }

def appendAttr (o : Object) (a : Attribute) : Object :=
  let o := o.ensureTrailingNewline
  if o.attrs = [] then ⟨[{ a with lead := o.trail }], []⟩
  else { o with attrs := o.attrs ++ [a] }

/-- An attribute at the end, in the object's line ending. -/
def appendNew (o : Object) (name value : Bytes) : Object :=
  o.appendAttr (newAttr name value (name ++ [colon, space]) o.lineEnding)

def append (o : Object) (name value : Bytes) : Except EditError Object := do
  let name ← checkAttr name value
  return o.appendNew name value

def set (o : Object) (name : Bytes) (values : List Bytes) : Except EditError Object := do
  let name ← checkAttr name []
  values.forM fun v => do let _ ← checkAttr name v
  match setLoop name values o.attrs [] false with
  | (kept, carry, found) =>
    let o : Object := ⟨kept, carry ++ o.trail⟩
    return if found then o else values.foldl (·.appendNew name ·) o

end Object

/-- A call of `Append` or `Set`. -/
inductive Edit
  | append (name value : Bytes)
  | set (name : Bytes) (values : List Bytes)

def Edit.apply : Edit → Object → Except EditError Object
  | .append name value, o => o.append name value
  | .set name values, o => o.set name values

/-- The object after a call: as it was, where the call refused. -/
def Object.edit (o : Object) (e : Edit) : Object :=
  match e.apply o with
  | .ok o' => o'
  | .error _ => o

/-- The object after a sequence of calls. -/
def Object.run (o : Object) (es : List Edit) : Object := es.foldl Object.edit o

end Rpsl.Ast
