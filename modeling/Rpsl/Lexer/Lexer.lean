import Mathlib

/-!
# The lexer

`lexer/lexer.go`, over byte strings. `scanLines` cuts the source into physical lines, `classify`
decides each line's kind and whether it folds into the attribute before it, and `tokenizeAt` folds
the lines into tokens: each keeps its bytes (`raw`), and an attribute its value, joined from one
segment per line, with the source position of each segment (`sourceAt` reads them).
-/

namespace Rpsl.Lexer

abbrev Bytes := List UInt8

def nl : UInt8 := 10
def cr : UInt8 := 13
def tab : UInt8 := 9
def space : UInt8 := 32
def hash : UInt8 := 35
def plus : UInt8 := 43
def colon : UInt8 := 58

/-- `s[i:j]`. -/
def slice (s : Bytes) (i j : Nat) : Bytes := (s.take j).drop i

inductive Kind
  | attribute
  | blank
  | comment
  | malformed
deriving DecidableEq

/-- `Span`: lines and columns count from one, byte offsets from zero. -/
structure Span where
  startLine : Int
  startCol : Int
  endLine : Int
  endCol : Int
  startByte : Int
  endByte : Int
deriving DecidableEq

/-- `Segment`: the part of a value one line gave, and where it is in the source. -/
structure Segment where
  valStart : Nat
  valEnd : Nat
  srcLine : Int
  srcCol : Int
  srcByte : Int
deriving DecidableEq

structure Token where
  kind : Kind
  name : Bytes
  value : Bytes
  raw : Bytes
  span : Span
  segments : List Segment
deriving DecidableEq

/-- The loop of `SourceAt`, with the segment last seen. -/
def sourceAtLoop (off : Nat) : Segment → List Segment → Int × Int × Int
  | last, [] =>
    let d := last.valEnd - last.valStart
    (last.srcLine, last.srcCol + d, last.srcByte + d)
  | _, s :: ss =>
    if off ≤ s.valEnd then
      let d := off - s.valStart
      (s.srcLine, s.srcCol + d, s.srcByte + d)
    else sourceAtLoop off s ss

/-- `Token.SourceAt`: the line, column and byte offset of a byte of the value. -/
def Token.sourceAt (t : Token) (valOffset : Int) : Int × Int × Int :=
  match t.segments with
  | [] => (t.span.startLine, t.span.startCol, t.span.startByte)
  | s :: ss => sourceAtLoop valOffset.toNat s (s :: ss)

structure PhysLine where
  text : Bytes
  term : Bytes
  start : Nat
  line : Nat
deriving DecidableEq

/-- The line's bytes, with its terminator. -/
def PhysLine.bytes (pl : PhysLine) : Bytes := pl.text ++ pl.term

/-- The line that `upTo` and the newline or end of input `eol` after it make: a "\r" before either
belongs to the terminator. -/
def endLine (upTo eol : Bytes) (i lineNo : Nat) : PhysLine :=
  if upTo.getLast? = some cr then ⟨upTo.dropLast, cr :: eol, i, lineNo⟩ else ⟨upTo, eol, i, lineNo⟩

/-- `scanLines` on what is left of the source: `i` is where it starts, `lineNo` its line. -/
def scanLinesFrom (rest : Bytes) (i lineNo : Nat) : List PhysLine :=
  if rest = [] then []
  else
    let upTo := rest.takeWhile (· ≠ nl)
    match h : rest.dropWhile (· ≠ nl) with
    | _ :: after =>
      endLine upTo [nl] i lineNo :: scanLinesFrom after (i + upTo.length + 1) (lineNo + 1)
    | [] => [endLine upTo [] i lineNo]
termination_by rest.length
decreasing_by
  have := congrArg List.length h
  have := List.length_dropWhile_le (· ≠ nl) rest
  simp only [List.length_cons] at *
  omega

def scanLines (src : Bytes) : List PhysLine := scanLinesFrom src 0 1

def isBlank (b : UInt8) : Bool := b == space || b == tab

def isBlankLine (line : Bytes) : Bool := line.all isBlank

/-- The loop of `StartsAttribute`: a ":" comes before any "#". -/
def colonFirst : Bytes → Bool
  | [] => false
  | b :: bs => if b = colon then true else if b = hash then false else colonFirst bs

def startsAttribute (line : Bytes) : Bool :=
  match line with
  | [] => false
  | b :: _ => if isBlank b || b == plus || b == hash then false else colonFirst line

/-- `classify`: the kind of a line, and whether it continues the attribute in progress. -/
def classify (text : Bytes) (haveCur : Bool) : Kind × Bool :=
  if isBlankLine text then (.blank, false)
  else
    match text with
    | [] => (.malformed, false)
    | b :: _ =>
      if isBlank b || b == plus then
        if haveCur then (.attribute, true) else (.malformed, false)
      else if b = hash then (.comment, false)
      else if startsAttribute text then (.attribute, false)
      else (.malformed, false)

/-- `trimPos`: the text from `from_` on without blanks at its ends, and where it starts. -/
def trimPos (content : Bytes) (from_ : Nat) : Bytes × Nat :=
  let rest := content.drop from_
  ((rest.dropWhile isBlank).rdropWhile isBlank, from_ + (rest.takeWhile isBlank).length)

/-- The line up to its comment. -/
def cutComment (text : Bytes) : Bytes := text.takeWhile (· ≠ hash)

/-- A byte of a name: `'A'..'Z'` folded. -/
def lowerByte (b : UInt8) : UInt8 := if 65 ≤ b ∧ b ≤ 90 then b + 32 else b

def canonicalName (name : Bytes) : Bytes := (trimPos name 0).1.map lowerByte

/-- `splitAttr`: name, value, and where the value starts in the line. -/
def splitAttr (text : Bytes) : Bytes × Bytes × Nat :=
  let content := cutComment text
  match content.findIdx? (· = colon) with
  | none => ([], trimPos content 0)
  | some idx => (canonicalName (content.take idx), trimPos content (idx + 1))

/-- `contValue`: what a continuation line adds to the value. -/
def contValue (text : Bytes) (keepComment : Bool) : Bytes × Nat :=
  let content := if keepComment then text else cutComment text
  match content with
  | [] => ([], 0)
  | b :: _ => if b = plus then trimPos content 1 else trimPos content 0

/-- `strings.Join(segs, "\n")`. -/
def join (segs : List Bytes) : Bytes := [nl].intercalate segs

/-- The attribute in progress: the token so far, where it starts in the source, the parts of its
value and where the next one will start in the value. -/
structure Cur where
  name : Bytes
  span : Span
  start : Nat
  segs : List Bytes
  segments : List Segment
  valOff : Nat

section
variable (src : Bytes) (lineBase byteOffset : Int)

def flush : Option Cur → List Token
  | none => []
  | some c =>
    [{ kind := .attribute
       name := c.name
       value := join c.segs
       raw := slice src c.start (c.span.endByte - byteOffset).toNat
       span := c.span
       segments := c.segments }]

def lineSpan (pl : PhysLine) : Span :=
  { startLine := lineBase + pl.line, startCol := 1
    endLine := lineBase + pl.line, endCol := pl.text.length + 1
    startByte := byteOffset + pl.start, endByte := byteOffset + (pl.start + pl.bytes.length : Nat) }

/-- The segment a value found at `off` in a line makes. -/
def segmentAt (pl : PhysLine) (val : Bytes) (off valOff : Nat) : Segment :=
  { valStart := valOff, valEnd := valOff + val.length
    srcLine := lineBase + pl.line, srcCol := off + 1
    srcByte := byteOffset + (pl.start + off : Nat) }

/-- An attribute's first line. -/
def Cur.open (pl : PhysLine) : Cur :=
  match splitAttr pl.text with
  | (name, val, off) =>
    { name, span := lineSpan lineBase byteOffset pl, start := pl.start, segs := [val]
      segments := [segmentAt lineBase byteOffset pl val off 0], valOff := val.length + 1 }

/-- A continuation line. -/
def Cur.extend (c : Cur) (pl : PhysLine) : Cur :=
  match contValue pl.text false with
  | (val, off) =>
    { c with
      span := { c.span with
        endLine := lineBase + pl.line
        endCol := pl.text.length + 1
        endByte := byteOffset + (pl.start + pl.bytes.length : Nat) }
      segs := c.segs ++ [val]
      segments := c.segments ++ [segmentAt lineBase byteOffset pl val off c.valOff]
      valOff := c.valOff + val.length + 1 }

/-- A line that is a token of its own. -/
def lineToken (kind : Kind) (pl : PhysLine) : Token :=
  { kind, name := [], value := []
    raw := slice src pl.start (pl.start + pl.bytes.length)
    span := lineSpan lineBase byteOffset pl, segments := [] }

/-- The loop of `TokenizeAt` over the lines, with the attribute in progress. -/
def fold : List PhysLine → Option Cur → List Token
  | [], cur => flush src byteOffset cur
  | pl :: pls, cur =>
    match classify pl.text cur.isSome, cur with
    | (_, true), some c => fold pls (some (c.extend lineBase byteOffset pl))
    | (.attribute, _), _ =>
      flush src byteOffset cur ++ fold pls (some (Cur.open lineBase byteOffset pl))
    | (kind, _), _ =>
      flush src byteOffset cur ++ lineToken src lineBase byteOffset kind pl :: fold pls none

end

def tokenizeAt (src : Bytes) (line byteOffset : Int) : List Token :=
  fold src (line - 1) byteOffset (scanLines src) none

def tokenize (src : Bytes) : List Token := tokenizeAt src 1 0

end Rpsl.Lexer
