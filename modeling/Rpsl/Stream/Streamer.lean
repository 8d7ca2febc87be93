import Rpsl.Ast.Diagnostic
import Rpsl.Ast.Object
import Rpsl.Stream.Reader

/-!
# The streaming parser

`ParseWith` of `stream.go`: the lines of an input are gathered to chunks, one for each object with
the lines before it, within the caps of `ParseOptions`, and each chunk is tokenized on its own
where it stands in the stream.

The iterator is run to its end; breaking out of a range and resuming it is `Iter`'s.
-/

namespace Rpsl.Stream

open Lexer Ast
open Lib (ReadErr Source)

def defaultMaxObjectBytes : Int := 16 <<< 20

def defaultMaxObjectLines : Int := 1 <<< 18

structure ParseOptions where
  maxObjectBytes : Int := 0
  maxObjectLines : Int := 0
  nonUTF8AsWindows1252 : Bool := false

/-- `ParseOptions.maxObjectBytes`. -/
def ParseOptions.bytes (o : ParseOptions) : Int :=
  if o.maxObjectBytes = 0 then defaultMaxObjectBytes else o.maxObjectBytes

/-- `ParseOptions.maxObjectLines`. -/
def ParseOptions.lines (o : ParseOptions) : Int :=
  if o.maxObjectLines = 0 then defaultMaxObjectLines else o.maxObjectLines

def Pos.span (p : Pos) : Span :=
  { startLine := p.line, startCol := 1, endLine := p.line, endCol := 1
    startByte := p.byte, endByte := p.byte }

structure Recoded where
  n : Nat
  at_ : Pos

structure Part where
  text : Bytes
  at_ : Pos

structure Chunk where
  parts : List Part := []
  diags : List Diagnostic := []
  empty : Bool := false
  recoded : Option Recoded := none

structure Streamer where
  limit : Int
  maxLines : Int
  out : List Chunk := []
  pending : Option Chunk := none
  lead : Bytes := []
  leadStart : Pos := ⟨0, 0⟩
  leadParts : List Part := []
  leadBytes : Nat := 0
  leadLines : Nat := 0
  leadOver : Bool := false
  obj : Bytes := []
  objLines : Nat := 0
  objStart : Pos := ⟨0, 0⟩
  inObj : Bool := false
  dropping : Bool := false
  carry : List Diagnostic := []
  discards : Nat := 0
  lastDrop : Pos := ⟨0, 0⟩
  recoded : Nat := 0
  recodedAt : Pos := ⟨0, 0⟩

/-! ## Diagnostics -/

/-- `%d` of an `int`. -/
def ofInt (i : Int) : Text :=
  if i < 0 then Text.lit "-" ++ Text.ofNat i.natAbs else Text.ofNat i.natAbs

section
variable (limit maxLines : Int)

def discardedLine (at_ : Pos) : Diagnostic :=
  { severity := .warning
    message := Text.lit "a line longer than MaxObjectBytes (" ++ ofInt limit ++
      Text.lit ") outside any object was discarded"
    span := at_.span, rule := .triviaTooLarge }

def discardedMore (n : Nat) (at_ : Pos) : Diagnostic :=
  { severity := .warning
    message := Text.ofNat n ++ Text.lit " more lines longer than MaxObjectBytes (" ++
      ofInt limit ++ Text.lit ") outside any object were discarded"
    span := at_.span, rule := .triviaTooLarge }

def leadTooLarge (at_ : Pos) : Diagnostic :=
  { severity := .warning
    message := Text.lit "blank and comment lines before this object exceed MaxObjectBytes (" ++
      ofInt limit ++ Text.lit ") or MaxObjectLines (" ++ ofInt maxLines ++
      Text.lit ") and were discarded"
    span := at_.span, rule := .triviaTooLarge }

def objectTooLarge (at_ : Pos) : Diagnostic :=
  { severity := .error
    message := Text.lit "object exceeds MaxObjectBytes (" ++ ofInt limit ++
      Text.lit ") or MaxObjectLines (" ++ ofInt maxLines ++
      Text.lit "); skipped to the next blank line"
    span := at_.span, rule := .objectTooLarge }

end

/-- `err.Error()`. -/
def errorText : ReadErr → Text
  | .bufferFull => Text.lit "bufio: buffer full"
  | .eof => Text.lit "EOF"
  | .noProgress => Text.lit "multiple Read calls return no data or error"
  | .failed msg => msg

def readFailed (e : ReadErr) (at_ : Pos) : Diagnostic :=
  { severity := .error, message := Text.lit "read error: " ++ errorText e
    span := at_.span, rule := .readError }

def Chunk.recodedWarning (c : Chunk) : List Diagnostic :=
  match c.recoded with
  | none => []
  | some r =>
    [{ severity := .warning
       message :=
        if 1 < r.n then
          Text.ofNat r.n ++
            Text.lit " lines are not UTF-8 and were read as Windows-1252, the first here"
        else Text.lit "1 line is not UTF-8 and was read as Windows-1252"
       span := r.at_.span, rule := .notUTF8 }]

/-! ## Lines to chunks -/

namespace Streamer

variable (s : Streamer)

/-- `over`. -/
def exceeds (have_ add : Nat) : Bool := isOver s.limit have_ add

def overLines (n : Nat) : Bool := 0 ≤ s.maxLines && s.maxLines < n

def noteRecoded (li : LineInfo) : Streamer :=
  if !li.recoded then s
  else
    { s with
      recodedAt := if s.recoded = 0 then li.at_ else s.recodedAt
      recoded := s.recoded + 1 }

/-- `takeRecoded`: the chunk with the lines counted since the last take. -/
def takeRecoded (c : Chunk) : Streamer × Chunk :=
  if s.recoded = 0 then (s, c)
  else
    let r := c.recoded.getD ⟨0, s.recodedAt⟩
    ({ s with recoded := 0 }, { c with recoded := some { r with n := r.n + s.recoded } })

def discardLine (at_ : Pos) : Streamer :=
  let s := if s.lead = [] then s
    else { s with leadParts := s.leadParts ++ [⟨s.lead, s.leadStart⟩], lead := [] }
  let s := { s with lastDrop := at_, discards := s.discards + 1 }
  if 1 < s.discards then s else { s with carry := s.carry ++ [discardedLine s.limit at_] }

def takeCarry : Streamer × List Diagnostic :=
  ({ s with carry := [], discards := 0 },
    if 1 < s.discards then s.carry ++ [discardedMore s.limit (s.discards - 1) s.lastDrop]
    else s.carry)

def dropLead : Streamer := { s with lead := [], leadParts := [], leadBytes := 0, leadLines := 0 }

/-- `addLead`, and whether it kept the line. -/
def addLead (b : Bytes) (at_ : Pos) : Streamer × Bool :=
  if s.leadOver then (s, false)
  else
    let s := if s.lead = [] then { s with leadStart := at_ } else s
    if s.exceeds s.leadBytes b.length || s.overLines (s.leadLines + 1) then
      ({ s.dropLead with
          leadOver := true
          recoded := 0
          carry := s.carry ++ [leadTooLarge s.limit s.maxLines s.leadStart] }, false)
    else
      ({ s with
          lead := s.lead ++ b
          leadBytes := s.leadBytes + b.length
          leadLines := s.leadLines + 1 }, true)

def takeLead : Streamer × List Part :=
  (s.dropLead, if s.lead = [] then s.leadParts else s.leadParts ++ [⟨s.lead, s.leadStart⟩])

/-- The parts of `takeCurrent`: trivia that runs straight into the object, and is no longer than
it, goes with it as one. -/
def takeParts : Streamer × List Part :=
  if s.leadParts = [] ∧ 0 < s.lead.length ∧ s.lead.length ≤ s.obj.length ∧
      s.leadStart.byte + s.lead.length = s.objStart.byte then
    (s.dropLead, [⟨s.lead ++ s.obj, s.leadStart⟩])
  else
    match s.takeLead with
    | (s, parts) => (s, parts ++ [⟨s.obj, s.objStart⟩])

def takeCurrent : Streamer × Chunk :=
  match s.takeParts with
  | (s, parts) =>
    match s.takeCarry with
    | (s, diags) =>
      match s.takeRecoded { parts, diags } with
      | (s, c) => ({ s with obj := [], objLines := 0, leadOver := false, inObj := false }, c)

def emit (c : Chunk) : Streamer := { s with out := s.out ++ [c] }

def emitPending : Streamer :=
  match s.pending with
  | none => s
  | some c => { s with pending := none }.emit c

def emitEmpty (diags : List Diagnostic) : Streamer := s.emit { diags, empty := true }

def oversize (at_ : Pos) : Streamer :=
  match s.emitPending.takeCarry with
  | (s, diags) =>
    { s.dropLead with
      recoded := 0, obj := [], objLines := 0, leadOver := false, inObj := false
      dropping := true }.emitEmpty (diags ++ [objectTooLarge s.limit s.maxLines at_])

/-- What a blank line ends: the object skipped, or the current one. -/
def endObject : Streamer :=
  if s.dropping then { s with dropping := false }
  else if s.inObj then
    match s.takeCurrent with
    | (s, c) => { s.emitPending with pending := some c }
  else s

def line (li : LineInfo) : Streamer :=
  if li.blank || (!li.tooLong && isBlankLine (text li.text)) then
    if li.tooLong then s.endObject.discardLine li.at_
    else (s.endObject.addLead li.text li.at_).1
  else if s.dropping then s
  else if s.inObj then
    if li.tooLong || s.exceeds s.obj.length li.text.length || s.overLines (s.objLines + 1) then
      s.oversize s.objStart
    else
      { s with obj := s.obj ++ li.text, objLines := s.objLines + 1 }.noteRecoded li
  else if li.tooLong && li.attr then s.oversize li.at_
  else if li.tooLong then s.discardLine li.at_
  else if startsAttribute (text li.text) then
    { s.emitPending with
      inObj := true, objStart := li.at_, objLines := 1, obj := li.text }.noteRecoded li
  else
    match s.addLead li.text li.at_ with
    | (s, true) => s.noteRecoded li
    | (s, false) => s

/-- The end of the input outside an object. -/
def finishTrivia : Streamer :=
  if s.dropping then s.emitPending
  else
    match s.pending with
    | some p =>
      match s.takeLead with
      | (s, parts) =>
        match s.takeCarry with
        | (s, diags) =>
          match s.takeRecoded { p with parts := p.parts ++ parts, diags := p.diags ++ diags } with
          | (s, p) => { s with pending := some p }.emitPending
    | none =>
      if s.lead ≠ [] ∨ s.leadParts ≠ [] ∨ s.carry ≠ [] then
        match s.takeLead with
        | (s, parts) =>
          match s.takeCarry with
          | (s, diags) =>
            match s.takeRecoded { parts, diags } with
            | (s, c) => s.emit c
      else s

def finish (at_ : Pos) (err : Option ReadErr) : Streamer :=
  let readErr := (err.map (readFailed · at_)).toList
  if s.inObj then
    match s.takeCurrent with
    | (s, c) => s.emitPending.emit { c with diags := c.diags ++ readErr }
  else if err.isSome then s.finishTrivia.emitEmpty readErr
  else s.finishTrivia

end Streamer

/-! ## Chunks to objects -/

/-- The tokens of a chunk, each part's where it stands. -/
def Chunk.tokens (c : Chunk) : List Token :=
  c.parts.flatMap fun p => tokenizeAt p.text p.at_.line p.at_.byte

section
variable {σ : Type} [Source σ UInt8]

/-- `run` to the end of the input, with the lines that may be left: the streamer with every chunk
it made. -/
def run : Nat → LineReader σ → Streamer → Streamer
  | left, r, s =>
    match r.next with
    | (li, err, r) =>
      let s := if li.text ≠ [] ∨ li.tooLong then s.line li else s
      match err, left with
      | some e, _ => s.finish r.pos (if e = .eof then none else some e)
      | none, left + 1 => run left r s
      -- not reached: each line but the last holds a byte
      | none, 0 => s

/-- What `drain` yields of a chunk. -/
def Chunk.yielded (quote : Bytes → Text) (c : Chunk) : Ast.Object × List Diagnostic :=
  if c.empty then (⟨[], []⟩, c.diags ++ c.recodedWarning)
  else (Ast.Object.new c.tokens, c.diags ++ c.recodedWarning ++ diagnose quote c.tokens)

/-- The line reader of `ParseWith`. -/
def ParseOptions.reader (opts : ParseOptions) (input : σ) : LineReader σ :=
  { buf := .new input bufferSize, limit := opts.bytes, cp1252 := opts.nonUTF8AsWindows1252 }

/-- `ParseWith`: what the iterator yields. -/
def parseWith (quote : Bytes → Text) (input : σ) (opts : ParseOptions) :
    List (Ast.Object × List Diagnostic) :=
  let s : Streamer := { limit := opts.bytes, maxLines := opts.lines }
  (run (Source.elems input).length (opts.reader input) s).out.map (·.yielded quote)

end

end Rpsl.Stream
