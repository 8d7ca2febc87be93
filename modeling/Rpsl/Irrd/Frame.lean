import Rpsl.Lib.Bufio
import Rpsl.Policy.Action

/-!
# Reading IRRd's responses

`resolve/irrd/irrd.go`: `readFrame` parses one response, "A<len>\n<payload>C\n", "C\n", "D\n" or
"F <msg>\n", off a buffered reader.

The payload is read into a buffer that grows as it is read; the room it has after given reads is a
parameter.
-/

namespace Rpsl.Irrd

open Text Lib
open Resolve (trimSpace)
open Policy (atoi)

/-- What `readFrame` and `readStatusLine` report. -/
inductive FrameError
  | longLine
  | emptyHeader
  | badLength (header : Text)
  | exceeds (n max : Int)
  | unexpectedEOF
  | badTrailer (trailer : Text)
  | notFound
  | refused (msg : Text)
  | unexpected (header : Text)
  | read (e : ReadErr)
deriving DecidableEq, Repr

def maxStatusLine : Nat := 1 <<< 10

/-- The text of an error; `quote` is the `%q` of `fmt`, and an error of the reader's own is its
to word. -/
def FrameError.text (quote : Text → Text) : FrameError → Option Text
  | .longLine =>
    some (lit "irrd: response line longer than " ++ ofNat maxStatusLine ++ lit " bytes")
  | .emptyHeader => some (lit "irrd: empty response header")
  | .badLength header => some (lit "irrd: bad length header " ++ quote header)
  | .exceeds n max => some (lit "irrd: response of " ++ lit (toString n) ++
      lit " bytes exceeds MaxResponse (" ++ lit (toString max) ++ lit ")")
  | .unexpectedEOF => some (lit "unexpected EOF")
  | .badTrailer trailer =>
    some (lit "irrd: expected 'C' status after payload, got " ++ quote trailer)
  | .notFound => some (lit "irrd: key not found")
  | .refused msg => some (lit "irrd: query error: " ++ msg)
  | .unexpected header => some (lit "irrd: unexpected response " ++ quote header)
  | .read _ => none

/-- `strings.TrimRight(line, "\r\n")`. -/
def trimEnd (line : Text) : Text := line.rdropWhile fun c => c = '\r' ∨ c = '\n'

/-- The loop of `readStatusLine`, with `line` joined so far and `fuel` full buffers to come. -/
def readStatusLineFrom (fuel : Nat) (line : Text) (br : Reader Char) :
    Except FrameError Text × Reader Char :=
  let (place, err, br) := br.readSlice '\n'
  let frag := br.slice place
  if maxStatusLine < line.length + frag.length then (.error .longLine, br)
  else
    let line := line ++ frag
    match err with
    | none => (.ok (trimEnd line), br)
    | some .bufferFull =>
      match fuel with
      | 0 => (.error (.read .noProgress), br)
      | fuel + 1 => readStatusLineFrom fuel line br
    | some .eof =>
      if 0 < line.length then (.error .unexpectedEOF, br) else (.error (.read .eof), br)
    | some e => (.error (.read e), br)

/-- `readStatusLine`: one line without its terminator. Every full buffer takes bytes off what is
left. -/
def readStatusLine (br : Reader Char) : Except FrameError Text × Reader Char :=
  readStatusLineFrom br.content.length [] br

/-- The payload of `n` bytes and the status line after it. -/
def readPayload (room : List Nat → Nat) (n : Nat) (br : Reader Char) :
    Except FrameError Text × Reader Char :=
  match br.copyN room n with
  | (.error .eof, br) => (.error .unexpectedEOF, br)
  | (.error e, br) => (.error (.read e), br)
  | (.ok payload, br) =>
    match readStatusLine br with
    | (.error e, br) => (.error e, br)
    | (.ok trailer, br) =>
      if trailer = lit "C" then (.ok payload, br) else (.error (.badTrailer trailer), br)

/-- The switch of `readFrame` on the first byte of the header. -/
def readAfter (room : List Nat → Nat) (max : Int64) (header : Text) (br : Reader Char) :
    Except FrameError Text × Reader Char :=
  match header with
  | [] => (.error .emptyHeader, br)
  | c :: more =>
    if c = 'A' then
      match atoi more with
      | none => (.error (.badLength header), br)
      | some n =>
        if n < 0 then (.error (.badLength header), br)
        else if max.toInt < n then (.error (.exceeds n max.toInt), br)
        else readPayload room n.toNat br
    else if c = 'C' then (.ok [], br)
    else if c = 'D' then (.error .notFound, br)
    else if c = 'F' then (.error (.refused (trimSpace more)), br)
    else (.error (.unexpected header), br)

def readFrame (room : List Nat → Nat) (max : Int64) (br : Reader Char) :
    Except FrameError Text × Reader Char :=
  match readStatusLine br with
  | (.error e, br) => (.error e, br)
  | (.ok header, br) => readAfter room max header br

/-- `k` calls of `readFrame` in turn, and the reader after them. -/
def readFrames (room : List Nat → Nat) (max : Int64) :
    Nat → Reader Char → List (Except FrameError Text) × Reader Char
  | 0, br => ([], br)
  | k + 1, br =>
    let (r, br) := readFrame room max br
    let (rs, br) := readFrames room max k br
    (r :: rs, br)

end Rpsl.Irrd
