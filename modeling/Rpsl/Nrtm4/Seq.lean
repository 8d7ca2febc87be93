import Rpsl.Lib.Bufio
import Rpsl.Resolve.Claims

/-!
# JSON text sequences

`resolve/nrtm4/seq.go`: the records of a JSON text sequence (RFC 7464), read through a buffered
reader. A record that is whole in the reader's buffer is returned from there, one that is not is
joined in a buffer of the `seqReader`'s own; either is a place in a buffer, valid until the next
call.

Bytes are characters below 256. A length is not wrapped: only `max + 1` can leave `int`.
-/

namespace Rpsl.Nrtm4

open Text Lib Resolve

/-- `rs` starts every record. -/
def rs : Char := '\x1e'

/-- The buffer a slice is in: the reader's, or the `seqReader`'s own. -/
inductive Mem
  | reader
  | own
deriving DecidableEq, Repr

/-- A slice. -/
structure Slice where
  mem : Mem
  off : Nat
  len : Nat
deriving DecidableEq, Repr

/-- What `next` reports but for the end. -/
inductive SeqError
  | tooLong (max : Int64)
  | dataBefore
  | read (e : ReadErr)
deriving DecidableEq, Repr

/-- The text of an error of the `seqReader`'s own; `io`'s are its caller's to word. -/
def SeqError.text : SeqError → Option Text
  | .tooLong max => some (lit "a record longer than " ++ lit (toString max.toInt) ++ lit " bytes")
  | .dataBefore => some (lit "data before the first record separator")
  | .read _ => none

structure SeqReader where
  r : Reader Char
  max : Int64
  begun : Bool
  buf : Text

def newSeqReader (d : Delivery Char) (max : Int64) : SeqReader :=
  ⟨Reader.new d (64 <<< 10), max, false, []⟩

namespace SeqReader

/-- What a slice holds. -/
def bytes (s : SeqReader) (sl : Slice) : Text :=
  match sl.mem with
  | .reader => s.r.slice (sl.off, sl.len)
  | .own => (s.buf.drop sl.off).take sl.len

/-- `bytes.TrimSpace`, a slice of the slice. -/
def trim (s : SeqReader) (sl : Slice) : Slice :=
  { sl with
    off := sl.off + ((s.bytes sl).length - (trimLeftFrom 0 (s.bytes sl)).length)
    len := (trimSpace (s.bytes sl)).length }

/-- The loop of `until`, with `out` joined so far and `fuel` full buffers to come. -/
def untilFrom (fuel : Nat) (out : Text) (s : SeqReader) :
    Except SeqError (Slice × Option ReadErr) × SeqReader :=
  let (place, err, r) := s.r.readSlice rs
  let chunk := r.slice place
  let s := { s with r := r }
  if (s.max + 1).toInt < ((out.length + chunk.length : Nat) : Int) then (.error (.tooLong s.max), s)
  else if err = none ∧ out = [] then (.ok (⟨.reader, place.1, chunk.length - 1⟩, none), s)
  else
    let out := out ++ chunk
    let s := { s with buf := out }
    match err with
    | none => (.ok (⟨.own, 0, out.length - 1⟩, none), s)
    | some .bufferFull =>
      match fuel with
      | 0 => (.error (.read .noProgress), s)
      | fuel + 1 => untilFrom fuel out s
    | some e =>
      -- the last record: no separator follows it
      if s.max.toInt < out.length then (.error (.tooLong s.max), s)
      else (.ok (⟨.own, 0, out.length⟩, some e), s)

/-- `until`: up to the next RS, which is consumed, or to the end. Every full buffer takes bytes off
what is left. -/
def untilRS (s : SeqReader) : Except SeqError (Slice × Option ReadErr) × SeqReader :=
  untilFrom s.r.content.length [] s

/-- The loop of `next`, over `fuel` pieces at most. -/
def nextFrom : Nat → SeqReader → Except SeqError (Option Slice) × SeqReader
  | 0, s => (.error (.read .noProgress), s)
  | fuel + 1, s =>
    match s.untilRS with
    | (.error e, s) => (.error e, s)
    | (.ok (_, some .bufferFull), s) => (.error (.read .bufferFull), s)
    | (.ok (_, some .noProgress), s) => (.error (.read .noProgress), s)
    | (.ok (piece, err), s) =>
      let piece := s.trim piece
      if ¬ s.begun then
        -- everything up to the first RS: nothing but white space
        let s := { s with begun := true }
        if 0 < piece.len then (.error .dataBefore, s)
        else if err = some .eof then (.ok none, s)
        else nextFrom fuel s
      else if 0 < piece.len then (.ok (some piece), s)
      else if err = some .eof then (.ok none, s)
      else nextFrom fuel s

/-- `next`: the next record, or nothing after the last. -/
def next (s : SeqReader) : Except SeqError (Option Slice) × SeqReader :=
  nextFrom (s.r.content.length + 1) s

/-- What one call of `next` gives its caller; a record is what its slice holds when the next call
is made. -/
inductive Answer
  | record (t : Text)
  | eof
  | error (e : SeqError)
deriving DecidableEq, Repr

/-- `n` successive calls of `next`, up to the first that reports an error. -/
def run : Nat → SeqReader → List Answer
  | 0, _ => []
  | n + 1, s =>
    match s.next with
    | (.error e, _) => [.error e]
    | (.ok none, s) => .eof :: s.run n
    | (.ok (some sl), s) => .record (s.bytes sl) :: s.run n

end SeqReader

end Rpsl.Nrtm4
