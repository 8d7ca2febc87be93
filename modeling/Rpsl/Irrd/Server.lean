import Rpsl.Lib.Bufio
import Rpsl.Irrdq.Answer

/-!
# Serving a connection

`resolve/irrdserver/server.go`: `readLine` takes one command line off a connection, and `handle`
answers the lines one after the other, writing an answer out once no further line is buffered.

The session that answers is a parameter, with what its answer depends on besides the line: the
snapshot of the moment. Deadlines of reads and failing writes are left out.
-/

namespace Rpsl.Irrd

open Text Lib
open Irrdq (fail)

inductive LineError
  | tooLong
  | read (e : ReadErr)
deriving DecidableEq, Repr

/-- A full buffer moves to the line: the line, what is still buffered of it, and the reader. -/
def spill (line buf : Text) (br : Reader Char) : Text × Text × Reader Char :=
  if buf.length = br.size then (line ++ buf, [], br.discard buf.length) else (line, buf, br)

/-- How `readLine` ends on an error: a line cut off by the end of the input is a line. -/
def readLast (max : Int) (line : Text) (e : ReadErr) (br : Reader Char) :
    Except LineError Text × Reader Char :=
  let (rest, _, br) := br.peek br.unread.length
  if e ≠ .eof ∨ line.length + rest.length = 0 then (.error (.read e), br)
  else if max < line.length + rest.length then (.error .tooLong, br)
  else (.ok (line ++ rest), br.discard rest.length)

/-- The loop of `readLine`: the part of the line that is no longer buffered, the buffered bytes
known to hold no newline, and the number of waits to come. -/
def readLineFrom (max : Int) (fuel : Nat) (line : Text) (scanned : Nat) (br : Reader Char) :
    Except LineError Text × Reader Char :=
  let (buf, _, br) := br.peek br.unread.length
  match (buf.drop scanned).idxOf? '\n' with
  | some i =>
    if max < line.length + (i + scanned) then (.error .tooLong, br)
    else (.ok (line ++ buf.take (i + scanned)), br.discard (i + scanned + 1))
  | none =>
    if max < line.length + buf.length then (.error .tooLong, br)
    else
      let (line, buf, br) := spill line buf br
      match br.peek (buf.length + 1) with
      | (_, some e, br) => readLast max line e br
      | (_, none, br) =>
        match fuel with
        | 0 => (.error (.read .noProgress), br)
        | fuel + 1 => readLineFrom max fuel line buf.length br

/-- `readLine`. Every wait but the last takes a byte off what is to be delivered. -/
def readLine (max : Int) (br : Reader Char) : Except LineError Text × Reader Char :=
  readLineFrom max br.rd.elems.length [] 0 br

/-- `lineBuffered`: is a whole further line in the buffer? -/
def lineBuffered (br : Reader Char) : Bool :=
  ((br.peek br.unread.length).1.idxOf? '\n').isSome

/-- `n` calls of `readLine` or as many as succeed, and the error that ended them. -/
def readLines (max : Int) : Nat → Reader Char → List Text × Option LineError × Reader Char
  | 0, br => ([], none, br)
  | n + 1, br =>
    match readLine max br with
    | (.error e, br) => ([], some e, br)
    | (.ok line, br) =>
      let (lines, e, br) := readLines max n br
      (line :: lines, e, br)

/-! ## Answering -/

/-- `irrdq.Reply`, without its cause, which only goes to the log. -/
structure Reply where
  text : Text
  close : Bool
deriving DecidableEq, Repr

/-- `Reply.Refused`. -/
def Reply.refused (r : Reply) (msg : Text) : Reply := ⟨fail msg, r.close⟩

/-- A `bufio.Writer`: what went out, and what it holds back. -/
structure Writer where
  sent : Text
  held : Text
deriving DecidableEq, Repr

def writePiece : Nat := 64 <<< 10

namespace Writer

/-- Writing `t`: while there is more than the buffer has room for, a full buffer goes out. -/
def write (t : Text) (w : Writer) : Writer :=
  let all := w.held ++ t
  let n := (all.length - 1) / writePiece * writePiece
  ⟨w.sent ++ all.take n, all.drop n⟩

def flush (w : Writer) : Writer := ⟨w.sent ++ w.held, []⟩

end Writer

inductive Status
  | serving
  | ended
  | abandoned
deriving DecidableEq, Repr

/-- How a line was answered: in time, too late, or not at all since Shutdown gave up waiting. -/
inductive Outcome
  | inTime
  | late
  | abandoned
deriving DecidableEq, Repr

/-- What decides a turn of `handle` besides the client: Shutdown has begun, or a line is answered
at some moment. -/
inductive Turn (τ : Type)
  | stop
  | line (at' : τ) (outcome : Outcome)

/-- A connection `handle` serves, with its session. -/
structure Conn (σ : Type) where
  br : Reader Char
  w : Writer
  sess : σ
  status : Status

/-- The limits that `handle` reads. -/
structure Limits where
  maxLine : Nat
  queryTime : Text

def Limits.lineTooLong (lim : Limits) : Text :=
  fail (lit "Line too long: over " ++ ofNat lim.maxLine ++ lit " bytes")

def Limits.tookLonger (lim : Limits) : Text := lit "Query took longer than " ++ lim.queryTime

namespace Conn

variable {σ τ : Type}

def new (d : Delivery Char) (sess : σ) : Conn σ := ⟨.new d (64 <<< 10), ⟨[], []⟩, sess, .serving⟩

/-- `end`: every answer still held goes out. -/
def finish (c : Conn σ) : Conn σ := { c with w := c.w.flush, status := .ended }

/-- Writes a reply; it stays in the buffer while a further line is to be answered. -/
def answer (r : Reply) (c : Conn σ) : Conn σ :=
  let w := c.w.write r.text
  let c := { c with w := if r.close || !lineBuffered c.br then w.flush else w }
  if r.close then c.finish else c

section

variable (lim : Limits) (doLine : τ → σ → Text → Reply × σ)

/-- One turn of `handle`. -/
def turn (c : Conn σ) : Turn τ → Conn σ
  | .stop => c.finish
  | .line at' outcome =>
    match readLine lim.maxLine c.br with
    | (.error .tooLong, br) => finish { c with br := br, w := c.w.write lim.lineTooLong }
    | (.error (.read _), br) => finish { c with br := br }
    | (.ok line, br) =>
      let (r, sess) := doLine at' c.sess line
      let c := { c with br := br, sess := sess }
      match outcome with
      | .inTime => c.answer r
      | .late => c.answer (r.refused lim.tookLonger)
      | .abandoned => { c with status := .abandoned }

/-- `handle` over the turns it takes. -/
def handle (c : Conn σ) (ts : List (Turn τ)) : Conn σ :=
  ts.foldl (fun c t => if c.status = .serving then c.turn lim doLine t else c) c

end

end Conn

end Rpsl.Irrd
