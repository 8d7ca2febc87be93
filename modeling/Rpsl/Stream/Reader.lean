import Rpsl.Lexer.Lexer
import Rpsl.Lib.Bufio
import Rpsl.Types.SetName

/-!
# Reading lines

The line reader of `stream.go` over `bufio.Reader`. An `Input` is an `io.Reader`: the bytes it has
not given yet and how it answers each call, which decides how the input is split. `LineReader.next`
joins the fragments of `ReadSlice('\n')` to a physical line, or describes one that is longer than
the cap (`LineDesc`).
-/

namespace Rpsl.Stream

open Lexer Lib

/-! ## Inputs -/

/-- The errors of a read. -/
inductive ReadError
  | eof
  | noProgress
  | failed (msg : Text)
deriving DecidableEq

def ReadError.err : ReadError → ReadErr
  | .eof => .eof
  | .noProgress => .noProgress
  | .failed msg => .failed msg

/-- How a reader answers a call: with at most `n` bytes, and an error or none. -/
structure Answer where
  n : Nat
  err : Option ReadError

/-- An `io.Reader`. -/
structure Input where
  rest : Bytes
  answers : Nat → Answer
  calls : Nat := 0

/-- `Read` into a buffer of `space` bytes: the end of the input is reported with the last bytes or
after them. -/
def Input.read (r : Input) (space : Nat) : Bytes × Option ReadErr × Input :=
  let a := r.answers r.calls
  let rest := r.rest.drop (min a.n space)
  (r.rest.take (min a.n space),
    if a.err = some .eof ∧ rest ≠ [] then none else a.err.map ReadError.err,
    { r with rest := rest, calls := r.calls + 1 })

instance : Source Input UInt8 := ⟨fun space r => r.read space, Input.rest, True, fun _ => 0⟩

/-- The size of the buffer. -/
def bufferSize : Nat := 64 <<< 10

/-! ## Lines over the cap -/

/-- `text`: a physical line without its terminator. -/
def text (line : Bytes) : Bytes :=
  let line := if line.getLast? = some nl then line.dropLast else line
  if line.getLast? = some cr then line.dropLast else line

structure AttrScan where
  decided : Bool := false
  attr : Bool := false

def AttrScan.scan (a : AttrScan) (frag : Bytes) (first : Bool) : AttrScan :=
  if a.decided then a
  else
    match frag with
    | [] => a
    | b :: _ =>
      if first && (isBlank b || b == plus || b == hash) then { a with decided := true }
      else
        match frag.find? fun b => b == colon || b == hash with
        | some b => ⟨true, b == colon⟩
        | none => a

structure LineDesc where
  attr : AttrScan := {}
  blank : Bool := true
  heldCR : Bool := false
  seen : Nat := 0

def LineDesc.add (d : LineDesc) (frag : Bytes) (final : Bool) : LineDesc :=
  let inside := d.heldCR && !(final && (frag == [] || frag == [nl]))
  let heldCR := if final then d.heldCR else frag.getLast? == some cr
  let body := if final then text frag else if heldCR then frag.dropLast else frag
  { attr := d.attr.scan frag (d.seen == 0)
    blank := d.blank && !inside && isBlankLine body
    heldCR := heldCR
    seen := d.seen + frag.length }

/-! ## Windows-1252 -/

/-- `utf8.Valid`. -/
def utf8Valid : Bytes → Bool
  | [] => true
  | b :: bs =>
    if b < 0x80 then utf8Valid bs
    else if 0xC2 ≤ b ∧ b ≤ 0xDF then
      match bs with
      | c :: bs => isTail c && utf8Valid bs
      | _ => false
    else if 0xE0 ≤ b ∧ b ≤ 0xEF then
      match bs with
      | c :: d :: bs =>
        isTail c && (b != 0xE0 || 0xA0 ≤ c) && (b != 0xED || c ≤ 0x9F) && isTail d && utf8Valid bs
      | _ => false
    else if 0xF0 ≤ b ∧ b ≤ 0xF4 then
      match bs with
      | c :: d :: e :: bs =>
        isTail c && (b != 0xF0 || 0x90 ≤ c) && (b != 0xF4 || c ≤ 0x8F) && isTail d && isTail e &&
          utf8Valid bs
      | _ => false
    else false
where
  isTail (b : UInt8) : Bool := 0x80 ≤ b && b ≤ 0xBF

/-- The characters of the bytes 0x80-0x9F. -/
def windows1252 : List Nat :=
  [0x20AC, 0x0081, 0x201A, 0x0192, 0x201E, 0x2026, 0x2020, 0x2021,
   0x02C6, 0x2030, 0x0160, 0x2039, 0x0152, 0x008D, 0x017D, 0x008F,
   0x0090, 0x2018, 0x2019, 0x201C, 0x201D, 0x2022, 0x2013, 0x2014,
   0x02DC, 0x2122, 0x0161, 0x203A, 0x0153, 0x009D, 0x017E, 0x0178]

/-- `utf8.AppendRune`, of a character below 0x10000. -/
def utf8Bytes (r : Nat) : Bytes :=
  if r < 0x80 then [.ofNat r]
  else if r < 0x800 then [.ofNat (0xC0 + r / 64), .ofNat (0x80 + r % 64)]
  else [.ofNat (0xE0 + r / 4096), .ofNat (0x80 + r / 64 % 64), .ofNat (0x80 + r % 64)]

/-- The character of a byte. -/
def windows1252Rune (c : UInt8) : Nat :=
  if c < 0x80 then c.toNat
  else if c < 0xA0 then windows1252.getD (c.toNat - 0x80) 0
  else c.toNat

/-- `appendWindows1252`, to an empty text. -/
def appendWindows1252 (b : Bytes) : Bytes := b.flatMap fun c => utf8Bytes (windows1252Rune c)

def windows1252Len (b : Bytes) : Nat :=
  (b.map fun c => (utf8Bytes (windows1252Rune c)).length).sum

/-! ## The line reader -/

/-- `pos`: a line, from one, and a byte offset. -/
structure Pos where
  line : Nat
  byte : Nat
deriving DecidableEq

structure LineReader (σ : Type) where
  buf : Reader UInt8 σ
  limit : Int
  pos : Pos := ⟨1, 0⟩
  cp1252 : Bool := false

structure LineInfo where
  text : Bytes
  at_ : Pos
  tooLong : Bool
  blank : Bool
  attr : Bool
  recoded : Bool

/-- A line as its fragments are joined: the bytes kept, those read, and what describes it once it
is over the cap. -/
structure Partial where
  kept : Bytes := []
  n : Nat := 0
  tooLong : Bool := false
  desc : LineDesc := {}

/-- Whether `add` more bytes than `have_` are over the cap; a negative cap is none. -/
def isOver (limit : Int) (have_ add : Nat) : Bool := 0 ≤ limit && limit < have_ + add

/-- One turn of the loop of `next`. -/
def Partial.add (limit : Int) (p : Partial) (frag : Bytes) (final : Bool) : Partial :=
  let drop := !p.tooLong && isOver limit p.kept.length frag.length
  let desc := if drop then p.desc.add p.kept false else p.desc
  if p.tooLong || drop then
    { kept := [], n := p.n + frag.length, tooLong := true, desc := desc.add frag final }
  else { kept := p.kept ++ frag, n := p.n + frag.length, tooLong := false, desc := p.desc }

section
variable {σ : Type} [Source σ UInt8]

/-- The loop of `next`, with the bytes left to read. -/
def nextLoop (limit : Int) (left : Nat) (b : Reader UInt8 σ) (p : Partial) :
    Partial × Option ReadErr × Reader UInt8 σ :=
  let (place, e, b) := b.readSlice nl
  let frag := b.slice place
  if e = some .bufferFull then
    match left with
    | left + 1 => nextLoop limit left b (p.add limit frag false)
    -- not reached: a full buffer holds bytes, and none are left
    | 0 => (p.add limit frag false, none, b)
  else (p.add limit frag true, e, b)

/-- `recode`: the line as Windows-1252, its length, and whether it is over the cap. -/
def recode (limit : Int) (line : Bytes) : Bytes × Nat × Bool :=
  let n := windows1252Len line
  if isOver limit 0 n then (line, n, true) else (appendWindows1252 line, n, false)

def LineReader.next (r : LineReader σ) : LineInfo × Option ReadErr × LineReader σ :=
  match nextLoop r.limit r.buf.content.length r.buf {} with
  | (p, e, buf) =>
    let again := r.cp1252 && !p.tooLong && !utf8Valid p.kept
    let (text, n, tooLong) := if again then recode r.limit p.kept else (p.kept, p.n, p.tooLong)
    let desc := if again && tooLong then p.desc.add p.kept true else p.desc
    ({ text := if tooLong then [] else text
       at_ := r.pos
       tooLong := tooLong
       blank := tooLong && desc.blank
       attr := tooLong && desc.attr.attr
       recoded := again && !tooLong },
      e,
      { r with
        buf := buf
        pos := ⟨if e = none then r.pos.line + 1 else r.pos.line, r.pos.byte + n⟩ })

end

end Rpsl.Stream
