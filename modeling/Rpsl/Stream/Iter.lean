import Rpsl.Stream.Streamer

/-!
# Ranging over the iterator

`ParseWith` returns an iterator that may be ranged over again after a break: `drain` yields the
chunks that are queued until the consumer stops, `run` reads lines in between, and what was not
yielded stays queued for a later range.

A consumer is what it makes of the items it has been given so far in its range: to go on, or to
break off. A range inside a range, which panics, is left out.
-/

namespace Rpsl.Stream

open Lexer Ast
open Lib (Source)

/-- What the iterator yields at a time. -/
abbrev Item := Ast.Object × List Diagnostic

/-- The iterator between two ranges: `streamer` with its reader, the chunks of `out` from `head` on
not yet yielded. -/
structure Iter (σ : Type) where
  r : LineReader σ
  s : Streamer
  head : Nat := 0
  done : Bool := false

/-- The loop of `drain` over the chunks from `head` on: the new `head`, the items yielded in this
range, and whether the consumer stopped. -/
def drainQueue (quote : Bytes → Text) (go : List Item → Bool) :
    List Chunk → Nat → List Item → Nat × List Item × Bool
  | [], head, seen => (head, seen, false)
  | c :: queue, head, seen =>
    if go (seen ++ [c.yielded quote]) then
      drainQueue quote go queue (head + 1) (seen ++ [c.yielded quote])
    else (head + 1, seen ++ [c.yielded quote], true)

namespace Iter

variable {σ : Type} [Source σ UInt8] (quote : Bytes → Text) (go : List Item → Bool)

def drain (it : Iter σ) (seen : List Item) : Iter σ × List Item × Bool :=
  match drainQueue quote go (it.s.out.drop it.head) it.head seen with
  | (head, seen, stopped) =>
    (if head = it.s.out.length then { it with s := { it.s with out := [] }, head := 0 }
      else { it with head := head }, seen, stopped)

/-- One line of `run`. -/
def turn (it : Iter σ) : Iter σ :=
  match it.r.next with
  | (li, err, r) =>
    let s := if li.text ≠ [] ∨ li.tooLong then it.s.line li else it.s
    match err with
    | none => { it with r := r, s := s }
    | some e =>
      { it with r := r, s := s.finish r.pos (if e = .eof then none else some e), done := true }

/-- The loop of `run`, with the lines that may be left. -/
def loop : Nat → Iter σ → List Item → Iter σ × List Item × Bool
  | left, it, seen =>
    match it.turn.drain quote go seen with
    | (it, seen, stopped) =>
      if stopped || it.done then (it, seen, stopped)
      else
        match left with
        | left + 1 => loop left it seen
        -- not reached: each line but the last holds a byte
        | 0 => (it, seen, stopped)

/-- `run`, one range: the items it yields, and whether the consumer broke off. -/
def range (it : Iter σ) : Iter σ × List Item × Bool :=
  match it.drain quote go [] with
  | (it, seen, stopped) =>
    if stopped || it.done then (it, seen, stopped)
    else loop quote go it.r.buf.content.length it seen

/-- One range after the other, each with its consumer. -/
def ranges (it : Iter σ) : List (List Item → Bool) → List (List Item × Bool)
  | [] => []
  | go :: gos =>
    match it.range quote go with
    | (it, items, stopped) => (items, stopped) :: ranges it gos

/-- The iterator that `ParseWith` returns. -/
def start (input : σ) (opts : ParseOptions) : Iter σ :=
  { r := opts.reader input, s := { limit := opts.bytes, maxLines := opts.lines } }

end Iter

end Rpsl.Stream
