import Rpsl.Types.AddrText
import Rpsl.Types.SetName

/-!
# Answers under a byte budget

`resolve/irrdq/answer.go`: a reply being built, its pieces held by reference or packed and their
length checked against the session's budget as they come; and the budget of `Session.Do`.

Lengths are not wrapped: a reply is a string, and none is as long as 2⁶³.
-/

namespace Rpsl.Irrdq

open Text

/-- `answer`: the pieces so far, those packed since the last, the bytes so far, the budget (0 is
none), and whether the pieces passed it. -/
structure Answer where
  parts : List Text
  cur : Text
  n : Nat
  max : Nat
  isOver : Bool
deriving DecidableEq, Repr

def smallPiece : Nat := 128

/-- `Session.SetMaxReply`: the budget a number sets. -/
def maxReply (n : Int64) : Nat := n.toInt.toNat

def newAnswer (max : Nat) : Answer := ⟨[], [], 0, max, false⟩

def tooLargeMsg (max : Nat) : Text := lit "Answer larger than " ++ ofNat max ++ lit " bytes"

def fail (msg : Text) : Text := lit "F " ++ msg ++ lit "\n"

def tooLarge (max : Nat) : Text := fail (tooLargeMsg max)

namespace Answer

/-- `answer.grow`: counts `n` more bytes; false, and nothing kept, once that passes the budget. -/
def grow (n : Nat) (a : Answer) : Bool × Answer :=
  if a.isOver then (false, a)
  else
    let a := { a with n := a.n + n }
    if 0 < a.max ∧ a.max < a.n then (false, { a with isOver := true, parts := [], cur := [] })
    else (true, a)

/-- One piece of `answer.add`: packed, or held. -/
def put (a : Answer) (p : Text) : Answer :=
  if p.length < smallPiece then { a with cur := a.cur ++ p }
  else if 0 < a.cur.length then { a with parts := a.parts ++ [a.cur] ++ [p], cur := [] }
  else { a with parts := a.parts ++ [p] }

def add (pieces : List Text) (a : Answer) : Bool × Answer :=
  match a.grow (pieces.map List.length).sum with
  | (false, a) => (false, a)
  | (true, a) => (true, pieces.foldl put a)

/-- What `answer.addAS` and `answer.addPrefix` do with the text they write. -/
def addText (b : Text) (a : Answer) : Bool × Answer :=
  match a.grow b.length with
  | (false, a) => (false, a)
  | (true, a) => (true, { a with cur := a.cur ++ b })

def addAS (as : ASN) (a : Answer) : Bool × Answer := a.addText as.text

def addPrefix (p : Prefix) (a : Answer) : Bool × Answer := a.addText p.text

def writeTo (a : Answer) : Text := a.parts.flatten ++ a.cur

def frame (a : Answer) : Text :=
  if a.isOver then tooLarge a.max
  else
    let head := lit "A" ++ ofNat a.n ++ lit "\n"
    let total := head.length + a.n + (lit "C\n").length
    if 0 < a.max ∧ a.max < total then tooLarge a.max
    else head ++ a.writeTo ++ lit "C\n"

/-- One call on an answer. -/
inductive Call
  | add (pieces : List Text)
  | addAS (as : ASN)
  | addPrefix (p : Prefix)

/-- The answer after a call; what the call returns is the caller's to use or not. -/
def call (a : Answer) : Call → Answer
  | .add pieces => (a.add pieces).2
  | .addAS as => (a.addAS as).2
  | .addPrefix p => (a.addPrefix p).2

/-- The pieces of a call, joined. -/
def Call.text : Call → Text
  | .add pieces => pieces.flatten
  | .addAS as => as.text
  | .addPrefix p => p.text

end Answer

/-- The budget in `Session.Do`: a reply that is longer is refused. -/
def underBudget (max : Nat) (reply : Text) : Text :=
  if 0 < max ∧ max < reply.length then fail (tooLargeMsg max) else reply

end Rpsl.Irrdq
