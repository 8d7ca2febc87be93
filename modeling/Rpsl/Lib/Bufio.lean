import Mathlib.Data.Fin.Basic
import Mathlib.Data.List.Basic
import Mathlib.Tactic

/-!
# A buffered reader

A source delivers its elements in chunks of any sizes (`Delivery`); a `Reader` buffers them, as
Go's `bufio.Reader` does, and hands out what is up to a delimiter (`readSlice`) or as much as there
is room for (`read`); `copyN` reads a given number of elements, as Go's `io.CopyN` does, and `peek`
looks at elements that stay unread.

The elements still to be handed out are the reader's `content`. `readSlice` takes from it what is up
to the first delimiter, unless the buffer is full or the source ends first (`readSlice_spec`);
`read` takes some (`read_spec`), and `copyN` as many as it is to (`copyN_spec`). A slice is a place
in the buffer, and what `readSlice` returns is the place just before the read index, which the next
call may overwrite.
-/

namespace Lib

variable {α : Type}

/-! ## Sources -/

/-- Why a read returned less than was asked for. -/
inductive ReadErr
  | bufferFull
  | eof
  | noProgress
  | failed (msg : List Char)
deriving DecidableEq, Repr

/-- A source: one read into some space, the elements it has still to give, whether its reads may
fail, and where they may not the reads that return nothing before the next one that does not. -/
class Source (σ : Type) (α : outParam Type) where
  read : Nat → σ → List α × Option ReadErr × σ
  elems : σ → List α
  fails : Prop
  wait : σ → Nat

section
variable {σ : Type} [Source σ α]

/-- What an error of a source says: that it has ended, or failed where it may. -/
def Source.Stopped (s : σ) (e : ReadErr) : Prop :=
  e = .eof ∧ Source.elems s = [] ∨ e ≠ .eof ∧ e ≠ .bufferFull ∧ Source.fails σ

/-- What one read can do. -/
structure Source.Read (space : Nat) (s : σ) (got : List α) (err : Option ReadErr) (s' : σ) :
    Prop where
  elems : got ++ Source.elems s' = Source.elems s
  fits : got.length ≤ space
  stopped : ∀ e, err = some e → Source.Stopped s' e
  moves : ¬ Source.fails σ → got = [] → err = none → Source.wait s' < Source.wait s

end

class LawfulSource (σ : Type) [Source σ α] : Prop where
  read_spec : ∀ {space : Nat}, 0 < space → ∀ s : σ, Source.Read space s (Source.read space s).1
    (Source.read space s).2.1 (Source.read space s).2.2
  wait_lt : ¬ Source.fails σ → ∀ s : σ, Source.wait s < 100

/-! ## What a source delivers -/

/-- Reads that return nothing, fewer in a row than a buffered reader puts up with, and then at
least one element. -/
structure Chunk (α : Type) where
  idle : Fin 100
  first : α
  rest : List α

/-- The elements of a chunk. -/
def Chunk.elems (c : Chunk α) : List α := c.first :: c.rest

/-- A source that does not fail: its chunks, and then the end, after reads that return nothing or
(`eager`) with the last chunk already. -/
structure Delivery (α : Type) where
  chunks : List (Chunk α)
  idle : Fin 100
  eager : Bool

namespace Delivery

/-- The elements the source has still to deliver. -/
def elems (d : Delivery α) : List α := d.chunks.flatMap Chunk.elems

/-- One read into `space`. -/
def read (space : Nat) (d : Delivery α) : List α × Option ReadErr × Delivery α :=
  match d.chunks with
  | [] =>
    if d.idle = 0 then ([], some .eof, d)
    else ([], none, { d with idle := d.idle - 1 })
  | c :: cs =>
    if c.idle ≠ 0 then ([], none, { d with chunks := { c with idle := c.idle - 1 } :: cs })
    else
      match c.elems.drop space with
      | [] =>
        (c.elems, if d.eager && cs.isEmpty then some .eof else none, { d with chunks := cs })
      | x :: xs => (c.elems.take space, none, { d with chunks := ⟨0, x, xs⟩ :: cs })

/-- The reads that return nothing before the next one that does not. -/
def wait (d : Delivery α) : Nat :=
  match d.chunks with
  | [] => d.idle
  | c :: _ => c.idle

instance : Source (Delivery α) α := ⟨read, elems, False, wait⟩

theorem wait_lt (d : Delivery α) : d.wait < 100 := by
  unfold wait
  split
  · exact d.idle.isLt
  · rename_i c cs _
    exact c.idle.isLt

theorem sub_one_lt {i : Fin 100} (h : i ≠ 0) : (i - 1).val < i.val := by
  rw [Fin.val_sub_one_of_ne_zero h]
  have : i.val ≠ 0 := fun h0 => h (Fin.ext h0)
  omega

theorem stopped_iff {d : Delivery α} {e : ReadErr} :
    Source.Stopped d e ↔ e = .eof ∧ d.elems = [] :=
  ⟨fun h => h.resolve_right fun hf => hf.2.2, .inl⟩

theorem read_spec {space : Nat} (hspace : 0 < space) (d : Delivery α) :
    Source.Read space d (d.read space).1 (d.read space).2.1 (d.read space).2.2 := by
  rcases d with ⟨chunks, idle, eager⟩
  unfold read
  cases chunks with
  | nil =>
    by_cases h : idle = 0
    · simp only [h, if_true]
      refine ⟨rfl, Nat.zero_le _, fun e he => .inl ?_, fun _ _ he => by cases he⟩
      cases he
      exact ⟨rfl, rfl⟩
    · simp only [h, if_false]
      exact ⟨rfl, Nat.zero_le _, nofun, fun _ _ _ => sub_one_lt h⟩
  | cons c cs =>
    by_cases h : c.idle = 0
    · simp only [h, ne_eq, not_true_eq_false, if_false]
      cases hdrop : c.elems.drop space with
      | nil =>
        refine ⟨rfl, List.drop_eq_nil_iff.1 hdrop, fun e he => .inl ?_, fun _ hnil => by cases hnil⟩
        dsimp only at he
        split_ifs at he with hlast
        cases he
        have hcs : cs = [] := List.isEmpty_iff.1 (Bool.and_eq_true_iff.1 hlast).2
        rw [hcs]
        exact ⟨rfl, rfl⟩
      | cons x xs =>
        refine ⟨?_, List.length_take_le _ _, nofun, fun _ hnil => ?_⟩
        · show c.elems.take space ++ ((x :: xs) ++ cs.flatMap Chunk.elems) = _
          rw [← hdrop, ← List.append_assoc, List.take_append_drop]
          rfl
        · rcases List.take_eq_nil_iff.1 hnil with h0 | h0
          · omega
          · cases h0
    · simp only [h, ne_eq, not_false_eq_true, if_true]
      exact ⟨rfl, Nat.zero_le _, nofun, fun _ _ _ => sub_one_lt h⟩

instance : LawfulSource (Delivery α) := ⟨read_spec, fun _ => wait_lt⟩

theorem read_chunks (space : Nat) (d : Delivery α) :
    d.chunks.tail <:+ (d.read space).2.2.chunks ∧
      ((d.read space).1 = [] → (d.read space).2.2.chunks.tail = d.chunks.tail) := by
  rcases d with ⟨chunks, idle, eager⟩
  unfold read
  cases chunks with
  | nil =>
    dsimp only
    split <;> simp
  | cons c cs =>
    dsimp only
    by_cases h : c.idle ≠ 0
    · rw [if_pos h]
      exact ⟨List.suffix_cons _ _, fun _ => rfl⟩
    · rw [if_neg h]
      cases hdrop : c.elems.drop space with
      | nil => exact ⟨List.suffix_rfl, fun hnil => by cases hnil⟩
      | cons x xs => exact ⟨List.suffix_cons _ _, fun _ => rfl⟩

end Delivery

/-! ## The reader -/

/-- A buffered reader: its source, the size of its buffer, the part of the buffer filled so far, the
index of the first element not handed out, and an error held for the next call. -/
structure Reader (α : Type) (σ : Type := Delivery α) where
  rd : σ
  size : Nat
  buf : List α
  r : Nat
  err : Option ReadErr

namespace Reader

section
variable {σ : Type} [Source σ α]

/-- A reader over a source, nothing read. -/
def new (s : σ) (size : Nat) : Reader α σ := ⟨s, max size 16, [], 0, none⟩

/-- The part of the buffer not handed out. -/
def unread (b : Reader α σ) : List α := b.buf.drop b.r

/-- The elements still to be handed out. -/
def content (b : Reader α σ) : List α := b.unread ++ Source.elems b.rd

/-- What a place in the buffer, an offset and a length, holds. -/
def slice (b : Reader α σ) (at' : Nat × Nat) : List α := (b.buf.drop at'.1).take at'.2

/-- Reads the source until it delivers something, `tries` times at most. -/
def fillFrom : Nat → Reader α σ → Reader α σ
  | 0, b => { b with err := some .noProgress }
  | tries + 1, b =>
    match Source.read (b.size - b.buf.length) b.rd with
    | (got, some e, rd) => { b with rd := rd, buf := b.buf ++ got, err := some e }
    | (got, none, rd) =>
      let b' := { b with rd := rd, buf := b.buf ++ got }
      if got.isEmpty then fillFrom tries b' else b'

/-- Slides what was not handed out to the front of the buffer, and reads more. -/
def fill (b : Reader α σ) : Reader α σ := fillFrom 100 { b with buf := b.unread, r := 0 }

/-- `readSlice` with `fuel` fills. -/
def readSliceFrom [BEq α] (delim : α) (fuel : Nat) (b : Reader α σ) :
    (Nat × Nat) × Option ReadErr × Reader α σ :=
  match b.unread.idxOf? delim with
  | some i => ((b.r, i + 1), none, { b with r := b.r + (i + 1) })
  | none =>
    match b.err with
    | some e => ((b.r, b.unread.length), some e, { b with r := b.buf.length, err := none })
    | none =>
      if b.size ≤ b.unread.length then
        ((b.r, b.unread.length), some .bufferFull, { b with r := b.buf.length })
      else
        match fuel with
        | 0 => ((b.r, 0), some .noProgress, b)
        | fuel + 1 => readSliceFrom delim fuel b.fill

/-- The place of what is up to the next `delim`, included; or of the whole buffer, full without one;
or of what is left before an error. Every fill but the last adds to the buffer, so its size bounds
their number. -/
def readSlice [BEq α] (delim : α) (b : Reader α σ) :
    (Nat × Nat) × Option ReadErr × Reader α σ :=
  readSliceFrom delim (b.size + 1) b

end

/-- Hands out of the buffer what there is, `n` elements at most. -/
def handOut (n : Nat) (b : Reader α) : List α × Option ReadErr × Reader α :=
  (b.unread.take n, none, { b with r := b.r + min n b.unread.length })

/-- As many as `n` elements: from the buffer, or where it is empty from one read of the source,
straight into the room there is when that is no smaller than the buffer. -/
def read (n : Nat) (b : Reader α) : List α × Option ReadErr × Reader α :=
  if n = 0 then
    if b.unread.isEmpty then ([], b.err, { b with err := none }) else ([], none, b)
  else if b.unread.isEmpty then
    match b.err with
    | some e => ([], some e, { b with err := none })
    | none =>
      if b.size ≤ n then
        let (got, e, rd) := b.rd.read n
        (got, e, { b with rd := rd })
      else
        let (got, e, rd) := b.rd.read b.size
        if got.isEmpty then ([], e, { b with rd := rd, buf := [], r := 0 })
        else handOut n { b with rd := rd, buf := got, r := 0, err := e }
  else handOut n b

/-- `copyN` with `fuel` reads: `n` elements are still to come, `lens` are the lengths of the reads
so far and `acc` what they gave. -/
def copyNFrom (room : List Nat → Nat) :
    Nat → List Nat → Nat → List α → Reader α → Except ReadErr (List α) × Reader α
  | 0, _, _, _, b => (.error .noProgress, b)
  | fuel + 1, lens, n, acc, b =>
    if n = 0 then (.ok acc, b)
    else
      let (got, err, b) := b.read (min (room lens) n)
      match err with
      | none => copyNFrom room fuel (lens ++ [got.length]) (n - got.length) (acc ++ got) b
      | some e => if n - got.length = 0 then (.ok (acc ++ got), b) else (.error e, b)

/-- The next `n` elements, read into a destination that has `room` for some more after reads of
given lengths. Every read but the last takes an element or one of the empty reads before it. -/
def copyN (room : List Nat → Nat) (n : Nat) (b : Reader α) : Except ReadErr (List α) × Reader α :=
  copyNFrom room (100 * b.content.length + b.rd.wait + 1) [] n [] b

/-- Fills until there are `n` elements, the buffer is full or an error is held, `fuel` times at
most. -/
def fillTo : Nat → Nat → Reader α → Reader α
  | 0, _, b => b
  | fuel + 1, n, b =>
    if b.unread.length < n ∧ b.unread.length < b.size ∧ b.err = none then fillTo fuel n b.fill
    else b

/-- The next `n` elements, which stay unread, or those there are before an error. Every fill but
the last adds to the buffer. -/
def peek (n : Nat) (b : Reader α) : List α × Option ReadErr × Reader α :=
  let b := fillTo n n b
  if b.size < n then (b.unread, some .bufferFull, b)
  else if b.unread.length < n then
    (b.unread, some (b.err.getD .bufferFull), { b with err := none })
  else (b.unread.take n, none, b)

/-- Skips `n` elements, of those in the buffer. -/
def discard (n : Nat) (b : Reader α) : Reader α := { b with r := b.r + n }

/-! ## Reading up to a delimiter -/

section
variable {σ : Type} [Source σ α]

/-- What was handed out is in the buffer, the buffer is not longer than its size, and an error that
is held is what stopped the source. -/
structure Inv (b : Reader α σ) : Prop where
  size_pos : 0 < b.size
  r_le : b.r ≤ b.buf.length
  fits : b.buf.length ≤ b.size
  held : ∀ e, b.err = some e → Source.Stopped b.rd e

theorem inv_new (s : σ) (size : Nat) : (new s size).Inv := by
  refine ⟨?_, le_refl _, Nat.zero_le _, nofun⟩
  show 0 < max size 16
  omega

@[simp] theorem content_new (s : σ) (size : Nat) : (new s size).content = Source.elems s := rfl

/-- What filling the buffer can do. -/
structure Filled (b b' : Reader α σ) : Prop where
  inv : b'.Inv
  size : b'.size = b.size
  content : b'.content = b.content
  grows : b'.err = none → b.unread.length < b'.unread.length

/-- How a slice ends, with what is left after it: with the first delimiter, at the end of the
source, where the buffer is full, or where the source fails. -/
inductive Ends (fails : Prop) (delim : α) (size : Nat) :
    List α → List α → Option ReadErr → Prop
  | found {p rest : List α} (hp : delim ∉ p) : Ends fails delim size (p ++ [delim]) rest none
  | eof {s : List α} (hs : delim ∉ s) : Ends fails delim size s [] (some .eof)
  | full {s rest : List α} (hs : delim ∉ s) (hlen : s.length = size) :
      Ends fails delim size s rest (some .bufferFull)
  | failed {s rest : List α} {e : ReadErr} (hs : delim ∉ s) (heof : e ≠ .eof)
      (hfull : e ≠ .bufferFull) (hfails : fails) : Ends fails delim size s rest (some e)

/-- What `readSlice` can do: the slice is what precedes the read index, it and what is then left
are what was left, and it ends as it may. -/
structure ReadSlice (delim : α) (b : Reader α σ) (at' : Nat × Nat) (e : Option ReadErr)
    (b' : Reader α σ) : Prop where
  inv : b'.Inv
  size : b'.size = b.size
  content : b'.slice at' ++ b'.content = b.content
  ends : Ends (Source.fails σ) delim b.size (b'.slice at') b'.content e

omit [Source σ α] in
theorem slice_unread (b : Reader α σ) (r : Nat) (e : Option ReadErr) :
    slice { b with r := r, err := e } (b.r, b.unread.length) = b.unread :=
  List.take_length

variable {b : Reader α σ} {p rest : List α}

theorem content_all (e : Option ReadErr) :
    content { b with r := b.buf.length, err := e } = Source.elems b.rd := by
  rw [content, unread, List.drop_length, List.nil_append]

theorem readSlice_found {delim : α} (hb : b.Inv)
    (hp : delim ∉ p) (hunread : b.unread = p ++ delim :: rest) :
    ReadSlice delim b (b.r, p.length + 1) none { b with r := b.r + (p.length + 1) } := by
  have hslice : (b.buf.drop b.r).take (p.length + 1) = p ++ [delim] := by
    show b.unread.take (p.length + 1) = p ++ [delim]
    rw [hunread, ← List.singleton_append, ← List.append_assoc]
    exact List.take_left' (by simp)
  have hrest : b.buf.drop (b.r + (p.length + 1)) = rest := by
    rw [← List.drop_drop]
    show b.unread.drop (p.length + 1) = rest
    rw [hunread, ← List.singleton_append, ← List.append_assoc]
    exact List.drop_left' (by simp)
  have hlen : b.buf.length - b.r = p.length + (rest.length + 1) := by
    have := congrArg List.length hunread
    rwa [unread, List.length_drop, List.length_append, List.length_cons] at this
  refine ⟨⟨hb.size_pos, ?_, hb.fits, hb.held⟩, rfl, ?_, ?_⟩
  · show b.r + (p.length + 1) ≤ b.buf.length
    have := hb.r_le
    omega
  · show (b.buf.drop b.r).take (p.length + 1) ++
        (b.buf.drop (b.r + (p.length + 1)) ++ Source.elems b.rd) = b.unread ++ Source.elems b.rd
    rw [hslice, hrest, hunread]
    simp
  · show Ends _ delim b.size ((b.buf.drop b.r).take (p.length + 1)) _ none
    rw [hslice]
    exact .found hp

section
variable [BEq α] [LawfulBEq α]

/-- A delimiter in the buffer, an error held or a full buffer end the search. -/
def Stops (delim : α) (b : Reader α σ) : Prop :=
  delim ∈ b.unread ∨ b.err ≠ none ∨ b.size ≤ b.unread.length

theorem readSliceFrom_stop (delim : α) (fuel : Nat) (hb : b.Inv)
    (hstop : Stops delim b) :
    ReadSlice delim b (b.readSliceFrom delim fuel).1 (b.readSliceFrom delim fuel).2.1
      (b.readSliceFrom delim fuel).2.2 := by
  unfold readSliceFrom
  cases hidx : b.unread.idxOf? delim with
  | some i =>
    obtain ⟨hi, hdelim, hbefore⟩ := List.idxOf?_eq_some_iff.1 hidx
    have hp : delim ∉ b.unread.take i := by
      intro hmem
      obtain ⟨j, hj, hget⟩ := List.mem_take_iff_getElem.1 hmem
      exact hbefore j (by omega) hget
    have hunread : b.unread = b.unread.take i ++ delim :: b.unread.drop (i + 1) := by
      rw [← hdelim, List.getElem_cons_drop, List.take_append_drop]
    have hlen : (b.unread.take i).length = i := List.length_take_of_le (Nat.le_of_lt hi)
    have hread := readSlice_found hb hp hunread
    rwa [hlen] at hread
  | none =>
    have hnot : delim ∉ b.unread := List.idxOf?_eq_none_iff.1 hidx
    have hall : ∀ e, content { b with r := b.buf.length, err := e } = Source.elems b.rd :=
      fun e => content_all e
    cases herr : b.err with
    | some e =>
      refine ⟨⟨hb.size_pos, le_refl _, hb.fits, nofun⟩, rfl, ?_, ?_⟩
      · rw [slice_unread, hall]
        rfl
      · rw [slice_unread, hall]
        rcases hb.held e herr with ⟨rfl, hend⟩ | ⟨heof, hfull, hfails⟩
        · rw [hend]
          exact .eof hnot
        · exact .failed hnot heof hfull hfails
    | none =>
      have hfull : b.size ≤ b.unread.length := by
        rcases hstop with hmem | hne | hle
        · exact absurd hmem hnot
        · exact absurd herr hne
        · exact hle
      have hsize : b.unread.length = b.size := by
        refine le_antisymm ?_ hfull
        rw [unread, List.length_drop]
        have := hb.fits
        omega
      dsimp only
      rw [if_pos hfull]
      refine ⟨⟨hb.size_pos, le_refl _, hb.fits, nofun⟩, rfl, ?_, ?_⟩
      · rw [slice_unread, hall]
        rfl
      · rw [slice_unread, hall]
        exact .full hnot hsize

theorem readSliceFrom_fill {delim : α} (hgo : ¬ Stops delim b) (fuel : Nat) :
    b.readSliceFrom delim (fuel + 1) = b.fill.readSliceFrom delim fuel := by
  rw [Stops, not_or, not_or, not_not] at hgo
  conv_lhs => unfold readSliceFrom
  rw [List.idxOf?_eq_none_iff.2 hgo.1, hgo.2.1]
  exact if_neg hgo.2.2

end

variable [LawfulSource σ]

theorem fillFrom_spec (tries : Nat) (hb : b.Inv) (herr : b.err = none) (hr : b.r = 0)
    (hroom : b.buf.length < b.size) (hwait : ¬ Source.fails σ → Source.wait b.rd < tries) :
    Filled b (fillFrom tries b) := by
  induction tries generalizing b with
  | zero =>
    refine ⟨⟨hb.size_pos, hb.r_le, hb.fits, fun e he => ?_⟩, rfl, rfl, nofun⟩
    cases he
    exact .inr ⟨nofun, nofun, by_contra fun h => Nat.not_lt_zero _ (hwait h)⟩
  | succ tries ih =>
    have hread : Source.Read (b.size - b.buf.length) b.rd _ _ _ :=
      LawfulSource.read_spec (Nat.sub_pos_of_lt hroom) b.rd
    unfold fillFrom
    rcases hgot : Source.read (b.size - b.buf.length) b.rd with ⟨got, err, rd⟩
    rw [hgot] at hread
    dsimp only at hread ⊢
    have hlen : (b.buf ++ got).length ≤ b.size := by
      rw [List.length_append]
      have := hread.fits
      omega
    have hunread : b.unread = b.buf := by rw [unread, hr, List.drop_zero]
    have hcontent : (b.buf ++ got).drop b.r ++ Source.elems rd = b.content := by
      rw [hr, List.drop_zero, List.append_assoc, hread.elems, content, hunread]
    have hrle : b.r ≤ (b.buf ++ got).length := by rw [hr]; exact Nat.zero_le _
    cases err with
    | some e => exact ⟨⟨hb.size_pos, hrle, hlen, hread.stopped⟩, rfl, hcontent, nofun⟩
    | none =>
      have hheld : ∀ e, b.err = some e → Source.Stopped rd e := by simp [herr]
      cases got with
      | nil =>
        -- nothing came: the source has fewer such reads left
        dsimp only
        rw [if_pos (show ([] : List α).isEmpty = true from rfl)]
        rw [List.append_nil] at hcontent hlen hrle ⊢
        have hfilled := ih (b := { b with rd := rd }) ⟨hb.size_pos, hrle, hlen, hheld⟩ herr hr hroom
          fun h => by
            have hmoves := hread.moves h rfl rfl
            have := hwait h
            show Source.wait rd < tries
            omega
        exact ⟨hfilled.inv, hfilled.size, hfilled.content.trans hcontent, hfilled.grows⟩
      | cons x xs =>
        dsimp only
        rw [if_neg (show ¬ (x :: xs).isEmpty = true from Bool.false_ne_true)]
        refine ⟨⟨hb.size_pos, hrle, hlen, hheld⟩, rfl, hcontent, fun _ => ?_⟩
        show b.unread.length < ((b.buf ++ x :: xs).drop b.r).length
        rw [hunread, hr, List.drop_zero, List.length_append, List.length_cons]
        omega

theorem fill_spec (hb : b.Inv) (herr : b.err = none)
    (hroom : b.unread.length < b.size) : Filled b b.fill := by
  have hlen : b.unread.length ≤ b.size := Nat.le_of_lt hroom
  have hheld : ∀ e, b.err = some e → Source.Stopped b.rd e := by simp [herr]
  have hfilled := fillFrom_spec 100 (b := { b with buf := b.unread, r := 0 })
    ⟨hb.size_pos, Nat.zero_le _, hlen, hheld⟩ herr rfl hroom fun h => LawfulSource.wait_lt h b.rd
  exact ⟨hfilled.inv, hfilled.size, hfilled.content, hfilled.grows⟩

variable [BEq α] [LawfulBEq α]

theorem readSliceFrom_spec (delim : α) (fuel : Nat) (hb : b.Inv)
    (hfuel : b.err = none → b.size - b.unread.length < fuel) :
    ReadSlice delim b (b.readSliceFrom delim fuel).1 (b.readSliceFrom delim fuel).2.1
      (b.readSliceFrom delim fuel).2.2 := by
  induction fuel generalizing b with
  | zero => exact readSliceFrom_stop delim 0 hb (.inr (.inl fun h => Nat.not_lt_zero _ (hfuel h)))
  | succ fuel ih =>
    by_cases hstop : Stops delim b
    · exact readSliceFrom_stop delim _ hb hstop
    · rw [readSliceFrom_fill hstop]
      rw [Stops, not_or, not_or, not_not] at hstop
      obtain ⟨-, herr, hroom⟩ := hstop
      have hfilled := fill_spec hb herr (Nat.lt_of_not_le hroom)
      have hread := ih hfilled.inv fun h => by
        have hgrows := hfilled.grows h
        have hfuel := hfuel herr
        rw [hfilled.size]
        omega
      refine ⟨hread.inv, hread.size.trans hfilled.size, hread.content.trans hfilled.content, ?_⟩
      rw [← hfilled.size]
      exact hread.ends

/-- **`readSlice` takes what is up to the delimiter off what is left**, or as much of it as the
buffer holds. -/
theorem readSlice_spec (delim : α) (hb : b.Inv) :
    ReadSlice delim b (b.readSlice delim).1 (b.readSlice delim).2.1 (b.readSlice delim).2.2 :=
  readSliceFrom_spec delim (b.size + 1) hb fun _ => by omega

end

/-! ## Reading what there is -/

variable {b : Reader α} {p rest : List α}

theorem content_delivery (b : Reader α) : b.content = b.unread ++ b.rd.elems := rfl

/-- What `read` can do: an error is the end of the source, and without one either something is
handed out or the source has fewer empty reads left. -/
structure ReadSome (n : Nat) (b : Reader α) (got : List α) (e : Option ReadErr) (b' : Reader α) :
    Prop where
  inv : b'.Inv
  size : b'.size = b.size
  content : got ++ b'.content = b.content
  fits : got.length ≤ n
  last : e ≠ none → e = some .eof ∧ b'.content = []
  moves : got = [] → e = none → b'.rd.wait < b.rd.wait

theorem handOut_spec {n : Nat} (hn : 0 < n) (hb : b.Inv) (hne : b.unread ≠ []) :
    ReadSome n b (handOut n b).1 (handOut n b).2.1 (handOut n b).2.2 := by
  have hlen : b.unread.length = b.buf.length - b.r := List.length_drop
  have hdrop : b.buf.drop (b.r + min n b.unread.length) = b.unread.drop n := by
    rw [← List.drop_drop]
    exact List.drop_eq_drop_iff.2 (by rw [← unread]; omega)
  refine ⟨⟨hb.size_pos, ?_, hb.fits, hb.held⟩, rfl, ?_, List.length_take_le _ _, ?_, ?_⟩
  · show b.r + min n b.unread.length ≤ b.buf.length
    have := hb.r_le
    omega
  · show b.unread.take n ++ (b.buf.drop (b.r + min n b.unread.length) ++ b.rd.elems) = b.content
    rw [hdrop, ← List.append_assoc, List.take_append_drop]
    rfl
  · intro h
    exact absurd rfl h
  · intro hnil
    rcases List.take_eq_nil_iff.1 hnil with h0 | h0
    · omega
    · exact absurd h0 hne

theorem read_spec {n : Nat} (hn : 0 < n) (hb : b.Inv) :
    ReadSome n b (b.read n).1 (b.read n).2.1 (b.read n).2.2 := by
  unfold read
  rw [if_neg (Nat.ne_of_gt hn)]
  by_cases hne : b.unread = []
  · rw [if_pos (List.isEmpty_iff.2 hne)]
    have hcontent : b.content = b.rd.elems := by
      rw [content_delivery, hne, List.nil_append]
    cases herr : b.err with
    | some e =>
      obtain ⟨rfl, hend⟩ := Delivery.stopped_iff.1 (hb.held e herr)
      exact ⟨⟨hb.size_pos, hb.r_le, hb.fits, nofun⟩, rfl, rfl, Nat.zero_le _,
        fun _ => ⟨rfl, hcontent.trans hend⟩, nofun⟩
    | none =>
      dsimp only
      by_cases hsize : b.size ≤ n
      · -- straight from the source
        rw [if_pos hsize]
        have hread := b.rd.read_spec hn
        rcases hgot : b.rd.read n with ⟨got, e, rd⟩
        rw [hgot] at hread
        have hcontent' : content { b with rd := rd, err := none } = rd.elems := by
          show b.unread ++ rd.elems = rd.elems
          rw [hne, List.nil_append]
        refine ⟨⟨hb.size_pos, hb.r_le, hb.fits, nofun⟩, rfl, ?_, hread.fits, ?_, ?_⟩
        · rw [hcontent', hcontent]
          exact hread.elems
        · intro he
          obtain ⟨x, rfl⟩ := Option.ne_none_iff_exists'.1 he
          obtain ⟨rfl, hend⟩ := Delivery.stopped_iff.1 (hread.stopped x rfl)
          exact ⟨rfl, hcontent'.trans hend⟩
        · exact hread.moves id
      · rw [if_neg hsize]
        have hread := b.rd.read_spec hb.size_pos
        rcases hgot : b.rd.read b.size with ⟨got, e, rd⟩
        rw [hgot] at hread
        dsimp only at hread ⊢
        cases got with
        | nil =>
          rw [if_pos (show ([] : List α).isEmpty = true from rfl)]
          refine ⟨⟨hb.size_pos, le_refl _, Nat.zero_le _, nofun⟩, rfl, ?_, Nat.zero_le _, ?_, ?_⟩
          · rw [hcontent]
            exact hread.elems
          · intro he
            obtain ⟨x, rfl⟩ := Option.ne_none_iff_exists'.1 he
            obtain ⟨rfl, hend⟩ := Delivery.stopped_iff.1 (hread.stopped x rfl)
            exact ⟨rfl, hend⟩
          · exact hread.moves id
        | cons x xs =>
          rw [if_neg (show ¬ (x :: xs).isEmpty = true from Bool.false_ne_true)]
          -- the reader is now one whose buffer holds what was read
          have hinv : Inv (⟨rd, b.size, x :: xs, 0, e⟩ : Reader α) :=
            ⟨hb.size_pos, Nat.zero_le _, hread.fits, hread.stopped⟩
          have hsome := handOut_spec hn hinv (List.cons_ne_nil x xs)
          have hwhole : (x :: xs) ++ rd.elems = b.content := hread.elems.trans hcontent.symm
          exact ⟨hsome.inv, rfl, hsome.content.trans hwhole, hsome.fits, fun he => absurd rfl he,
            fun hnil he => absurd (hsome.moves hnil he) (lt_irrefl _)⟩
  · rw [if_neg fun h => hne (List.isEmpty_iff.1 h)]
    exact handOut_spec hn hb hne

theorem copyNFrom_spec {room : List Nat → Nat} (hroom : ∀ lens, 0 < room lens) (fuel : Nat)
    (lens : List Nat) (acc : List α) (hb : b.Inv)
    (hcontent : b.content = p ++ rest) (hfuel : 100 * b.content.length + b.rd.wait < fuel) :
    ∃ b', copyNFrom room fuel lens p.length acc b = (.ok (acc ++ p), b') ∧ b'.Inv ∧
      b'.size = b.size ∧ b'.content = rest := by
  induction fuel generalizing lens acc b p with
  | zero => exact absurd hfuel (Nat.not_lt_zero _)
  | succ fuel ih =>
    rw [copyNFrom]
    by_cases hp : p = []
    · subst hp
      exact ⟨b, by simp, hb, rfl, hcontent⟩
    · have hpos : 0 < p.length := List.length_pos_iff.2 hp
      have hsome := read_spec (show 0 < min (room lens) p.length by have := hroom lens; omega) hb
      rw [if_neg (Nat.ne_of_gt hpos)]
      rcases hread : b.read (min (room lens) p.length) with ⟨got, err, b'⟩
      rw [hread] at hsome
      have hfits := hsome.fits
      have hinv := hsome.inv
      have hsize := hsome.size
      have hwhole := hsome.content
      have hlast := hsome.last
      have hmoves := hsome.moves
      dsimp only at hfits hinv hsize hwhole hlast hmoves ⊢
      -- what was read is the first part of what is to be
      obtain ⟨q, rfl⟩ : got <+: p := by
        have hgot : got <+: p ++ rest := by
          rw [← hcontent, ← hwhole]
          exact List.prefix_append _ _
        apply List.prefix_of_prefix_length_le hgot (List.prefix_append _ _)
        exact hfits.trans (min_le_right _ _)
      have hleft : b'.content = q ++ rest := by
        rw [hcontent, List.append_assoc] at hwhole
        exact List.append_cancel_left hwhole
      have hlen : (got ++ q).length - got.length = q.length := by
        rw [List.length_append]
        omega
      rw [hlen]
      cases err with
      | some e =>
        have hnil := (hlast (Option.some_ne_none e)).2
        rw [hleft, List.append_eq_nil_iff] at hnil
        obtain ⟨rfl, rfl⟩ := hnil
        refine ⟨b', ?_, hinv, hsize, hleft⟩
        simp
      | none =>
        have hfuel' : 100 * b'.content.length + b'.rd.wait < fuel := by
          rw [← hwhole, List.length_append] at hfuel
          cases got with
          | nil =>
            have := hmoves rfl rfl
            rw [List.length_nil] at hfuel
            omega
          | cons x xs =>
            have := b'.rd.wait_lt
            rw [List.length_cons] at hfuel
            omega
        obtain ⟨b'', hcopy, hinv'', hsize'', hrest⟩ := ih (lens ++ [got.length]) (acc ++ got) hinv
          hleft hfuel'
        refine ⟨b'', ?_, hinv'', hsize''.trans hsize, hrest⟩
        rw [← List.append_assoc]
        exact hcopy

/-- **`copyN` takes what it is to** off what is left, if there is that much. -/
theorem copyN_spec {room : List Nat → Nat} (hroom : ∀ lens, 0 < room lens)
    (hb : b.Inv) (hcontent : b.content = p ++ rest) :
    ∃ b', copyN room p.length b = (.ok p, b') ∧ b'.Inv ∧ b'.size = b.size ∧ b'.content = rest :=
  copyNFrom_spec hroom _ [] [] hb hcontent (Nat.lt_succ_self _)

/-! ## Looking ahead -/

theorem fillFrom_chunks (tries : Nat) (b : Reader α) :
    b.rd.chunks.tail <:+ (fillFrom tries b).rd.chunks := by
  induction tries generalizing b with
  | zero => exact List.tail_suffix _
  | succ tries ih =>
    have hread := b.rd.read_chunks (b.size - b.buf.length)
    unfold fillFrom
    rw [show Source.read (b.size - b.buf.length) b.rd = b.rd.read (b.size - b.buf.length) from rfl]
    rcases hgot : b.rd.read (b.size - b.buf.length) with ⟨got, err, rd⟩
    rw [hgot] at hread
    cases err with
    | some e => exact hread.1
    | none =>
      dsimp only at hread ⊢
      split_ifs with hnil
      · rw [← hread.2 (List.isEmpty_iff.1 hnil)]
        exact ih { b with rd := rd, buf := b.buf ++ got }
      · exact hread.1

theorem fillTo_stop {n : Nat}
    (h : ¬(b.unread.length < n ∧ b.unread.length < b.size ∧ b.err = none)) (fuel : Nat) :
    fillTo fuel n b = b := by
  cases fuel with
  | zero => rfl
  | succ fuel => exact if_neg h

theorem length_unread_le (hb : b.Inv) : b.unread.length ≤ b.size := by
  have := hb.fits
  rw [unread, List.length_drop]
  omega

theorem peek_buffered (hb : b.Inv) : b.peek b.unread.length = (b.unread, none, b) := by
  rw [peek, fillTo_stop fun h => Nat.lt_irrefl _ h.1, if_neg (Nat.not_lt.2 (length_unread_le hb)),
    if_neg (Nat.lt_irrefl _), List.take_length]

/-- What looking one element further can do: there is one, or the source has ended. -/
structure Peeked (b : Reader α) (e : Option ReadErr) (b' : Reader α) : Prop where
  inv : b'.Inv
  size : b'.size = b.size
  content : b'.content = b.content
  more : e = none → b.unread.length < b'.unread.length
  last : e ≠ none → e = some .eof ∧ b'.unread = b.unread ∧ b.rd.elems = []
  chunks : b.rd.chunks.tail <:+ b'.rd.chunks

theorem peeked_last {b₁ : Reader α} (hb : b₁.Inv) (hsize : b₁.size = b.size)
    (hcontent : b₁.content = b.content) (hchunks : b.rd.chunks.tail <:+ b₁.rd.chunks)
    (hlen : b₁.unread.length ≤ b.unread.length) (hend : b₁.rd.elems = []) :
    Peeked b (some .eof) { b₁ with err := none } := by
  have hsame : b₁.unread = b.unread ++ b.rd.elems := by
    rw [content_delivery, hend, List.append_nil] at hcontent
    exact hcontent
  have hnil : b.rd.elems = [] := by
    rw [hsame, List.length_append] at hlen
    exact List.length_eq_zero_iff.1 (by omega)
  refine ⟨⟨hb.size_pos, hb.r_le, hb.fits, nofun⟩, hsize, hcontent, fun h => ?_, fun _ => ?_,
    hchunks⟩
  · cases h
  · rw [hnil, List.append_nil] at hsame
    exact ⟨rfl, hsame, hnil⟩

theorem peek_spec (hb : b.Inv) (hroom : b.unread.length < b.size) :
    Peeked b (b.peek (b.unread.length + 1)).2.1 (b.peek (b.unread.length + 1)).2.2 := by
  -- the reader once the buffer is filled, and what it is to be filled for
  obtain ⟨b₁, hto, hinv, hsize, hcontent, hchunks, hheld⟩ :
      ∃ b₁, fillTo (b.unread.length + 1) (b.unread.length + 1) b = b₁ ∧ b₁.Inv ∧
        b₁.size = b.size ∧ b₁.content = b.content ∧ b.rd.chunks.tail <:+ b₁.rd.chunks ∧
        (b₁.unread.length ≤ b.unread.length → b₁.err ≠ none) := by
    cases herr : b.err with
    | some e =>
      exact ⟨b, fillTo_stop (by simp [herr]) _, hb, rfl, rfl, List.tail_suffix _, by simp [herr]⟩
    | none =>
      have hfilled := fill_spec hb herr hroom
      refine ⟨b.fill, ?_, hfilled.inv, hfilled.size, hfilled.content,
        fillFrom_chunks 100 { b with buf := b.unread, r := 0 }, ?_⟩
      · rw [fillTo, if_pos ⟨Nat.lt_succ_self _, hroom, herr⟩, fillTo_stop]
        intro h
        have := hfilled.grows h.2.2
        omega
      · intro hle h
        have := hfilled.grows h
        omega
  rw [peek, hto, if_neg (by omega)]
  split_ifs with hless
  · obtain ⟨e, he⟩ := Option.ne_none_iff_exists'.1 (hheld (by omega))
    obtain ⟨rfl, hend⟩ := Delivery.stopped_iff.1 (hinv.held e he)
    rw [he]
    exact peeked_last hinv hsize hcontent hchunks (by omega) hend
  · exact ⟨hinv, hsize, hcontent, fun _ => Nat.not_lt.1 hless, fun h => absurd rfl h, hchunks⟩

theorem unread_discard (n : Nat) : (b.discard n).unread = b.unread.drop n := by
  rw [unread, unread, List.drop_drop]
  rfl

theorem content_discard (n : Nat) :
    b.unread.take n ++ (b.discard n).content = b.content := by
  rw [content, unread_discard, ← List.append_assoc, List.take_append_drop]
  rfl

theorem inv_discard {n : Nat} (hb : b.Inv) (hn : n ≤ b.unread.length) : (b.discard n).Inv := by
  refine ⟨hb.size_pos, ?_, hb.fits, hb.held⟩
  have := hb.r_le
  rw [unread, List.length_drop] at hn
  show b.r + n ≤ b.buf.length
  omega

end Reader

end Lib
