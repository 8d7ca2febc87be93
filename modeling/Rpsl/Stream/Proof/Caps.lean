import Rpsl.Lexer.Proof.Append
import Rpsl.Stream.Streamer
import Rpsl.Stream.Proof.Lines

/-!
# Within the caps

A cap is about the lines that are held together (`runs`): an object's, or the trivia between two. A
streamer counts those it holds (`Counts`), so that where the lines to come are within the caps
(`Room`) it finds no line over one.
-/

namespace Rpsl.Stream

open Lexer Ast

/-! ## Lines held together -/

/-- The lines of a text, with their terminators. -/
def linesOf (src : Bytes) : List Bytes := (scanLines src).map PhysLine.bytes

/-- The lines held together: an object's, from its first attribute up to a blank line, and those
before and after it; `cur` are held so far, those of an object if `inObj`. -/
def runs (inObj : Bool) (cur : List Bytes) : List Bytes → List (List Bytes)
  | [] => [cur]
  | line :: lines =>
    if inObj && isBlankLine (text line) then cur :: runs false [line] lines
    else if !inObj && startsAttribute (text line) then cur :: runs true [line] lines
    else runs inObj (cur ++ [line]) lines

/-- No more bytes and lines than the caps allow. -/
def Fits (limit maxLines : Int) (run : List Bytes) : Prop :=
  Within limit run.flatten.length ∧ Within maxLines run.length

/-- No object of a text, nor the trivia between two, is over the caps. -/
def WithinCaps (opts : ParseOptions) (src : Bytes) : Prop :=
  ∀ run ∈ runs false [] (linesOf src), Fits opts.bytes opts.lines run

instance (limit maxLines : Int) : DecidablePred (Fits limit maxLines) :=
  fun _ => inferInstanceAs (Decidable ((_ → _) ∧ (_ → _)))

instance (opts : ParseOptions) (src : Bytes) : Decidable (WithinCaps opts src) :=
  inferInstanceAs (Decidable (∀ run ∈ runs false [] (linesOf src), Fits opts.bytes opts.lines run))

theorem IsLine.linesOf {line rest : Bytes} {err : Option Lib.ReadErr} (h : IsLine line err rest)
    (hne : line ≠ []) (heof : ∀ e, err = some e → e = .eof) :
    linesOf (line ++ rest) = line :: linesOf rest := by
  cases err with
  | none =>
    obtain ⟨upTo, rfl, hup⟩ := h.ended rfl
    have hline : scanLines (upTo ++ [nl]) = [endLine upTo [nl] 0 1] := by
      rw [scanLines, scanLinesFrom_nl [] hup, scanLinesFrom_nil]
    rw [Stream.linesOf, scanLines_append (.snoc upTo), hline, List.map_append, List.map_map]
    simp [Stream.linesOf, Function.comp_def, (endLine_spec hup [] 0 1 (.inl rfl)).1]
  | some e =>
    have hnl := h.last nofun
    rw [h.eof (congrArg some (heof e rfl)), List.append_nil, Stream.linesOf, scanLines,
      scanLinesFrom_end hne hnl]
    simp [(endLine_spec hnl [] 0 1 (.inr ⟨rfl, hne, rfl⟩)).1, Stream.linesOf, scanLines,
      scanLinesFrom_nil]

theorem fits_current {limit maxLines : Int} {inObj : Bool} {cur lines : List Bytes}
    (h : ∀ run ∈ runs inObj cur lines, Fits limit maxLines run) : Fits limit maxLines cur := by
  induction lines generalizing inObj cur with
  | nil => exact h cur (List.mem_singleton.2 rfl)
  | cons line lines ih =>
    rw [runs] at h
    split_ifs at h
    · exact h cur List.mem_cons_self
    · exact h cur List.mem_cons_self
    · obtain ⟨hbytes, hlines⟩ := ih h
      exact ⟨hbytes.of_le (by simp), hlines.of_le (by simp)⟩

/-! ## What the streamer's operations come to -/

namespace Streamer

variable {s : Streamer} {li : LineInfo}

def chunks (s : Streamer) : List Chunk := s.out ++ s.pending.toList

theorem emitPending_eq (s : Streamer) :
    s.emitPending = { s with out := s.chunks, pending := none } := by
  unfold emitPending chunks
  split
  · rename_i h
    rw [h, Option.toList_none, List.append_nil, ← h]
  · rename_i h
    rw [h]
    rfl

theorem takeRecoded_eq (s : Streamer) (c : Chunk) :
    ∃ r, s.takeRecoded c = ({ s with recoded := 0 }, { c with recoded := r }) := by
  unfold takeRecoded
  split
  · rename_i h
    exact ⟨c.recoded, by rw [← h]⟩
  · exact ⟨_, rfl⟩

theorem takeParts_fst (s : Streamer) : s.takeParts.1 = s.dropLead := by
  unfold takeParts
  split <;> rfl

def taken (s : Streamer) : Streamer :=
  { s.dropLead with
    carry := [], discards := 0, recoded := 0, obj := [], objLines := 0
    leadOver := false, inObj := false }

theorem takeCurrent_eq (s : Streamer) : ∃ r, s.takeCurrent =
    (s.taken, { parts := s.takeParts.2, diags := s.takeCarry.2, recoded := r }) := by
  have hfst := s.takeParts_fst
  unfold takeCurrent
  rcases hparts : s.takeParts with ⟨s₁, parts⟩
  rw [hparts] at hfst
  obtain rfl : s₁ = s.dropLead := hfst
  obtain ⟨r, hr⟩ := takeRecoded_eq s.dropLead.takeCarry.1
    { parts, diags := s.dropLead.takeCarry.2 }
  refine ⟨r, ?_⟩
  dsimp only
  rw [hr]
  rfl

theorem endObject_taken (hdrop : s.dropping = false) (hobj : s.inObj = true) :
    ∃ r, s.endObject = { s.taken with
      out := s.chunks
      pending := some { parts := s.takeParts.2, diags := s.takeCarry.2, recoded := r } } := by
  obtain ⟨r, hr⟩ := s.takeCurrent_eq
  refine ⟨r, ?_⟩
  simp only [endObject, hdrop, hobj, hr, emitPending_eq, Bool.false_eq_true, if_false, if_true]
  rfl

theorem noteRecoded_eq (s : Streamer) (li : LineInfo) :
    ∃ n at_, s.noteRecoded li = { s with recoded := n, recodedAt := at_ } := by
  unfold noteRecoded
  split
  · exact ⟨_, _, rfl⟩
  · exact ⟨_, _, rfl⟩

/-! ## Room -/

/-- The streamer holds the lines `cur` of the object in progress, or else of the trivia. -/
def Counts (s : Streamer) (cur : List Bytes) : Prop :=
  if s.inObj then s.obj.length = cur.flatten.length ∧ s.objLines = cur.length
  else s.leadBytes = cur.flatten.length ∧ s.leadLines = cur.length

/-- The lines to come are within the streamer's caps, with those held. -/
def Room (limit maxLines : Int) (s : Streamer) (lines : List Bytes) : Prop :=
  s.limit = limit ∧ s.maxLines = maxLines ∧
    ∃ cur, s.Counts cur ∧ ∀ run ∈ runs s.inObj cur lines, Fits limit maxLines run

theorem overLines_eq {n : Nat} (h : Within s.maxLines n) : s.overLines n = false := by
  have := Within.isOver (n := n) (m := 0) h
  simpa [isOver, overLines] using this

section
variable {limit maxLines : Int} {cur lines : List Bytes} {line : Bytes}

theorem Room.within (h : s.Room limit maxLines (line :: lines)) : Within limit line.length := by
  obtain ⟨-, -, cur, -, hruns⟩ := h
  rw [runs] at hruns
  split_ifs at hruns
  · exact (fits_current (List.forall_mem_cons.1 hruns).2).1.of_le (by simp)
  · exact (fits_current (List.forall_mem_cons.1 hruns).2).1.of_le (by simp)
  · exact (fits_current hruns).1.of_le (by simp)

theorem Room.noteRecoded (h : s.Room limit maxLines lines) (li : LineInfo) :
    (s.noteRecoded li).Room limit maxLines lines := by
  obtain ⟨n, at_, heq⟩ := s.noteRecoded_eq li
  rw [heq]
  exact h

theorem Counts.addLead (h : s.Counts cur) (hout : s.inObj = false) (hover : s.leadOver = false)
    (hruns : ∀ run ∈ runs false (cur ++ [line]) lines, Fits s.limit s.maxLines run) (at_ : Pos) :
    (s.addLead line at_ = ({ s with
        leadStart := if s.lead = [] then at_ else s.leadStart
        lead := s.lead ++ line, leadBytes := s.leadBytes + line.length
        leadLines := s.leadLines + 1 }, true)) ∧
      (s.addLead line at_).1.Room s.limit s.maxLines lines := by
  rw [Counts, hout, if_neg Bool.false_ne_true] at h
  obtain ⟨hbytes, hlines⟩ := fits_current hruns
  rw [List.flatten_append, List.length_append, ← h.1, List.flatten_singleton] at hbytes
  rw [List.length_append, ← h.2, List.length_singleton] at hlines
  have heq : s.addLead line at_ = ({ s with
      leadStart := if s.lead = [] then at_ else s.leadStart
      lead := s.lead ++ line, leadBytes := s.leadBytes + line.length
      leadLines := s.leadLines + 1 }, true) := by
    unfold Streamer.addLead
    by_cases hlead : s.lead = []
    · simp [hover, hlead, exceeds, hbytes.isOver]
      exact overLines_eq hlines
    · simp [hover, hlead, exceeds, hbytes.isOver, overLines_eq hlines]
  refine ⟨heq, ?_⟩
  rw [heq]
  refine ⟨rfl, rfl, cur ++ [line], ?_, by simpa [hout] using hruns⟩
  rw [Counts]
  simp [hout, h.1, h.2]

theorem Room.trivia (h : s.Room limit maxLines (line :: lines)) (hout : s.inObj = false)
    (hattr : startsAttribute (text line) = false) :
    ∃ cur, s.Counts cur ∧
      ∀ run ∈ runs false (cur ++ [line]) lines, Fits limit maxLines run := by
  obtain ⟨-, -, cur, hcur, hruns⟩ := h
  simp only [runs, hout, hattr, Bool.false_and, Bool.and_false, Bool.false_eq_true, if_false]
    at hruns
  exact ⟨cur, hcur, hruns⟩

theorem Room.ended (h : s.Room limit maxLines (line :: lines)) (hin : s.inObj = true)
    (hblank : isBlankLine (text line) = true) :
    ∀ run ∈ runs false [line] lines, Fits limit maxLines run := by
  obtain ⟨-, -, cur, -, hruns⟩ := h
  simp only [runs, hin, hblank, Bool.and_self, if_true] at hruns
  exact (List.forall_mem_cons.1 hruns).2

theorem Room.inside (h : s.Room limit maxLines (line :: lines)) (hin : s.inObj = true)
    (hblank : isBlankLine (text line) = false) :
    s.exceeds s.obj.length line.length = false ∧ s.overLines (s.objLines + 1) = false ∧
      Room limit maxLines { s with obj := s.obj ++ line, objLines := s.objLines + 1 } lines := by
  obtain ⟨rfl, rfl, cur, hcur, hruns⟩ := h
  rw [Counts, hin, if_pos rfl] at hcur
  simp only [runs, hin, hblank, Bool.and_false, Bool.not_true, Bool.false_and, Bool.false_eq_true,
    if_false] at hruns
  obtain ⟨hbytes, hlines⟩ := fits_current hruns
  rw [List.flatten_append, List.length_append, ← hcur.1, List.flatten_singleton] at hbytes
  rw [List.length_append, ← hcur.2, List.length_singleton] at hlines
  refine ⟨hbytes.isOver, overLines_eq hlines, rfl, rfl, cur ++ [line], ?_, by
    simpa [hin] using hruns⟩
  rw [Counts]
  simp [hin, hcur.1, hcur.2]

theorem Room.opens (h : s.Room limit maxLines (line :: lines)) (hout : s.inObj = false)
    (hattr : startsAttribute (text line) = true) (at_ : Pos) :
    Room limit maxLines
      { s.emitPending with inObj := true, objStart := at_, objLines := 1, obj := line } lines := by
  obtain ⟨rfl, rfl, cur, -, hruns⟩ := h
  simp only [runs, hout, hattr, Bool.false_and, Bool.not_false, Bool.and_self, Bool.false_eq_true,
    if_false, if_true] at hruns
  rw [emitPending_eq]
  refine ⟨rfl, rfl, [line], ?_, (List.forall_mem_cons.1 hruns).2⟩
  rw [Counts, if_pos rfl]
  simp

end

end Streamer

end Rpsl.Stream
