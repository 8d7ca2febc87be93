import Rpsl.Lexer.Lexer

/-!
# Physical lines

`scanLines` tiles the source (`tiles_scanLines`): its lines follow each other from the first byte
to the last, each at the line and column the newlines before it give (`lineAt`, `colAt`).
-/

namespace Rpsl.Lexer

/-- The line of the byte at `off`, counted from the start of the source. -/
def lineAt (src : Bytes) (off : Nat) : Nat := 1 + (src.take off).count nl

/-- The column of the byte at `off`, counted from the last newline before it. -/
def colAt (src : Bytes) (off : Nat) : Nat := 1 + ((src.take off).rtakeWhile (· ≠ nl)).length

def AtLineStart (pre : Bytes) : Prop := pre = [] ∨ pre.getLast? = some nl

/-- The terminators: a newline, perhaps after a carriage return, or the end of the input. A carriage
return before a newline or the end belongs to the terminator. -/
inductive Terminates (text : Bytes) : Bytes → Bytes → Prop
  | crlf (post : Bytes) : Terminates text [cr, nl] post
  | lf (post : Bytes) (h : text.getLast? ≠ some cr) : Terminates text [nl] post
  | cr : Terminates text [cr] []
  | none (h : text.getLast? ≠ some cr) (ne : text ≠ []) : Terminates text [] []

/-- `pl` is the line of the source that starts after `pre` and is followed by `post`. -/
structure PhysLine.In (pl : PhysLine) (src pre post : Bytes) : Prop where
  eq : src = pre ++ (pl.bytes ++ post)
  start : pl.start = pre.length
  line : pl.line = 1 + pre.count nl
  lineStart : AtLineStart pre
  nl_notMem : nl ∉ pl.text
  term : Terminates pl.text pl.term post

/-- The lines follow each other from offset `e` to the end of the source. -/
def Tiles (src : Bytes) : Nat → List PhysLine → Prop
  | e, [] => e = src.length
  | e, pl :: pls => pl.start = e ∧ (∃ pre post, pl.In src pre post) ∧
      Tiles src (e + pl.bytes.length) pls

/-! ## Scanning -/

theorem Terminates.ne_nil {text term post : Bytes} (h : Terminates text term post) :
    text ++ term ≠ [] := by
  cases h with
  | none _ ne => simpa using ne
  | _ => simp

theorem takeWhile_append_nl {upTo : Bytes} (after : Bytes) (h : nl ∉ upTo) :
    (upTo ++ nl :: after).takeWhile (· ≠ nl) = upTo ∧
      (upTo ++ nl :: after).dropWhile (· ≠ nl) = nl :: after := by
  have hp : ∀ b ∈ upTo, decide (b ≠ nl) = true := fun b hb => decide_eq_true fun he => h (he ▸ hb)
  rw [List.takeWhile_append_of_pos hp, List.dropWhile_append_of_pos hp]
  simp

theorem scanLinesFrom_nil (i lineNo : Nat) : scanLinesFrom [] i lineNo = [] := by
  rw [scanLinesFrom, if_pos rfl]

theorem scanLinesFrom_nl {upTo : Bytes} (after : Bytes) (h : nl ∉ upTo) (i lineNo : Nat) :
    scanLinesFrom (upTo ++ nl :: after) i lineNo =
      endLine upTo [nl] i lineNo :: scanLinesFrom after (i + upTo.length + 1) (lineNo + 1) := by
  obtain ⟨ht, hd⟩ := takeWhile_append_nl after h
  rw [scanLinesFrom, if_neg (by simp)]
  simp only [ht]
  split
  · rename_i x a hx
    rw [hd] at hx
    cases hx
    rfl
  · rename_i hx
    cases hd.symm.trans hx

theorem scanLinesFrom_end {upTo : Bytes} (hne : upTo ≠ []) (h : nl ∉ upTo) (i lineNo : Nat) :
    scanLinesFrom upTo i lineNo = [endLine upTo [] i lineNo] := by
  have hp : ∀ b ∈ upTo, decide (b ≠ nl) = true := fun b hb => decide_eq_true fun he => h (he ▸ hb)
  have ht : upTo.takeWhile (· ≠ nl) = upTo := List.takeWhile_eq_self_iff.2 hp
  have hd : upTo.dropWhile (· ≠ nl) = [] := List.dropWhile_eq_nil_iff.2 hp
  rw [scanLinesFrom, if_neg hne]
  simp only [ht]
  split
  · rename_i hx
    cases hd.symm.trans hx
  · rfl

theorem endLine_start (upTo eol : Bytes) (i lineNo : Nat) :
    (endLine upTo eol i lineNo).start = i := by
  unfold endLine
  split <;> rfl

theorem endLine_line (upTo eol : Bytes) (i lineNo : Nat) :
    (endLine upTo eol i lineNo).line = lineNo := by
  unfold endLine
  split <;> rfl

theorem endLine_spec {upTo eol : Bytes} (hnl : nl ∉ upTo) (post : Bytes) (i lineNo : Nat)
    (heol : eol = [nl] ∨ eol = [] ∧ upTo ≠ [] ∧ post = []) :
    (endLine upTo eol i lineNo).bytes = upTo ++ eol ∧ nl ∉ (endLine upTo eol i lineNo).text ∧
      Terminates (endLine upTo eol i lineNo).text (endLine upTo eol i lineNo).term post := by
  unfold endLine
  split
  · rename_i hcr
    have hup : upTo = upTo.dropLast ++ [cr] := (List.dropLast_append_getLast? _ hcr).symm
    refine ⟨?_, fun h => hnl (List.dropLast_subset _ h), ?_⟩
    · simp only [PhysLine.bytes]
      rw [List.append_cons, ← hup]
    · rcases heol with rfl | ⟨rfl, -, rfl⟩
      · exact .crlf _
      · exact .cr
  · rename_i hcr
    refine ⟨rfl, hnl, ?_⟩
    rcases heol with rfl | ⟨rfl, hne, rfl⟩
    · exact .lf _ hcr
    · exact .none hcr hne

theorem AtLineStart.snoc (pre : Bytes) : AtLineStart (pre ++ [nl]) := .inr (by simp)

/-- **Scanning loses nothing**: the lines tile the source from where they start. -/
theorem tiles_scanLinesFrom {src rest : Bytes} (pre : Bytes) {i lineNo : Nat}
    (heq : src = pre ++ rest) (hi : i = pre.length) (hl : lineNo = 1 + pre.count nl)
    (hs : AtLineStart pre) :
    Tiles src i (scanLinesFrom rest i lineNo) := by
  by_cases hnl : nl ∈ rest
  · obtain ⟨upTo, after, rfl, hup⟩ := List.eq_append_cons_of_mem hnl
    have hlen : after.length < (upTo ++ nl :: after).length := by simp; omega
    rw [scanLinesFrom_nl after hup]
    obtain ⟨hb, ht, hterm⟩ := endLine_spec hup after i lineNo (.inl rfl)
    refine ⟨endLine_start .., ⟨pre, after, ?_, ?_, ?_, hs, ht, hterm⟩, ?_⟩
    · rw [heq, hb, List.append_assoc, List.singleton_append]
    · rw [endLine_start, hi]
    · rw [endLine_line, hl]
    · -- the next line starts after this one's newline
      have hcount : upTo.count nl = 0 := List.count_eq_zero.2 hup
      rw [hb, List.length_append, List.length_singleton, ← Nat.add_assoc]
      refine tiles_scanLinesFrom (pre ++ upTo ++ [nl]) ?_ ?_ ?_ (.snoc _)
      · simp [heq]
      · simp [hi]; omega
      · simp [hl, hcount]; omega
  · by_cases hne : rest = []
    · rw [hne, scanLinesFrom_nil]
      simp [Tiles, heq, hi, hne]
    · rw [scanLinesFrom_end hne hnl]
      obtain ⟨hb, ht, hterm⟩ := endLine_spec hnl [] i lineNo (.inr ⟨rfl, hne, rfl⟩)
      refine ⟨endLine_start .., ⟨pre, [], ?_, ?_, ?_, hs, ht, hterm⟩, ?_⟩
      · rw [heq, hb, List.append_nil, List.append_nil]
      · rw [endLine_start, hi]
      · rw [endLine_line, hl]
      · rw [hb, Tiles, heq, hi, List.append_nil, List.length_append]
termination_by rest.length

theorem tiles_scanLines (src : Bytes) : Tiles src 0 (scanLines src) :=
  tiles_scanLinesFrom [] rfl rfl rfl (.inl rfl)

/-! ## Positions -/

section
variable {pl : PhysLine} {src pre post : Bytes} (h : pl.In src pre post)
include h

theorem PhysLine.In.take {i : Nat} (hi : i ≤ pl.text.length) :
    src.take (pl.start + i) = pre ++ pl.text.take i := by
  rw [h.eq, h.start, List.take_length_add_append, PhysLine.bytes, List.append_assoc,
    List.take_append_of_le_length hi]

theorem PhysLine.In.lineAt {i : Nat} (hi : i ≤ pl.text.length) :
    lineAt src (pl.start + i) = pl.line := by
  have hc : (pl.text.take i).count nl = 0 :=
    List.count_eq_zero.2 fun hm => h.nl_notMem (List.mem_of_mem_take hm)
  rw [Lexer.lineAt, h.take hi, List.count_append, hc, h.line, Nat.add_zero]

theorem PhysLine.In.colAt {i : Nat} (hi : i ≤ pl.text.length) :
    colAt src (pl.start + i) = i + 1 := by
  have hp : ∀ b ∈ (pl.text.take i).reverse, decide (b ≠ nl) = true := by
    intro b hb
    have hm := List.mem_of_mem_take (List.mem_reverse.1 hb)
    exact decide_eq_true fun he => h.nl_notMem (he ▸ hm)
  have hpre : pre.reverse.takeWhile (· ≠ nl) = [] := by
    rcases h.lineStart with hn | hn
    · simp [hn]
    · rw [← List.dropLast_append_getLast? nl hn]
      simp
  rw [Lexer.colAt, h.take hi, List.rtakeWhile, List.reverse_append,
    List.takeWhile_append_of_pos hp, hpre]
  simp only [List.append_nil, List.length_reverse, List.length_take]
  omega

end

end Rpsl.Lexer
