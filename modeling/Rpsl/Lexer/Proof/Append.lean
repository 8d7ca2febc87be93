import Rpsl.Lexer.Proof.Partition

/-!
# Tokens of joined texts

Which lines make a token depends on the lines alone (`groups`), and a token on its lines and where
they stand (`token`): `fold_eq_groups`. So the tokens of two texts, the first ending its last line,
are the tokens of each, the second's from where it starts, unless its first line would continue the
first's last attribute (`tokenizeAt_append`).
-/

namespace Rpsl.Lexer

/-! ## Lines of joined texts -/

def PhysLine.shift (di dn : Nat) (pl : PhysLine) : PhysLine :=
  { pl with start := pl.start + di, line := pl.line + dn }

@[simp] theorem PhysLine.shift_text (di dn : Nat) (pl : PhysLine) :
    (pl.shift di dn).text = pl.text := rfl

@[simp] theorem PhysLine.shift_bytes (di dn : Nat) (pl : PhysLine) :
    (pl.shift di dn).bytes = pl.bytes := rfl

theorem endLine_shift (upTo eol : Bytes) (i n di dn : Nat) :
    endLine upTo eol (i + di) (n + dn) = (endLine upTo eol i n).shift di dn := by
  unfold endLine
  split <;> rfl

theorem scanLinesFrom_shift (rest : Bytes) (i n di dn : Nat) :
    scanLinesFrom rest (i + di) (n + dn) = (scanLinesFrom rest i n).map (·.shift di dn) := by
  by_cases hnl : nl ∈ rest
  · obtain ⟨upTo, after, rfl, hup⟩ := List.eq_append_cons_of_mem hnl
    have hlen : after.length < (upTo ++ nl :: after).length := by simp; omega
    have ih := scanLinesFrom_shift after (i + upTo.length + 1) (n + 1) di dn
    rw [scanLinesFrom_nl after hup, scanLinesFrom_nl after hup, List.map_cons, endLine_shift, ← ih]
    congr 2
    · omega
    · omega
  · by_cases hne : rest = []
    · subst hne
      simp [scanLinesFrom_nil]
    · rw [scanLinesFrom_end hne hnl, scanLinesFrom_end hne hnl, endLine_shift]
      rfl
termination_by rest.length

theorem AtLineStart.tail {upTo after : Bytes} (h : AtLineStart (upTo ++ nl :: after)) :
    AtLineStart after := by
  by_cases ha : after = []
  · exact .inl ha
  · rcases h with h | h
    · simp at h
    · right
      rw [List.getLast?_append_cons, List.getLast?_cons_of_ne_nil ha] at h
      exact h

theorem scanLinesFrom_append {a : Bytes} (ha : AtLineStart a) (b : Bytes) (i n : Nat) :
    scanLinesFrom (a ++ b) i n =
      scanLinesFrom a i n ++ scanLinesFrom b (i + a.length) (n + a.count nl) := by
  by_cases hnl : nl ∈ a
  · obtain ⟨upTo, after, rfl, hup⟩ := List.eq_append_cons_of_mem hnl
    have hlen : after.length < (upTo ++ nl :: after).length := by simp; omega
    have ih := scanLinesFrom_append ha.tail b (i + upTo.length + 1) (n + 1)
    have hcount : (upTo ++ nl :: after).count nl = after.count nl + 1 := by
      rw [List.count_append, List.count_eq_zero.2 hup, List.count_cons_self, Nat.zero_add]
    rw [List.append_assoc, List.cons_append, scanLinesFrom_nl _ hup, scanLinesFrom_nl after hup,
      List.cons_append, ih, hcount]
    congr 3
    · simp
      omega
    · omega
  · rcases ha with rfl | ha
    · simp [scanLinesFrom_nil]
    · exact absurd (List.mem_of_getLast? ha) hnl
termination_by a.length

theorem scanLines_append {a : Bytes} (ha : AtLineStart a) (b : Bytes) :
    scanLines (a ++ b) = scanLines a ++ (scanLines b).map (·.shift a.length (a.count nl)) := by
  unfold scanLines
  rw [scanLinesFrom_append ha, Nat.zero_add]
  congr 1
  have := scanLinesFrom_shift b 0 1 a.length (a.count nl)
  rwa [Nat.zero_add] at this

/-! ## The lines of a token -/

abbrev Group := Kind × List PhysLine

def closeLines (cur : List PhysLine) : List Group := if cur = [] then [] else [(.attribute, cur)]

def groups : List PhysLine → List PhysLine → List Group
  | [], cur => closeLines cur
  | pl :: pls, cur =>
    match classify pl.text (!cur.isEmpty) with
    | (_, true) => groups pls (cur ++ [pl])
    | (.attribute, _) => closeLines cur ++ groups pls [pl]
    | (kind, _) => closeLines cur ++ (kind, [pl]) :: groups pls []

section
variable (lineBase byteOffset : Int)

def Cur.ofLines : List PhysLine → Option Cur
  | [] => none
  | pl :: pls => some (pls.foldl (Cur.extend lineBase byteOffset) (Cur.open lineBase byteOffset pl))

def Cur.token (c : Cur) (raw : Bytes) : Token :=
  { kind := .attribute, name := c.name, value := join c.segs, raw, span := c.span
    segments := c.segments }

def linesBytes (pls : List PhysLine) : Bytes := (pls.map (·.bytes)).flatten

def token : Group → Token
  | (k, []) => ⟨k, [], [], [], ⟨0, 0, 0, 0, 0, 0⟩, []⟩
  | (.attribute, pl :: pls) =>
    (pls.foldl (Cur.extend lineBase byteOffset) (Cur.open lineBase byteOffset pl)).token
      (linesBytes (pl :: pls))
  | (k, pl :: _) =>
    { kind := k, name := [], value := [], raw := pl.bytes
      span := lineSpan lineBase byteOffset pl, segments := [] }

end

theorem token_line {k : Kind} (hk : k ≠ .attribute) (lineBase byteOffset : Int) (pl : PhysLine) :
    token lineBase byteOffset (k, [pl]) =
      { kind := k, name := [], value := [], raw := pl.bytes
        span := lineSpan lineBase byteOffset pl, segments := [] } := by
  rcases k with _ | _ | _ | _
  · exact absurd rfl hk
  · rfl
  · rfl
  · rfl

section
variable {pl : PhysLine} (pls : List PhysLine) {cur : List PhysLine}

theorem groups_continues (h : classify pl.text (!cur.isEmpty) = (.attribute, true)) :
    groups (pl :: pls) cur = groups pls (cur ++ [pl]) := by
  simp only [groups, h]

theorem groups_opens (h : classify pl.text (!cur.isEmpty) = (.attribute, false)) :
    groups (pl :: pls) cur = closeLines cur ++ groups pls [pl] := by
  simp only [groups, h]

theorem groups_line {k : Kind} (hk : k ≠ .attribute)
    (h : classify pl.text (!cur.isEmpty) = (k, false)) :
    groups (pl :: pls) cur = closeLines cur ++ (k, [pl]) :: groups pls [] := by
  rcases k with _ | _ | _ | _
  · exact absurd rfl hk
  · simp only [groups, h]
  · simp only [groups, h]
  · simp only [groups, h]

end

def Fills (src : Bytes) : Nat → Nat → List PhysLine → Prop
  | s, e, [] => s = e
  | s, e, pl :: pls => pl.start = s ∧ src.drop s = pl.bytes ++ src.drop (s + pl.bytes.length) ∧
      Fills src (s + pl.bytes.length) e pls

theorem Fills.snoc {src : Bytes} {s e : Nat} {pls : List PhysLine} {pl : PhysLine}
    (h : Fills src s e pls) (hs : pl.start = e)
    (hd : src.drop e = pl.bytes ++ src.drop (e + pl.bytes.length)) :
    Fills src s (e + pl.bytes.length) (pls ++ [pl]) := by
  induction pls generalizing s with
  | nil =>
    obtain rfl : s = e := h
    exact ⟨hs, hd, rfl⟩
  | cons p pls ih => exact ⟨h.1, h.2.1, ih h.2.2⟩

theorem Fills.le {src : Bytes} {s e : Nat} {pls : List PhysLine} (h : Fills src s e pls) :
    e = s + (linesBytes pls).length := by
  induction pls generalizing s with
  | nil => exact (h : s = e).symm
  | cons p pls ih =>
    rw [ih h.2.2]
    simp [linesBytes]
    omega

theorem Fills.drop {src : Bytes} {s e : Nat} {pls : List PhysLine} (h : Fills src s e pls) :
    src.drop s = linesBytes pls ++ src.drop e := by
  induction pls generalizing s with
  | nil =>
    obtain rfl : s = e := h
    rfl
  | cons p pls ih =>
    rw [h.2.1, ih h.2.2]
    simp [linesBytes]

theorem Fills.slice_eq {src : Bytes} {s e : Nat} {pls : List PhysLine} (h : Fills src s e pls) :
    slice src s e = linesBytes pls := by
  rw [slice, List.drop_take, h.drop, h.le, Nat.add_sub_cancel_left, List.take_left]

section
variable {src : Bytes} {lineBase byteOffset : Int}

theorem foldl_extend_span (lineBase : Int) {pls : List PhysLine} {s e : Nat} {c : Cur}
    (h : Fills src s e pls)
    (hc : c.span.endByte = byteOffset + s) :
    (pls.foldl (Cur.extend lineBase byteOffset) c).span.endByte = byteOffset + e ∧
      (pls.foldl (Cur.extend lineBase byteOffset) c).start = c.start := by
  induction pls generalizing s c with
  | nil =>
    obtain rfl : s = e := h
    exact ⟨hc, rfl⟩
  | cons pl pls ih =>
    obtain ⟨hs, -, h⟩ := h
    have := ih (c := c.extend lineBase byteOffset pl) h (by simp [Cur.extend, hs])
    exact this

theorem flush_ofLines {cur : List PhysLine} {s e : Nat} (h : Fills src s e cur) :
    flush src byteOffset (Cur.ofLines lineBase byteOffset cur) =
      (closeLines cur).map (token lineBase byteOffset) := by
  cases cur with
  | nil => rfl
  | cons pl pls =>
    have hopen : (Cur.open lineBase byteOffset pl).span.endByte =
        byteOffset + (pl.start + pl.bytes.length : Nat) := rfl
    rw [h.1] at hopen
    obtain ⟨hend, hstart⟩ := foldl_extend_span lineBase h.2.2 hopen
    have hraw := h.slice_eq
    rw [← h.1] at hraw
    have hst : (Cur.open lineBase byteOffset pl).start = pl.start := rfl
    simp only [Cur.ofLines, flush, closeLines, List.cons_ne_nil, if_false, List.map_cons,
      List.map_nil, token, Cur.token, hend, hstart, hst]
    rw [show (byteOffset + (e : Int) - byteOffset).toNat = e by omega, hraw]

theorem ofLines_isSome (cur : List PhysLine) :
    (Cur.ofLines lineBase byteOffset cur).isSome = !cur.isEmpty := by cases cur <;> rfl

theorem Tiles.drop_eq {pl : PhysLine} {pls : List PhysLine} {e : Nat}
    (h : Tiles src e (pl :: pls)) : src.drop e = pl.bytes ++ src.drop (e + pl.bytes.length) := by
  obtain ⟨rfl, ⟨pre, post, hin⟩, -⟩ := h
  have hpost : src.drop (pl.start + pl.bytes.length) = post := by
    rw [hin.eq, hin.start, ← List.append_assoc, ← List.length_append, List.drop_left]
  rw [hpost, hin.start]
  conv_lhs => rw [hin.eq]
  rw [List.drop_left]

/-- **The tokens are those of the groups of lines.** -/
theorem fold_eq_groups {pls cur : List PhysLine} {s e : Nat} (h : Tiles src e pls)
    (hcur : Fills src s e cur) :
    fold src lineBase byteOffset pls (Cur.ofLines lineBase byteOffset cur) =
      (groups pls cur).map (token lineBase byteOffset) := by
  induction pls generalizing s e cur with
  | nil => exact flush_ofLines hcur
  | cons pl pls ih =>
    have hd := h.drop_eq
    obtain ⟨hst, -, htiles⟩ := h
    have hline : Fills src e (e + pl.bytes.length) [pl] := ⟨hst, hd, rfl⟩
    rcases classify_cases pl.text (!cur.isEmpty) with ⟨hk, hs⟩ | ⟨hk, -⟩ | ⟨k, hne, hk⟩
    · cases cur with
      | nil => simp at hs
      | cons c cur =>
        have hext := ih htiles (hcur.snoc hst hd)
        rw [groups_continues pls hk, ← hext]
        have hk' : classify pl.text true = (.attribute, true) := by simpa using hk
        rw [Cur.ofLines, fold_continues src lineBase byteOffset pls hk', List.cons_append,
          Cur.ofLines, List.foldl_append, List.foldl_cons, List.foldl_nil]
    · rw [fold_opens src lineBase byteOffset pls (by rw [ofLines_isSome]; exact hk),
        flush_ofLines hcur]
      rw [groups_opens pls hk, List.map_append, ← ih htiles hline]
      rfl
    · rw [fold_line src lineBase byteOffset pls hne (by rw [ofLines_isSome]; exact hk),
        flush_ofLines hcur]
      have hnone := ih htiles (show Fills src (e + pl.bytes.length) _ [] from rfl)
      have htok : lineToken src lineBase byteOffset k pl = token lineBase byteOffset (k, [pl]) := by
        have hraw := hline.slice_eq
        rw [← hst] at hraw
        have hb : linesBytes [pl] = pl.bytes := by simp [linesBytes]
        rw [token_line hne]
        simp only [lineToken, hraw, hb]
      rw [groups_line pls hne hk, List.map_append, List.map_cons, ← hnone, htok]
      rfl

end

theorem tokenizeAt_eq_groups (src : Bytes) (line byteOffset : Int) :
    tokenizeAt src line byteOffset =
      (groups (scanLines src) []).map (token (line - 1) byteOffset) :=
  fold_eq_groups (tiles_scanLines src) (show Fills src 0 0 [] from rfl)

/-! ## Tokens of joined texts -/

def isContinuation (text : Bytes) : Bool := (classify text true).2

def StartsFresh (text : Bytes) : Prop :=
  ∀ pl, (scanLines text).head? = some pl → isContinuation pl.text = false

theorem classify_fresh {text : Bytes} (h : isContinuation text = false) (haveCur : Bool) :
    classify text haveCur = classify text false := by
  cases haveCur with
  | false => rfl
  | true =>
    unfold isContinuation at h
    unfold classify at *
    by_cases hb : isBlankLine text = true
    · rw [if_pos hb, if_pos hb]
    rw [if_neg hb] at h
    rw [if_neg hb, if_neg hb]
    cases text with
    | nil => rfl
    | cons b bs =>
      by_cases hi : (isBlank b || b == plus) = true
      · simp [hi] at h
      · simp [hi]

theorem groups_fresh {pls : List PhysLine}
    (h : ∀ pl, pls.head? = some pl → isContinuation pl.text = false) (cur : List PhysLine) :
    groups pls cur = closeLines cur ++ groups pls [] := by
  cases pls with
  | nil => simp [groups, closeLines]
  | cons pl pls =>
    have hc := classify_fresh (h pl rfl)
    have hnil : closeLines ([] : List PhysLine) = [] := rfl
    rcases classify_cases pl.text false with ⟨-, hs⟩ | ⟨hk, -⟩ | ⟨k, hne, hk⟩
    · cases hs
    · rw [groups_opens pls (by rw [hc]; exact hk), groups_opens pls (by rw [hc]; exact hk), hnil,
        List.nil_append]
    · rw [groups_line pls hne (by rw [hc]; exact hk), groups_line pls hne (by rw [hc]; exact hk),
        hnil, List.nil_append]

theorem groups_append {pls qls : List PhysLine}
    (h : ∀ pl, qls.head? = some pl → isContinuation pl.text = false) (cur : List PhysLine) :
    groups (pls ++ qls) cur = groups pls cur ++ groups qls [] := by
  induction pls generalizing cur with
  | nil => exact groups_fresh h cur
  | cons pl pls ih =>
    rcases classify_cases pl.text (!cur.isEmpty) with ⟨hk, -⟩ | ⟨hk, -⟩ | ⟨k, hne, hk⟩
    · rw [List.cons_append, groups_continues _ hk, groups_continues _ hk, ih]
    · rw [List.cons_append, groups_opens _ hk, groups_opens _ hk, ih, List.append_assoc]
    · rw [List.cons_append, groups_line _ hne hk, groups_line _ hne hk, ih, List.append_assoc,
        List.cons_append]

theorem closeLines_map (f : PhysLine → PhysLine) (cur : List PhysLine) :
    closeLines (cur.map f) = (closeLines cur).map fun g => (g.1, g.2.map f) := by
  cases cur <;> simp [closeLines]

theorem groups_map {f : PhysLine → PhysLine} (hf : ∀ pl, (f pl).text = pl.text)
    (pls cur : List PhysLine) :
    groups (pls.map f) (cur.map f) = (groups pls cur).map fun g => (g.1, g.2.map f) := by
  induction pls generalizing cur with
  | nil => exact closeLines_map _ cur
  | cons pl pls ih =>
    have hempty : (cur.map f).isEmpty = cur.isEmpty := by cases cur <;> rfl
    have hc : classify (f pl).text (!(cur.map f).isEmpty) = classify pl.text (!cur.isEmpty) := by
      rw [hempty, hf]
    rcases classify_cases pl.text (!cur.isEmpty) with ⟨hk, -⟩ | ⟨hk, -⟩ | ⟨k, hne, hk⟩
    · rw [List.map_cons, groups_continues _ (hc.trans hk), groups_continues _ hk, ← ih,
        List.map_append, List.map_singleton]
    · rw [List.map_cons, groups_opens _ (hc.trans hk), groups_opens _ hk, List.map_append, ← ih,
        closeLines_map, List.map_singleton]
    · rw [List.map_cons, groups_line _ hne (hc.trans hk), groups_line _ hne hk, List.map_append,
        List.map_cons, ← ih, closeLines_map, List.map_singleton, List.map_nil]

section
variable (lineBase byteOffset : Int) (di dn : Nat)

theorem lineSpan_shift (pl : PhysLine) : lineSpan lineBase byteOffset (pl.shift di dn) =
    lineSpan (lineBase + dn) (byteOffset + di) pl := by
  simp only [lineSpan, PhysLine.shift, PhysLine.bytes, Span.mk.injEq]
  push_cast
  refine ⟨?_, trivial, ?_, trivial, ?_, ?_⟩ <;> omega

theorem segmentAt_shift (pl : PhysLine) (val : Bytes) (off valOff : Nat) :
    segmentAt lineBase byteOffset (pl.shift di dn) val off valOff =
      segmentAt (lineBase + dn) (byteOffset + di) pl val off valOff := by
  simp only [segmentAt, PhysLine.shift, Segment.mk.injEq]
  push_cast
  refine ⟨trivial, trivial, ?_, trivial, ?_⟩ <;> omega

def Cur.startAt (c : Cur) (s : Nat) : Cur := { c with start := s }

theorem Cur.open_at (pl : PhysLine) : Cur.open lineBase byteOffset (pl.shift di dn) =
    (Cur.open (lineBase + dn) (byteOffset + di) pl).startAt (pl.start + di) := by
  simp only [Cur.open, Cur.startAt, PhysLine.shift_text, lineSpan_shift, segmentAt_shift]
  rfl

theorem Cur.extend_at (c : Cur) (s : Nat) (pl : PhysLine) :
    (c.startAt s).extend lineBase byteOffset (pl.shift di dn) =
      (c.extend (lineBase + dn) (byteOffset + di) pl).startAt s := by
  simp only [Cur.extend, Cur.startAt, PhysLine.shift_text, PhysLine.shift_bytes, segmentAt_shift,
    Cur.mk.injEq, Span.mk.injEq]
  simp only [PhysLine.shift]
  push_cast
  refine ⟨trivial, ⟨trivial, trivial, ?_, trivial, trivial, ?_⟩, trivial, trivial, trivial,
    trivial⟩ <;> omega

theorem foldl_extend_at (pls : List PhysLine) (c : Cur) (s : Nat) :
    (pls.map (·.shift di dn)).foldl (Cur.extend lineBase byteOffset) (c.startAt s) =
      (pls.foldl (Cur.extend (lineBase + dn) (byteOffset + di)) c).startAt s := by
  induction pls generalizing c with
  | nil => rfl
  | cons pl pls ih => rw [List.map_cons, List.foldl_cons, Cur.extend_at, ih, List.foldl_cons]

theorem linesBytes_shift (pls : List PhysLine) :
    linesBytes (pls.map (·.shift di dn)) = linesBytes pls := by
  unfold linesBytes
  rw [List.map_map]
  rfl

theorem token_shift (g : Group) : token lineBase byteOffset (g.1, g.2.map (·.shift di dn)) =
    token (lineBase + dn) (byteOffset + di) g := by
  obtain ⟨k, pls⟩ := g
  cases pls with
  | nil => rfl
  | cons pl pls =>
    rcases k with _ | _ | _ | _
    · have hb := linesBytes_shift di dn (pl :: pls)
      simp only [List.map_cons] at hb
      simp only [List.map_cons, token, Cur.open_at, foldl_extend_at, hb]
      rfl
    · simp only [List.map_cons, token, lineSpan_shift, PhysLine.shift_bytes]
    · simp only [List.map_cons, token, lineSpan_shift, PhysLine.shift_bytes]
    · simp only [List.map_cons, token, lineSpan_shift, PhysLine.shift_bytes]

end

/-- **The tokens of two texts**, the first ending its last line and the second starting a token. -/
theorem tokenizeAt_append {a b : Bytes} (ha : AtLineStart a) (hb : StartsFresh b)
    (line byteOffset : Int) :
    tokenizeAt (a ++ b) line byteOffset =
      tokenizeAt a line byteOffset ++
        tokenizeAt b (line + a.count nl) (byteOffset + a.length) := by
  have hhead : ∀ pl, ((scanLines b).map (·.shift a.length (a.count nl))).head? = some pl →
      isContinuation pl.text = false := by
    intro pl hpl
    rw [List.head?_map] at hpl
    obtain ⟨pl', hpl', rfl⟩ := Option.map_eq_some_iff.1 hpl
    exact hb pl' hpl'
  have hshift := groups_map (f := (·.shift a.length (a.count nl))) (fun _ => rfl) (scanLines b) []
  rw [List.map_nil] at hshift
  rw [tokenizeAt_eq_groups, scanLines_append ha, groups_append hhead, List.map_append,
    tokenizeAt_eq_groups, tokenizeAt_eq_groups, hshift, List.map_map]
  congr 1
  refine List.map_congr_left fun g _ => ?_
  rw [Function.comp_apply, token_shift, show line - 1 + (a.count nl : Int) =
    line + (a.count nl : Int) - 1 by omega]

end Rpsl.Lexer
