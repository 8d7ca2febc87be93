import Rpsl.Lexer.Proof.Values

/-!
# Tokens partition the source

The tokens' spans follow each other from the first byte to the last, each token's bytes and
positions are those of the source, and an attribute's value is the join of the parts kept of its
lines, each byte of which `sourceAt` finds where it is (`Unfolds`).
-/

namespace Rpsl.Lexer

/-- The length of the line terminator a token's bytes end with. -/
def termLen (raw : Bytes) : Nat :=
  if raw.getLast? = some nl then
    if raw.dropLast.getLast? = some cr then 2 else 1
  else if raw.getLast? = some cr then 1
  else 0

/-- The bytes of the value up to and with the newline joined after these pieces. -/
def valueLen (ps : List Piece) : Nat := (ps.map fun p => p.kept.length + 1).sum

/-- The bytes of the source these pieces take. -/
def sourceLen (ps : List Piece) : Nat := (ps.map fun p => p.bytes.length).sum

/-- The cuts of an attribute's lines. -/
def Cuts (name : Bytes) : List Piece → Prop
  | [] => False
  | p :: ps => (∃ term, p.Opens name term) ∧ ∀ q ∈ ps, ∃ term, q.Continues term

/-- The line, column and offset of a byte, counted from the start of the source. -/
def posAt (src : Bytes) (off : Nat) : Int × Int × Int := (lineAt src off, colAt src off, off)

/-- An attribute is its lines, its value the join of what is kept of them, and each byte kept is
found where it is in the source. -/
def Unfolds (src : Bytes) (t : Token) : Prop :=
  ∃ ps, Cuts t.name ps ∧ t.raw = (ps.map (·.bytes)).flatten ∧ t.value = join (ps.map (·.kept)) ∧
    ∀ ps₁ p ps₂, ps = ps₁ ++ p :: ps₂ → ∀ o b, p.kept[o]? = some b →
      let off := t.span.startByte.toNat + sourceLen ps₁ + p.lead.length + o
      t.value[valueLen ps₁ + o]? = some b ∧ src[off]? = some b ∧
        t.sourceAt (valueLen ps₁ + o : Nat) = posAt src off

/-- A token's bytes, lines and columns are those of the source at its span. -/
structure Token.Located (t : Token) (src : Bytes) : Prop where
  nonneg : 0 ≤ t.span.startByte
  raw : slice src t.span.startByte.toNat t.span.endByte.toNat = t.raw
  startLine : t.span.startLine = lineAt src t.span.startByte.toNat
  startCol : t.span.startCol = colAt src t.span.startByte.toNat
  endLine : t.span.endLine = lineAt src (t.span.endByte.toNat - termLen t.raw)
  endCol : t.span.endCol = colAt src (t.span.endByte.toNat - termLen t.raw)
  unfolds : t.kind = .attribute → Unfolds src t

/-- The spans follow each other from `e` to the end of the source. -/
def Contiguous (src : Bytes) : Int → List Token → Prop
  | e, [] => e = src.length
  | e, t :: ts => t.span.startByte = e ∧ e < t.span.endByte ∧ Contiguous src t.span.endByte ts

/-! ## Terminators -/

variable {post : Bytes}

theorem termLen_bytes {raw : Bytes} {pl : PhysLine} (hraw : AtLineStart raw)
    (hnl : nl ∉ pl.text) (h : Terminates pl.text pl.term post) :
    termLen (raw ++ pl.bytes) = pl.term.length := by
  obtain ⟨text, term, start, line⟩ := pl
  have hlast : raw.getLast? ≠ some cr := by
    rcases hraw with rfl | hr
    · simp
    · rw [hr]
      decide
  simp only [PhysLine.bytes] at *
  cases h with
  | crlf =>
    rw [show raw ++ (text ++ [cr, nl]) = raw ++ text ++ [cr] ++ [nl] by simp, termLen]
    simp
  | lf _ hcr =>
    rw [show raw ++ (text ++ [nl]) = raw ++ text ++ [nl] by simp, termLen]
    have : (raw ++ text).getLast? ≠ some cr := by
      cases text with
      | nil => simpa using hlast
      | cons b bs => simpa using hcr
    simpa using this
  | cr =>
    rw [show raw ++ (text ++ [cr]) = raw ++ text ++ [cr] by simp, termLen]
    simp [show cr ≠ nl by decide]
  | none hcr hne =>
    have hl : (raw ++ (text ++ [])).getLast? = text.getLast? := by
      simp [List.getLast?_append, List.getLast?_eq_some_getLast hne]
    have hn : text.getLast? ≠ some nl := fun he => hnl (List.mem_of_getLast? he)
    rw [termLen, hl, if_neg hn, if_neg hcr]
    rfl

/-! ## Segments -/

def Piece.On (p : Piece) (src : Bytes) (e : Nat) : Prop :=
  ∃ pl pre post, PhysLine.In pl src pre post ∧ pl.start = e ∧ p.bytes = pl.bytes ∧
    p.lead.length + p.kept.length ≤ pl.text.length

def OnLines (src : Bytes) : Nat → List Piece → Prop
  | _, [] => True
  | e, p :: ps => p.On src e ∧ OnLines src (e + p.bytes.length) ps

def segmentsOf (src : Bytes) : Nat → Nat → List Piece → List Segment
  | _, _, [] => []
  | e, v, p :: ps =>
    { valStart := v, valEnd := v + p.kept.length
      srcLine := lineAt src (e + p.lead.length), srcCol := colAt src (e + p.lead.length)
      srcByte := (e + p.lead.length : Nat) } ::
      segmentsOf src (e + p.bytes.length) (v + p.kept.length + 1) ps

variable {p : Piece} {o : Nat}

theorem Piece.On.at {src : Bytes} {e : Nat} (h : p.On src e)
    (ho : o ≤ p.kept.length) :
    lineAt src (e + p.lead.length + o) = lineAt src (e + p.lead.length) ∧
      colAt src (e + p.lead.length + o) = colAt src (e + p.lead.length) + o := by
  obtain ⟨pl, pre, post, hin, rfl, -, hle⟩ := h
  rw [Nat.add_assoc, hin.lineAt (by omega), hin.lineAt (by omega), hin.colAt (by omega),
    hin.colAt (by omega)]
  omega

theorem Piece.On.get {src : Bytes} {e : Nat} (h : p.On src e) {b : UInt8}
    (ho : p.kept[o]? = some b) : src[e + p.lead.length + o]? = some b := by
  obtain ⟨pl, pre, post, hin, rfl, hb, -⟩ := h
  have hlt : o < p.kept.length := (List.getElem?_eq_some_iff.1 ho).1
  rw [hin.eq, hin.start, ← hb, Piece.bytes, Nat.add_assoc, List.getElem?_append_right (by omega),
    Nat.add_sub_cancel_left, List.append_assoc, List.getElem?_append_right (by omega),
    Nat.add_sub_cancel_left, List.append_assoc, List.getElem?_append_left hlt, ho]

variable {ps₁ ps₂ : List Piece}

theorem sourceAtLoop_segmentsOf {src : Bytes} {e v : Nat}
    (h : OnLines src e (ps₁ ++ p :: ps₂)) (ho : o ≤ p.kept.length) (last : Segment) :
    sourceAtLoop (v + valueLen ps₁ + o) last (segmentsOf src e v (ps₁ ++ p :: ps₂)) =
      posAt src (e + sourceLen ps₁ + p.lead.length + o) := by
  induction ps₁ generalizing e v last with
  | nil =>
    obtain ⟨hl, hc⟩ := h.1.at ho
    simp only [List.nil_append, segmentsOf, sourceAtLoop, valueLen, sourceLen, List.map_nil,
      List.sum_nil, Nat.add_zero, posAt]
    rw [if_pos (by omega), hl, hc, Nat.add_sub_cancel_left]
    push_cast
    rfl
  | cons q ps₁ ih =>
    simp only [List.cons_append, segmentsOf, sourceAtLoop, valueLen, sourceLen, List.map_cons,
      List.sum_cons]
    rw [if_neg (by omega), ← Nat.add_assoc, ← Nat.add_assoc, ← Nat.add_assoc]
    exact ih h.2 _

theorem OnLines.mid {src : Bytes} {e : Nat}
    (h : OnLines src e (ps₁ ++ p :: ps₂)) : p.On src (e + sourceLen ps₁) := by
  induction ps₁ generalizing e with
  | nil => exact h.1
  | cons q ps₁ ih =>
    have := ih h.2
    rwa [Nat.add_assoc] at this

variable {ps : List Piece}

theorem onLines_append {src : Bytes} {e : Nat} {qs : List Piece} :
    OnLines src e (ps ++ qs) ↔ OnLines src e ps ∧ OnLines src (e + sourceLen ps) qs := by
  induction ps generalizing e with
  | nil => simp [OnLines, sourceLen]
  | cons p ps ih =>
    simp only [List.cons_append, OnLines, ih, sourceLen, List.map_cons, List.sum_cons, and_assoc,
      Nat.add_assoc]

theorem segmentsOf_append (src : Bytes) (e v : Nat) (ps qs : List Piece) :
    segmentsOf src e v (ps ++ qs) =
      segmentsOf src e v ps ++ segmentsOf src (e + sourceLen ps) (v + valueLen ps) qs := by
  induction ps generalizing e v with
  | nil => simp [segmentsOf, sourceLen, valueLen]
  | cons p ps ih =>
    simp only [List.cons_append, segmentsOf, ih, sourceLen, valueLen, List.map_cons, List.sum_cons,
      Nat.add_assoc]

theorem join_get {b : UInt8}
    (h : p.kept[o]? = some b) :
    (join ((ps₁ ++ p :: ps₂).map (·.kept)))[valueLen ps₁ + o]? = some b := by
  have hlt : o < p.kept.length := (List.getElem?_eq_some_iff.1 h).1
  induction ps₁ with
  | nil =>
    cases ps₂ with
    | nil => simpa [join, valueLen] using h
    | cons q ps₂ =>
      simp only [join, List.nil_append, List.map_cons, List.intercalate_cons_cons, valueLen,
        List.map_nil, List.sum_nil, Nat.zero_add]
      rw [List.append_assoc, List.getElem?_append_left hlt, h]
  | cons q ps₁ ih =>
    simp only [join, List.cons_append, List.map_cons]
    rw [List.intercalate_cons_of_ne_nil (by simp), List.getElem?_append_right] <;>
      simp only [valueLen, List.map_cons, List.sum_cons, List.length_append, List.length_singleton]
    · rw [show q.kept.length + 1 + (ps₁.map fun p => p.kept.length + 1).sum + o -
        (q.kept.length + 1) = valueLen ps₁ + o by simp only [valueLen]; omega]
      exact ih
    · omega

/-! ## The attribute in progress -/

theorem Piece.On.drop {src : Bytes} {e : Nat} (h : p.On src e) :
    src.drop e = p.bytes ++ src.drop (e + p.bytes.length) := by
  obtain ⟨pl, pre, post, hin, rfl, hb, -⟩ := h
  have hpost : src.drop (pl.start + p.bytes.length) = post := by
    rw [hin.eq, hin.start, hb, ← List.append_assoc, ← List.length_append, List.drop_left]
  rw [hpost, hb, hin.start]
  conv_lhs => rw [hin.eq]
  rw [List.drop_left]

theorem OnLines.drop {src : Bytes} {e : Nat} (h : OnLines src e ps) :
    src.drop e = (ps.map (·.bytes)).flatten ++ src.drop (e + sourceLen ps) := by
  induction ps generalizing e with
  | nil => simp [sourceLen]
  | cons p ps ih =>
    rw [h.1.drop, ih h.2]
    simp only [List.map_cons, List.flatten_cons, sourceLen, List.sum_cons, List.append_assoc,
      Nat.add_assoc]

theorem length_flatten_bytes (ps : List Piece) :
    (ps.map (·.bytes)).flatten.length = sourceLen ps := by
  simp only [List.length_flatten, List.map_map, sourceLen]
  rfl

theorem OnLines.slice_eq {src : Bytes} {e : Nat} (h : OnLines src e ps) :
    slice src e (e + sourceLen ps) = (ps.map (·.bytes)).flatten := by
  rw [slice, List.drop_take, Nat.add_sub_cancel_left, h.drop, ← length_flatten_bytes,
    List.take_left]

/-- The attribute in progress holds the lines `ps`, up to `e` in the source. -/
structure Cur.Ok (c : Cur) (src : Bytes) (e : Nat) (ps : List Piece) : Prop where
  cuts : Cuts c.name ps
  onLines : OnLines src c.start ps
  stop : e = c.start + sourceLen ps
  segs : c.segs = ps.map (·.kept)
  segments : c.segments = segmentsOf src c.start 0 ps
  valOff : c.valOff = valueLen ps
  startByte : c.span.startByte = c.start
  endByte : c.span.endByte = e
  startLine : c.span.startLine = lineAt src c.start
  startCol : c.span.startCol = colAt src c.start
  endLine : c.span.endLine = lineAt src (e - termLen (ps.map (·.bytes)).flatten)
  endCol : c.span.endCol = colAt src (e - termLen (ps.map (·.bytes)).flatten)

variable {pre : Bytes}

theorem segmentsOf_line {src : Bytes} {pl : PhysLine} (h : pl.In src pre post)
    (hle : p.lead.length + p.kept.length ≤ pl.text.length) (v : Nat) :
    segmentsOf src pl.start v [p] = [segmentAt 0 0 pl p.kept p.lead.length v] := by
  simp only [segmentsOf, segmentAt, h.lineAt (by omega : p.lead.length ≤ pl.text.length),
    h.colAt (by omega : p.lead.length ≤ pl.text.length), Int.zero_add, Nat.cast_add, Nat.cast_one]

theorem PhysLine.In.atStart {src : Bytes} {pl : PhysLine} (h : pl.In src pre post) :
    Lexer.lineAt src pl.start = pl.line ∧ Lexer.colAt src pl.start = 1 :=
  ⟨h.lineAt (Nat.zero_le _), h.colAt (Nat.zero_le _)⟩

theorem PhysLine.In.textEnd {src : Bytes} {pl : PhysLine} (h : pl.In src pre post)
    {raw : Bytes} (hraw : AtLineStart raw) :
    pl.start + pl.bytes.length - termLen (raw ++ pl.bytes) = pl.start + pl.text.length := by
  rw [termLen_bytes hraw h.nl_notMem h.term]
  simp only [PhysLine.bytes, List.length_append]
  omega

theorem Cur.ok_open {src : Bytes} {pl : PhysLine} (h : pl.In src pre post)
    (hs : startsAttribute pl.text = true) :
    ∃ ps, (Cur.open 0 0 pl).Ok src (pl.start + pl.bytes.length) ps := by
  obtain ⟨p, hb, hopens, hkept, hlead, hle⟩ := splitAttr_spec hs pl.term
  have hflat : ([p].map (·.bytes)).flatten = [] ++ pl.bytes := by simp [hb, PhysLine.bytes]
  refine ⟨[p], ⟨⟨pl.term, hopens⟩, by simp⟩, ⟨⟨pl, pre, post, h, rfl, hb, hle⟩, trivial⟩,
    ?_, ?_, ?_, ?_, ?_, ?_, ?_, ?_, ?_, ?_⟩
  · simp [sourceLen, hb, Cur.open, PhysLine.bytes]
  · simp [Cur.open, hkept]
  · simp only [Cur.open, segmentsOf_line h hle, hkept, hlead]
  · simp [Cur.open, valueLen, hkept]
  · simp [Cur.open, lineSpan]
  · simp [Cur.open, lineSpan]
  · simp [Cur.open, lineSpan, h.atStart.1]
  · simp [Cur.open, lineSpan, h.atStart.2]
  · rw [hflat, h.textEnd (.inl rfl), h.lineAt le_rfl]
    simp [Cur.open, lineSpan]
  · rw [hflat, h.textEnd (.inl rfl), h.colAt le_rfl]
    simp [Cur.open, lineSpan]

theorem Cuts.ne_nil {name : Bytes} (h : Cuts name ps) : ps ≠ [] := by
  rintro rfl
  exact h

theorem Cuts.snoc {name : Bytes} (h : Cuts name ps) {term : Bytes}
    (hp : p.Continues term) : Cuts name (ps ++ [p]) := by
  cases ps with
  | nil => exact h.elim
  | cons q ps =>
    refine ⟨h.1, fun r hr => ?_⟩
    rcases List.mem_append.1 hr with hr | hr
    · exact h.2 r hr
    · rw [List.mem_singleton.1 hr]
      exact ⟨term, hp⟩

theorem flatten_bytes_ne_nil {src : Bytes} {e : Nat} (h : OnLines src e ps)
    (hne : ps ≠ []) : (ps.map (·.bytes)).flatten ≠ [] := by
  cases ps with
  | nil => exact absurd rfl hne
  | cons p ps =>
    obtain ⟨pl, pre, post, hin, -, hb, -⟩ := h.1
    simp only [List.map_cons, List.flatten_cons, hb]
    exact fun he => hin.term.ne_nil (List.append_eq_nil_iff.1 he).1

variable {c : Cur}

theorem Cur.Ok.lineStart {src : Bytes} {pl : PhysLine}
    (hc : c.Ok src pl.start ps) (h : pl.In src pre post) :
    AtLineStart (ps.map (·.bytes)).flatten := by
  have hne := flatten_bytes_ne_nil hc.onLines hc.cuts.ne_nil
  have hpre : pre = src.take c.start ++ (ps.map (·.bytes)).flatten := by
    have hle : c.start ≤ pl.start := by
      have := hc.stop
      omega
    calc pre = src.take pl.start := by simpa using (h.take (Nat.zero_le _)).symm
      _ = (src.take pl.start).take c.start ++ (src.take pl.start).drop c.start :=
        (List.take_append_drop _ _).symm
      _ = src.take c.start ++ slice src c.start pl.start := by
        rw [List.take_take, Nat.min_eq_left hle, slice]
      _ = _ := by rw [hc.stop, hc.onLines.slice_eq]
  rcases h.lineStart with hnil | hlast
  · rw [hnil] at hpre
    exact absurd (List.append_eq_nil_iff.1 hpre.symm).2 hne
  · rw [hpre, List.getLast?_append, List.getLast?_eq_some_getLast hne, Option.some_or] at hlast
    exact .inr (by rw [List.getLast?_eq_some_getLast hne, hlast])

theorem Cur.Ok.extend {src : Bytes} {pl : PhysLine}
    (hc : c.Ok src pl.start ps) (h : pl.In src pre post) :
    ∃ ps', (c.extend 0 0 pl).Ok src (pl.start + pl.bytes.length) ps' := by
  obtain ⟨p, hb, hcont, hkept, hlead, hle⟩ := contValue_spec pl.text pl.term
  have hb' : p.bytes = pl.bytes := hb
  have hstart := hc.lineStart h
  have hflat : ((ps ++ [p]).map (·.bytes)).flatten = (ps.map (·.bytes)).flatten ++ pl.bytes := by
    simp [hb']
  refine ⟨ps ++ [p], hc.cuts.snoc hcont, ?_, ?_, ?_, ?_, ?_, hc.startByte, ?_, hc.startLine,
    hc.startCol, ?_, ?_⟩
  · exact onLines_append.2 ⟨hc.onLines, ⟨pl, pre, post, h, hc.stop, hb, hle⟩, trivial⟩
  · simp only [Cur.extend, sourceLen, List.map_append, List.sum_append, List.map_singleton,
      List.sum_singleton, hb']
    rw [← Nat.add_assoc]
    congr 1
    exact hc.stop
  · simp [Cur.extend, hc.segs, hkept]
  · simp only [Cur.extend, segmentsOf_append, hc.segments, ← hc.stop, segmentsOf_line h hle, hkept,
      hlead, hc.valOff, Nat.zero_add]
  · simp only [Cur.extend, hc.valOff, valueLen, List.map_append, List.sum_append,
      List.map_singleton, List.sum_singleton, hkept, Nat.add_assoc]
  · simp [Cur.extend]
  · rw [hflat, h.textEnd hstart, h.lineAt le_rfl]
    simp [Cur.extend]
  · rw [hflat, h.textEnd hstart, h.colAt le_rfl]
    simp [Cur.extend]

/-! ## Tokens -/

theorem Cur.Ok.unfolds {src : Bytes} {e : Nat} (hc : c.Ok src e ps)
    {t : Token} (ht : t ∈ flush src 0 (some c)) : Unfolds src t := by
  obtain rfl := List.mem_singleton.1 ht
  have hend : (c.span.endByte - 0).toNat = c.start + sourceLen ps := by
    rw [hc.endByte, hc.stop]
    omega
  refine ⟨ps, hc.cuts, ?_, by rw [hc.segs], fun ps₁ p ps₂ hps o b ho => ?_⟩
  · simp only [hend]
    exact hc.onLines.slice_eq
  · subst hps
    have hlt : o ≤ p.kept.length := (List.getElem?_eq_some_iff.1 ho).1.le
    have hstart : c.span.startByte.toNat = c.start := by rw [hc.startByte]; rfl
    simp only [hstart]
    refine ⟨by rw [hc.segs]; exact join_get ho, hc.onLines.mid.get ho, ?_⟩
    have hne : c.segments ≠ [] := by
      rw [hc.segments]
      cases ps₁ <;> simp [segmentsOf]
    obtain ⟨s, ss, hss⟩ := List.exists_cons_of_ne_nil hne
    simp only [Token.sourceAt, hss, Int.toNat_natCast]
    rw [← hss, hc.segments, ← sourceAtLoop_segmentsOf hc.onLines hlt s, Nat.zero_add]

theorem Cur.Ok.located {src : Bytes} {e : Nat} (hc : c.Ok src e ps)
    {t : Token} (ht : t ∈ flush src 0 (some c)) :
    t.Located src ∧ t.span.startByte = c.start ∧ t.span.endByte = e := by
  have hu := hc.unfolds ht
  obtain rfl := List.mem_singleton.1 ht
  have hraw : slice src c.start (c.span.endByte - 0).toNat = (ps.map (·.bytes)).flatten := by
    rw [hc.endByte, hc.stop, ← hc.onLines.slice_eq]
    rfl
  refine ⟨⟨?_, ?_, ?_, ?_, ?_, ?_, fun _ => hu⟩, hc.startByte, hc.endByte⟩
  · simp [hc.startByte]
  · simp [hc.startByte]
  · simp [hc.startByte, hc.startLine]
  · simp [hc.startByte, hc.startCol]
  · simp only [hraw, hc.endLine]
    rw [hc.endByte, Int.toNat_natCast]
  · simp only [hraw, hc.endCol]
    rw [hc.endByte, Int.toNat_natCast]

theorem PhysLine.In.slice_eq {src : Bytes} {pl : PhysLine} (h : pl.In src pre post) :
    slice src pl.start (pl.start + pl.bytes.length) = [] ++ pl.bytes := by
  rw [slice, List.drop_take, Nat.add_sub_cancel_left]
  conv_lhs => rw [h.eq, h.start]
  rw [List.drop_left, List.take_left, List.nil_append]

theorem located_lineToken {src : Bytes} {pl : PhysLine} (h : pl.In src pre post)
    {kind : Kind} (hk : kind ≠ .attribute) : (lineToken src 0 0 kind pl).Located src := by
  have hraw : (lineToken src 0 0 kind pl).raw = [] ++ pl.bytes := h.slice_eq
  have hb : (lineToken src 0 0 kind pl).span.endByte.toNat = pl.start + pl.bytes.length := by
    simp only [lineToken, lineSpan]
    omega
  refine ⟨?_, ?_, ?_, ?_, ?_, ?_, fun he => absurd he hk⟩
  · simp [lineToken, lineSpan]
  · rw [hb]
    simp [lineToken, lineSpan]
  · simp [lineToken, lineSpan, h.atStart.1]
  · simp [lineToken, lineSpan, h.atStart.2]
  · rw [hraw, hb, h.textEnd (.inl rfl), h.lineAt le_rfl]
    simp [lineToken, lineSpan]
  · rw [hraw, hb, h.textEnd (.inl rfl), h.colAt le_rfl]
    simp [lineToken, lineSpan]

def curStart (cur : Option Cur) (e : Nat) : Nat := (cur.map (·.start)).getD e

theorem classify_cases (text : Bytes) (haveCur : Bool) :
    (classify text haveCur = (.attribute, true) ∧ haveCur = true) ∨
    (classify text haveCur = (.attribute, false) ∧ startsAttribute text = true) ∨
    ∃ k, k ≠ .attribute ∧ classify text haveCur = (k, false) := by
  by_cases hb : isBlankLine text = true
  · exact .inr (.inr ⟨.blank, by decide, by unfold classify; rw [if_pos hb]⟩)
  · unfold classify
    rw [if_neg hb]
    cases text with
    | nil => exact absurd rfl hb
    | cons b bs =>
      simp only
      split
      · cases haveCur
        · exact .inr (.inr ⟨.malformed, by decide, rfl⟩)
        · exact .inl ⟨rfl, rfl⟩
      · split
        · exact .inr (.inr ⟨.comment, by decide, rfl⟩)
        · split
          · rename_i hs
            exact .inr (.inl ⟨rfl, hs⟩)
          · exact .inr (.inr ⟨.malformed, by decide, rfl⟩)

section
variable (src : Bytes) (lineBase byteOffset : Int) {pl : PhysLine} (pls : List PhysLine)
  {cur : Option Cur}

theorem fold_continues (h : classify pl.text true = (.attribute, true)) :
    fold src lineBase byteOffset (pl :: pls) (some c) =
      fold src lineBase byteOffset pls (some (c.extend lineBase byteOffset pl)) := by
  simp only [fold, Option.isSome_some, h]

theorem fold_opens (h : classify pl.text cur.isSome = (.attribute, false)) :
    fold src lineBase byteOffset (pl :: pls) cur =
      flush src byteOffset cur ++
        fold src lineBase byteOffset pls (some (Cur.open lineBase byteOffset pl)) := by
  simp only [fold, h]

theorem fold_line {k : Kind} (hk : k ≠ .attribute)
    (h : classify pl.text cur.isSome = (k, false)) :
    fold src lineBase byteOffset (pl :: pls) cur =
      flush src byteOffset cur ++ lineToken src lineBase byteOffset k pl ::
        fold src lineBase byteOffset pls none := by
  rcases k with _ | _ | _ | _
  · exact absurd rfl hk
  · simp only [fold, h]
  · simp only [fold, h]
  · simp only [fold, h]

end

def CurOk (src : Bytes) (e : Nat) (cur : Option Cur) : Prop :=
  ∀ c, cur = some c → ∃ ps, c.Ok src e ps

theorem contiguous_flush {src : Bytes} {e : Nat} {cur : Option Cur} (hcur : CurOk src e cur)
    {ts : List Token} (h : Contiguous src e ts ∧ ∀ t ∈ ts, t.Located src) :
    Contiguous src (curStart cur e) (flush src 0 cur ++ ts) ∧
      ∀ t ∈ flush src 0 cur ++ ts, t.Located src := by
  cases cur with
  | none => exact h
  | some c =>
    obtain ⟨ps, hc⟩ := hcur c rfl
    have hlt : c.start < e := by
      have := List.length_pos_iff.2 (flatten_bytes_ne_nil hc.onLines hc.cuts.ne_nil)
      rw [length_flatten_bytes] at this
      rw [hc.stop]
      omega
    obtain ⟨hl, hs, he⟩ := hc.located List.mem_cons_self
    refine ⟨⟨hs, ?_, ?_⟩, fun t ht => ?_⟩
    · rw [he]
      exact Int.ofNat_lt.2 hlt
    · rw [he]
      exact h.1
    · rcases List.mem_cons.1 ht with rfl | ht
      · exact hl
      · exact h.2 t ht

theorem fold_spec {src : Bytes} {pls : List PhysLine} {e : Nat} (h : Tiles src e pls)
    {cur : Option Cur} (hcur : CurOk src e cur) :
    Contiguous src (curStart cur e) (fold src 0 0 pls cur) ∧
      ∀ t ∈ fold src 0 0 pls cur, t.Located src := by
  induction pls generalizing e cur with
  | nil =>
    have hend : Contiguous src e [] ∧ ∀ t ∈ ([] : List Token), t.Located src :=
      ⟨congrArg Nat.cast h, by simp⟩
    simpa [fold] using contiguous_flush hcur hend
  | cons pl pls ih =>
    obtain ⟨rfl, ⟨pre, post, hin⟩, htiles⟩ := h
    rcases classify_cases pl.text cur.isSome with ⟨hk, hs⟩ | ⟨hk, hs⟩ | ⟨k, hne, hk⟩
    · obtain ⟨c, rfl⟩ := Option.isSome_iff_exists.1 hs
      obtain ⟨ps, hc⟩ := hcur c rfl
      have hc' : CurOk src (pl.start + pl.bytes.length) (some (c.extend 0 0 pl)) := by
        rintro _ ⟨⟩
        exact hc.extend hin
      rw [fold_continues src 0 0 pls hk]
      exact ih htiles hc'
    · have hc : CurOk src (pl.start + pl.bytes.length) (some (Cur.open 0 0 pl)) := by
        rintro _ ⟨⟩
        exact Cur.ok_open hin hs
      rw [fold_opens src 0 0 pls hk]
      refine contiguous_flush hcur ?_
      have := ih htiles hc
      exact this
    · have hnone : CurOk src (pl.start + pl.bytes.length) none := fun c hc => nomatch hc
      obtain ⟨hcont, hloc⟩ := ih htiles hnone
      have hpos := List.length_pos_iff.2 hin.term.ne_nil
      rw [fold_line src 0 0 pls hne hk]
      refine contiguous_flush hcur ⟨⟨?_, ?_, ?_⟩, fun t ht => ?_⟩
      · simp [lineToken, lineSpan]
      · simp only [lineToken, lineSpan, PhysLine.bytes]
        omega
      · rw [show (lineToken src 0 0 k pl).span.endByte = (pl.start + pl.bytes.length : Nat) by
          simp [lineToken, lineSpan]]
        exact hcont
      · rcases List.mem_cons.1 ht with rfl | ht
        · exact located_lineToken hin hne
        · exact hloc t ht

theorem slice_append_drop (src : Bytes) {i j : Nat} (h : i ≤ j) :
    slice src i j ++ src.drop j = src.drop i := by
  rw [slice, List.drop_take]
  conv_rhs => rw [← List.take_append_drop (j - i) (src.drop i), List.drop_drop]
  rw [Nat.add_sub_cancel' h]

theorem flatten_raw {src : Bytes} {e : Int} {ts : List Token} (h0 : 0 ≤ e)
    (hc : Contiguous src e ts) (hl : ∀ t ∈ ts, t.Located src) :
    (ts.map (·.raw)).flatten = src.drop e.toNat := by
  induction ts generalizing e with
  | nil =>
    rw [show e = src.length from hc]
    simp
  | cons t ts ih =>
    obtain ⟨hs, hlt, hc⟩ := hc
    have ht := hl t List.mem_cons_self
    rw [List.map_cons, List.flatten_cons, ih (by omega) hc fun t ht => hl t (.tail _ ht), ← ht.raw,
      hs, slice_append_drop src (Int.toNat_le_toNat hlt.le)]

/-! ## Start positions -/

def Span.shift (dl db : Int) (s : Span) : Span :=
  { s with startLine := dl + s.startLine, endLine := dl + s.endLine
           startByte := db + s.startByte, endByte := db + s.endByte }

def Segment.shift (dl db : Int) (s : Segment) : Segment :=
  { s with srcLine := dl + s.srcLine, srcByte := db + s.srcByte }

/-- The token `dl` lines and `db` bytes further down a stream. -/
def Token.shift (dl db : Int) (t : Token) : Token :=
  { t with span := t.span.shift dl db, segments := t.segments.map (·.shift dl db) }

def Cur.shift (dl db : Int) (c : Cur) : Cur :=
  { c with span := c.span.shift dl db, segments := c.segments.map (·.shift dl db) }

section
variable (src : Bytes) (dl db : Int)

theorem flush_shift (cur : Option Cur) :
    flush src db (cur.map (·.shift dl db)) = (flush src 0 cur).map (·.shift dl db) := by
  cases cur with
  | none => rfl
  | some c => simp [flush, Cur.shift, Token.shift, Span.shift]

theorem Cur.open_shift (pl : PhysLine) :
    Cur.open dl db pl = (Cur.open 0 0 pl).shift dl db := by
  simp [Cur.open, Cur.shift, lineSpan, segmentAt, Span.shift, Segment.shift]

theorem Cur.extend_shift (c : Cur) (pl : PhysLine) :
    (c.shift dl db).extend dl db pl = (c.extend 0 0 pl).shift dl db := by
  simp [Cur.extend, Cur.shift, segmentAt, Span.shift, Segment.shift]

theorem lineToken_shift (k : Kind) (pl : PhysLine) :
    lineToken src dl db k pl = (lineToken src 0 0 k pl).shift dl db := by
  simp [lineToken, Token.shift, lineSpan, Span.shift]

theorem fold_shift (pls : List PhysLine) (cur : Option Cur) :
    fold src dl db pls (cur.map (·.shift dl db)) =
      (fold src 0 0 pls cur).map (·.shift dl db) := by
  induction pls generalizing cur with
  | nil => exact flush_shift src dl db cur
  | cons pl pls ih =>
    rcases classify_cases pl.text cur.isSome with ⟨hk, hs⟩ | ⟨hk, -⟩ | ⟨k, hne, hk⟩
    · obtain ⟨c, rfl⟩ := Option.isSome_iff_exists.1 hs
      rw [Option.map_some, fold_continues src dl db pls hk, fold_continues src 0 0 pls hk,
        Cur.extend_shift, ← ih, Option.map_some]
    · rw [fold_opens src dl db pls (by rwa [Option.isSome_map]), fold_opens src 0 0 pls hk,
        List.map_append, flush_shift, Cur.open_shift, ← ih, Option.map_some]
    · rw [fold_line src dl db pls hne (by rwa [Option.isSome_map]), fold_line src 0 0 pls hne hk,
        List.map_append, List.map_cons, flush_shift, lineToken_shift, ← ih, Option.map_none]

end

/-- **Tokenizing partitions the source**: the tokens' bytes concatenate to it and their spans follow
each other through it; each is where it says it is, in bytes, lines and columns, and so is every
byte of an attribute's value; from another start, the same tokens are that much further on. -/
theorem tokenize_lossless (src : Bytes) :
    ((tokenize src).map (·.raw)).flatten = src ∧
      Contiguous src 0 (tokenize src) ∧
      (∀ t ∈ tokenize src, t.Located src) ∧
      ∀ line byteOffset, tokenizeAt src line byteOffset =
        (tokenize src).map (·.shift (line - 1) byteOffset) := by
  have hcur : CurOk src 0 none := fun c hc => nomatch hc
  obtain ⟨hc, hl⟩ := fold_spec (tiles_scanLines src) hcur
  refine ⟨flatten_raw le_rfl hc hl, hc, hl, fun line byteOffset => ?_⟩
  exact fold_shift src (line - 1) byteOffset (scanLines src) none

end Rpsl.Lexer
