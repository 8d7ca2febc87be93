import Rpsl.Lexer.Proof.Append

/-!
# Texts as groups of lines

A text read by the lexer is its lines, grouped into tokens. Without positions (`bare`), the text
determines its lines and back (`scanLines_linesBytes`, `linesBytes_scanLines`), as long as every
line but the last ends in a newline (`LinesOk`), and the lines determine the groups and back, as
long as no attribute is followed by a line that would continue it (`Regular`, `groups_regular`,
`Regular.groups_eq`).
-/

namespace Rpsl.Lexer

def PhysLine.bare (pl : PhysLine) : PhysLine := ⟨pl.text, pl.term, 0, 0⟩

@[ext] structure Shape where
  kind : Kind
  name : Bytes
  value : Bytes
  raw : Bytes
deriving DecidableEq

def Token.shape (t : Token) : Shape := ⟨t.kind, t.name, t.value, t.raw⟩

def lineValues (pl : PhysLine) (pls : List PhysLine) : List Bytes :=
  (splitAttr pl.text).2.1 :: pls.map fun q => (contValue q.text false).1

def shape : Group → Shape
  | (.attribute, pl :: pls) =>
    ⟨.attribute, (splitAttr pl.text).1, join (lineValues pl pls), linesBytes (pl :: pls)⟩
  | (k, pls) => ⟨k, [], [], linesBytes pls⟩

/-! ## Lines -/

def PhysLine.Full (pl : PhysLine) : Prop :=
  nl ∉ pl.text ∧ (pl.term = [cr, nl] ∨ (pl.term = [nl] ∧ pl.text.getLast? ≠ some cr))

def PhysLine.Final (pl : PhysLine) : Prop := nl ∉ pl.text ∧ Terminates pl.text pl.term []

def LinesOk : List PhysLine → Prop
  | [] => True
  | [pl] => pl.Final
  | pl :: q :: pls => pl.Full ∧ LinesOk (q :: pls)

variable {pl : PhysLine}

theorem PhysLine.Full.final (h : pl.Full) : pl.Final := by
  obtain ⟨hn, ht | ⟨ht, hc⟩⟩ := h
  · exact ⟨hn, by rw [ht]; exact .crlf _⟩
  · exact ⟨hn, by rw [ht]; exact .lf _ hc⟩

variable {pls : List PhysLine}

theorem linesOk_of_full (h : ∀ pl ∈ pls, pl.Full) : LinesOk pls := by
  induction pls with
  | nil => trivial
  | cons pl pls ih =>
    have hpl := h pl List.mem_cons_self
    cases pls with
    | nil => exact hpl.final
    | cons q pls => exact ⟨hpl, ih fun p hp => h p (List.mem_cons_of_mem _ hp)⟩

theorem linesOk_append {qls : List PhysLine} (hq : qls ≠ []) :
    LinesOk (pls ++ qls) ↔ (∀ pl ∈ pls, pl.Full) ∧ LinesOk qls := by
  induction pls with
  | nil => simp
  | cons pl pls ih =>
    have hcons : LinesOk (pl :: (pls ++ qls)) ↔ pl.Full ∧ LinesOk (pls ++ qls) := by
      cases hpq : pls ++ qls with
      | nil => exact absurd (List.append_eq_nil_iff.1 hpq).2 hq
      | cons q rest => exact Iff.rfl
    rw [List.cons_append, hcons, ih]
    simp [and_assoc]

theorem scanLinesFrom_final (h : pl.Final) (i n : Nat) :
    (scanLinesFrom pl.bytes i n).map PhysLine.bare = [pl.bare] := by
  obtain ⟨text, term, s, l⟩ := pl
  obtain ⟨hn, ht⟩ := h
  simp only [PhysLine.bytes] at *
  have hncr : nl ∉ text ++ [cr] := by simpa [show nl ≠ cr by decide] using hn
  cases ht with
  | crlf =>
    rw [show text ++ [cr, nl] = (text ++ [cr]) ++ nl :: [] by simp, scanLinesFrom_nl [] hncr,
      scanLinesFrom_nil]
    simp [endLine, PhysLine.bare]
  | lf _ hc =>
    rw [scanLinesFrom_nl [] hn, scanLinesFrom_nil]
    simp [endLine, PhysLine.bare, hc]
  | cr =>
    rw [scanLinesFrom_end (by simp) hncr]
    simp [endLine, PhysLine.bare]
  | none hc hne =>
    rw [List.append_nil, scanLinesFrom_end hne hn]
    simp [endLine, PhysLine.bare, hc]

theorem PhysLine.Full.atLineStart (h : pl.Full) : AtLineStart pl.bytes := by
  right
  obtain ⟨-, ht | ⟨ht, -⟩⟩ := h
  · rw [PhysLine.bytes, ht]
    simp
  · rw [PhysLine.bytes, ht]
    simp

theorem linesBytes_cons (pl : PhysLine) (pls : List PhysLine) :
    linesBytes (pl :: pls) = pl.bytes ++ linesBytes pls := rfl

theorem linesBytes_append (pls qls : List PhysLine) :
    linesBytes (pls ++ qls) = linesBytes pls ++ linesBytes qls := by simp [linesBytes]

theorem map_bare_scanLinesFrom (rest : Bytes) (i n : Nat) :
    (scanLinesFrom rest i n).map PhysLine.bare = (scanLines rest).map PhysLine.bare := by
  have h := scanLinesFrom_shift rest 0 1 i (n - 1)
  by_cases hn : 1 ≤ n
  · rw [Nat.zero_add, show 1 + (n - 1) = n by omega] at h
    rw [h, List.map_map]
    rfl
  · obtain rfl : n = 0 := by omega
    have h' := scanLinesFrom_shift rest i 0 0 1
    have h'' := scanLinesFrom_shift rest 0 1 i 0
    simp only [Nat.add_zero, Nat.zero_add] at h' h''
    calc (scanLinesFrom rest i 0).map PhysLine.bare
        = ((scanLinesFrom rest i 0).map (·.shift 0 1)).map PhysLine.bare := by
          rw [List.map_map]
          rfl
      _ = (scanLinesFrom rest i 1).map PhysLine.bare := by rw [← h']
      _ = _ := by
          rw [h'', List.map_map]
          rfl

/-- **A text made of lines has these lines.** -/
theorem scanLines_linesBytes (h : LinesOk pls) :
    (scanLines (linesBytes pls)).map PhysLine.bare = pls.map PhysLine.bare := by
  induction pls with
  | nil => simp [linesBytes, scanLines, scanLinesFrom_nil]
  | cons pl pls ih =>
    cases pls with
    | nil =>
      rw [show linesBytes [pl] = pl.bytes by simp [linesBytes]]
      exact scanLinesFrom_final h 0 1
    | cons q pls =>
      rw [linesBytes_cons, scanLines, scanLinesFrom_append h.1.atLineStart, List.map_append,
        scanLinesFrom_final h.1.final, map_bare_scanLinesFrom, ih h.2]
      rfl

variable {text : Bytes}

theorem Terminates.atEnd {term post : Bytes} (h : Terminates text term post) :
    Terminates text term [] := by
  cases h with
  | crlf => exact .crlf _
  | lf _ hc => exact .lf _ hc
  | cr => exact .cr
  | none hc hne => exact .none hc hne

theorem Tiles.linesOk {src : Bytes} {e : Nat} (h : Tiles src e pls) :
    LinesOk pls := by
  induction pls generalizing e with
  | nil => trivial
  | cons pl pls ih =>
    obtain ⟨rfl, ⟨pre, post, hin⟩, htiles⟩ := h
    have hrest := ih htiles
    cases pls with
    | nil =>
      exact ⟨hin.nl_notMem, hin.term.atEnd⟩
    | cons q pls =>
      -- a line follows, so this one ends in a newline
      obtain ⟨hq, ⟨pre', post', hin'⟩, -⟩ := htiles
      have hpost : post ≠ [] := by
        rintro rfl
        have h1 := congrArg List.length hin.eq
        have h2 := congrArg List.length hin'.eq
        have h3 := List.length_pos_iff.2 hin'.term.ne_nil
        rw [hin'.start] at hq
        rw [hin.start] at hq
        simp only [PhysLine.bytes, List.length_append, List.length_nil] at h1 h2 h3 hq
        omega
      refine ⟨⟨hin.nl_notMem, ?_⟩, hrest⟩
      have hterm := hin.term
      revert hterm
      generalize pl.term = term
      rintro (_ | ⟨_, hc⟩ | _ | _)
      · exact .inl rfl
      · exact .inr ⟨rfl, hc⟩
      · exact absurd rfl hpost
      · exact absurd rfl hpost

theorem linesOk_scanLines (src : Bytes) : LinesOk (scanLines src) := (tiles_scanLines src).linesOk

/-! ## Groups -/

/-- The lines of one token: an attribute's first and those that continue it, or a line that is a
token of its own. -/
def Group.Ok : Group → Prop
  | (.attribute, pl :: pls) => startsAttribute pl.text = true ∧
      ∀ q ∈ pls, isContinuation q.text = true
  | (k, [pl]) => k ≠ .attribute ∧ classify pl.text false = (k, false)
  | _ => False

def Group.Fresh (g : Group) : Prop :=
  ∀ pl, g.2.head? = some pl → isContinuation pl.text = false

structure Regular (gs : List Group) : Prop where
  ok : ∀ g ∈ gs, Group.Ok g
  fresh : gs.IsChain fun g g' => g.1 = .attribute → Group.Fresh g'

theorem isContinuation_of_starts (h : startsAttribute text = true) :
    isContinuation text = false ∧ ∀ haveCur, classify text haveCur = (.attribute, false) := by
  cases text with
  | nil => simp [startsAttribute] at h
  | cons b bs =>
    have hb : (isBlank b = false ∧ b ≠ plus) ∧ b ≠ hash := by
      by_contra hb
      have : (isBlank b || b == plus || b == hash) = true := by
        by_contra hn
        simp at hn
        exact hb ⟨⟨hn.1.1, hn.1.2⟩, hn.2⟩
      simp only [startsAttribute, this, if_true] at h
      cases h
    have hblank : isBlankLine (b :: bs) = false := by simp [isBlankLine, hb.1.1]
    have hk : ∀ haveCur, classify (b :: bs) haveCur = (.attribute, false) := by
      intro haveCur
      simp [classify, hblank, hb.1.1, hb.1.2, hb.2, h]
    exact ⟨by rw [isContinuation, hk], hk⟩

theorem Group.fresh_attribute (h : Group.Ok (.attribute, pls)) :
    Group.Fresh (.attribute, pls) := by
  cases pls with
  | nil => exact h.elim
  | cons pl pls =>
    intro q hq
    obtain rfl := Option.some.inj hq
    exact (isContinuation_of_starts h.1).1

theorem Group.Ok.line {k : Kind} (h : Group.Ok (k, pls))
    (hk : k ≠ .attribute) : ∃ pl, pls = [pl] ∧ classify pl.text false = (k, false) := by
  rcases k with _ | _ | _ | _
  · exact absurd rfl hk
  all_goals
    match pls, h with
    | [pl], h => exact ⟨pl, rfl, h.2⟩

theorem Group.ok_line {k : Kind} (hk : k ≠ .attribute)
    (h : classify pl.text false = (k, false)) : Group.Ok (k, [pl]) := by
  rcases k with _ | _ | _ | _
  · exact absurd rfl hk
  · exact ⟨hk, h⟩
  · exact ⟨hk, h⟩
  · exact ⟨hk, h⟩

theorem classify_continuation (h : isContinuation text = true) :
    classify text true = (.attribute, true) := by
  rcases classify_cases text true with ⟨hk, -⟩ | ⟨hk, -⟩ | ⟨k, -, hk⟩
  · exact hk
  · rw [isContinuation, hk] at h
    cases h
  · rw [isContinuation, hk] at h
    cases h

theorem groups_conts (h : ∀ q ∈ pls, isContinuation q.text = true)
    (rest cur : List PhysLine) (hcur : cur ≠ []) :
    groups (pls ++ rest) cur = groups rest (cur ++ pls) := by
  induction pls generalizing cur with
  | nil => simp
  | cons pl pls ih =>
    have hk := classify_continuation (h pl List.mem_cons_self)
    have hc : (!cur.isEmpty) = true := by cases cur <;> simp_all
    rw [List.cons_append, groups_continues _ (by rw [hc]; exact hk),
      ih (fun q hq => h q (List.mem_cons_of_mem _ hq)) _ (by simp), List.append_assoc,
      List.singleton_append]

variable {gs : List Group}

/-- **Regular groups are those of their lines.** -/
theorem Regular.groups_eq (h : Regular gs) :
    groups (gs.flatMap Prod.snd) [] = gs := by
  induction gs with
  | nil => rfl
  | cons g gs ih =>
    have hrest : Regular gs :=
      ⟨fun g hg => h.ok g (List.mem_cons_of_mem _ hg), h.fresh.tail⟩
    have hg := h.ok g List.mem_cons_self
    obtain ⟨k, pls⟩ := g
    by_cases hk : k = .attribute
    · subst hk
      cases pls with
      | nil => exact hg.elim
      | cons pl pls =>
        have hfresh : ∀ q, (gs.flatMap Prod.snd).head? = some q →
            isContinuation q.text = false := by
          intro q hq
          cases gs with
          | nil => simp at hq
          | cons g' gs =>
            have hg' := (List.isChain_cons_cons.1 h.fresh).1 rfl
            have hok := h.ok g' (by simp)
            obtain ⟨k', pls'⟩ := g'
            cases pls' with
            | nil => rcases k' with _ | _ | _ | _ <;> exact hok.elim
            | cons p pls' => exact hg' q (by simpa using hq)
        rw [List.flatMap_cons, List.cons_append,
          groups_opens _ ((isContinuation_of_starts hg.1).2 _), groups_conts hg.2 _ _ (by simp),
          groups_fresh hfresh, ih hrest]
        rfl
    · obtain ⟨pl, rfl, hc⟩ := Group.Ok.line hg hk
      rw [List.flatMap_cons, List.singleton_append, groups_line _ hk hc, ih hrest]
      rfl

theorem groups_cons_head (pls : List PhysLine) (c : PhysLine) (cs : List PhysLine) :
    ∃ more rest, groups pls (c :: cs) = (.attribute, c :: more) :: rest := by
  induction pls generalizing cs with
  | nil => exact ⟨cs, [], rfl⟩
  | cons pl pls ih =>
    rcases classify_cases pl.text (!(c :: cs).isEmpty) with ⟨hk, -⟩ | ⟨hk, -⟩ | ⟨k, hne, hk⟩
    · rw [groups_continues _ hk]
      exact ih (cs ++ [pl])
    · rw [groups_opens _ hk]
      exact ⟨cs, _, rfl⟩
    · rw [groups_line _ hne hk]
      exact ⟨cs, _, rfl⟩

theorem regular_close {cur : List PhysLine} (hcur : cur = [] ∨ Group.Ok (.attribute, cur))
    (h : Regular gs)
    (hfresh : cur ≠ [] → ∀ g, gs.head? = some g → Group.Fresh g) :
    Regular (closeLines cur ++ gs) := by
  rcases hcur with rfl | hok
  · exact h
  · have hne : cur ≠ [] := by
      rintro rfl
      exact hok
    have hclose : closeLines cur = [(.attribute, cur)] := by simp [closeLines, hne]
    rw [hclose, List.singleton_append]
    refine ⟨fun g hg => ?_, ?_⟩
    · rcases List.mem_cons.1 hg with rfl | hg
      · exact hok
      · exact h.ok g hg
    · cases gs with
      | nil => exact .singleton _
      | cons g gs => exact .cons_cons (fun _ => hfresh hne g rfl) h.fresh

theorem groups_regular_from (pls : List PhysLine) {cur : List PhysLine}
    (hcur : cur = [] ∨ Group.Ok (.attribute, cur)) : Regular (groups pls cur) := by
  induction pls generalizing cur with
  | nil =>
    have := regular_close hcur ⟨by simp, .nil⟩ (by simp)
    rwa [List.append_nil] at this
  | cons pl pls ih =>
    have hcont : cur ≠ [] → (!cur.isEmpty) = true := by cases cur <;> simp
    rcases classify_cases pl.text (!cur.isEmpty) with ⟨hk, hs⟩ | ⟨hk, hs⟩ | ⟨k, hne, hk⟩
    · rw [groups_continues _ hk]
      refine ih (.inr ?_)
      rcases hcur with rfl | hok
      · simp at hs
      · cases cur with
        | nil => exact hok.elim
        | cons c cs =>
          refine ⟨hok.1, fun q hq => ?_⟩
          rcases List.mem_append.1 hq with hq | hq
          · exact hok.2 q hq
          · rw [List.mem_singleton.1 hq, isContinuation]
            rw [hs] at hk
            rw [hk]
    · rw [groups_opens _ hk]
      refine regular_close hcur (ih (.inr ⟨hs, by simp⟩)) fun _ g hg => ?_
      obtain ⟨more, rest, heq⟩ := groups_cons_head pls pl []
      rw [heq] at hg
      obtain rfl := Option.some.inj hg
      intro q hq
      obtain rfl := Option.some.inj hq
      exact (isContinuation_of_starts hs).1
    · rw [groups_line _ hne hk]
      have hfresh : cur ≠ [] → isContinuation pl.text = false := by
        intro hn
        rw [hcont hn] at hk
        rw [isContinuation, hk]
      have hline : classify pl.text false = (k, false) := by
        by_cases hn : cur = []
        · subst hn
          exact hk
        · rw [← hk]
          exact (classify_fresh (hfresh hn) _).symm
      have hrest := ih (.inl rfl)
      refine regular_close hcur ⟨fun g hg => ?_, ?_⟩ fun hn g hg => ?_
      · rcases List.mem_cons.1 hg with rfl | hg
        · exact Group.ok_line hne hline
        · exact hrest.ok g hg
      · cases hgs : groups pls [] with
        | nil => exact .singleton _
        | cons g gs =>
          rw [hgs] at hrest
          exact .cons_cons (fun h => absurd h hne) hrest.fresh
      · obtain rfl := Option.some.inj hg
        intro q hq
        obtain rfl := Option.some.inj hq
        exact hfresh hn

/-- **The lexer's groups are regular.** -/
theorem groups_regular (pls : List PhysLine) : Regular (groups pls []) :=
  groups_regular_from pls (.inl rfl)

theorem closeLines_lines (cur : List PhysLine) : (closeLines cur).flatMap Prod.snd = cur := by
  cases cur <;> simp [closeLines]

theorem groups_lines_from (pls cur : List PhysLine) :
    (groups pls cur).flatMap Prod.snd = cur ++ pls := by
  induction pls generalizing cur with
  | nil => rw [groups, closeLines_lines, List.append_nil]
  | cons pl pls ih =>
    rcases classify_cases pl.text (!cur.isEmpty) with ⟨hk, -⟩ | ⟨hk, -⟩ | ⟨k, hne, hk⟩
    · rw [groups_continues _ hk, ih, List.append_assoc, List.singleton_append]
    · rw [groups_opens _ hk, List.flatMap_append, closeLines_lines, ih, List.singleton_append]
    · rw [groups_line _ hne hk, List.flatMap_append, closeLines_lines, List.flatMap_cons, ih,
        List.nil_append, List.singleton_append]

theorem groups_lines (pls : List PhysLine) : (groups pls []).flatMap Prod.snd = pls :=
  groups_lines_from pls []

/-! ## Tokens without positions -/

theorem foldl_extend_segs (lineBase byteOffset : Int) (pls : List PhysLine) (c : Cur) :
    (pls.foldl (Cur.extend lineBase byteOffset) c).name = c.name ∧
      (pls.foldl (Cur.extend lineBase byteOffset) c).segs =
        c.segs ++ pls.map fun q => (contValue q.text false).1 := by
  induction pls generalizing c with
  | nil => simp
  | cons pl pls ih =>
    obtain ⟨hn, hs⟩ := ih (c.extend lineBase byteOffset pl)
    rw [List.foldl_cons, hn, hs]
    simp [Cur.extend]

theorem token_shape (lineBase byteOffset : Int) {g : Group} (hg : Group.Ok g) :
    (token lineBase byteOffset g).shape = shape g := by
  obtain ⟨k, pls⟩ := g
  by_cases hk : k = .attribute
  · subst hk
    cases pls with
    | nil => exact hg.elim
    | cons pl pls =>
      obtain ⟨hn, hs⟩ := foldl_extend_segs lineBase byteOffset pls (Cur.open lineBase byteOffset pl)
      simp only [token, Cur.token, Token.shape, shape, hn, hs, lineValues]
      rfl
  · obtain ⟨pl, rfl, -⟩ := Group.Ok.line hg hk
    rw [token_line hk]
    have hb : linesBytes [pl] = pl.bytes := by simp [linesBytes]
    rcases k with _ | _ | _ | _
    · exact absurd rfl hk
    all_goals simp only [Token.shape, shape, hb]

theorem tokenizeAt_shapes (src : Bytes) (line byteOffset : Int) :
    (tokenizeAt src line byteOffset).map Token.shape = (groups (scanLines src) []).map shape := by
  rw [tokenizeAt_eq_groups, List.map_map]
  refine List.map_congr_left fun g hg => ?_
  exact token_shape _ _ ((groups_regular _).ok g hg)

theorem shape_bare (g : Group) : shape (g.1, g.2.map PhysLine.bare) = shape g := by
  have hb : ∀ pls : List PhysLine, linesBytes (pls.map PhysLine.bare) = linesBytes pls := by
    intro pls
    unfold linesBytes
    rw [List.map_map]
    rfl
  obtain ⟨k, pls⟩ := g
  rcases k with _ | _ | _ | _
  · cases pls with
    | nil => rfl
    | cons pl pls =>
      have hpl := hb (pl :: pls)
      rw [List.map_cons] at hpl
      simp only [List.map_cons, shape, hpl, lineValues, List.map_map]
      rfl
  all_goals simp only [shape, hb]

/-- **A text made of regular groups of lines** has their tokens. -/
theorem Regular.tokens (h : Regular gs) (hl : LinesOk (gs.flatMap Prod.snd)) :
    (tokenize (linesBytes (gs.flatMap Prod.snd))).map Token.shape = gs.map shape := by
  have hbare := scanLines_linesBytes hl
  have hmap := groups_map (f := PhysLine.bare) (fun _ => rfl)
  have h1 := hmap (scanLines (linesBytes (gs.flatMap Prod.snd))) []
  have h2 := hmap (gs.flatMap Prod.snd) []
  rw [hbare, List.map_nil] at h1
  rw [List.map_nil, h1, h.groups_eq] at h2
  have h3 := congrArg (List.map shape) h2
  rw [List.map_map, List.map_map] at h3
  rw [tokenize, tokenizeAt_shapes]
  simpa only [Function.comp_def, shape_bare] using h3

end Rpsl.Lexer
