import Rpsl.Lexer.Proof.Kinds
import Rpsl.Stream.Proof.Lines
import Rpsl.Stream.Proof.Caps

/-!
# Streaming gives the tokens of the whole input

`parseWith_tokens`: where the input is within the caps and its reads do not fail, the objects
yielded are made of the tokens of the whole input, cut at blank lines (`Separated`).

After each line the streamer holds the lines so far as texts that follow each other (`Clean`): those
of the chunks it made, the trivia since, and the object in progress.
-/

namespace Rpsl.Stream

open Lexer Ast
open Lib (Delivery ReadErr Reader Source)

/-! ## Objects as runs of tokens -/

def NoAttribute (ts : List Token) : Prop := ∀ t ∈ ts, t.kind ≠ .attribute

/-- No blank line follows an attribute. -/
def Unbroken (ts : List Token) : Prop :=
  ∀ before t after, ts = before ++ t :: after → t.kind = .blank → NoAttribute before

/-- A blank line with attributes on both sides is in no object; each object but the first starts
with a blank line, and each but the last has attributes and no blank line after them. -/
structure Separated (objects : List (List Token)) : Prop where
  nonempty : ∀ o ∈ objects, o ≠ []
  starts : ∀ o ∈ objects.tail, o.head?.map (·.kind) = some .blank
  whole : ∀ o ∈ objects, ∀ before t after, o = before ++ t :: after → t.kind = .blank →
    NoAttribute before ∨ NoAttribute after
  ended : ∀ o ∈ objects.dropLast, ¬ NoAttribute o ∧ Unbroken o

/-- Trivia, then an object's lines: from an attribute on, without a blank line. -/
def IsObject (ts : List Token) : Prop :=
  ∃ lead body, ts = lead ++ body ∧ NoAttribute lead ∧ ¬ NoAttribute body ∧
    ∀ t ∈ body, t.kind ≠ .blank

structure Closed (objects : List (List Token)) : Prop where
  isObject : ∀ o ∈ objects, IsObject o
  starts : ∀ o ∈ objects.tail, o.head?.map (·.kind) = some .blank

theorem IsObject.not_noAttribute {ts : List Token} (h : IsObject ts) : ¬ NoAttribute ts := by
  obtain ⟨lead, body, rfl, -, hbody, -⟩ := h
  exact fun hn => hbody fun t ht => hn t (List.mem_append_right _ ht)

theorem IsObject.blank {ts trail before after : List Token} {t : Token} (h : IsObject ts)
    (heq : ts ++ trail = before ++ t :: after) (ht : t.kind = .blank) :
    NoAttribute before ∨ ∃ more, trail = more ++ t :: after := by
  obtain ⟨lead, body, rfl, hlead, -, hbody⟩ := h
  rw [List.append_assoc] at heq
  rcases List.append_eq_append_iff.1 heq with ⟨as, rfl, has⟩ | ⟨bs, rfl, -⟩
  · right
    rcases List.append_eq_append_iff.1 has with ⟨bs, rfl, hbs⟩ | ⟨cs, rfl, hcs⟩
    · exact ⟨bs, hbs⟩
    · cases cs with
      | nil => exact ⟨[], by simpa using hcs.symm⟩
      | cons c cs =>
        rw [List.cons_append, List.cons.injEq] at hcs
        exact absurd ht (hbody t (by simp [hcs.1]))
  · exact .inl fun a ha => hlead a (List.mem_append_left _ ha)

theorem IsObject.unbroken {ts : List Token} (h : IsObject ts) : Unbroken ts := by
  intro before t after heq ht
  rcases h.blank (by rwa [List.append_nil]) ht with h' | ⟨more, h'⟩
  · exact h'
  · simp at h'

theorem Closed.snoc {objects : List (List Token)} {o : List Token} (h : Closed objects)
    (ho : IsObject o) (hstart : objects ≠ [] → o.head?.map (·.kind) = some .blank) :
    Closed (objects ++ [o]) := by
  refine ⟨List.forall_mem_append.2 ⟨h.isObject, by simpa using ho⟩, ?_⟩
  cases objects with
  | nil => simp
  | cons p ps =>
    rw [List.cons_append, List.tail_cons]
    exact List.forall_mem_append.2 ⟨h.starts, by simpa using hstart (by simp)⟩

theorem Closed.separated {objects : List (List Token)} {o trail : List Token}
    (h : Closed (objects ++ [o])) (htrail : NoAttribute trail) :
    Separated (objects ++ [o ++ trail]) := by
  have hne : ∀ p ∈ objects ++ [o], p ≠ [] := by
    rintro p hp rfl
    exact (h.isObject _ hp).not_noAttribute nofun
  have hlast := h.isObject o (by simp)
  refine ⟨?_, ?_, ?_, ?_⟩
  · refine List.forall_mem_append.2 ⟨fun p hp => hne p (by simp [hp]), ?_⟩
    have := hne o (by simp)
    simp [this]
  · cases objects with
    | nil => simp
    | cons p ps =>
      have hs := h.starts
      rw [List.cons_append, List.tail_cons] at hs ⊢
      obtain ⟨h₁, h₂⟩ := List.forall_mem_append.1 hs
      refine List.forall_mem_append.2 ⟨h₁, ?_⟩
      have h₂ := h₂ o (by simp)
      cases o with
      | nil => cases h₂
      | cons t ts => simpa using h₂
  · refine List.forall_mem_append.2 ⟨fun p hp before t after heq ht => ?_, ?_⟩
    · exact .inl ((h.isObject p (by simp [hp])).unbroken before t after heq ht)
    · intro p hp before t after heq ht
      rw [List.mem_singleton.1 hp] at heq
      refine (hlast.blank heq ht).imp_right ?_
      rintro ⟨more, rfl⟩ a ha
      exact htrail a (by simp [ha])
  · rw [List.dropLast_append_of_ne_nil (by simp)]
    intro p hp
    have hp := h.isObject p (by simpa using Or.inl hp)
    exact ⟨hp.not_noAttribute, hp.unbroken⟩

theorem Closed.separated_snoc {objects : List (List Token)} {o : List Token}
    (h : Closed (objects ++ [o])) : Separated (objects ++ [o]) := by
  have := h.separated (show NoAttribute [] from nofun)
  rwa [List.append_nil] at this

/-! ## Positions and lines -/

def posOf (b : Bytes) : Pos := Pos.after ⟨1, 0⟩ b

theorem posOf_append (a b : Bytes) : posOf (a ++ b) = (posOf a).after b := by
  simp only [posOf, Pos.after, List.count_append, List.length_append]
  congr 1 <;> omega

def tokensAt (p : Pos) (b : Bytes) : List Token := tokenizeAt b p.line p.byte

theorem tokensAt_append {a b : Bytes} (ha : AtLineStart a) (hb : StartsFresh b) (p : Pos) :
    tokensAt p (a ++ b) = tokensAt p a ++ tokensAt (p.after a) b := by
  simp only [tokensAt, tokenizeAt_append ha hb, Pos.after]
  push_cast
  rfl

theorem tokensAt_nil (p : Pos) : tokensAt p [] = [] := by
  simp [tokensAt, tokenizeAt_eq_groups, scanLines, scanLinesFrom_nil, groups, closeLines]

theorem atLineStart_right {a b : Bytes} (h : AtLineStart (a ++ b)) : AtLineStart b := by
  by_cases hb : b = []
  · exact .inl hb
  · rcases h with h | h
    · exact .inl (List.append_eq_nil_iff.1 h).2
    · right
      rwa [List.getLast?_append_of_ne_nil _ hb] at h

theorem atLineStart_append {a b : Bytes} (ha : AtLineStart a) (hb : AtLineStart b) :
    AtLineStart (a ++ b) := by
  rcases hb with rfl | hb
  · rwa [List.append_nil]
  · right
    rw [List.getLast?_append, hb]
    rfl

theorem scanLines_ne_nil {a : Bytes} (h : a ≠ []) : scanLines a ≠ [] := by
  unfold scanLines
  unfold scanLinesFrom
  rw [if_neg h]
  dsimp only
  split <;> simp

theorem tokenize_ne_nil {a : Bytes} (h : a ≠ []) : tokenize a ≠ [] := by
  obtain ⟨pl, pls, hpl⟩ := List.exists_cons_of_ne_nil (scanLines_ne_nil h)
  rw [tokenize, tokenizeAt_eq_groups, hpl]
  intro hnil
  have hg := List.map_eq_nil_iff.1 hnil
  rcases classify_cases pl.text false with ⟨-, hs⟩ | ⟨hk, -⟩ | ⟨k, hne, hk⟩
  · cases hs
  · rw [groups_opens pls hk, closeLines, if_pos rfl, List.nil_append] at hg
    have := groups_cur (show [pl] ≠ [] by simp) pls
    rw [hg] at this
    cases this
  · rw [groups_line pls hne hk] at hg
    simp at hg

theorem IsLine.scanLines {line rest : Bytes} {err : Option ReadErr} (h : IsLine line err rest)
    (hne : line ≠ []) : ∃ pl, Lexer.scanLines line = [pl] ∧ pl.text = text line := by
  by_cases he : err = none
  · obtain ⟨upTo, rfl, hup⟩ := h.ended he
    refine ⟨_, by rw [Lexer.scanLines, scanLinesFrom_nl [] hup, scanLinesFrom_nil], ?_⟩
    simp only [endLine, text, List.getLast?_append, List.getLast?_singleton, Option.some_or,
      if_true, List.dropLast_concat]
    split <;> rfl
  · have hnl := h.last he
    refine ⟨_, scanLinesFrom_end hne hnl 0 1, ?_⟩
    have hlast : line.getLast? ≠ some nl := fun hl => hnl (List.mem_of_getLast? hl)
    simp only [endLine, text, hlast, if_false]
    split <;> rfl

section
variable {a line rest : Bytes} {err : Option ReadErr}

theorem forall_scanLines_line (ha : AtLineStart a) (h : IsLine line err rest) (hne : line ≠ [])
    (P : Bytes → Prop) : (∀ pl ∈ scanLines (a ++ line), P pl.text) ↔
      (∀ pl ∈ scanLines a, P pl.text) ∧ P (text line) := by
  obtain ⟨pl, hpl, htext⟩ := h.scanLines hne
  rw [scanLines_append ha, hpl, List.forall_mem_append, ← htext]
  simp

theorem head_scanLines_line (ha : AtLineStart a) (h : IsLine line err rest) (hne : line ≠ [])
    (P : Bytes → Prop) : (∀ pl, (scanLines (a ++ line)).head? = some pl → P pl.text) ↔
      if a = [] then P (text line) else ∀ pl, (scanLines a).head? = some pl → P pl.text := by
  split
  · rename_i h₀
    subst h₀
    obtain ⟨pl, hpl, htext⟩ := h.scanLines hne
    rw [List.nil_append, hpl, ← htext]
    simp
  · rename_i h₀
    rw [scanLines_append ha, List.head?_append]
    obtain ⟨p, ps, hps⟩ := List.exists_cons_of_ne_nil (scanLines_ne_nil h₀)
    rw [hps]
    simp

end

/-! ## The texts held -/

namespace Streamer

structure InObject (s : Streamer) (fin lead obj : Bytes) : Prop where
  objEq : s.obj = obj
  objStart : s.objStart = posOf (fin ++ lead)
  leadEnds : AtLineStart lead
  opens : ∃ pl, (scanLines obj).head? = some pl ∧ startsAttribute pl.text = true
  body : ∀ pl ∈ scanLines obj, isBlankLine pl.text = false

/-- No line was dropped: the streamer holds `fin` as chunks, whose tokens are `objects`, the trivia
`lead` after it and the lines `obj` of the object in progress. -/
structure Clean (s : Streamer) (fin lead obj : Bytes) (objects : List (List Token)) : Prop where
  dropping : s.dropping = false
  leadOver : s.leadOver = false
  leadParts : s.leadParts = []
  carry : s.carry = []
  chunks : s.chunks.map Chunk.tokens = objects
  nonempty : ∀ c ∈ s.chunks, c.empty = false
  tokens : objects.flatten = tokenize fin
  closed : Closed objects
  noChunks : objects = [] → fin = []
  finEnds : AtLineStart fin
  leadEq : s.lead = lead
  leadStart : lead ≠ [] → s.leadStart = posOf fin
  trivia : ∀ pl ∈ scanLines lead, startsAttribute pl.text = false
  first : objects ≠ [] → ∀ pl, (scanLines lead).head? = some pl → isBlankLine pl.text = true
  inside : s.inObj = true → s.InObject fin lead obj
  outside : s.inObj = false → obj = [] ∧ (objects ≠ [] → s.pending ≠ none)

def Holds (s : Streamer) (done : Bytes) : Prop :=
  ∃ fin lead obj objects, s.Clean fin lead obj objects ∧ (objects ≠ [] → lead ≠ []) ∧
    fin ++ lead ++ obj = done

section
variable {s : Streamer} {fin lead obj : Bytes} {objects : List (List Token)}

theorem Clean.fresh {b : Bytes} (h : s.Clean fin lead obj objects) (hlead : lead ≠ [])
    (hobjects : objects ≠ []) (hends : AtLineStart lead ∨ b = []) : StartsFresh (lead ++ b) := by
  obtain ⟨pl, pls, hpl⟩ := List.exists_cons_of_ne_nil (scanLines_ne_nil hlead)
  have hblank := h.first hobjects pl (by rw [hpl]; rfl)
  refine startsFresh_of_head ?_ (.inl hblank)
  rcases hends with hends | rfl
  · rw [scanLines_append hends, hpl]
    rfl
  · rw [List.append_nil, hpl]
    rfl

theorem Clean.tokens_append {b : Bytes} (h : s.Clean fin lead obj objects)
    (hstart : objects ≠ [] → lead ≠ []) (hends : AtLineStart lead ∨ b = []) :
    tokenize (fin ++ (lead ++ b)) = objects.flatten ++ tokensAt (posOf fin) (lead ++ b) := by
  by_cases hobjects : objects = []
  · rw [h.noChunks hobjects, hobjects]
    rfl
  · rw [h.tokens]
    exact tokensAt_append h.finEnds (h.fresh (hstart hobjects) hobjects hends) ⟨1, 0⟩

theorem InObject.fresh (h : s.InObject fin lead obj) : StartsFresh obj := by
  obtain ⟨pl, hpl, hattr⟩ := h.opens
  exact startsFresh_of_head hpl (.inr hattr)

theorem Clean.takeParts (h : s.Clean fin lead obj objects) (hin : s.inObj = true) :
    (s.takeParts.2.flatMap fun p => tokensAt p.at_ p.text) =
      tokensAt (posOf fin) (lead ++ obj) := by
  have hobj := h.inside hin
  unfold Streamer.takeParts
  rw [h.leadParts, h.leadEq, hobj.objEq]
  split
  · rename_i hc
    have hlead : lead ≠ [] := List.length_pos_iff.1 hc.2.1
    simp [h.leadStart hlead]
  · simp only [takeLead, h.leadEq, h.leadParts]
    by_cases hlead : lead = []
    · have hstart := hobj.objStart
      rw [hlead, List.append_nil] at hstart
      simp [hlead, dropLead, hstart, hobj.objEq]
    · rw [tokensAt_append hobj.leadEnds hobj.fresh, ← posOf_append, ← hobj.objStart]
      simp [hlead, dropLead, hobj.objEq, h.leadStart hlead]

theorem Clean.isObject (h : s.Clean fin lead obj objects) (hin : s.inObj = true) :
    IsObject (tokensAt (posOf fin) (lead ++ obj)) := by
  have hobj := h.inside hin
  rw [tokensAt_append hobj.leadEnds hobj.fresh]
  refine ⟨_, _, rfl, tokenizeAt_trivia _ _ h.trivia, fun hn => ?_,
    tokenizeAt_not_blank _ _ hobj.body⟩
  obtain ⟨pl, hpl, hattr⟩ := hobj.opens
  obtain ⟨t, ht, hk⟩ := Option.map_eq_some_iff.1 (tokenizeAt_head_attribute
    ((posOf fin).after lead).line ((posOf fin).after lead).byte hpl hattr)
  exact hn t (List.mem_of_mem_head? ht) hk

theorem Clean.head_blank {b : Bytes} (h : s.Clean fin lead obj objects) (hlead : lead ≠ [])
    (hends : AtLineStart lead ∨ b = []) (hobjects : objects ≠ []) :
    (tokensAt (posOf fin) (lead ++ b)).head?.map (·.kind) = some .blank := by
  obtain ⟨pl, pls, hpl⟩ := List.exists_cons_of_ne_nil (scanLines_ne_nil hlead)
  refine tokenizeAt_head_blank _ _ ?_ (h.first hobjects pl (by rw [hpl]; rfl))
  rcases hends with hends | rfl
  · rw [scanLines_append hends, hpl]
    rfl
  · rw [List.append_nil, hpl]
    rfl

theorem Clean.endObject (h : s.Clean fin lead obj objects) (hstart : objects ≠ [] → lead ≠ [])
    (hends : AtLineStart (fin ++ lead ++ obj)) (hin : s.inObj = true) :
    s.endObject.Clean (fin ++ lead ++ obj) [] []
      (objects ++ [tokensAt (posOf fin) (lead ++ obj)]) := by
  obtain ⟨r, hr⟩ := endObject_taken h.dropping hin
  have hobj := h.inside hin
  rw [hr]
  exact
    { dropping := h.dropping
      leadOver := rfl
      leadParts := rfl
      carry := rfl
      chunks := by
        rw [Streamer.chunks, List.map_append, h.chunks]
        congr 1
        exact congrArg (fun ts => [ts]) (h.takeParts hin)
      nonempty := List.forall_mem_append.2 ⟨h.nonempty, by simp⟩
      tokens := by
        rw [List.append_assoc, h.tokens_append hstart (.inl hobj.leadEnds)]
        simp
      closed := h.closed.snoc (h.isObject hin) fun hne =>
        h.head_blank (hstart hne) (.inl hobj.leadEnds) hne
      noChunks := by simp
      finEnds := hends
      leadEq := rfl
      leadStart := fun hne => absurd rfl hne
      trivia := by simp [scanLines, scanLinesFrom_nil]
      first := by simp [scanLines, scanLinesFrom_nil]
      inside := nofun
      outside := fun _ => ⟨rfl, fun _ => nofun⟩ }

section
variable {line rest : Bytes} {err : Option ReadErr} {at_ : Pos} {cur lines : List Bytes}

theorem Clean.addLead (h : s.Clean fin lead obj objects) (hout : s.inObj = false)
    (hcur : s.Counts cur)
    (hruns : ∀ run ∈ runs false (cur ++ [line]) lines, Fits s.limit s.maxLines run)
    (hline : IsLine line err rest) (hne : line ≠ []) (hat : at_ = posOf (fin ++ lead))
    (hends : AtLineStart lead) (hattr : startsAttribute (text line) = false)
    (hblank : lead = [] → objects ≠ [] → isBlankLine (text line) = true) :
    (s.addLead line at_).2 = true ∧ (s.addLead line at_).1.Clean fin (lead ++ line) obj objects ∧
      (s.addLead line at_).1.Room s.limit s.maxLines lines := by
  obtain ⟨heq, hroom⟩ := hcur.addLead hout h.leadOver hruns at_
  rw [heq] at hroom ⊢
  refine ⟨rfl, { h with
    leadEq := by rw [h.leadEq]
    leadStart := fun _ => ?_
    trivia := (forall_scanLines_line hends hline hne (startsAttribute · = false)).2
      ⟨h.trivia, hattr⟩
    first := fun hobjects =>
      (head_scanLines_line hends hline hne (isBlankLine · = true)).2 ?_
    inside := fun hin => absurd hin (by simp [hout]) }, hroom⟩
  · dsimp only
    rw [h.leadEq]
    split
    · rename_i hlead
      rw [hat, hlead, List.append_nil]
    · rename_i hlead
      exact h.leadStart hlead
  · split
    · rename_i hlead
      exact hblank hlead hobjects
    · exact h.first hobjects

end

theorem Clean.noteRecoded (h : s.Clean fin lead obj objects) (li : LineInfo) :
    (s.noteRecoded li).Clean fin lead obj objects := by
  obtain ⟨n, at_, heq⟩ := s.noteRecoded_eq li
  rw [heq]
  exact { h with inside := fun hin => { h.inside hin with } }

theorem Clean.pendingNone (h : s.Clean fin lead obj objects) (hout : s.inObj = false)
    (hp : s.pending = none) : objects = [] :=
  by_contra fun hne => (h.outside hout).2 hne hp

theorem Clean.leadEnds (h : s.Clean fin lead obj objects)
    (hends : AtLineStart (fin ++ lead ++ obj)) : AtLineStart lead := by
  cases hin : s.inObj with
  | true => exact (h.inside hin).leadEnds
  | false =>
    rw [(h.outside hin).1, List.append_nil] at hends
    exact atLineStart_right hends

/-! ## One line -/

section
variable {line rest done : Bytes} {err : Option ReadErr} {li : LineInfo} {lines : List Bytes}
  {limit maxLines : Int}

theorem Clean.line_blank (h : s.Clean fin lead obj objects) (hstart : objects ≠ [] → lead ≠ [])
    (hdone : fin ++ lead ++ obj = done) (hends : AtLineStart done)
    (hroom : s.Room limit maxLines (line :: lines)) (hline : IsLine line err rest) (hne : line ≠ [])
    (hblank : isBlankLine (text line) = true) :
    (s.endObject.addLead line (posOf done)).1.Holds (done ++ line) ∧
      (s.endObject.addLead line (posOf done)).1.Room limit maxLines lines := by
  obtain ⟨rfl, rfl, -⟩ := id hroom
  have hattr : startsAttribute (text line) = false := by
    cases ha : startsAttribute (text line) with
    | false => rfl
    | true => exact absurd hblank (by simp [startsAttribute_not_blank ha])
  subst hdone
  cases hin : s.inObj with
  | true =>
    have hend := h.endObject hstart hends hin
    obtain ⟨r, hr⟩ := endObject_taken h.dropping hin
    obtain ⟨hout, hcur, hlimit, hlines⟩ : s.endObject.inObj = false ∧ s.endObject.Counts [] ∧
        s.endObject.limit = s.limit ∧ s.endObject.maxLines = s.maxLines := by
      rw [hr]
      exact ⟨rfl, ⟨rfl, rfl⟩, rfl, rfl⟩
    have hruns := hroom.ended hin hblank
    rw [← hlimit, ← hlines] at hruns ⊢
    obtain ⟨-, hc, hroom'⟩ := hend.addLead hout hcur hruns hline hne (by rw [List.append_nil])
      (.inl rfl) hattr fun _ _ => hblank
    exact ⟨⟨_, _, _, _, hc, fun _ => by simpa using hne, by simp⟩, hroom'⟩
  | false =>
    have hsame : s.endObject = s := by simp [Streamer.endObject, h.dropping, hin]
    obtain ⟨rfl, -⟩ := h.outside hin
    rw [List.append_nil] at hends ⊢
    rw [hsame]
    obtain ⟨cur, hcur, hruns⟩ := hroom.trivia hin hattr
    obtain ⟨-, hc, hroom'⟩ := h.addLead hin hcur hruns hline hne rfl (atLineStart_right hends) hattr
      fun _ _ => hblank
    exact ⟨⟨_, _, _, _, hc, fun _ => by simp [hne], by simp⟩, hroom'⟩

theorem Clean.line_inside (h : s.Clean fin lead obj objects) (hstart : objects ≠ [] → lead ≠ [])
    (hdone : fin ++ lead ++ obj = done) (hends : AtLineStart done) (hline : IsLine line err rest)
    (hne : line ≠ []) (hblank : isBlankLine (text line) = false) (hin : s.inObj = true) :
    { s with obj := s.obj ++ line, objLines := s.objLines + 1 }.Holds (done ++ line) := by
  have hobj := h.inside hin
  subst hdone
  have hobjEnds := atLineStart_right hends
  refine ⟨fin, lead, obj ++ line, objects, { h with
    inside := fun _ =>
      { objEq := by rw [hobj.objEq]
        objStart := hobj.objStart
        leadEnds := hobj.leadEnds
        opens := ?_
        body := (forall_scanLines_line hobjEnds hline hne (isBlankLine · = false)).2
          ⟨hobj.body, hblank⟩ }
    outside := fun hout => absurd hin (by simp [show s.inObj = false from hout]) },
    hstart, by simp⟩
  obtain ⟨pl, hpl, hattr⟩ := hobj.opens
  refine ⟨pl, ?_, hattr⟩
  rw [scanLines_append hobjEnds, List.head?_append, hpl]
  rfl

theorem Clean.line_opens (h : s.Clean fin lead obj objects) (hstart : objects ≠ [] → lead ≠ [])
    (hdone : fin ++ lead ++ obj = done) (hends : AtLineStart done) (hline : IsLine line err rest)
    (hne : line ≠ []) (hattr : startsAttribute (text line) = true) (hout : s.inObj = false) :
    { s.emitPending with
      inObj := true, objStart := posOf done, objLines := 1, obj := line }.Holds (done ++ line) := by
  obtain ⟨rfl, -⟩ := h.outside hout
  rw [List.append_nil] at hdone
  subst hdone
  have hchunks : s.emitPending.chunks = s.chunks := by
    rw [emitPending_eq]
    exact List.append_nil _
  obtain ⟨pl, hpl, htext⟩ := hline.scanLines hne
  rw [← htext] at hattr
  rw [emitPending_eq] at hchunks ⊢
  refine ⟨fin, lead, line, objects, { h with
    chunks := (congrArg (List.map Chunk.tokens) hchunks).trans h.chunks
    nonempty := fun c hc => h.nonempty c (hchunks ▸ hc)
    inside := fun _ =>
      { objEq := rfl
        objStart := rfl
        leadEnds := atLineStart_right hends
        opens := ⟨pl, by rw [hpl]; rfl, hattr⟩
        body := by
          rw [hpl]
          simpa using startsAttribute_not_blank hattr }
    outside := nofun }, hstart, rfl⟩

theorem Holds.noteRecoded (h : s.Holds done) (li : LineInfo) : (s.noteRecoded li).Holds done := by
  obtain ⟨fin, lead, obj, objects, hclean, h⟩ := h
  exact ⟨fin, lead, obj, objects, hclean.noteRecoded li, h⟩

/-- **A line within the caps is held.** -/
theorem Holds.step (h : s.Holds done) (hends : AtLineStart done)
    (hroom : s.Room limit maxLines (line :: lines)) (hat : li.at_ = posOf done)
    (hline : IsLine line err rest) (hne : line ≠ [])
    (htext : li.tooLong = false ∧ li.text = line ∧ li.blank = false) :
    (s.line li).Holds (done ++ line) ∧ (s.line li).Room limit maxLines lines := by
  obtain ⟨fin, lead, obj, objects, h, hstart, hdone⟩ := h
  obtain ⟨hlong, htext, hli⟩ := htext
  unfold Streamer.line
  simp only [hlong, hli, htext, hat, Bool.not_false, Bool.true_and, Bool.false_or,
    Bool.false_and, Bool.false_eq_true, if_false]
  split
  · exact h.line_blank hstart hdone hends hroom hline hne ‹_›
  rename_i hblank
  rw [Bool.not_eq_true] at hblank
  rw [if_neg (by simp [h.dropping])]
  split
  · rename_i hin
    obtain ⟨hbytes, hlines, hroom'⟩ := hroom.inside hin hblank
    rw [hbytes, hlines, Bool.or_self, if_neg Bool.false_ne_true]
    exact ⟨(h.line_inside hstart hdone hends hline hne hblank hin).noteRecoded li,
      hroom'.noteRecoded li⟩
  rename_i hout
  rw [Bool.not_eq_true] at hout
  split
  · rename_i hattr
    exact ⟨(h.line_opens hstart hdone hends hline hne hattr hout).noteRecoded li,
      (hroom.opens hout hattr _).noteRecoded li⟩
  rename_i hattr
  rw [Bool.not_eq_true] at hattr
  obtain ⟨hobj, -⟩ := h.outside hout
  have hdone' : fin ++ lead = done := by rwa [hobj, List.append_nil] at hdone
  obtain ⟨cur, hcur, hruns⟩ := hroom.trivia hout hattr
  obtain ⟨rfl, rfl, -⟩ := hroom
  -- trivia never follows a chunk without a blank line between
  obtain ⟨hk, hc, hroom'⟩ := h.addLead hout hcur hruns hline hne (by rw [hdone'])
    (h.leadEnds (hdone ▸ hends)) hattr fun hlead hobjects => absurd hlead (hstart hobjects)
  rcases heq : s.addLead line (posOf done) with ⟨s₁, kept⟩
  rw [heq] at hk hc hroom'
  obtain rfl : kept = true := hk
  refine ⟨Holds.noteRecoded ?_ li, hroom'.noteRecoded li⟩
  exact ⟨fin, lead ++ line, obj, objects, hc, fun _ => by simp [hne], by
    rw [hobj, List.append_nil, ← List.append_assoc, hdone']⟩

end

/-! ## The end -/

structure Batch (src : Bytes) (out : List Chunk) : Prop where
  nonempty : ∀ c ∈ out, c.empty = false
  tokens : (out.map Chunk.tokens).flatten = tokenize src
  separated : Separated (out.map Chunk.tokens)

theorem Clean.finish_inside (h : s.Clean fin lead obj objects) (hstart : objects ≠ [] → lead ≠ [])
    (hin : s.inObj = true) (at_ : Pos) : Batch (fin ++ lead ++ obj) (s.finish at_ none).out := by
  have hobj := h.inside hin
  obtain ⟨r, hr⟩ := s.takeCurrent_eq
  have hout : (s.finish at_ none).out = s.chunks ++
      [{ parts := s.takeParts.2, diags := s.takeCarry.2 ++ [], recoded := r }] := by
    unfold Streamer.finish
    rw [if_pos hin, hr]
    simp only [emitPending_eq]
    rfl
  have htokens : (s.finish at_ none).out.map Chunk.tokens =
      objects ++ [tokensAt (posOf fin) (lead ++ obj)] := by
    rw [hout, List.map_append, h.chunks]
    congr 1
    exact congrArg (fun ts => [ts]) (h.takeParts hin)
  refine ⟨?_, ?_, ?_⟩
  · rw [hout]
    exact List.forall_mem_append.2 ⟨h.nonempty, by simp⟩
  · rw [htokens, List.append_assoc, h.tokens_append hstart (.inl hobj.leadEnds)]
    simp
  · rw [htokens]
    exact (h.closed.snoc (h.isObject hin) fun hne =>
      h.head_blank (hstart hne) (.inl hobj.leadEnds) hne).separated_snoc

theorem Clean.takeLead (h : s.Clean fin lead obj objects) :
    (s.takeLead.2.flatMap fun p => tokensAt p.at_ p.text) = tokensAt (posOf fin) lead := by
  simp only [Streamer.takeLead, h.leadEq, h.leadParts]
  by_cases hlead : lead = []
  · simp [hlead, tokensAt_nil]
  · simp [hlead, h.leadStart hlead]

theorem Clean.finish_pending (h : s.Clean fin lead obj objects) (hstart : objects ≠ [] → lead ≠ [])
    (hout : s.inObj = false) {p : Chunk} (hp : s.pending = some p) (at_ : Pos) :
    Batch (fin ++ lead) (s.finish at_ none).out := by
  obtain ⟨r, hr⟩ := takeRecoded_eq s.takeLead.1.takeCarry.1
    { p with parts := p.parts ++ s.takeLead.2, diags := p.diags ++ s.takeLead.1.takeCarry.2 }
  have houts : (s.finish at_ none).out = s.out ++ [{ p with
      parts := p.parts ++ s.takeLead.2
      diags := p.diags ++ s.takeLead.1.takeCarry.2
      recoded := r }] := by
    simp only [Streamer.finish, hout, Option.isSome_none, Bool.false_eq_true, if_false,
      finishTrivia, h.dropping, hp]
    rw [hr, emitPending_eq]
    rfl
  have hchunks := h.chunks
  rw [Streamer.chunks, hp, Option.toList_some, List.map_append, List.map_singleton] at hchunks
  have htokens : (s.finish at_ none).out.map Chunk.tokens =
      s.out.map Chunk.tokens ++ [p.tokens ++ tokensAt (posOf fin) lead] := by
    rw [houts, List.map_append, List.map_singleton]
    congr 2
    rw [Chunk.tokens, List.flatMap_append]
    congr 1
    exact h.takeLead
  have hne : ∀ c ∈ s.out ++ [p], c.empty = false := by
    have := h.nonempty
    rwa [Streamer.chunks, hp] at this
  refine ⟨?_, ?_, ?_⟩
  · rw [houts]
    exact List.forall_mem_append.2 ⟨fun c hc => hne c (by simp [hc]), by
      simpa using hne p (by simp)⟩
  · have htok := h.tokens_append (b := []) hstart (.inr rfl)
    rw [List.append_nil] at htok
    rw [htokens, htok, ← hchunks]
    simp
  · rw [htokens]
    exact (hchunks ▸ h.closed).separated (tokenizeAt_trivia _ _ h.trivia)

theorem Clean.finish_trivia (h : s.Clean fin lead obj objects) (hout : s.inObj = false)
    (hp : s.pending = none) (at_ : Pos) : Batch lead (s.finish at_ none).out := by
  have hobjects := h.pendingNone hout hp
  have hchunks := h.chunks
  rw [hobjects, List.map_eq_nil_iff, Streamer.chunks, hp, Option.toList_none, List.append_nil]
    at hchunks
  have hfin := h.noChunks hobjects
  by_cases hlead : lead = []
  · have houts : (s.finish at_ none).out = [] := by
      simp [Streamer.finish, hout, finishTrivia, h.dropping, hp, h.leadEq, hlead, h.leadParts,
        h.carry, hchunks]
    rw [houts, hlead]
    exact ⟨by simp, (tokensAt_nil ⟨1, 0⟩).symm, by simp, by simp, by simp, by simp⟩
  · obtain ⟨r, hr⟩ := takeRecoded_eq s.takeLead.1.takeCarry.1
      { parts := s.takeLead.2, diags := s.takeLead.1.takeCarry.2 }
    have houts : (s.finish at_ none).out =
        [{ parts := s.takeLead.2, diags := s.takeLead.1.takeCarry.2, recoded := r }] := by
      simp only [Streamer.finish, hout, Option.isSome_none, Bool.false_eq_true, if_false,
        finishTrivia, h.dropping, hp]
      rw [if_pos (.inl (by rw [h.leadEq]; exact hlead)), hr]
      exact congrArg (· ++ _) hchunks
    have htokens : (s.finish at_ none).out.map Chunk.tokens = [tokenize lead] := by
      rw [houts]
      have := h.takeLead
      rw [hfin] at this
      exact congrArg (fun ts => [ts]) this
    have hno : NoAttribute (tokenize lead) := tokenizeAt_trivia _ _ h.trivia
    refine ⟨by rw [houts]; simp, by rw [htokens]; simp, ?_⟩
    rw [htokens]
    refine ⟨?_, by simp, ?_, by simp⟩
    · simpa using tokenize_ne_nil hlead
    · intro o ho before t after heq _
      rw [List.mem_singleton.1 ho] at heq
      exact .inl fun a ha => hno a (by rw [heq]; simp [ha])

theorem Holds.finish {done : Bytes} (h : s.Holds done) (at_ : Pos) :
    Batch done (s.finish at_ none).out := by
  obtain ⟨fin, lead, obj, objects, h, hstart, rfl⟩ := h
  cases hin : s.inObj with
  | true => exact h.finish_inside hstart hin at_
  | false =>
    rw [(h.outside hin).1, List.append_nil]
    rcases hp : s.pending with _ | p
    · rw [h.noChunks (h.pendingNone hin hp), List.nil_append]
      exact h.finish_trivia hin hp at_
    · exact h.finish_pending hstart hin hp at_

end

end Streamer

/-! ## Runs -/

section
variable {src done line : Bytes} {r r' : LineReader (Delivery UInt8)} {s : Streamer} {li : LineInfo}
  {err : Option ReadErr} {maxLines : Int}

theorem turn_holds (hn : Next r line li err r') (hpos : r.pos = posOf done)
    (hends : AtLineStart done) (hs : s.Holds done)
    (hroom : s.Room r.limit maxLines (linesOf r.buf.content)) :
    (if li.text ≠ [] ∨ li.tooLong then s.line li else s).Holds (done ++ line) ∧
      (if li.text ≠ [] ∨ li.tooLong then s.line li else s).Room r'.limit maxLines
        (linesOf r'.buf.content) := by
  have heof : ∀ e, err = some e → e = .eof := fun e he => (hn.stopped e he).resolve_right id
  rw [hn.limit]
  by_cases hne : line = []
  · obtain ⟨hlong, htext, -⟩ := hn.text fun h0 => by simpa [hne] using h0
    rw [if_neg (by simp [hlong, htext, hne]), hne, List.append_nil]
    rw [← hn.content, hne, List.nil_append] at hroom
    exact ⟨hs, hroom⟩
  · rw [← hn.content, hn.isLine.linesOf hne heof] at hroom
    have htext := hn.text hroom.within
    rw [if_pos (.inl (by rwa [htext.2.1]))]
    exact hs.step hends hroom (hn.at_.trans hpos) hn.isLine hne htext

/-- **A run makes chunks of the tokens of the text**, where what is to come is within the caps. -/
theorem run_batch (left : Nat) (hinv : r.buf.Inv) (hplain : r.cp1252 = false)
    (hsrc : done ++ r.buf.content = src) (hpos : r.pos = posOf done) (hends : AtLineStart done)
    (hleft : r.buf.content.length ≤ left) (hs : s.Holds done)
    (hroom : s.Room r.limit maxLines (linesOf r.buf.content)) :
    Streamer.Batch src (run left r s).out := by
  induction left using Nat.strong_induction_on generalizing done r s with
  | _ left ih =>
    obtain ⟨line, hn⟩ := next_line hinv hplain
    unfold run
    rcases hnext : r.next with ⟨li, err, r'⟩
    rw [hnext] at hn
    dsimp only at hn ⊢
    obtain ⟨hs', hroom'⟩ := turn_holds hn hpos hends hs hroom
    have hsrc' : (done ++ line) ++ r'.buf.content = src := by
      rw [List.append_assoc, hn.content, hsrc]
    cases err with
    | some e =>
      obtain rfl : e = .eof := (hn.stopped e rfl).resolve_right id
      rw [hn.isLine.eof rfl, List.append_nil] at hsrc'
      exact hsrc' ▸ hs'.finish _
    | none =>
      obtain ⟨upTo, rfl, -⟩ := hn.isLine.ended rfl
      have hlen := congrArg List.length hn.content
      simp only [List.length_append, List.length_singleton] at hlen
      obtain ⟨left, rfl⟩ : ∃ k, left = k + 1 := ⟨left - 1, by omega⟩
      refine ih left (Nat.lt_succ_self _) hn.inv hn.plain hsrc' ?_ ?_ (by omega) hs' hroom'
      · rw [hn.pos, hpos, posOf_append]
      · exact atLineStart_append hends (.snoc upTo)

end

theorem holds_start (limit maxLines : Int) :
    Streamer.Holds { limit, maxLines } [] := by
  refine ⟨[], [], [], [], ?_, nofun, rfl⟩
  exact
    { dropping := rfl, leadOver := rfl, leadParts := rfl, carry := rfl
      chunks := rfl, nonempty := nofun, tokens := (tokensAt_nil ⟨1, 0⟩).symm
      closed := ⟨nofun, nofun⟩, noChunks := fun _ => rfl, finEnds := .inl rfl, leadEq := rfl
      leadStart := fun h => absurd rfl h, trivia := by simp [scanLines, scanLinesFrom_nil]
      first := fun h => absurd rfl h, inside := nofun, outside := fun _ => ⟨rfl, nofun⟩ }

/-- **Streaming equals batch.** However the input is delivered, when it is within the caps and
nothing is recoded, the objects yielded are made of the tokens of the whole input, in order, each in
one object, cut at blank lines. -/
theorem parseWith_tokens (quote : Bytes → Text) (input : Delivery UInt8) (opts : ParseOptions)
    (hplain : opts.nonUTF8AsWindows1252 = false) (hcaps : WithinCaps opts input.elems) :
    ∃ objects : List (List Token),
      (parseWith quote input opts).map Prod.fst = objects.map Ast.Object.new ∧
        objects.flatten = tokenize input.elems ∧ Separated objects := by
  have hbatch : Streamer.Batch input.elems (run (Source.elems input).length (opts.reader input)
      { limit := opts.bytes, maxLines := opts.lines }).out :=
    run_batch _ (Reader.inv_new _ _) hplain rfl rfl (.inl rfl) le_rfl (holds_start _ _)
      ⟨rfl, rfl, [], ⟨rfl, rfl⟩, hcaps⟩
  unfold parseWith
  dsimp only
  generalize (run _ (opts.reader input) _).out = out at hbatch ⊢
  refine ⟨out.map Chunk.tokens, ?_, hbatch.tokens, hbatch.separated⟩
  rw [List.map_map, List.map_map]
  refine List.map_congr_left fun c hc => ?_
  simp [Chunk.yielded, hbatch.nonempty c hc]

theorem one_lt_hundred : 1 < 100 := by decide

/-- Two objects and a comment between, read byte by byte after an empty read each. -/
def twoObjects : Delivery UInt8 where
  chunks := "as-set: AS-A\n\n# next\nroute: r\n".toUTF8.toList.map (⟨⟨1, one_lt_hundred⟩, ·, []⟩)
  idle := ⟨1, one_lt_hundred⟩
  eager := false

theorem parseWith_tokens_twoObjects :
    ∃ objects : List (List Token), (parseWith (fun _ => []) twoObjects {}).map Prod.fst =
        objects.map Ast.Object.new ∧ objects.flatten = tokenize twoObjects.elems ∧
        Separated objects :=
  parseWith_tokens _ _ _ rfl (by decide +kernel)

end Rpsl.Stream
