import Rpsl.Ast.Proof.NewAttr
import Rpsl.Lib.Outcome

/-!
# Edits mean what they say

An object's text is groups of lines: the trivia before each attribute, the attribute's own lines,
and the trivia after the last (`Reads`). As long as the groups are regular, re-parsing the text
gives the object's attributes (`Inv.reparse`). Parsing gives such an object (`inv_new`) and every
edit keeps it one (`inv_edit`):

* an attribute is only ever put after an attribute, or after the trivia of an object that has none,
  so no stray line becomes a continuation (`reads_append`);
* a removed attribute leaves its trivia to the next one, behind the same attribute as before
  (`reads_setLoop`).
-/

namespace Rpsl.Ast

open Lexer Lib

/-! ## Objects as groups of lines -/

def groupsBytes (gs : List Group) : Bytes := linesBytes (gs.flatMap Prod.snd)

theorem groupsBytes_append (gs gs' : List Group) :
    groupsBytes (gs ++ gs') = groupsBytes gs ++ groupsBytes gs' := by
  unfold groupsBytes
  rw [List.flatMap_append, linesBytes_append]

theorem groupsBytes_cons (g : Group) (gs : List Group) :
    groupsBytes (g :: gs) = linesBytes g.2 ++ groupsBytes gs := by
  unfold groupsBytes
  rw [List.flatMap_cons, linesBytes_append]

def Trivia (ts : List Group) : Prop := ∀ g ∈ ts, g.1 ≠ .attribute

def FreshHead (gs : List Group) : Prop := ∀ g, gs.head? = some g → Group.Fresh g

structure AttrLines (a : Attribute) (ls : List PhysLine) : Prop where
  shape : shape (.attribute, ls) = ⟨.attribute, a.name, a.value, a.raw⟩
  pre : ValidName a.name → NamePrefix a.name a.namePrefix

inductive Reads : List Attribute → Bytes → List Group → Prop
  | trail {ts : List Group} : Trivia ts → Reads [] (groupsBytes ts) ts
  | attr {a : Attribute} {as : List Attribute} {trail : Bytes} {ts gs : List Group}
      {ls : List PhysLine} : Trivia ts → a.lead = groupsBytes ts → AttrLines a ls →
      Reads as trail gs → Reads (a :: as) trail (ts ++ (.attribute, ls) :: gs)

def Inv (o : Object) : Prop :=
  ∃ gs, Reads o.attrs o.trail gs ∧ Regular gs ∧ LinesOk (gs.flatMap Prod.snd)

variable {ls : List PhysLine}

theorem AttrLines.raw {a : Attribute} (h : AttrLines a ls) :
    linesBytes ls = a.raw := by
  have := congrArg Shape.raw h.shape
  cases ls with
  | nil => exact this
  | cons l ls => exact this

variable {as : List Attribute} {trail : Bytes} {gs : List Group}

theorem Reads.string
    (h : Reads as trail gs) :
    (as.flatMap fun a => a.lead ++ a.raw) ++ trail = groupsBytes gs := by
  induction h with
  | trail => rfl
  | attr _ hlead hls _ ih =>
    rw [List.flatMap_cons, List.append_assoc, ih, hlead, groupsBytes_append, groupsBytes_cons,
      hls.raw, List.append_assoc]

/-! ## Regular groups -/

variable {ts : List Group}

theorem regular_trivia (ht : Trivia ts) :
    Regular (ts ++ gs) ↔ (∀ g ∈ ts, Group.Ok g) ∧ Regular gs := by
  constructor
  · rintro ⟨hok, hfresh⟩
    rw [List.isChain_append] at hfresh
    exact ⟨fun g hg => hok g (List.mem_append_left _ hg),
      fun g hg => hok g (List.mem_append_right _ hg), hfresh.2.1⟩
  · rintro ⟨hts, hok, hfresh⟩
    refine ⟨fun g hg => ?_, List.isChain_append.2 ⟨?_, hfresh, fun g hg _ _ ha => ?_⟩⟩
    · rcases List.mem_append.1 hg with hg | hg
      · exact hts g hg
      · exact hok g hg
    · have hpw : ts.Pairwise fun g g' => g.1 = .attribute → Group.Fresh g' :=
        List.pairwise_of_forall_mem_list fun g hg _ _ ha => absurd ha (ht g hg)
      exact hpw.isChain
    · exact absurd ha (ht g (List.mem_of_getLast? hg))

theorem regular_attr :
    Regular ((.attribute, ls) :: gs) ↔ Group.Ok (.attribute, ls) ∧ FreshHead gs ∧ Regular gs := by
  constructor
  · rintro ⟨hok, hfresh⟩
    refine ⟨hok _ List.mem_cons_self, fun g hg => ?_,
      fun g hg => hok g (List.mem_cons_of_mem _ hg), hfresh.tail⟩
    obtain ⟨gs', rfl⟩ := List.head?_eq_some_iff.1 hg
    exact (List.isChain_cons_cons.1 hfresh).1 rfl
  · rintro ⟨hok, hhead, hgs, hfresh⟩
    refine ⟨fun g hg => ?_, ?_⟩
    · rcases List.mem_cons.1 hg with rfl | hg
      · exact hok
      · exact hgs g hg
    · cases gs with
      | nil => exact .singleton _
      | cons g gs => exact .cons_cons (fun _ => hhead g rfl) hfresh

theorem freshHead_attr (h : Group.Ok (.attribute, ls)) :
    FreshHead ((.attribute, ls) :: gs) := by
  intro g hg
  obtain rfl := Option.some.inj hg
  exact Group.fresh_attribute h

variable {gs' : List Group}

theorem freshHead_append (h : FreshHead gs) (h' : gs = [] → FreshHead gs') :
    FreshHead (gs ++ gs') := by
  cases gs with
  | nil => exact h' rfl
  | cons g gs => exact h

theorem FreshHead.left (h : FreshHead (gs ++ gs')) : FreshHead gs := by
  cases gs with
  | nil => intro g hg; cases hg
  | cons g gs => exact h

theorem lines_ne_nil (h : ∀ g ∈ gs, Group.Ok g) (hne : gs ≠ []) :
    gs.flatMap Prod.snd ≠ [] := by
  obtain ⟨g, gs', rfl⟩ := List.exists_cons_of_ne_nil hne
  obtain ⟨k, ls⟩ := g
  have hok := h (k, ls) List.mem_cons_self
  cases ls with
  | nil => rcases k with _ | _ | _ | _ <;> exact hok.elim
  | cons l ls => simp

def AllFull (gs : List Group) : Prop := ∀ g ∈ gs, ∀ pl ∈ g.2, pl.Full

theorem allFull_iff :
    AllFull gs ↔ ∀ pl ∈ gs.flatMap Prod.snd, pl.Full := by
  simp only [AllFull, List.mem_flatMap]
  exact ⟨fun h pl ⟨g, hg, hpl⟩ => h g hg pl hpl, fun h g hg pl hpl => h pl ⟨g, hg, hpl⟩⟩

theorem linesOk_split (hok : ∀ g ∈ gs', Group.Ok g) (hne : gs' ≠ [])
    (h : LinesOk ((gs ++ gs').flatMap Prod.snd)) :
    AllFull gs ∧ LinesOk (gs'.flatMap Prod.snd) := by
  rw [List.flatMap_append, linesOk_append (lines_ne_nil hok hne)] at h
  exact ⟨allFull_iff.2 h.1, h.2⟩

theorem linesOk_join (hgs : AllFull gs)
    (h : LinesOk (gs'.flatMap Prod.snd)) : LinesOk ((gs ++ gs').flatMap Prod.snd) := by
  rw [List.flatMap_append]
  by_cases hne : gs'.flatMap Prod.snd = []
  · rw [hne, List.append_nil]
    exact linesOk_of_full (allFull_iff.1 hgs)
  · exact (linesOk_append hne).2 ⟨allFull_iff.1 hgs, h⟩

theorem linesOk_cons {g : Group} (hg : AllFull [g])
    (h : LinesOk (gs.flatMap Prod.snd)) : LinesOk ((g :: gs).flatMap Prod.snd) :=
  linesOk_join hg h

theorem linesOk_uncons {g : Group} (hok : ∀ g ∈ gs, Group.Ok g) (hne : gs ≠ [])
    (h : LinesOk ((g :: gs).flatMap Prod.snd)) : AllFull [g] ∧ LinesOk (gs.flatMap Prod.snd) :=
  linesOk_split hok hne h

theorem allFull_append : AllFull (gs ++ gs') ↔ AllFull gs ∧ AllFull gs' := by
  simp only [AllFull, List.mem_append, or_imp, forall_and]

/-! ## Ending a line -/

theorem terminate_append {b : Bytes} (hne : b ≠ []) (e a : Bytes) :
    terminate (a ++ b) e = a ++ terminate b e := by
  unfold terminate
  simp only [hne, List.append_eq_nil_iff, and_false, false_or,
    List.getLast?_append_of_ne_nil _ hne]
  split
  · rfl
  · split
    · rw [List.append_assoc]
    · rw [List.append_assoc]

theorem terminate_lines (h : LinesOk ls) {e : Bytes} (he : IsEol e) :
    ∃ ls', (∀ pl ∈ ls', pl.Full) ∧ linesBytes ls' = terminate (linesBytes ls) e ∧
      ls'.map PhysLine.text = ls.map PhysLine.text := by
  induction ls with
  | nil => exact ⟨[], by simp, by simp [linesBytes, terminate], rfl⟩
  | cons pl ls ih =>
    cases ls with
    | nil =>
      obtain ⟨hn, ht⟩ := h
      obtain ⟨text, term, s, n⟩ := pl
      simp only [linesBytes, PhysLine.bytes, List.map_cons, List.map_nil, List.flatten_cons,
        List.flatten_nil, List.append_nil] at *
      cases ht with
      | crlf =>
        exact ⟨[⟨text, [cr, nl], s, n⟩], by simp [PhysLine.Full, hn], by simp [terminate], rfl⟩
      | lf _ hc =>
        exact ⟨[⟨text, [nl], s, n⟩], by simp [PhysLine.Full, hn, hc], by simp [terminate], rfl⟩
      | cr =>
        exact ⟨[⟨text, [cr, nl], s, n⟩], by simp [PhysLine.Full, hn],
          by simp [terminate, show cr ≠ nl by decide], rfl⟩
      | none hc hne =>
        have hnl : text.getLast? ≠ some nl := fun hl => hn (List.mem_of_getLast? hl)
        refine ⟨[⟨text, e, s, n⟩], ?_, by simp [terminate, hc, hne, hnl], rfl⟩
        rcases he with rfl | rfl
        · simp [PhysLine.Full, hn, hc]
        · simp [PhysLine.Full, hn]
    | cons q ls =>
      obtain ⟨ls', hfull, hbytes, htext⟩ := ih h.2
      have hne : linesBytes (q :: ls) ≠ [] := by
        have hq : q.bytes ≠ [] := by
          cases ls with
          | nil => exact h.2.2.ne_nil
          | cons r ls => exact h.2.1.final.2.ne_nil
        rw [linesBytes_cons]
        exact fun hnil => hq (List.append_eq_nil_iff.1 hnil).1
      refine ⟨pl :: ls', ?_, ?_, by rw [List.map_cons, htext]; rfl⟩
      · intro p hp
        rcases List.mem_cons.1 hp with rfl | hp
        · exact h.1
        · exact hfull p hp
      · rw [linesBytes_cons, hbytes, linesBytes_cons pl, terminate_append hne]

theorem ok_of_texts {k : Kind} {ls' : List PhysLine}
    (h : ls'.map PhysLine.text = ls.map PhysLine.text) (hok : Group.Ok (k, ls)) :
    Group.Ok (k, ls') := by
  by_cases hk : k = .attribute
  · subst hk
    cases ls with
    | nil => exact hok.elim
    | cons l ls =>
      cases ls' with
      | nil => cases h
      | cons l' ls' =>
        obtain ⟨h1, h2⟩ := List.cons.inj h
        refine ⟨by rw [h1]; exact hok.1, fun q hq => ?_⟩
        have hq' : q.text ∈ ls.map PhysLine.text := h2 ▸ List.mem_map_of_mem hq
        obtain ⟨p, hp, hpq⟩ := List.mem_map.1 hq'
        rw [← hpq]
        exact hok.2 p hp
  · obtain ⟨l, rfl, hc⟩ := Group.Ok.line hok hk
    cases ls' with
    | nil => cases h
    | cons l' ls' =>
      obtain ⟨h1, h2⟩ := List.cons.inj h
      obtain rfl := List.map_eq_nil_iff.1 h2
      exact Group.ok_line hk (by rw [h1]; exact hc)

theorem values_of_texts {ls' : List PhysLine}
    (h : ls'.map PhysLine.text = ls.map PhysLine.text) :
    (shape (.attribute, ls')).name = (shape (.attribute, ls)).name ∧
      (shape (.attribute, ls')).value = (shape (.attribute, ls)).value := by
  cases ls with
  | nil =>
    obtain rfl := List.map_eq_nil_iff.1 h
    exact ⟨rfl, rfl⟩
  | cons l ls =>
    cases ls' with
    | nil => cases h
    | cons l' ls' =>
      obtain ⟨h1, h2⟩ := List.cons.inj h
      have hvals : lineValues l' ls' = lineValues l ls := by
        have hmap : ∀ ls : List PhysLine, (ls.map fun q => (contValue q.text false).1) =
            (ls.map PhysLine.text).map fun t => (contValue t false).1 := by
          intro ls
          rw [List.map_map]
          rfl
        unfold lineValues
        rw [h1, hmap, hmap, h2]
      exact ⟨by simp [shape, h1], by simp [shape, hvals]⟩

theorem terminate_trivia (ht : Trivia ts) (hok : ∀ g ∈ ts, Group.Ok g)
    (hl : LinesOk (ts.flatMap Prod.snd)) {e : Bytes} (he : IsEol e) :
    ∃ ts', Trivia ts' ∧ (∀ g ∈ ts', Group.Ok g) ∧ AllFull ts' ∧
      groupsBytes ts' = terminate (groupsBytes ts) e := by
  rcases List.eq_nil_or_concat' ts with rfl | ⟨ts, g, rfl⟩
  · exact ⟨[], by simp [Trivia], by simp, by simp [AllFull], by simp [groupsBytes, linesBytes,
      terminate]⟩
  · have hg : ∀ g' ∈ [g], Group.Ok g' := fun g' hg' => hok g' (List.mem_append_right _ hg')
    obtain ⟨hfull, hlast⟩ := linesOk_split hg (by simp) hl
    rw [show [g].flatMap Prod.snd = g.2 by simp] at hlast
    obtain ⟨ls', hfull', hbytes, htext⟩ := terminate_lines hlast he
    have hne : groupsBytes [g] ≠ [] := by
      obtain ⟨l, hls, -⟩ := Group.Ok.line (hg g (by simp)) (ht g (by simp))
      rw [hls] at hlast
      have hb : groupsBytes [g] = l.bytes := by simp [groupsBytes, hls, linesBytes]
      rw [hb]
      exact hlast.2.ne_nil
    refine ⟨ts ++ [(g.1, ls')], fun g' hg' => ?_, fun g' hg' => ?_,
      allFull_append.2 ⟨hfull, fun g' hg' => ?_⟩, ?_⟩
    · rcases List.mem_append.1 hg' with hg' | hg'
      · exact ht g' (List.mem_append_left _ hg')
      · rw [List.mem_singleton.1 hg']
        exact ht g (by simp)
    · rcases List.mem_append.1 hg' with hg' | hg'
      · exact hok g' (List.mem_append_left _ hg')
      · rw [List.mem_singleton.1 hg']
        exact ok_of_texts htext (hg g (by simp))
    · rw [List.mem_singleton.1 hg']
      exact hfull'
    · have hone : ∀ g : Group, groupsBytes [g] = linesBytes g.2 := by simp [groupsBytes]
      rw [groupsBytes_append, groupsBytes_append, hone, hone, hbytes]
      rw [hone] at hne
      exact (terminate_append hne e _).symm

/-! ## Parsing -/

/-- An attribute's name, value and bytes. -/
structure Core where
  name : Bytes
  value : Bytes
  raw : Bytes
deriving DecidableEq

def Attribute.core (a : Attribute) : Core := ⟨a.name, a.value, a.raw⟩

def shapeCore (s : Shape) : Core := ⟨s.name, s.value, s.raw⟩

theorem newLoop_core (run toks : List Token) :
    (newLoop run toks).attrs.map Attribute.core =
      ((toks.map Token.shape).filter fun s => s.kind = .attribute).map shapeCore := by
  induction toks generalizing run with
  | nil => rfl
  | cons t ts ih =>
    unfold newLoop
    by_cases hk : t.kind = .attribute
    · simp only [if_pos hk, List.map_cons, ih]
      rw [List.filter_cons_of_pos (by simp [Token.shape, hk])]
      rfl
    · simp only [if_neg hk, List.map_cons, ih]
      rw [List.filter_cons_of_neg (by simp [Token.shape, hk])]

theorem trivia_filter (h : Trivia ts) :
    (ts.map shape).filter (fun s => s.kind = .attribute) = [] := by
  rw [List.filter_eq_nil_iff]
  intro s hs
  obtain ⟨g, hg, rfl⟩ := List.mem_map.1 hs
  have hk : (shape g).kind = g.1 := by
    obtain ⟨k, ls⟩ := g
    rcases k with _ | _ | _ | _
    · cases ls <;> rfl
    all_goals rfl
  rw [hk]
  simpa using h g hg

theorem Reads.core
    (h : Reads as trail gs) : as.map Attribute.core =
      ((gs.map shape).filter fun s => s.kind = .attribute).map shapeCore := by
  induction h with
  | trail ht => rw [trivia_filter ht]; rfl
  | attr ht _ hls _ ih =>
    rw [List.map_append, List.filter_append, trivia_filter ht, List.nil_append]
    simp only [List.map_cons, hls.shape, ih]
    rw [List.filter_cons_of_pos rfl]
    rfl

variable {o : Object}

/-- **Re-parsing an object's text gives its attributes.** -/
theorem Inv.reparse (h : Inv o) :
    (Object.new (tokenize o.string)).attrs.map Attribute.core = o.attrs.map Attribute.core := by
  obtain ⟨gs, hreads, hreg, hlines⟩ := h
  have htext : o.string = groupsBytes gs := hreads.string
  rw [Object.new, newLoop_core, htext, groupsBytes, hreg.tokens hlines, hreads.core]

theorem foldl_extend_head (lineBase byteOffset : Int) (pls : List PhysLine) (c : Cur)
    (hc : c.segments ≠ []) :
    (pls.foldl (Cur.extend lineBase byteOffset) c).segments.head? = c.segments.head? := by
  induction pls generalizing c with
  | nil => rfl
  | cons pl pls ih =>
    rw [List.foldl_cons, ih _ (by simp [Cur.extend])]
    simp only [Cur.extend]
    rw [List.head?_append_of_ne_nil _ hc]

theorem token_kind (lineBase byteOffset : Int) (g : Group) :
    (token lineBase byteOffset g).kind = g.1 := by
  obtain ⟨k, ls⟩ := g
  rcases k with _ | _ | _ | _
  all_goals cases ls <;> rfl

theorem joinRaw_token (lineBase byteOffset : Int)
    (hok : ∀ g ∈ ts, Group.Ok g) :
    joinRaw (ts.map (token lineBase byteOffset)) = groupsBytes ts := by
  unfold joinRaw groupsBytes
  rw [List.map_map]
  induction ts with
  | nil => rfl
  | cons g ts ih =>
    have hg := token_shape lineBase byteOffset (hok g List.mem_cons_self)
    have hraw : (token lineBase byteOffset g).raw = linesBytes g.2 := by
      have := congrArg Shape.raw hg
      rw [show (token lineBase byteOffset g).raw = (shape g).raw from this]
      obtain ⟨k, ls⟩ := g
      rcases k with _ | _ | _ | _
      · cases ls <;> rfl
      all_goals rfl
    rw [List.map_cons, List.flatten_cons, ih fun g hg => hok g (List.mem_cons_of_mem _ hg),
      List.flatMap_cons, linesBytes_append, ← hraw]
    rfl

theorem reads_newLoop (lineBase byteOffset : Int) (ht : Trivia ts)
    (hok : ∀ g ∈ ts ++ gs, Group.Ok g) :
    Reads (newLoop (ts.map (token lineBase byteOffset)) (gs.map (token lineBase byteOffset))).attrs
      (newLoop (ts.map (token lineBase byteOffset)) (gs.map (token lineBase byteOffset))).trail
      (ts ++ gs) := by
  induction gs generalizing ts with
  | nil =>
    rw [List.append_nil] at hok ⊢
    have hj := joinRaw_token lineBase byteOffset hok
    simp only [List.map_nil, newLoop, hj]
    exact .trail ht
  | cons g gs ih =>
    have hg := hok g (by simp)
    rw [List.map_cons]
    unfold newLoop
    by_cases hk : g.1 = .attribute
    · obtain ⟨k, ls⟩ := g
      obtain rfl : k = .attribute := hk
      rw [if_pos (token_kind ..)]
      cases ls with
      | nil => exact hg.elim
      | cons l ls =>
        have hrest := ih (show Trivia [] by simp [Trivia])
          fun g' hg' => hok g' (by simp at hg' ⊢; exact .inr (.inr hg'))
        rw [List.nil_append] at hrest
        have hshape := token_shape lineBase byteOffset hg
        refine .attr ht (joinRaw_token lineBase byteOffset fun g' hg' =>
          hok g' (List.mem_append_left _ hg')) ⟨?_, fun hv => ?_⟩ hrest
        · rw [← hshape]
          rfl
        · refine namePrefix_of_line hg.1 rfl ?_ ?_ hv
          · exact congrArg Shape.name hshape
          · simp only [token, Cur.token]
            rw [foldl_extend_head _ _ _ _ (by simp [Cur.open])]
            rfl
    · rw [if_neg (by rw [token_kind]; exact hk)]
      have hts : Trivia (ts ++ [g]) := by
        intro g' hg'
        rcases List.mem_append.1 hg' with hg' | hg'
        · exact ht g' hg'
        · rw [List.mem_singleton.1 hg']
          exact hk
      have := ih hts (by simpa using hok)
      simpa using this

theorem inv_new (src : Bytes) (line byteOffset : Int) :
    Inv (Object.new (tokenizeAt src line byteOffset)) := by
  have hreg := groups_regular (scanLines src)
  refine ⟨groups (scanLines src) [], ?_, hreg, ?_⟩
  · rw [Object.new, tokenizeAt_eq_groups]
    have := reads_newLoop (line - 1) byteOffset
      (show Trivia [] by simp [Trivia]) (by simpa using hreg.ok)
    simpa using this
  · rw [groups_lines]
    exact linesOk_scanLines src

/-! ## Appending -/

structure NewReads (a : Attribute) (ls : List PhysLine) : Prop where
  ok : Group.Ok (.attribute, ls)
  full : ∀ pl ∈ ls, pl.Full
  lines : AttrLines a ls

variable {value : Bytes}

theorem newReads {name pre term : Bytes} (hv : value.any isBadByte = false)
    (hname : ValidName name) (hcanon : canonicalName name = name) (hp : NamePrefix name pre)
    (ht : IsEol term) (lead : Bytes) :
    NewReads { newAttr name value pre term with lead := lead } (newLines value pre term) := by
  obtain ⟨hok, hfull, hshape, -⟩ := newAttr_reads hv hp ht
  refine ⟨hok, hfull, hshape, fun _ => ?_⟩
  have : ({ newAttr name value pre term with lead := lead } : Attribute).namePrefix =
      name ++ [colon, space] := by
    simp [Attribute.namePrefix, newAttr, isBlank]
  rw [this]
  exact namePrefix_new hname hcanon

theorem AttrLines.terminate {a : Attribute} (h : AttrLines a ls)
    (hl : LinesOk ls) {e : Bytes} (he : IsEol e) :
    ∃ ls', (∀ pl ∈ ls', pl.Full) ∧ ls'.map PhysLine.text = ls.map PhysLine.text ∧
      AttrLines { a with raw := terminate a.raw e } ls' := by
  obtain ⟨ls', hfull, hbytes, htext⟩ := terminate_lines hl he
  obtain ⟨hn, hv⟩ := values_of_texts htext
  rw [h.raw] at hbytes
  refine ⟨ls', hfull, htext, ?_, fun hvalid => ?_⟩
  · have hk : ∀ ls, (Lexer.shape (.attribute, ls)).kind = .attribute := by
      intro ls
      cases ls <;> rfl
    have hr : ∀ ls, (Lexer.shape (.attribute, ls)).raw = linesBytes ls := by
      intro ls
      cases ls <;> rfl
    have hs := h.shape
    rw [Shape.ext_iff] at hs ⊢
    refine ⟨hk ls', hn.trans hs.2.1, hv.trans hs.2.2.1, ?_⟩
    rw [hr, hbytes]
  · have hline : (Ast.terminate a.raw e).takeWhile (fun b => b != cr && b != nl) =
        a.raw.takeWhile fun b => b != cr && b != nl := by
      have key : ∀ x : Bytes, (∀ b, x.head? = some b → (b != cr && b != nl) = false) →
          (a.raw ++ x).takeWhile (fun b => b != cr && b != nl) =
            a.raw.takeWhile fun b => b != cr && b != nl := by
        intro x hx
        rw [List.takeWhile_append]
        split
        · rename_i hall
          have hraw := List.IsPrefix.eq_of_length ( List.takeWhile_prefix _) hall
          cases x with
          | nil => rw [List.takeWhile_nil, List.append_nil, hraw]
          | cons b x =>
            rw [List.takeWhile_cons_of_neg (by rw [hx b rfl]; simp), List.append_nil, hraw]
        · rfl
      unfold Ast.terminate
      split
      · rfl
      · split
        · refine key [nl] fun b hb => ?_
          obtain rfl := Option.some.inj hb
          decide
        · refine key e fun b hb => ?_
          rcases he with rfl | rfl
          · obtain rfl := Option.some.inj hb
            decide
          · obtain rfl := Option.some.inj hb
            decide
    have hpre : ({ a with raw := Ast.terminate a.raw e } : Attribute).namePrefix =
        a.namePrefix := by
      simp only [Attribute.namePrefix, hline]
    rw [hpre]
    exact h.pre hvalid

theorem Reads.ne_nil
    (h : Reads as trail gs) (hne : as ≠ []) : gs ≠ [] := by
  cases h with
  | trail => exact absurd rfl hne
  | attr => simp

/-- **An attribute after the last one**: what follows was already behind an attribute. -/
theorem reads_append
    (h : Reads as trail gs) (hne : as ≠ []) (hreg : Regular gs)
    (hl : LinesOk (gs.flatMap Prod.snd)) {e : Bytes} (he : IsEol e) {a : Attribute}
    (hnew : NewReads a ls) (hlead : a.lead = []) :
    ∃ gs', Reads (terminateLast e as ++ [a]) trail gs' ∧ Regular gs' ∧
      LinesOk (gs'.flatMap Prod.snd) ∧ (FreshHead gs → FreshHead gs') := by
  induction h with
  | trail => exact absurd rfl hne
  | @attr a₀ as trail ts gs ls₀ ht hlead₀ hls₀ hrest ih =>
    obtain ⟨htsok, hreg⟩ := (regular_trivia ht).1 hreg
    obtain ⟨hok₀, hfresh, hreg'⟩ := regular_attr.1 hreg
    obtain ⟨htsfull, hl⟩ := linesOk_split hreg.ok (by simp) hl
    cases as with
    | nil =>
      cases hrest with
      | trail ht' =>
        have hls : LinesOk ls₀ := by
          by_cases hgs : gs = []
          · subst hgs
            simpa using hl
          · have := (linesOk_uncons hreg'.ok hgs hl).1
            exact linesOk_of_full (this _ List.mem_cons_self)
        obtain ⟨ls₁, hfull₁, htext, hattr⟩ := hls₀.terminate hls he
        have hok₁ := ok_of_texts htext hok₀
        have hlast : Reads [a] (groupsBytes gs) ([] ++ (.attribute, ls) :: gs) :=
          .attr (by simp [Trivia]) (by rw [hlead]; rfl) hnew.lines (.trail ht')
        refine ⟨ts ++ (.attribute, ls₁) :: ((.attribute, ls) :: gs), .attr ht hlead₀ hattr hlast,
          ?_, ?_, fun hf => ?_⟩
        · refine (regular_trivia ht).2 ⟨htsok, regular_attr.2 ⟨hok₁, freshHead_attr hnew.ok, ?_⟩⟩
          exact regular_attr.2 ⟨hnew.ok, hfresh, hreg'⟩
        · refine linesOk_join htsfull (linesOk_cons ?_ ?_)
          · simpa [AllFull] using hfull₁
          · refine linesOk_cons (by simpa [AllFull] using hnew.full) ?_
            by_cases hgs : gs = []
            · subst hgs
              trivial
            · exact (linesOk_uncons hreg'.ok hgs hl).2
        · exact freshHead_append hf.left fun _ => freshHead_attr hok₁
    | cons b as =>
      have hgs := hrest.ne_nil (by simp)
      obtain ⟨hfull₀, hl'⟩ := linesOk_uncons hreg'.ok hgs hl
      obtain ⟨gs', hreads, hr, hlines, hf'⟩ := ih (by simp) hreg' hl'
      refine ⟨ts ++ (.attribute, ls₀) :: gs', .attr ht hlead₀ hls₀ hreads, ?_, ?_, fun hf => ?_⟩
      · exact (regular_trivia ht).2 ⟨htsok, regular_attr.2 ⟨hok₀, hf' hfresh, hr⟩⟩
      · exact linesOk_join htsfull (linesOk_join hfull₀ hlines)
      · exact freshHead_append hf.left fun _ => freshHead_attr hok₀

structure Checked (name value : Bytes) : Prop where
  valid : ValidName name
  canonical : canonicalName name = name
  clean : value.any isBadByte = false

theorem checkAttr_eq_ok {name n : Bytes} (h : checkAttr name value = .ok n) :
    n = canonicalName name ∧ Checked n value := by
  unfold checkAttr at h
  simp only at h
  split at h
  · cases h
  · rename_i hn
    split at h
    · cases h
    · rename_i hv
      cases h
      simp only [Bool.or_eq_true, not_or, Bool.not_eq_true, Bool.not_eq_false'] at hn
      have hvalid : ValidName (canonicalName name) := ⟨hn.1, hn.2⟩
      exact ⟨rfl, hvalid, hvalid.canonical, by simpa using hv⟩

theorem isEol_lineEnding (o : Object) : IsEol o.lineEnding := by
  unfold Object.lineEnding
  split
  · exact isEol_lineTerm _
  · exact .inl rfl

theorem terminateLast_ne_nil {e : Bytes} (h : as ≠ []) :
    terminateLast e as ≠ [] := by
  cases as with
  | nil => exact absurd rfl h
  | cons a as => cases as <;> simp [terminateLast]

theorem inv_appendNew (h : Inv o) {name : Bytes} (hc : Checked name value) :
    Inv (o.appendNew name value) := by
  have he := isEol_lineEnding o
  have hp := namePrefix_new hc.valid hc.canonical
  obtain ⟨gs, hreads, hreg, hl⟩ := h
  unfold Object.appendNew Object.appendAttr Object.ensureTrailingNewline
  by_cases hne : o.attrs = []
  · rw [hne] at hreads
    simp only [hne, if_true]
    generalize htr : o.trail = trail at hreads
    cases hreads with
    | trail ht =>
      have hok : ∀ g ∈ gs, Group.Ok g := hreg.ok
      obtain ⟨ts', ht', hok', hfull', hbytes⟩ := terminate_trivia ht hok hl he
      have hnew := newReads hc.clean hc.valid hc.canonical hp he (terminate (groupsBytes gs)
        o.lineEnding)
      have hnil : Reads [] [] [] := .trail (show Trivia [] by simp [Trivia])
      refine ⟨ts' ++ [(.attribute, newLines value (name ++ [colon, space]) o.lineEnding)],
        .attr ht' hbytes.symm hnew.lines hnil, ?_, ?_⟩
      · exact (regular_trivia ht').2 ⟨hok', regular_attr.2 ⟨hnew.ok, by simp [FreshHead],
          by simp, .nil⟩⟩
      · refine linesOk_join hfull' ?_
        simpa using linesOk_of_full hnew.full
  · simp only [if_neg hne, if_neg (terminateLast_ne_nil hne)]
    have hnew := newReads hc.clean hc.valid hc.canonical hp he []
    obtain ⟨gs', hreads', hreg', hl', -⟩ := reads_append hreads hne hreg hl he hnew rfl
    exact ⟨gs', hreads', hreg', hl'⟩

/-! ## Replacing -/

section Set

variable {name : Bytes} {values : List Bytes}

theorem reads_place {pre term : Bytes} (hp : NamePrefix name pre) (ht : IsEol term)
    (hvs : ∀ v ∈ values, Checked name v) (hne : values ≠ []) {cs : List Group} (hct : Trivia cs)
    (hcok : ∀ g ∈ cs, Group.Ok g) (hcfull : AllFull cs)
    (h : Reads as trail gs) (hreg : Regular gs)
    (hl : LinesOk (gs.flatMap Prod.snd)) (hfresh : FreshHead gs) :
    ∃ gs', Reads ((place name pre term values (groupsBytes cs)).1 ++ as) trail gs' ∧
      Regular gs' ∧ LinesOk (gs'.flatMap Prod.snd) ∧ (FreshHead cs → FreshHead gs') := by
  induction values generalizing cs with
  | nil => exact absurd rfl hne
  | cons v vs ih =>
    have hv := hvs v List.mem_cons_self
    have hnew := newReads hv.clean hv.valid hv.canonical hp ht (groupsBytes cs)
    obtain ⟨gs', hreads, hr, hlines, hf⟩ : ∃ gs', Reads ((place name pre term vs []).1 ++ as)
        trail gs' ∧ Regular gs' ∧ LinesOk (gs'.flatMap Prod.snd) ∧ FreshHead gs' := by
      by_cases hvs' : vs = []
      · subst hvs'
        exact ⟨gs, h, hreg, hl, hfresh⟩
      · obtain ⟨gs', h1, h2, h3, h4⟩ := ih (fun v hv => hvs v (List.mem_cons_of_mem _ hv)) hvs'
          (show Trivia [] by simp [Trivia]) (by simp) (by simp [AllFull])
        exact ⟨gs', h1, h2, h3, h4 (by simp [FreshHead])⟩
    refine ⟨cs ++ (.attribute, newLines v pre term) :: gs', .attr hct rfl hnew.lines hreads, ?_, ?_,
      fun hc => freshHead_append hc fun _ => freshHead_attr hnew.ok⟩
    · exact (regular_trivia hct).2 ⟨hcok, regular_attr.2 ⟨hnew.ok, hf, hr⟩⟩
    · refine linesOk_join hcfull
        (linesOk_cons ?_ hlines)
      simpa [AllFull] using hnew.full

theorem trivia_append {ts' : List Group} (h : Trivia ts) (h' : Trivia ts') :
    Trivia (ts ++ ts') := by
  intro g hg
  rcases List.mem_append.1 hg with hg | hg
  · exact h g hg
  · exact h' g hg

theorem ok_append {ts' : List Group} (h : ∀ g ∈ ts, Group.Ok g) (h' : ∀ g ∈ ts', Group.Ok g) :
    ∀ g ∈ ts ++ ts', Group.Ok g := by
  intro g hg
  rcases List.mem_append.1 hg with hg | hg
  · exact h g hg
  · exact h' g hg

/-- **The loop of `Set`**: the trivia `cs` carried from removed attributes stands where theirs
stood, behind the same attribute or at the start. -/
theorem reads_setLoop (hname : ValidName name) (hvs : ∀ v ∈ values, Checked name v)
    (h : Reads as trail gs)
    (hreg : Regular gs) (hl : LinesOk (gs.flatMap Prod.snd)) {cs : List Group} (hct : Trivia cs)
    (hcok : ∀ g ∈ cs, Group.Ok g) (hcfull : AllFull cs) (found : Bool) :
    ∃ gs', Reads (setLoop name values as (groupsBytes cs) found).1
        ((setLoop name values as (groupsBytes cs) found).2.1 ++ trail) gs' ∧
      Regular gs' ∧ LinesOk (gs'.flatMap Prod.snd) ∧ (FreshHead (cs ++ gs) → FreshHead gs') ∧
      (cs ++ gs = [] → gs' = []) := by
  induction h generalizing cs found with
  | @trail ts ht =>
    refine ⟨cs ++ ts, ?_, (regular_trivia hct).2 ⟨hcok, hreg⟩, linesOk_join hcfull hl, id, id⟩
    simp only [setLoop]
    rw [← groupsBytes_append]
    exact .trail (trivia_append hct ht)
  | @attr a as trail ts gs ls ht hlead hls hrest ih =>
    obtain ⟨htsok, hreg⟩ := (regular_trivia ht).1 hreg
    obtain ⟨hok, hfresh, hreg'⟩ := regular_attr.1 hreg
    obtain ⟨htsfull, hl⟩ := linesOk_split hreg.ok (by simp) hl
    have hl' : LinesOk (gs.flatMap Prod.snd) := by
      by_cases hgs : gs = []
      · subst hgs
        trivial
      · exact (linesOk_uncons hreg'.ok hgs hl).2
    -- the trivia so far, with what stood before this attribute
    have hct' := trivia_append hct ht
    have hcok' := ok_append hcok htsok
    have hcfull' := allFull_append.2 ⟨hcfull, htsfull⟩
    have hbytes : groupsBytes cs ++ a.lead = groupsBytes (cs ++ ts) := by
      rw [groupsBytes_append, hlead]
    -- without the attribute, the trivia meets what followed it
    have hdrop : FreshHead (cs ++ (ts ++ (.attribute, ls) :: gs)) →
        FreshHead ((cs ++ ts) ++ gs) := by
      intro hf
      rw [← List.append_assoc] at hf
      exact freshHead_append hf.left fun _ => hfresh
    unfold setLoop
    by_cases hn : a.name ≠ name
    · rw [if_pos hn]
      obtain ⟨gs', hreads, hr, hlines, hf, hnil⟩ := ih hreg' hl' (show Trivia [] by simp [Trivia])
        (by simp) (by simp [AllFull]) found
      have hkept : AttrLines { a with lead := groupsBytes cs ++ a.lead } ls := ⟨hls.shape, hls.pre⟩
      refine ⟨(cs ++ ts) ++ (.attribute, ls) :: gs', .attr hct' hbytes hkept hreads, ?_, ?_,
        fun hc => ?_, by simp⟩
      · exact (regular_trivia hct').2 ⟨hcok', regular_attr.2 ⟨hok, hf hfresh, hr⟩⟩
      · refine linesOk_join hcfull' ?_
        by_cases hgs : gs = []
        · obtain rfl := hnil (by rw [hgs]; rfl)
          rw [hgs] at hl
          exact hl
        · exact linesOk_join
            (linesOk_uncons hreg'.ok hgs hl).1 hlines
      · rw [← List.append_assoc] at hc
        exact freshHead_append hc.left fun _ => freshHead_attr hok
    · rw [if_neg hn]
      have hname' : a.name = name := not_not.1 hn
      by_cases hfound : found = true
      · rw [if_pos hfound, hbytes]
        obtain ⟨gs', h1, h2, h3, h4, -⟩ := ih hreg' hl' hct' hcok' hcfull' true
        exact ⟨gs', h1, h2, h3, fun hc => h4 (hdrop hc), by simp⟩
      · rw [if_neg hfound, hbytes]
        by_cases hne : values = []
        · subst hne
          simp only [place]
          obtain ⟨gs', h1, h2, h3, h4, -⟩ := ih hreg' hl' hct' hcok' hcfull' true
          exact ⟨gs', h1, h2, h3, fun hc => h4 (hdrop hc), by simp⟩
        · obtain ⟨gs', h1, h2, h3, h4, -⟩ := ih hreg' hl' (show Trivia [] by simp [Trivia])
            (by simp) (by simp [AllFull]) true
          have hpre : NamePrefix name a.namePrefix := hname' ▸ hls.pre (hname'.symm ▸ hname)
          obtain ⟨gs'', hreads, hr, hlines, hf⟩ := reads_place hpre (isEol_lineTerm a.raw) hvs hne
            hct' hcok' hcfull' h1 h2 h3 (h4 hfresh)
          have hcarry : (place name a.namePrefix (lineTerm a.raw) values
              (groupsBytes (cs ++ ts))).2 = groupsBytes [] := by
            cases values with
            | nil => exact absurd rfl hne
            | cons v vs => rfl
          simp only [hcarry]
          refine ⟨gs'', hreads, hr, hlines, fun hc => hf ?_, by simp⟩
          rw [← List.append_assoc] at hc
          exact hc.left

theorem setLoop_found (as : List Attribute) (carry : Bytes) (found : Bool) :
    (setLoop name values as carry found).2.2 = (found || as.any fun a => a.name = name) := by
  induction as generalizing carry found with
  | nil => simp [setLoop]
  | cons a as ih =>
    unfold setLoop
    by_cases hn : a.name ≠ name
    · rw [if_pos hn]
      simp [ih, hn]
    · rw [if_neg hn]
      have hn' : a.name = name := not_not.1 hn
      split
      · rename_i hf
        simp [ih, hf]
      · simp [ih, hn']

theorem setLoop_none {found : Bool}
    (h : as.any (fun a => a.name = name) = false) :
    (setLoop name values as [] found).1 = as := by
  induction as with
  | nil => rfl
  | cons a as ih =>
    simp only [List.any_cons, Bool.or_eq_false_iff, decide_eq_false_iff_not] at h
    unfold setLoop
    rw [if_pos h.1]
    simp only [List.nil_append, ih h.2]

end Set

theorem forM_checkAttr {name : Bytes} {values : List Bytes} {u : Unit}
    (h : values.forM (fun v => do let _ ← checkAttr name v) = .ok u) :
    ∀ v ∈ values, ∃ n, checkAttr name v = .ok n := by
  induction values with
  | nil => simp
  | cons v vs ih =>
    obtain ⟨_, h1, h2⟩ := bind_eq_ok.1 (by exact h : (do
      (do let _ ← checkAttr name v)
      vs.forM fun v => do let _ ← checkAttr name v) = Except.ok u)
    obtain ⟨n, hn, -⟩ := bind_eq_ok.1 h1
    intro w hw
    rcases List.mem_cons.1 hw with rfl | hw
    · exact ⟨n, hn⟩
    · exact ih h2 w hw

variable {o' : Object}

theorem set_eq_ok {name : Bytes} {values : List Bytes}
    (h : o.set name values = .ok o') :
    ValidName (canonicalName name) ∧ (∀ v ∈ values, Checked (canonicalName name) v) ∧
      o' = (let loop := setLoop (canonicalName name) values o.attrs [] false
        let o'' : Object := ⟨loop.1, loop.2.1 ++ o.trail⟩
        if loop.2.2 then o'' else values.foldl (·.appendNew (canonicalName name) ·) o'') := by
  unfold Object.set at h
  obtain ⟨n, hn, h⟩ := bind_eq_ok.1 h
  obtain ⟨_, hvs, h⟩ := bind_eq_ok.1 h
  obtain ⟨rfl, hc⟩ := checkAttr_eq_ok hn
  refine ⟨hc.valid, fun v hv => ?_, (Except.ok.inj h).symm⟩
  obtain ⟨m, hm⟩ := forM_checkAttr hvs v hv
  obtain ⟨rfl, hm⟩ := checkAttr_eq_ok hm
  rwa [hc.canonical] at hm

theorem inv_foldl_appendNew {name : Bytes} {values : List Bytes}
    (hvs : ∀ v ∈ values, Checked name v) (h : Inv o) :
    Inv (values.foldl (·.appendNew name ·) o) := by
  induction values generalizing o with
  | nil => exact h
  | cons v vs ih =>
    exact ih (fun v hv => hvs v (List.mem_cons_of_mem _ hv))
      (inv_appendNew h (hvs v List.mem_cons_self))

/-- **An accepted edit** leaves an object that reads back. -/
theorem inv_apply {e : Edit} (h : Inv o) (hok : e.apply o = .ok o') : Inv o' := by
  cases e with
  | append name value =>
    obtain ⟨n, hn, hok⟩ := bind_eq_ok.1 (by exact hok : o.append name value = .ok o')
    cases hok
    exact inv_appendNew h (checkAttr_eq_ok hn).2
  | set name values =>
    obtain ⟨hvalid, hvs, rfl⟩ := set_eq_ok hok
    obtain ⟨gs, hreads, hreg, hl⟩ := h
    obtain ⟨gs', h1, h2, h3, -, -⟩ := reads_setLoop hvalid hvs hreads hreg hl 
      (show Trivia [] by simp [Trivia]) (by simp) (by simp [AllFull]) false
    have hinv : Inv ⟨(setLoop (canonicalName name) values o.attrs [] false).1,
        (setLoop (canonicalName name) values o.attrs [] false).2.1 ++ o.trail⟩ := ⟨gs', h1, h2, h3⟩
    simp only
    split
    · exact hinv
    · exact inv_foldl_appendNew hvs hinv

theorem inv_edit (h : Inv o) (e : Edit) : Inv (o.edit e) := by
  unfold Object.edit
  split
  · rename_i o' hok
    exact inv_apply h hok
  · exact h

theorem inv_run (h : Inv o) (es : List Edit) : Inv (o.run es) := by
  induction es generalizing o with
  | nil => exact h
  | cons e es ih => exact ih (inv_edit h e)

/-! ## What an edit asks for -/

/-- What is expected of an attribute after an edit: the one it was, which may gain a line end if it
was the last, or a new one. -/
inductive Expected
  | kept (c : Core) (last : Bool)
  | new (name value : Bytes)

def Expected.Meets : Expected → Core → Prop
  | .kept c last, d => d.name = c.name ∧ d.value = c.value ∧
      (d.raw = c.raw ∨ last = true ∧ (d.raw = c.raw ++ [nl] ∨ d.raw = c.raw ++ [cr, nl]))
  | .new name value, d => d.name = name ∧ d.value = value

/-- The attributes, with the last marked. -/
def markLast : List Core → List (Core × Bool)
  | [] => []
  | [c] => [(c, true)]
  | c :: d :: cs => (c, false) :: markLast (d :: cs)

def keepAll (cs : List Core) : List Expected := (markLast cs).map fun c => .kept c.1 c.2

/-- What a value reads back as: every line without the blanks at its ends. -/
def normalize (value : Bytes) : Bytes := join ((value.splitOn nl).map trim)

/-- The attributes with the first of the name replaced and the others of the name removed. -/
def replaceFirst (name : Bytes) (news : List Expected) : Bool → List (Core × Bool) → List Expected
  | _, [] => []
  | placed, c :: cs =>
    if c.1.name = name then (if placed then [] else news) ++ replaceFirst name news true cs
    else .kept c.1 c.2 :: replaceFirst name news placed cs

/-- The attributes with the edit applied. -/
def Edit.expected : Edit → List Core → List Expected
  | .append name value, cs => keepAll cs ++ [.new (canonicalName name) (normalize value)]
  | .set name values, cs =>
    let news := values.map fun v => .new (canonicalName name) (normalize v)
    if cs.any fun c => c.name = canonicalName name then
      replaceFirst (canonicalName name) news false (markLast cs)
    else keepAll cs ++ news

theorem keepAll_self (cs : List Core) : List.Forall₂ Expected.Meets (keepAll cs) cs := by
  unfold keepAll
  induction cs with
  | nil => exact .nil
  | cons c cs ih =>
    cases cs with
    | nil => exact .cons ⟨rfl, rfl, .inl rfl⟩ .nil
    | cons d cs => exact .cons ⟨rfl, rfl, .inl rfl⟩ ih

theorem keepAll_terminateLast {e : Bytes} (he : IsEol e) (as : List Attribute) :
    List.Forall₂ Expected.Meets (keepAll (as.map Attribute.core))
      ((terminateLast e as).map Attribute.core) := by
  unfold keepAll
  induction as with
  | nil => exact .nil
  | cons a as ih =>
    cases as with
    | nil =>
      refine .cons ⟨rfl, rfl, ?_⟩ .nil
      change terminate a.raw e = a.raw ∨
        true = true ∧ (terminate a.raw e = a.raw ++ [nl] ∨ terminate a.raw e = a.raw ++ [cr, nl])
      unfold terminate
      split
      · exact .inl rfl
      · split
        · exact .inr ⟨rfl, .inl rfl⟩
        · rcases he with rfl | rfl
          · exact .inr ⟨rfl, .inl rfl⟩
          · exact .inr ⟨rfl, .inr rfl⟩
    | cons b as => exact .cons ⟨rfl, rfl, .inl rfl⟩ ih

theorem appendNew_core (o : Object) (name value : Bytes) :
    (o.appendNew name value).attrs.map Attribute.core =
      (terminateLast o.lineEnding o.attrs).map Attribute.core ++
        [(newAttr name value (name ++ [colon, space]) o.lineEnding).core] := by
  unfold Object.appendNew Object.appendAttr Object.ensureTrailingNewline
  by_cases hne : o.attrs = []
  · simp only [hne, if_true, terminateLast, List.map_nil, List.nil_append, List.map_cons]
    rfl
  · simp only [if_neg hne, if_neg (terminateLast_ne_nil hne), List.map_append, List.map_cons,
      List.map_nil]

theorem terminateLast_core {e : Bytes} {front : List Core} {c : Core}
    (h : as.map Attribute.core = front ++ [c]) :
    (terminateLast e as).map Attribute.core = front ++ [{ c with raw := terminate c.raw e }] := by
  induction as generalizing front with
  | nil => simp at h
  | cons b as ih =>
    cases as with
    | nil =>
      cases front with
      | nil =>
        obtain rfl := (List.cons.inj h).1
        rfl
      | cons d front => simp at h
    | cons b' as =>
      cases front with
      | nil => simp at h
      | cons d front =>
        obtain ⟨hd, hrest⟩ := List.cons.inj h
        rw [terminateLast, List.map_cons, ih hrest, List.cons_append, hd]

theorem foldl_appendNew_meets {name : Bytes} (values : List Bytes)
    {es : List Expected} {front : List Core} {c : Core} {n v : Bytes}
    (ho : o.attrs.map Attribute.core = front ++ [c]) (h : List.Forall₂ Expected.Meets es front)
    (hc : (Expected.new n v).Meets c) :
    List.Forall₂ Expected.Meets
      (es ++ .new n v :: values.map fun v => .new name (normalize v))
      ((values.foldl (·.appendNew name ·) o).attrs.map Attribute.core) := by
  induction values generalizing o es front c n v with
  | nil =>
    rw [List.foldl_nil, ho]
    exact List.rel_append h (.cons hc .nil)
  | cons w ws ih =>
    have hstep := appendNew_core o name w
    rw [terminateLast_core ho] at hstep
    have hc' : (Expected.new n v).Meets { c with raw := terminate c.raw o.lineEnding } := hc
    have := ih hstep (List.rel_append h (.cons hc' .nil)) (n := name) (v := normalize w) ⟨rfl, rfl⟩
    simpa using this

theorem place_meets (name pre term carry : Bytes) (values : List Bytes) :
    List.Forall₂ Expected.Meets (values.map fun v => .new name (normalize v))
      ((place name pre term values carry).1.map Attribute.core) := by
  induction values generalizing carry with
  | nil => exact .nil
  | cons v vs ih => exact .cons ⟨rfl, rfl⟩ (ih [])

theorem setLoop_meets (name : Bytes) (values : List Bytes) (as : List Attribute) (carry : Bytes)
    (found : Bool) :
    List.Forall₂ Expected.Meets
      (replaceFirst name (values.map fun v => .new name (normalize v)) found
        (markLast (as.map Attribute.core)))
      ((setLoop name values as carry found).1.map Attribute.core) := by
  have hmark : ∀ (a : Attribute) (as : List Attribute), ∃ last,
      markLast ((a :: as).map Attribute.core) =
        (a.core, last) :: markLast (as.map Attribute.core) := by
    intro a as
    cases as with
    | nil => exact ⟨true, rfl⟩
    | cons b as => exact ⟨false, rfl⟩
  induction as generalizing carry found with
  | nil => exact .nil
  | cons a as ih =>
    obtain ⟨last, hm⟩ := hmark a as
    rw [hm]
    unfold replaceFirst setLoop
    by_cases hn : a.name ≠ name
    · rw [if_pos hn, if_neg (by exact hn)]
      exact .cons ⟨rfl, rfl, .inl rfl⟩ (ih [] found)
    · rw [if_neg hn, if_pos (by exact not_not.1 hn)]
      by_cases hf : found = true
      · rw [if_pos hf, if_pos hf, List.nil_append]
        exact ih _ true
      · rw [if_neg hf, if_neg hf]
        simp only [List.map_append]
        exact List.rel_append (place_meets ..) (ih _ true)

theorem apply_meets {e : Edit} (h : e.apply o = .ok o') :
    List.Forall₂ Expected.Meets (e.expected (o.attrs.map Attribute.core))
      (o'.attrs.map Attribute.core) := by
  cases e with
  | append name value =>
    obtain ⟨n, hn, h⟩ := bind_eq_ok.1 (by exact h : o.append name value = .ok o')
    cases h
    obtain ⟨rfl, -⟩ := checkAttr_eq_ok hn
    rw [appendNew_core]
    exact List.rel_append (keepAll_terminateLast (isEol_lineEnding o) _) (.cons ⟨rfl, rfl⟩ .nil)
  | set name values =>
    obtain ⟨-, -, rfl⟩ := set_eq_ok h
    have hany : (o.attrs.map Attribute.core).any (fun c => c.name = canonicalName name) =
        o.attrs.any fun a => a.name = canonicalName name := by
      rw [List.any_map]
      rfl
    have hfound : (setLoop (canonicalName name) values o.attrs [] false).2.2 =
        o.attrs.any fun a => a.name = canonicalName name := by
      rw [setLoop_found, Bool.false_or]
    simp only [Edit.expected, hany, hfound]
    split
    · exact setLoop_meets ..
    · rename_i hnone
      -- nothing of the name: the attributes stay, and the values go to the end
      have hkept : (setLoop (canonicalName name) values o.attrs [] false).1 = o.attrs :=
        setLoop_none (by simpa using hnone)
      cases values with
      | nil =>
        simp only [hkept, List.foldl_nil, List.map_nil, List.append_nil]
        exact keepAll_self _
      | cons v vs =>
        rw [List.foldl_cons]
        have hstep := appendNew_core
          ⟨(setLoop (canonicalName name) (v :: vs) o.attrs [] false).1,
            (setLoop (canonicalName name) (v :: vs) o.attrs [] false).2.1 ++ o.trail⟩
          (canonicalName name) v
        refine foldl_appendNew_meets vs hstep ?_ ⟨rfl, rfl⟩
        simp only [hkept]
        exact keepAll_terminateLast (isEol_lineEnding _) _

/-- **Edits mean what they say.** For every text read as an object and every sequence of edits, an
accepted edit leaves a text that reads back as the attributes before with the edit applied, and a
refused one leaves the text as it was. -/
theorem edit_exact (src : Bytes) (line byteOffset : Int) (es : List Edit) (e : Edit) :
    let o := (Object.new (tokenizeAt src line byteOffset)).run es
    let reparsed := fun o : Object => (Object.new (tokenize o.string)).attrs.map Attribute.core
    match e.apply o with
    | .ok o' => o.edit e = o' ∧
        List.Forall₂ Expected.Meets (e.expected (reparsed o)) (reparsed o')
    | .error _ => (o.edit e).string = o.string := by
  intro o reparsed
  have hinv : Inv o := inv_run (inv_new src line byteOffset) es
  cases hok : e.apply o with
  | error err => simp only [Object.edit, hok]
  | ok o' =>
    refine ⟨by simp only [Object.edit, hok], ?_⟩
    have h := apply_meets hok
    rw [← hinv.reparse, ← (inv_apply hinv hok).reparse] at h
    exact h

end Rpsl.Ast
