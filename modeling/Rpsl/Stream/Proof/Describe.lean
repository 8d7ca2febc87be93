import Rpsl.Stream.Reader

/-!
# Lines over the cap are described as if kept

A line over the cap is fed to `LineDesc.add` in fragments. Whether it starts an attribute is decided
by its first colon or hash, so scanning the fragments is scanning the line (`scan_append`). Whether
it is blank is decided by what is before a CR that ends a fragment, and by the CR once it is known
not to end the line (`Described`). A CR counts as inside the line also where the next fragment is
empty and not the last, and so does a newline in a fragment other than the last (`Torn`). `next`
feeds neither.
-/

namespace Rpsl.Stream

open Lexer

/-- The description of a line fed as `frags` and then `last`. -/
def describe (frags : List Bytes) (last : Bytes) : LineDesc :=
  LineDesc.add (frags.foldl (fun d frag => LineDesc.add d frag false) {}) last true

/-! ## Terminators -/

theorem text_nl (p : Bytes) :
    text (p ++ [nl]) = if p.getLast? = some cr then p.dropLast else p := by
  simp [text]

theorem text_append (line : Bytes) : ∃ t, line = text line ++ t ∧ ∀ b ∈ t, b = cr ∨ b = nl := by
  have hcut : ∀ (l : Bytes) (b : UInt8), l.getLast? = some b → l = l.dropLast ++ [b] :=
    fun l b h => (List.dropLast_append_getLast? b h).symm
  unfold text
  dsimp only
  split_ifs with hnl hcr hcr
  · refine ⟨[cr, nl], ?_, by simp⟩
    rw [List.append_cons, ← hcut _ _ hcr, ← hcut _ _ hnl]
  · exact ⟨[nl], hcut _ _ hnl, by simp⟩
  · exact ⟨[cr], hcut _ _ hcr, by simp⟩
  · exact ⟨[], (List.append_nil _).symm, by simp⟩

theorem text_last (p : Bytes) {last : Bytes} (hne : last ≠ []) (hnl : last ≠ [nl]) :
    text (p ++ last) = p ++ text last := by
  unfold text
  rw [List.getLast?_append_of_ne_nil _ hne, List.dropLast_append_of_ne_nil hne]
  by_cases hlast : last.getLast? = some nl
  · have hinit : last.dropLast ≠ [] := by
      intro h
      apply hnl
      rw [← List.dropLast_append_getLast? nl hlast, h]
      rfl
    simp only [hlast, if_true, List.getLast?_append_of_ne_nil _ hinit,
      List.dropLast_append_of_ne_nil hinit]
    split_ifs <;> rfl
  · simp only [hlast, if_false, List.getLast?_append_of_ne_nil _ hne,
      List.dropLast_append_of_ne_nil hne]
    split_ifs <;> rfl

theorem isBlankLine_append (l l' : Bytes) :
    isBlankLine (l ++ l') = (isBlankLine l && isBlankLine l') := List.all_append

theorem isBlankLine_of_mem {l : Bytes} {b : UInt8} (hb : b = cr ∨ b = nl) (hmem : b ∈ l) :
    isBlankLine l = false := by
  rw [isBlankLine, List.all_eq_false]
  refine ⟨b, hmem, ?_⟩
  rcases hb with rfl | rfl <;> decide

/-! ## The attribute test -/

theorem colonFirst_eq (l : Bytes) :
    colonFirst l = ((l.find? fun b => b == colon || b == hash) == some colon) := by
  induction l with
  | nil => rfl
  | cons b l ih =>
    rw [colonFirst, List.find?_cons]
    by_cases hc : b = colon
    · subst hc
      rfl
    · by_cases hh : b = hash
      · subst hh
        rfl
      · have hskip : (b == colon || b == hash) = false := by simp [hc, hh]
        rw [if_neg hc, if_neg hh, hskip, ih]

theorem scan_append (p frag : Bytes) :
    (AttrScan.scan {} p true).scan frag (p.length == 0) = AttrScan.scan {} (p ++ frag) true := by
  cases p with
  | nil => rfl
  | cons b p =>
    rw [List.cons_append]
    unfold AttrScan.scan
    dsimp only
    by_cases hfirst : (isBlank b || b == plus || b == hash) = true
    · simp [hfirst]
    · simp only [hfirst, Bool.and_false, Bool.false_eq_true, if_false, ← List.cons_append,
        List.find?_append]
      cases hfind : (b :: p).find? fun b => b == colon || b == hash with
      | some c => simp
      | none => cases frag <;> simp

theorem scan_terminator (a : AttrScan) {t : Bytes} (ht : ∀ b ∈ t, b = cr ∨ b = nl)
    (first : Bool) : a.scan t first = a := by
  have hfind : (t.find? fun b => b == colon || b == hash) = none := by
    rw [List.find?_eq_none]
    intro b hb
    rcases ht b hb with rfl | rfl <;> decide
  unfold AttrScan.scan
  cases t with
  | nil => simp
  | cons b t =>
    have hfirst : (isBlank b || b == plus || b == hash) = false := by
      rcases ht b List.mem_cons_self with rfl | rfl <;> decide
    simp [hfirst, hfind]

theorem scan_line (line : Bytes) :
    (AttrScan.scan {} line true).attr = startsAttribute (text line) := by
  obtain ⟨t, hline, ht⟩ := text_append line
  have hscan : AttrScan.scan {} line true = AttrScan.scan {} (text line) true := by
    rw [hline, ← scan_append, ← hline, scan_terminator _ ht]
  rw [hscan]
  cases text line with
  | nil => rfl
  | cons b l =>
    by_cases hfirst : (isBlank b || b == plus || b == hash) = true
    · simp [AttrScan.scan, startsAttribute, hfirst]
    · cases hfind : (b :: l).find? fun b => b == colon || b == hash <;>
        simp [AttrScan.scan, startsAttribute, hfirst, colonFirst_eq, hfind]

/-! ## The blank test -/

/-- The last of the fragments ends in a CR. -/
def EndsCR (frags : List Bytes) : Bool := (frags.getLast?.bind List.getLast?) == some cr

theorem EndsCR.flatten {frags : List Bytes} (h : EndsCR frags = true) :
    ∃ q, frags.flatten = q ++ [cr] := by
  obtain ⟨f, hf, hcr⟩ := Option.bind_eq_some_iff.1 (beq_iff_eq.1 h)
  obtain ⟨pre, rfl⟩ := List.getLast?_eq_some_iff.1 hf
  obtain ⟨q, rfl⟩ := List.getLast?_eq_some_iff.1 hcr
  exact ⟨pre.flatten ++ q, by simp⟩

structure Described (d : LineDesc) (frags : List Bytes) : Prop where
  attr : d.attr = AttrScan.scan {} frags.flatten true
  seen : d.seen = frags.flatten.length
  heldCR : d.heldCR = EndsCR frags
  blank : d.blank = isBlankLine (if EndsCR frags then frags.flatten.dropLast else frags.flatten)

theorem described (frags : List Bytes) :
    Described (frags.foldl (fun d frag => LineDesc.add d frag false) {}) frags := by
  induction frags using List.reverseRecOn with
  | nil => exact ⟨rfl, rfl, rfl, rfl⟩
  | append_singleton frags frag ih =>
    have hends : EndsCR (frags ++ [frag]) = (frag.getLast? == some cr) := by simp [EndsCR]
    rw [List.foldl_append, List.foldl_cons, List.foldl_nil]
    generalize frags.foldl (fun d frag => LineDesc.add d frag false) {} = d at ih
    refine ⟨?_, ?_, hends.symm, ?_⟩
    · show d.attr.scan frag (d.seen == 0) = _
      rw [ih.attr, ih.seen, scan_append, List.flatten_append, List.flatten_singleton]
    · show d.seen + frag.length = _
      rw [ih.seen, List.flatten_append, List.flatten_singleton, List.length_append]
    · show (d.blank && !(d.heldCR && true) &&
        isBlankLine (if frag.getLast? == some cr then frag.dropLast else frag)) = _
      -- the bytes of `frag` that are described now, after all of those before
      have hbody : (if EndsCR (frags ++ [frag]) then (frags ++ [frag]).flatten.dropLast
          else (frags ++ [frag]).flatten) =
          frags.flatten ++ (if frag.getLast? == some cr then frag.dropLast else frag) := by
        rw [hends, List.flatten_append, List.flatten_singleton]
        split_ifs with hcr
        · refine List.dropLast_append_of_ne_nil ?_
          rintro rfl
          cases hcr
        · rfl
      rw [hbody, isBlankLine_append, ih.heldCR, ih.blank, Bool.and_true]
      cases hheld : EndsCR frags with
      | false => simp
      | true =>
        obtain ⟨q, hq⟩ := EndsCR.flatten hheld
        rw [hq, isBlankLine_of_mem (.inl rfl) (List.mem_append_right q List.mem_cons_self)]
        simp

/-- The terminator begins before the last fragment, and not as the CR that ends the one before. -/
def Torn (frags : List Bytes) (last : Bytes) : Prop :=
  (text (frags.flatten ++ last)).length < frags.flatten.length ∧
    ¬((text (frags.flatten ++ last)).length + 1 = frags.flatten.length ∧ EndsCR frags = true)

theorem describe_blank (frags : List Bytes) (last : Bytes) :
    (describe frags last).blank =
      (isBlankLine (if EndsCR frags then frags.flatten.dropLast else frags.flatten) &&
        !(EndsCR frags && !(last == [] || last == [nl])) && isBlankLine (text last)) := by
  have h := described frags
  unfold describe
  generalize frags.foldl (fun d frag => LineDesc.add d frag false) {} = d at h
  show (d.blank && !(d.heldCR && !(true && (last == [] || last == [nl]))) &&
    isBlankLine (text last)) = _
  rw [h.blank, h.heldCR, Bool.true_and]

theorem text_short (p : Bytes) {last : Bytes} (h : last = [] ∨ last = [nl]) :
    isBlankLine (text last) = true ∧
      ∃ t, p = text (p ++ last) ++ t ∧ ∀ b ∈ t, b = cr ∨ b = nl := by
  rcases h with rfl | rfl
  · rw [List.append_nil]
    exact ⟨rfl, text_append p⟩
  · refine ⟨rfl, ?_⟩
    rw [text_nl]
    split_ifs with hcr
    · exact ⟨[cr], (List.dropLast_append_getLast? cr hcr).symm, by simp⟩
    · exact ⟨[], (List.append_nil p).symm, by simp⟩

theorem blank_short {frags : List Bytes} {last : Bytes} (hlast : last = [] ∨ last = [nl]) :
    (describe frags last).blank = isBlankLine (text (frags.flatten ++ last)) ↔
      ¬(isBlankLine (text (frags.flatten ++ last)) = true ∧ Torn frags last) := by
  obtain ⟨hblank, t, hp, ht⟩ := text_short frags.flatten hlast
  have hshort : (last == [] || last == [nl]) = true := by simpa using hlast
  rw [describe_blank, hblank, hshort]
  unfold Torn
  cases hends : EndsCR frags with
  | true =>
    obtain ⟨q, hq⟩ := EndsCR.flatten hends
    have htext : text (frags.flatten ++ last) = q := by
      rw [hq]
      rcases hlast with rfl | rfl
      · simp [text, show cr ≠ nl by decide]
      · rw [text_nl]
        simp
    rw [htext, hq]
    simp
  | false =>
    generalize text (frags.flatten ++ last) = line at hp
    rw [hp, if_neg Bool.false_ne_true, isBlankLine_append]
    cases t with
    | nil => simp [isBlankLine]
    | cons b t =>
      rw [isBlankLine_of_mem (ht b List.mem_cons_self) List.mem_cons_self]
      simp

theorem blank_iff (frags : List Bytes) (last : Bytes) :
    (describe frags last).blank = isBlankLine (text (frags.flatten ++ last)) ↔
      ¬(isBlankLine (text (frags.flatten ++ last)) = true ∧ Torn frags last) := by
  by_cases hlast : last = [] ∨ last = [nl]
  · exact blank_short hlast
  · obtain ⟨hne, hnl⟩ := not_or.1 hlast
    have hlong : (last == [] || last == [nl]) = false := by simp [hne, hnl]
    have hwhole : ¬Torn frags last := by
      unfold Torn
      rw [text_last _ hne hnl, List.length_append]
      omega
    rw [describe_blank, hlong, text_last _ hne hnl, isBlankLine_append]
    cases hends : EndsCR frags with
    | false => simp [hwhole]
    | true =>
      obtain ⟨q, hq⟩ := EndsCR.flatten hends
      have hcr : isBlankLine frags.flatten = false :=
        isBlankLine_of_mem (.inl rfl) (hq ▸ List.mem_append_right q List.mem_cons_self)
      simp [hcr]

theorem endsCR_of_flatten {frags : List Bytes} (hne : ∀ frag ∈ frags.tail, frag ≠ [])
    (hcr : frags.flatten.getLast? = some cr) : EndsCR frags = true := by
  rcases List.eq_nil_or_concat' frags with rfl | ⟨pre, frag, rfl⟩
  · cases hcr
  have hfrag : frag ≠ [] := by
    cases pre with
    | nil =>
      rintro rfl
      cases hcr
    | cons f pre => exact hne frag (by simp)
  rw [List.flatten_append, List.flatten_singleton, List.getLast?_append_of_ne_nil _ hfrag] at hcr
  simp [EndsCR, hcr]

theorem not_torn {frags : List Bytes} {last : Bytes} (hnl : ∀ frag ∈ frags, nl ∉ frag)
    (hne : ∀ frag ∈ frags.tail, frag ≠ []) : ¬Torn frags last := by
  intro h
  obtain ⟨hshort, hends⟩ := h
  have hlast : last = [] ∨ last = [nl] := by
    by_contra hlong
    obtain ⟨h1, h2⟩ := not_or.1 hlong
    rw [text_last _ h1 h2, List.length_append] at hshort
    omega
  -- before the last fragment there can only be the CR of the terminator
  have htext : text (frags.flatten ++ last) =
      if frags.flatten.getLast? = some cr then frags.flatten.dropLast else frags.flatten := by
    rcases hlast with rfl | rfl
    · have hno : frags.flatten.getLast? ≠ some nl := by
        intro hget
        obtain ⟨frag, hfrag, hin⟩ := List.mem_flatten.1 (List.mem_of_getLast? hget)
        exact hnl frag hfrag hin
      rw [List.append_nil, text, if_neg hno]
    · exact text_nl _
  rw [htext] at hshort hends
  split_ifs at hshort hends with hcr
  · refine hends ⟨?_, endsCR_of_flatten hne hcr⟩
    rw [List.length_dropLast] at hshort ⊢
    omega
  · exact absurd hshort (Nat.lt_irrefl _)

/-- **A line in fragments** is classified as the whole line is, for every way of cutting it: as to
attributes always, and as to blank lines unless the line is one and its terminator is torn. No
terminator is where the newline is in the last fragment and only the first and the last are empty,
as `next` feeds them. -/
theorem describe_line (frags : List Bytes) (last : Bytes) :
    (describe frags last).attr.attr = startsAttribute (text (frags.flatten ++ last)) ∧
    ((describe frags last).blank = isBlankLine (text (frags.flatten ++ last)) ↔
      ¬(isBlankLine (text (frags.flatten ++ last)) = true ∧ Torn frags last)) ∧
    ((∀ frag ∈ frags, nl ∉ frag) → (∀ frag ∈ frags.tail, frag ≠ []) → ¬Torn frags last) := by
  refine ⟨?_, blank_iff frags last, not_torn⟩
  have h := described frags
  rw [← scan_line, ← scan_append, ← h.attr, ← h.seen]
  rfl

/-- A CR and a newline with an empty fragment between them: the line is blank, and not described as
blank. -/
theorem describe_torn :
    isBlankLine (text ([[cr], []].flatten ++ [nl])) = true ∧
      (describe [[cr], []] [nl]).blank = false := by
  decide

end Rpsl.Stream
