import Rpsl.Lexer.Proof.Lines

/-!
# What a line gives to a value

A line of an attribute is cut in three (`Piece`): what comes before the part that is kept (the name
and its colon, or a continuation marker, and blanks), the part kept, and the blanks, comment and
terminator after it. `splitAttr` and `contValue` find these cuts (`splitAttr_spec`,
`contValue_spec`); the offset they report is the length of the first part.
-/

namespace Rpsl.Lexer

/-- A line, cut around the part that goes into the value. -/
structure Piece where
  lead : Bytes
  kept : Bytes
  rest : Bytes

def Piece.bytes (p : Piece) : Bytes := p.lead ++ (p.kept ++ p.rest)

def Blank (bs : Bytes) : Prop := ∀ b ∈ bs, isBlank b = true

/-- No blank at either end. -/
structure Trimmed (bs : Bytes) : Prop where
  head : ∀ b, bs.head? = some b → isBlank b = false
  last : ∀ b, bs.getLast? = some b → isBlank b = false

/-- `rest` is blanks, a comment or none, and the terminator `term`. -/
def Ends (rest term : Bytes) : Prop :=
  ∃ blanks comment, rest = blanks ++ (comment ++ term) ∧ Blank blanks ∧
    (comment = [] ∨ comment.head? = some hash)

/-- The cut of an attribute's first line: name, colon and blanks before the value. -/
structure Piece.Opens (p : Piece) (name term : Bytes) : Prop where
  lead : ∃ raw blanks, p.lead = raw ++ colon :: blanks ∧ colon ∉ raw ∧ Blank blanks ∧
    name = canonicalName raw
  no_comment : hash ∉ p.lead ++ p.kept
  trimmed : Trimmed p.kept
  rest : Ends p.rest term

/-- The cut of a continuation line: a plus sign or none, and blanks, before what it adds. -/
structure Piece.Continues (p : Piece) (term : Bytes) : Prop where
  lead : ∃ marker blanks, p.lead = marker ++ blanks ∧ (marker = [] ∨ marker = [plus]) ∧
    Blank blanks
  no_comment : hash ∉ p.lead ++ p.kept
  trimmed : Trimmed p.kept
  rest : Ends p.rest term

/-! ## Trimming -/

theorem blank_takeWhile (bs : Bytes) : Blank (bs.takeWhile isBlank) :=
  fun _ hb => List.mem_takeWhile_imp hb

theorem isBlank_head_dropWhile (bs : Bytes) {b : UInt8}
    (h : (bs.dropWhile isBlank).head? = some b) : isBlank b = false := by
  have := List.head?_dropWhile_not isBlank bs
  rw [h] at this
  exact this

theorem trimmed_trim (bs : Bytes) : Trimmed ((bs.dropWhile isBlank).rdropWhile isBlank) := by
  obtain ⟨tail, ht⟩ := ( List.rdropWhile_prefix isBlank (bs.dropWhile isBlank))
  refine ⟨fun b hb => isBlank_head_dropWhile bs ?_, fun b hb => ?_⟩
  · rw [← ht, List.head?_append, hb, Option.some_or]
  · have hne : (bs.dropWhile isBlank).rdropWhile isBlank ≠ [] := fun he => by simp [he] at hb
    have hl := List.rdropWhile_last_not isBlank _ hne
    rw [List.getLast?_eq_getLast_of_ne_nil hne] at hb
    rw [Option.some.inj hb] at hl
    simpa using hl

theorem trimPos_spec (pre bs : Bytes) :
    ∃ b₁ b₂, bs = b₁ ++ ((trimPos (pre ++ bs) pre.length).1 ++ b₂) ∧ Blank b₁ ∧ Blank b₂ ∧
      (trimPos (pre ++ bs) pre.length).2 = pre.length + b₁.length ∧
      Trimmed (trimPos (pre ++ bs) pre.length).1 := by
  refine ⟨bs.takeWhile isBlank, (bs.dropWhile isBlank).rtakeWhile isBlank, ?_,
    blank_takeWhile bs, fun b hb => List.mem_rtakeWhile_imp hb, ?_, ?_⟩
  · simp only [trimPos, List.drop_left]
    rw [List.rdropWhile_append_rtakeWhile, List.takeWhile_append_dropWhile]
  · simp only [trimPos, List.drop_left]
  · simp only [trimPos, List.drop_left]
    exact trimmed_trim bs

/-! ## Lines -/

theorem cutComment_spec (text : Bytes) :
    ∃ comment, text = cutComment text ++ comment ∧ hash ∉ cutComment text ∧
      (comment = [] ∨ comment.head? = some hash) := by
  refine ⟨text.dropWhile (· ≠ hash), List.takeWhile_append_dropWhile.symm, fun hm => ?_, ?_⟩
  · simpa using List.mem_takeWhile_imp hm
  · cases hd : text.dropWhile (· ≠ hash) with
    | nil => exact .inl rfl
    | cons b bs =>
      have := List.head?_dropWhile_not (· ≠ hash) text
      rw [hd] at this
      exact .inr (by simpa using this)

theorem colon_mem_cutComment {text : Bytes} (h : colonFirst text = true) :
    colon ∈ cutComment text := by
  induction text with
  | nil => cases h
  | cons b bs ih =>
    unfold colonFirst at h
    split_ifs at h with hc hh
    · rw [hc, cutComment, List.takeWhile_cons_of_pos (by decide)]
      exact List.mem_cons_self
    · rw [cutComment, List.takeWhile_cons_of_pos (by simpa using hh)]
      exact List.mem_cons_of_mem _ (ih h)

theorem trimPos_cut (pre bs : Bytes) {comment : Bytes} (term : Bytes) (hh : hash ∉ pre ++ bs)
    (hc : comment = [] ∨ comment.head? = some hash) :
    ∃ blanks rest, Blank blanks ∧
      (⟨pre ++ blanks, (trimPos (pre ++ bs) pre.length).1, rest⟩ : Piece).bytes =
        pre ++ bs ++ comment ++ term ∧
      hash ∉ pre ++ blanks ++ (trimPos (pre ++ bs) pre.length).1 ∧
      Trimmed (trimPos (pre ++ bs) pre.length).1 ∧ Ends rest term ∧
      (pre ++ blanks).length = (trimPos (pre ++ bs) pre.length).2 ∧
      (pre ++ blanks).length + (trimPos (pre ++ bs) pre.length).1.length ≤
        (pre ++ bs ++ comment).length := by
  obtain ⟨b₁, b₂, hbs, hb₁, hb₂, hoff, htrim⟩ := trimPos_spec pre bs
  generalize trimPos (pre ++ bs) pre.length = t at hbs hoff htrim ⊢
  subst hbs
  refine ⟨b₁, b₂ ++ (comment ++ term), hb₁, ?_, fun hm => hh ?_, htrim, ⟨b₂, comment, rfl, hb₂, hc⟩,
    ?_, ?_⟩
  · simp only [Piece.bytes, List.append_assoc]
  · rw [← List.append_assoc b₁, ← List.append_assoc, ← List.append_assoc]
    exact List.mem_append_left _ hm
  · rw [hoff, List.length_append]
  · simp only [List.length_append]
    omega

theorem splitAttr_spec {text : Bytes} (h : startsAttribute text = true) (term : Bytes) :
    ∃ p : Piece, p.bytes = text ++ term ∧ p.Opens (splitAttr text).1 term ∧
      p.kept = (splitAttr text).2.1 ∧ p.lead.length = (splitAttr text).2.2 ∧
      p.lead.length + p.kept.length ≤ text.length := by
  have hcolon : colon ∈ cutComment text := by
    refine colon_mem_cutComment ?_
    unfold startsAttribute at h
    split at h
    · cases h
    · split_ifs at h
      exact h
  obtain ⟨comment, htext, hhash, hc⟩ := cutComment_spec text
  obtain ⟨raw, bs, hcut, hraw⟩ := List.eq_append_cons_of_mem hcolon
  have hidx : (cutComment text).findIdx? (· = colon) = some raw.length := by
    have hnone : raw.findIdx? (· = colon) = none :=
      List.findIdx?_eq_none_iff.2 fun b hb => by simpa using fun he : b = colon => hraw (he ▸ hb)
    rw [hcut, List.findIdx?_append, hnone]
    simp [List.findIdx?_cons]
  have hpre : cutComment text = (raw ++ [colon]) ++ bs := by simp [hcut]
  have hsplit : splitAttr text = (canonicalName raw,
      trimPos ((raw ++ [colon]) ++ bs) (raw ++ [colon]).length) := by
    unfold splitAttr
    simp only [hidx]
    rw [hpre]
    simp
  rw [hpre] at hhash htext
  obtain ⟨blanks, rest, hb, hbytes, hh, ht, hends, hoff, hle⟩ :=
    trimPos_cut (raw ++ [colon]) bs term hhash hc
  rw [hsplit]
  rw [← htext] at hbytes hle
  exact ⟨⟨raw ++ [colon] ++ blanks, _, rest⟩, hbytes,
    ⟨⟨raw, blanks, by simp, hraw, hb, rfl⟩, hh, ht, hends⟩, rfl, hoff, hle⟩

theorem contValue_eq (text : Bytes) :
    ∃ marker bs, cutComment text = marker ++ bs ∧ (marker = [] ∨ marker = [plus]) ∧
      contValue text false = trimPos (marker ++ bs) marker.length := by
  cases hcut : cutComment text with
  | nil => exact ⟨[], [], rfl, .inl rfl, by simp [contValue, hcut, trimPos]⟩
  | cons b bs =>
    by_cases hb : b = plus
    · exact ⟨[plus], bs, by rw [hb]; rfl, .inr rfl, by simp [contValue, hcut, hb]⟩
    · exact ⟨[], b :: bs, rfl, .inl rfl, by simp [contValue, hcut, hb]⟩

theorem contValue_spec (text term : Bytes) :
    ∃ p : Piece, p.bytes = text ++ term ∧ p.Continues term ∧
      p.kept = (contValue text false).1 ∧ p.lead.length = (contValue text false).2 ∧
      p.lead.length + p.kept.length ≤ text.length := by
  obtain ⟨comment, htext, hhash, hc⟩ := cutComment_spec text
  obtain ⟨marker, bs, hcut, hmarker, hval⟩ := contValue_eq text
  rw [hcut] at htext hhash
  obtain ⟨blanks, rest, hb, hbytes, hh, ht, hends, hoff, hle⟩ :=
    trimPos_cut marker bs term hhash hc
  rw [hval]
  rw [← htext] at hbytes hle
  exact ⟨⟨marker ++ blanks, _, rest⟩, hbytes, ⟨⟨marker, blanks, rfl, hmarker, hb⟩, hh, ht, hends⟩,
    rfl, hoff, hle⟩

end Rpsl.Lexer
