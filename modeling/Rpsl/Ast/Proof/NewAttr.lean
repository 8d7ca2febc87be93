import Rpsl.Ast.Object
import Rpsl.Lexer.Proof.Regroup

/-!
# Attributes as text

A value that passes the check, written after a name and its colon, reads back as one attribute of
that name and value (`newAttr_reads`). What stands before the value is a `NamePrefix`: the one
`Append` writes is, and so is the one `namePrefix` finds in a parsed attribute
(`namePrefix_of_line`).
-/

namespace Rpsl.Ast

open Lexer

/-! ## Lines of a value -/

variable {l : Bytes} {b : UInt8}

theorem mem_splitOn {v : Bytes} (h : l ∈ v.splitOn nl) (hb : b ∈ l) :
    b ∈ v ∧ b ≠ nl := by
  induction v generalizing l with
  | nil =>
    rw [List.splitOn_nil, List.mem_singleton] at h
    rw [h] at hb
    cases hb
  | cons c v ih =>
    rw [List.splitOn_cons_eq_if_modifyHead] at h
    split at h
    · rcases List.mem_cons.1 h with rfl | h
      · cases hb
      · have := ih h hb
        exact ⟨List.mem_cons_of_mem _ this.1, this.2⟩
    · rename_i hc
      obtain ⟨l₀, ls, hls⟩ := List.exists_cons_of_ne_nil (List.splitOn_ne_nil nl v)
      rw [hls] at h ih
      rcases List.mem_cons.1 h with rfl | h
      · rcases List.mem_cons.1 hb with rfl | hb
        · exact ⟨List.mem_cons_self, by simpa using hc⟩
        · have := ih List.mem_cons_self hb
          exact ⟨List.mem_cons_of_mem _ this.1, this.2⟩
      · have := ih (List.mem_cons_of_mem _ h) hb
        exact ⟨List.mem_cons_of_mem _ this.1, this.2⟩

theorem trim_eq (l : Bytes) : trim l = (l.dropWhile isBlank).rdropWhile isBlank := by
  simp [trim, trimPos]

theorem mem_trim (h : b ∈ trim l) : b ∈ l := by
  rw [trim_eq] at h
  exact (List.dropWhile_suffix _).subset ((List.rdropWhile_prefix _ _).subset h)

theorem trimmed_trim' (l : Bytes) : Trimmed (trim l) := by
  rw [trim_eq]
  exact trimmed_trim l

/-- A line of a value as it is written: no blanks at its ends, and no byte that would end it or
start a comment. -/
structure ValueLine (l : Bytes) : Prop where
  trimmed : Trimmed l
  clean : ∀ b ∈ l, b ≠ hash ∧ b ≠ nl ∧ b ≠ cr

theorem valueLine {v : Bytes} (hv : v.any isBadByte = false) (h : l ∈ (v.splitOn nl).map trim) :
    ValueLine l := by
  obtain ⟨l, hl, rfl⟩ := List.mem_map.1 h
  refine ⟨trimmed_trim' l, fun b hb => ?_⟩
  obtain ⟨hbv, hne⟩ := mem_splitOn hl (mem_trim hb)
  have hbad : isBadByte b = false := by
    rw [List.any_eq_false] at hv
    simpa using hv b hbv
  refine ⟨?_, hne, ?_⟩
  · rintro rfl
    revert hbad
    decide
  · rintro rfl
    revert hbad
    decide

theorem trimPos_blank (pre : Bytes) {blanks : Bytes} (hb : Blank blanks) (hl : Trimmed l) :
    (trimPos (pre ++ (blanks ++ l)) pre.length).1 = l := by
  have hdrop : (blanks ++ l).dropWhile isBlank = l := by
    rw [List.dropWhile_append_of_pos hb]
    cases l with
    | nil => rfl
    | cons b l => rw [List.dropWhile_cons_of_neg (by simp [hl.head b rfl])]
  simp only [trimPos, List.drop_left]
  rw [hdrop]
  rcases List.eq_nil_or_concat' l with rfl | ⟨l, b, rfl⟩
  · rfl
  · have := hl.last b (by simp)
    rw [List.rdropWhile_concat_neg _ _ _ (by simp [this])]

theorem cutComment_of_clean (h : hash ∉ l) : cutComment l = l :=
  List.takeWhile_eq_self_iff.2 fun b hb => by simpa using fun he : b = hash => h (he ▸ hb)

/-! ## The first line -/

structure NamePrefix (name pre : Bytes) : Prop where
  cut : ∃ raw blanks, pre = raw ++ colon :: blanks ∧ colon ∉ raw ∧ Blank blanks ∧
    canonicalName raw = name
  clean : ∀ b ∈ pre, b ≠ hash ∧ b ≠ nl ∧ b ≠ cr
  head : ∀ b, pre.head? = some b → isBlank b = false ∧ b ≠ plus

variable {raw : Bytes}

theorem colonFirst_of_clean (h : hash ∉ raw) (rest : Bytes) :
    colonFirst (raw ++ colon :: rest) = true := by
  induction raw with
  | nil => simp [colonFirst]
  | cons b raw ih =>
    have hb : b ≠ hash := fun he => h (he ▸ List.mem_cons_self)
    simp only [List.cons_append, colonFirst, hb, if_false]
    split
    · rfl
    · exact ih fun hm => h (List.mem_cons_of_mem _ hm)

variable {name pre : Bytes}

theorem NamePrefix.starts (h : NamePrefix name pre) (l : Bytes) :
    startsAttribute (pre ++ l) = true := by
  obtain ⟨raw, blanks, hpre, -, -, -⟩ := h.cut
  have hhash : hash ∉ raw := fun hm => (h.clean hash (by rw [hpre]; simp [hm])).1 rfl
  have hcf : colonFirst (pre ++ l) = true := by
    rw [hpre, List.append_assoc, List.cons_append]
    exact colonFirst_of_clean hhash _
  cases hp : pre with
  | nil => simp [hpre] at hp
  | cons b bs =>
    obtain ⟨h1, h2⟩ := h.head b (by rw [hp]; rfl)
    have h3 : b ≠ hash := (h.clean b (by rw [hp]; exact List.mem_cons_self)).1
    rw [hp] at hcf
    simp only [List.cons_append] at hcf ⊢
    simp [startsAttribute, h1, h2, h3, hcf]

theorem NamePrefix.splitAttr (h : NamePrefix name pre) (hl : ValueLine l) :
    (splitAttr (pre ++ l)).1 = name ∧ (splitAttr (pre ++ l)).2.1 = l := by
  obtain ⟨raw, blanks, hpre, hcolon, hblank, hname⟩ := h.cut
  have hhash : hash ∉ pre ++ l := by
    intro hm
    rcases List.mem_append.1 hm with hm | hm
    · exact (h.clean _ hm).1 rfl
    · exact (hl.clean _ hm).1 rfl
  have heq : pre ++ l = (raw ++ [colon]) ++ (blanks ++ l) := by simp [hpre]
  have hidx : (pre ++ l).findIdx? (· = colon) = some raw.length := by
    have hnone : raw.findIdx? (· = colon) = none :=
      List.findIdx?_eq_none_iff.2 fun b hb => by simpa using fun he : b = colon => hcolon (he ▸ hb)
    rw [heq, List.append_assoc, List.findIdx?_append, hnone]
    simp [List.findIdx?_cons]
  have htrim := trimPos_blank (raw ++ [colon]) hblank hl.trimmed
  have htake : (pre ++ l).take raw.length = raw := by rw [heq]; simp
  unfold Lexer.splitAttr
  simp only [cutComment_of_clean hhash, hidx, htake, hname, true_and]
  rw [heq]
  simpa using htrim

theorem contLine_value {n : Nat} (hn : 0 < n) (hl : ValueLine l) :
    (contValue (contLine n l) false).1 = l ∧ isContinuation (contLine n l) = true := by
  unfold contLine
  split
  · rename_i h
    subst h
    exact ⟨by decide, by decide⟩
  · rename_i hne
    obtain ⟨m, rfl⟩ : ∃ m, n = m + 1 := ⟨n - 1, by omega⟩
    have hblank : Blank (List.replicate (m + 1) space) := by
      intro b hb
      rw [(List.mem_replicate.1 hb).2]
      rfl
    have hhash : hash ∉ List.replicate (m + 1) space ++ l := by
      intro hm
      rcases List.mem_append.1 hm with hm | hm
      · have := (List.mem_replicate.1 hm).2
        revert this
        decide
      · exact (hl.clean _ hm).1 rfl
    have htrim := trimPos_blank [] hblank hl.trimmed
    obtain ⟨b, bs, rfl⟩ := List.exists_cons_of_ne_nil hne
    have hb := hl.trimmed.head b rfl
    constructor
    · unfold contValue
      rw [if_neg Bool.false_ne_true, cutComment_of_clean hhash]
      rw [List.nil_append, List.replicate_succ, List.cons_append] at htrim
      rw [List.replicate_succ, List.cons_append]
      simp only [show space ≠ plus by decide, if_false]
      exact htrim
    · have hnb : isBlankLine (List.replicate (m + 1) space ++ b :: bs) = false := by
        simp [isBlankLine, hb]
      unfold isContinuation classify
      rw [hnb]
      simp [List.replicate_succ, isBlank]

/-! ## A new attribute -/

def newLines (value pre term : Bytes) : List PhysLine :=
  let lines := (value.splitOn nl).map trim
  ⟨pre ++ lines.head?.getD [], term, 0, 0⟩ ::
    lines.tail.map fun l => ⟨contLine pre.length l, term, 0, 0⟩

def IsEol (term : Bytes) : Prop := term = [nl] ∨ term = [cr, nl]

theorem isEol_lineTerm (raw : Bytes) : IsEol (lineTerm raw) := by
  unfold lineTerm
  split
  · split
    · exact .inr rfl
    · exact .inl rfl
  · exact .inl rfl

theorem full_of_clean {text term : Bytes} (h : ∀ b ∈ text, b ≠ hash ∧ b ≠ nl ∧ b ≠ cr)
    (ht : IsEol term) : PhysLine.Full ⟨text, term, 0, 0⟩ := by
  refine ⟨fun hm => (h _ hm).2.1 rfl, ?_⟩
  rcases ht with rfl | rfl
  · exact .inr ⟨rfl, fun he => (h _ (List.mem_of_getLast? he)).2.2 rfl⟩
  · exact .inl rfl

/-- **A new attribute reads back**: its text is whole lines, which are one attribute of its name
and value. -/
theorem newAttr_reads {value term : Bytes} (hv : value.any isBadByte = false)
    (hp : NamePrefix name pre) (ht : IsEol term) :
    Group.Ok (.attribute, newLines value pre term) ∧
      (∀ pl ∈ newLines value pre term, pl.Full) ∧
      shape (.attribute, newLines value pre term) =
        ⟨.attribute, name, (newAttr name value pre term).value, (newAttr name value pre term).raw⟩
      ∧ linesBytes (newLines value pre term) = (newAttr name value pre term).raw := by
  have hlines : ∀ l ∈ (value.splitOn nl).map trim, ValueLine l := fun l hl => valueLine hv hl
  have hne : (value.splitOn nl).map trim ≠ [] := by simp
  have hlen : 0 < pre.length := by
    obtain ⟨raw, blanks, hpre, -⟩ := hp.cut
    rw [hpre]
    simp
  obtain ⟨l, ls, hls⟩ := List.exists_cons_of_ne_nil hne
  rw [hls] at hlines
  have hl := hlines l List.mem_cons_self
  have hrest := fun q hq => contLine_value hlen (hlines q (List.mem_cons_of_mem _ hq))
  obtain ⟨hname, hval⟩ := hp.splitAttr hl
  have hraw : linesBytes (newLines value pre term) = (newAttr name value pre term).raw := by
    simp only [newLines, newAttr, hls, linesBytes, List.head?_cons, Option.getD_some,
      List.tail_cons, List.map_cons, List.flatten_cons, List.map_map, PhysLine.bytes]
    rw [List.flatMap_def]
    rfl
  refine ⟨?_, ?_, ?_, hraw⟩
  · simp only [newLines, hls, List.head?_cons, Option.getD_some, List.tail_cons]
    refine ⟨hp.starts l, fun q hq => ?_⟩
    obtain ⟨k, hk, rfl⟩ := List.mem_map.1 hq
    exact (hrest k hk).2
  · simp only [newLines, hls, List.head?_cons, Option.getD_some, List.tail_cons]
    intro pl hpl
    rcases List.mem_cons.1 hpl with rfl | hpl
    · refine full_of_clean (fun b hb => ?_) ht
      rcases List.mem_append.1 hb with hb | hb
      · exact hp.clean b hb
      · exact hl.clean b hb
    · obtain ⟨k, hk, rfl⟩ := List.mem_map.1 hpl
      refine full_of_clean (fun b hb => ?_) ht
      unfold contLine at hb
      split at hb
      · rw [List.mem_singleton.1 hb]
        decide
      · rcases List.mem_append.1 hb with hb | hb
        · rw [(List.mem_replicate.1 hb).2]
          decide
        · exact (hlines k (List.mem_cons_of_mem _ hk)).clean b hb
  · have hvals : lineValues ⟨pre ++ l, term, 0, 0⟩
        (ls.map fun l => ⟨contLine pre.length l, term, 0, 0⟩) = l :: ls := by
      unfold lineValues
      rw [hval, List.map_map]
      congr 1
      conv_rhs => rw [← List.map_id ls]
      exact List.map_congr_left fun q hq => (hrest q hq).1
    rw [← hraw]
    simp only [newLines, newAttr, hls, List.head?_cons, Option.getD_some, List.tail_cons, shape,
      hname, hvals]

/-! ## Name prefixes -/

structure ValidName (name : Bytes) : Prop where
  head : name.head?.any isLetter = true
  all : name.all isNameByte = true

theorem isNameByte_clean (h : isNameByte b = true) :
    (b ≠ hash ∧ b ≠ nl ∧ b ≠ cr) ∧ isBlank b = false ∧ b ≠ plus ∧ b ≠ colon := by
  revert h b
  decide +kernel

theorem ValidName.clean (h : ValidName name) (hb : b ∈ name) :
    (b ≠ hash ∧ b ≠ nl ∧ b ≠ cr) ∧ isBlank b = false ∧ b ≠ plus ∧ b ≠ colon :=
  isNameByte_clean (List.all_eq_true.1 h.all b hb)

theorem trim_of_notBlank (h : ∀ b ∈ l, isBlank b = false) : trim l = l := by
  have htr : Trimmed l := ⟨fun b hb => h b (List.mem_of_head? hb),
    fun b hb => h b (List.mem_of_getLast? hb)⟩
  simpa [trim] using trimPos_blank [] (show Blank [] by simp [Blank]) htr

theorem lowerByte_lower (h : isNameByte (lowerByte b) = true) :
    lowerByte (lowerByte b) = lowerByte b ∧ isNameByte b = true := by
  revert h b
  decide +kernel

theorem ValidName.canonical (h : ValidName (canonicalName raw)) :
    canonicalName (canonicalName raw) = canonicalName raw := by
  have hnb : ∀ b ∈ canonicalName raw, isBlank b = false := fun b hb => (h.clean hb).2.1
  have htrim : canonicalName (canonicalName raw) = (canonicalName raw).map lowerByte :=
    congrArg (List.map lowerByte) (trim_of_notBlank hnb)
  rw [htrim]
  conv_rhs => rw [← List.map_id (canonicalName raw)]
  refine List.map_congr_left fun b hb => ?_
  have hn := List.all_eq_true.1 h.all b hb
  obtain ⟨c, -, rfl⟩ := List.mem_map.1 (by exact hb : b ∈ List.map lowerByte _)
  exact (lowerByte_lower hn).1

theorem namePrefix_new (h : ValidName name) (hc : canonicalName name = name) :
    NamePrefix name (name ++ [colon, space]) := by
  refine ⟨⟨name, [space], rfl, fun hm => (h.clean hm).2.2.2 rfl, ?_, hc⟩, fun b hb => ?_,
    fun b hb => ?_⟩
  · intro b hb
    rw [List.mem_singleton.1 hb]
    rfl
  · rcases List.mem_append.1 hb with hb | hb
    · exact (h.clean hb).1
    · simp only [List.mem_cons, List.not_mem_nil, or_false] at hb
      rcases hb with rfl | rfl <;> decide
  · cases name with
    | nil => cases h.head
    | cons c cs =>
      obtain rfl := Option.some.inj hb
      have := h.clean (b := c) List.mem_cons_self
      exact ⟨this.2.1, this.2.2.1⟩

theorem isBlank_clean (h : isBlank b = true) : b ≠ hash ∧ b ≠ nl ∧ b ≠ cr := by
  revert h b
  decide +kernel

theorem ValidName.raw_clean (h : ValidName (canonicalName raw))
    (hb : b ∈ raw) : b ≠ hash ∧ b ≠ nl ∧ b ≠ cr := by
  obtain ⟨b₁, b₂, heq, hb₁, hb₂, -, -⟩ := trimPos_spec [] raw
  rw [heq] at hb
  rcases List.mem_append.1 hb with hb | hb
  · exact isBlank_clean (hb₁ b hb)
  · rcases List.mem_append.1 hb with hb | hb
    · have hmem : lowerByte b ∈ canonicalName raw := List.mem_map_of_mem hb
      exact (isNameByte_clean (lowerByte_lower (List.all_eq_true.1 h.all _ hmem)).2).1
    · exact isBlank_clean (hb₂ b hb)

theorem startsAttribute_head {bs : Bytes} (h : startsAttribute (b :: bs) = true) :
    isBlank b = false ∧ b ≠ plus := by
  unfold startsAttribute at h
  simp only at h
  split at h
  · cases h
  · rename_i hb
    simp only [Bool.or_eq_true, beq_iff_eq, not_or] at hb
    exact ⟨by simpa using hb.1.1, hb.1.2⟩

theorem namePrefix_cut {pl : PhysLine} (hs : startsAttribute pl.text = true)
    (hv : ValidName (splitAttr pl.text).1) :
    ∃ pre rest, pl.bytes = pre ++ rest ∧ pre.length = (splitAttr pl.text).2.2 ∧
      NamePrefix (splitAttr pl.text).1 pre := by
  obtain ⟨p, hbytes, hopens, -, hlen, hle⟩ := splitAttr_spec hs pl.term
  obtain ⟨raw, blanks, hlead, hcolon, hblank, hname⟩ := hopens.lead
  rw [hname] at hv
  refine ⟨p.lead, p.kept ++ p.rest, hbytes.symm, hlen, ⟨raw, blanks, hlead, hcolon, hblank,
    hname.symm⟩, fun b hb => ?_, fun b hb => ?_⟩
  · rw [hlead] at hb
    rcases List.mem_append.1 hb with hb | hb
    · exact hv.raw_clean hb
    · rcases List.mem_cons.1 hb with rfl | hb
      · decide
      · exact isBlank_clean (hblank b hb)
  · have hhead : pl.text.head? = some b := by
      have hpos : p.lead ≠ [] := by rw [hlead]; simp
      obtain ⟨c, cs, hcs⟩ := List.exists_cons_of_ne_nil hpos
      rw [hcs] at hb
      obtain rfl := Option.some.inj hb
      cases htext : pl.text with
      | nil => simp [htext, startsAttribute] at hs
      | cons d ds =>
        have := congrArg List.head? hbytes
        rw [Piece.bytes, hcs, htext] at this
        simpa using this.symm
    cases htext : pl.text with
    | nil => rw [htext] at hhead; cases hhead
    | cons d ds =>
      rw [htext] at hhead hs
      obtain rfl := Option.some.inj hhead
      exact startsAttribute_head hs

/-- **A parsed attribute's name prefix** is one. -/
theorem namePrefix_of_line {a : Attribute} {pl : PhysLine} {pls : List PhysLine}
    (hs : startsAttribute pl.text = true) (hraw : a.raw = linesBytes (pl :: pls))
    (hname : a.name = (splitAttr pl.text).1)
    (hseg : a.segments.head?.map (·.srcCol) = some ((splitAttr pl.text).2.2 + 1 : Int))
    (hv : ValidName a.name) : NamePrefix a.name a.namePrefix := by
  rw [hname] at hv
  obtain ⟨pre, rest, hbytes, hlen, hpre⟩ := namePrefix_cut hs hv
  rw [hname]
  obtain ⟨seg, segs, hsegs⟩ : ∃ seg segs, a.segments = seg :: segs := by
    cases hseg' : a.segments with
    | nil => rw [hseg'] at hseg; cases hseg
    | cons seg segs => exact ⟨seg, segs, rfl⟩
  rw [hsegs] at hseg
  have hcol : seg.srcCol - 1 = (pre.length : Int) := by
    have : seg.srcCol = (splitAttr pl.text).2.2 + 1 := Option.some.inj hseg
    rw [this, hlen]
    omega
  have hline : ∃ more, (a.raw.takeWhile fun b => b != cr && b != nl) = pre ++ more := by
    rw [hraw, linesBytes_cons, hbytes, List.append_assoc, List.takeWhile_append_of_pos]
    · exact ⟨_, rfl⟩
    · intro b hb
      have := hpre.clean b hb
      simp [this.2.1, this.2.2]
  obtain ⟨more, hmore⟩ := hline
  have hle : (pre.length : Int) ≤ ((pre ++ more).length : Nat) := by simp
  have hnp : a.namePrefix = if pre.getLast?.any isBlank then pre else pre ++ [space] := by
    simp only [Attribute.namePrefix, hmore, hsegs, hcol, hle, if_true, Int.toNat_natCast,
      List.take_left]
  rw [hnp]
  split
  · exact hpre
  · obtain ⟨raw, blanks, heq, hcolon, hblank, hcanon⟩ := hpre.cut
    refine ⟨⟨raw, blanks ++ [space], by simp [heq], hcolon, fun b hb => ?_, hcanon⟩,
      fun b hb => ?_, fun b hb => hpre.head b ?_⟩
    · rcases List.mem_append.1 hb with hb | hb
      · exact hblank b hb
      · rw [List.mem_singleton.1 hb]
        rfl
    · rcases List.mem_append.1 hb with hb | hb
      · exact hpre.clean b hb
      · rw [List.mem_singleton.1 hb]
        decide
    · rw [heq] at hb ⊢
      cases raw <;> simpa using hb

end Rpsl.Ast
