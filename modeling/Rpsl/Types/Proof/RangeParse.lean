import Rpsl.Types.RangeParse
import Rpsl.Types.Proof.AddrText
import Rpsl.Types.Proof.Enumerate

/-!
# Range operators and prefix ranges

A range's text is read back as the range, given that `net/netip` reads back what it writes: nothing
in the text of a prefix is a short or a padded spelling (`parsePrefix_text`), and the operator `Op`
chooses makes the range's window again (`parsePrefixRange_text`).
-/

namespace Rpsl

open Text

/-! ## Pieces of a text -/

theorem cutAt_of_not_mem {sep : Char} {s : Text} (h : sep ∉ s) : cutAt sep s = (s, none) := by
  have htake : s.takeWhile (· != sep) = s := by
    rw [List.takeWhile_eq_self_iff]
    intro c hc
    simp only [bne_iff_ne, ne_eq]
    rintro rfl
    exact h hc
  simp [cutAt, htake]

theorem cutAt_append {sep : Char} {s t : Text} (h : sep ∉ s) :
    cutAt sep (s ++ sep :: t) = (s, some t) := by
  have htake : (s ++ sep :: t).takeWhile (· != sep) = s := by
    rw [List.takeWhile_append_of_pos, List.takeWhile_cons_of_neg]
    · simp
    · simp
    · intro c hc
      simp only [bne_iff_ne, ne_eq]
      rintro rfl
      exact h hc
  simp [cutAt, htake]

theorem isNumber_ofNat (n : Nat) : isNumber (ofNat n) = true := by
  have hdigits : ∀ c ∈ ofNat n, c.isDigit = true := fun c hc => SetName.isDigit_of_mem_ofNat hc
  have hne : ofNat n ≠ [] := Nat.toDigits_ne_nil
  simpa [isNumber, hne] using hdigits

theorem decimal_ofNat (n : Nat) : decimal (ofNat n) = n :=
  Nat.ofDigitChars_toDigits (by decide) (by decide)

/-! ## Prefixes -/

theorem fill_unpad_text (a : Addr) (bits : Text) :
    fillIPv4 a.text bits = a.text ∧ unpadIPv4 a.text = none := by
  obtain ⟨f, v⟩ := a
  cases f with
  | v4 =>
    have hsplit := splitOn_dotted v.toNat
    rw [text_v4]
    constructor
    · unfold fillIPv4
      rw [hsplit]
      simp
    · have hpad : ∀ n < 2 ^ 8, ¬ (1 < (ofNat n).length ∧ (ofNat n).head? = some '0') := by
        decide +kernel
      have hoctet : ∀ low, groupOf v.toNat 8 low < 2 ^ 8 := fun low => Nat.mod_lt _ (by decide)
      have hany : (([24, 16, 8, 0].map fun low => ofNat (groupOf v.toNat 8 low)).any fun o =>
          decide (1 < o.length ∧ o.head? = some '0')) = false := by
        rw [List.any_map, List.any_eq_false]
        intro low _
        exact fun h => hpad _ (hoctet low) (of_decide_eq_true h)
      unfold unpadIPv4
      rw [hsplit]
      dsimp only
      rw [hany]
      simp
  | v6 =>
    -- the piece with the colon is no number
    obtain ⟨o, ho, hc⟩ : ∃ o ∈ (Addr.text ⟨.v6, v⟩).splitOn '.', ':' ∈ o := by
      have hmem := colon_mem_v6 v
      have hjoin : ['.'].intercalate ((Addr.text ⟨.v6, v⟩).splitOn '.') = Addr.text ⟨.v6, v⟩ :=
        List.intercalate_splitOn '.'
      rw [← hjoin] at hmem
      rcases Lib.mem_intercalate hmem with h | h
      · exact absurd h (by decide)
      · exact h
    have hnum : isNumber o = false := by
      rw [Bool.eq_false_iff]
      intro h
      have hdigits := (Bool.and_eq_true_iff.1 h).2
      exact absurd (List.all_eq_true.1 hdigits _ hc) (by decide)
    constructor
    · have hall : ((Addr.text ⟨.v6, v⟩).splitOn '.').all (fun o =>
          isNumber o && decide (decimal o ≤ 255)) = false := by
        rw [List.all_eq_false]
        exact ⟨o, ho, by simp [hnum]⟩
      unfold fillIPv4
      dsimp only
      rw [hall]
      simp
    · have hall : ((Addr.text ⟨.v6, v⟩).splitOn '.').all isNumber = false := by
        rw [List.all_eq_false]
        exact ⟨o, ho, by simp [hnum]⟩
      unfold unpadIPv4
      dsimp only
      rw [hall]
      simp

section

variable {parse : Text → Option Prefix}

theorem parsePrefix_text (hparse : ∀ p : Prefix, parse p.text = some p) (p : Prefix) :
    parsePrefix parse p.text = some p := by
  have hslash : '/' ∉ p.addr.text := fun h => (isPrefixChar_of_mem_addr h).2 rfl
  obtain ⟨hfill, hunpad⟩ := fill_unpad_text p.addr (ofNat p.bits)
  unfold parsePrefix
  rw [Prefix.text, cutAt_append hslash]
  dsimp only
  rw [hfill, hunpad]
  exact hparse p

/-! ## Operators -/

theorem parseBits_ofNat {n : Nat} (h : n ≤ 128) : parseBits (ofNat n) = some n := by
  have hlen : ∀ n ≤ 128, ¬ ((ofNat n).length = 0 ∨ 3 < (ofNat n).length) := by decide +kernel
  have hdigits : (ofNat n).all Char.isDigit = true := (Bool.and_eq_true_iff.1 (isNumber_ofNat n)).2
  rw [parseBits, if_neg (hlen n h), hdigits, decimal_ofNat]
  simp [Nat.not_lt.2 h]

theorem not_mem_ofNat {c : Char} (hc : c.isDigit = false) (n : Nat) : c ∉ ofNat n := fun h => by
  rw [SetName.isDigit_of_mem_ofNat h] at hc
  cases hc

theorem number_ne_sign {n : Nat} {t : Text} :
    ofNat n ++ t ≠ lit "+" ∧ ofNat n ++ t ≠ lit "-" := by
  have hne : ofNat n ≠ [] := Nat.toDigits_ne_nil
  cases hn : ofNat n with
  | nil => exact absurd hn hne
  | cons c s =>
    have hc : c.isDigit = true := SetName.isDigit_of_mem_ofNat (n := n) (by rw [hn]; simp)
    constructor
    · intro h
      cases (List.cons.inj h).1
      exact absurd hc (by decide)
    · intro h
      cases (List.cons.inj h).1
      exact absurd hc (by decide)

theorem parseRangeOperator_length {n : Nat} (h : n ≤ 128) :
    parseRangeOperator (ofNat n) = some ⟨.length, n, n⟩ := by
  have hsign := number_ne_sign (n := n) (t := [])
  rw [List.append_nil] at hsign
  rw [parseRangeOperator, if_neg hsign.1, if_neg hsign.2,
    cutAt_of_not_mem (not_mem_ofNat (by decide) n)]
  dsimp only
  rw [parseBits_ofNat h]
  rfl

theorem parseRangeOperator_range {n m : Nat} (hnm : n ≤ m) (h : m ≤ 128) :
    parseRangeOperator (ofNat n ++ '-' :: ofNat m) = some ⟨.range, n, m⟩ := by
  have hsign := number_ne_sign (n := n) (t := '-' :: ofNat m)
  rw [parseRangeOperator, if_neg hsign.1, if_neg hsign.2,
    cutAt_append (not_mem_ofNat (by decide) n)]
  dsimp only
  rw [parseBits_ofNat (hnm.trans h), parseBits_ofNat h]
  simp [Nat.not_lt.2 hnm]

/-! ## Ranges -/

/-- The ranges that are read: as the constructors make them, and an empty one only as `^-` leaves
it. -/
structure Written (r : PrefixRange) (p : Prefix) : Prop where
  pfx : r.pfx = some p
  masked : p.masked = p
  lo : p.bits ≤ r.lo
  hi : r.hi ≤ p.bitLen
  window : r.lo ≤ r.hi ∨ r.lo = p.bits + 1 ∧ r.hi = p.bitLen

theorem written_of_parse {s : Text} {r : PrefixRange} (h : parsePrefixRange parse s = some r) :
    ∃ p, Written r p := by
  unfold parsePrefixRange at h
  split at h
  · obtain ⟨p, -, rfl⟩ := Option.map_eq_some_iff.1 h
    exact ⟨p.masked, rfl, Prefix.masked_masked p, le_rfl, p.le, .inl le_rfl⟩
  · split at h
    · cases h
    · rename_i p hp
      split at h
      · cases h
      · rename_i op hop
        split at h
        · cases h
        · rename_i lo hi hw
          cases h
          have hle : p.masked.bits ≤ p.masked.bitLen := p.le
          have hnm := parseRangeOperator_le hop
          refine ⟨p.masked, ?_⟩
          unfold writtenWindow at hw
          split at hw
          · cases hw
            exact ⟨rfl, Prefix.masked_masked p, le_rfl, le_rfl, .inl hle⟩
          · cases hw
            exact ⟨rfl, Prefix.masked_masked p, Nat.le_succ _, le_rfl, .inr ⟨rfl, rfl⟩⟩
          · split_ifs at hw with hout
            cases hw
            rw [not_or, Nat.not_lt, Nat.not_lt] at hout
            exact ⟨rfl, Prefix.masked_masked p, hout.1, hout.2, .inl hnm⟩

theorem PrefixRange.ext_window {r t : PrefixRange} (hp : r.pfx = t.pfx) (hlo : r.lo = t.lo)
    (hhi : r.hi = t.hi) : r = t := by
  obtain ⟨p, lo, hi, wf⟩ := r
  obtain ⟨q, lo', hi', wf'⟩ := t
  cases hp
  cases hlo
  cases hhi
  rfl

theorem text_chars {p : Prefix} {c : Char} (h : c ∈ p.text) : isBlank c = false ∧ c ≠ '^' := by
  have hc : isPrefixChar c = true := netipText.chars p c h
  constructor
  · rw [Bool.eq_false_iff]
    intro hb
    simp only [isBlank, Bool.or_eq_true, beq_iff_eq] at hb
    rcases hb with rfl | rfl
    · exact absurd hc (by decide)
    · exact absurd hc (by decide)
  · rintro rfl
    exact absurd hc (by decide)

theorem parsePrefixRange_plain (hparse : ∀ p : Prefix, parse p.text = some p) {r : PrefixRange}
    {p : Prefix} (hw : Written r p) (hlo : r.lo = p.bits) (hhi : r.hi = p.bits) :
    parsePrefixRange parse p.text = some r := by
  unfold parsePrefixRange
  rw [trimBlank_eq (fun c hc => (text_chars hc).1), cutAt_of_not_mem fun h => (text_chars h).2 rfl]
  dsimp only
  rw [parsePrefix_text hparse, Option.map_some, Option.some.injEq]
  apply PrefixRange.ext_window
  · show some p.masked = r.pfx
    rw [hw.pfx, hw.masked]
  · exact hlo.symm
  · exact hhi.symm

theorem parsePrefixRange_op (hparse : ∀ p : Prefix, parse p.text = some p) {r : PrefixRange}
    {p : Prefix} (hw : Written r p) {o : Text} {op : RangeOperator}
    (hblank : ∀ c ∈ o, isBlank c = false) (hop : parseRangeOperator o = some op)
    (hwin : writtenWindow op p.bits p.bitLen = some (r.lo, r.hi)) :
    parsePrefixRange parse (p.text ++ '^' :: o) = some r := by
  have htrim : trimBlank (p.text ++ '^' :: o) = p.text ++ '^' :: o := by
    apply trimBlank_eq
    intro c hc
    rcases List.mem_append.1 hc with hc | hc
    · exact (text_chars hc).1
    · rcases List.mem_cons.1 hc with rfl | hc
      · decide
      · exact hblank c hc
  unfold parsePrefixRange
  rw [htrim, cutAt_append fun h => (text_chars h).2 rfl]
  dsimp only
  rw [parsePrefix_text hparse]
  dsimp only
  split
  · rename_i hnone
    rw [hop] at hnone
    cases hnone
  · rename_i op' hop'
    cases hop.symm.trans hop'
    have hwin' : writtenWindow op p.masked.bits p.masked.bitLen = some (r.lo, r.hi) := hwin
    split
    · rename_i hnone
      rw [hwin'] at hnone
      cases hnone
    · rename_i lo hi hsome
      cases hwin'.symm.trans hsome
      rw [Option.some.injEq]
      apply PrefixRange.ext_window
      · show some p.masked = r.pfx
        rw [hw.pfx, hw.masked]
      · rfl
      · rfl

/-- **The text of a range that was read is read as the range.** -/
theorem parsePrefixRange_text (hparse : ∀ p : Prefix, parse p.text = some p) {r : PrefixRange}
    {p : Prefix} (hw : Written r p) : parsePrefixRange parse (r.text netipText) = some r := by
  have hlo := hw.lo
  have hhi := hw.hi
  have hwin := hw.window
  have hle : p.bits ≤ p.bitLen := p.le
  have hmax : p.bitLen ≤ 128 := p.fam.width_le
  have hdigit : ∀ n, ∀ c ∈ ofNat n, isBlank c = false := by
    intro n c hc
    have hd := SetName.isDigit_of_mem_ofNat hc
    rw [Bool.eq_false_iff]
    intro hb
    simp only [isBlank, Bool.or_eq_true, beq_iff_eq] at hb
    rcases hb with rfl | rfl
    · cases hd
    · cases hd
  unfold PrefixRange.text
  rw [hw.pfx]
  dsimp only [netipText]
  unfold PrefixRange.rangeOp
  -- the operator by the window, in the order `Op` asks
  split_ifs with hexact hplus hminus hlen
  · exact parsePrefixRange_plain hparse hw hexact.1 hexact.2
  · have hop : parseRangeOperator (lit "+") = some ⟨.plus, 0, 0⟩ := by decide +kernel
    have hblank : ∀ c ∈ lit "+", isBlank c = false := by
      intro c hc
      rw [List.mem_singleton.1 (show c ∈ ['+'] from hc)]
      rfl
    apply parsePrefixRange_op hparse hw hblank hop
    rw [hplus.1, hplus.2]
    rfl
  · have hop : parseRangeOperator (lit "-") = some ⟨.minus, 0, 0⟩ := by decide +kernel
    have hblank : ∀ c ∈ lit "-", isBlank c = false := by
      intro c hc
      rw [List.mem_singleton.1 (show c ∈ ['-'] from hc)]
      rfl
    apply parsePrefixRange_op hparse hw hblank hop
    rw [hminus.1, hminus.2]
    rfl
  · apply parsePrefixRange_op hparse hw (hdigit _) (parseRangeOperator_length (by omega))
    rw [writtenWindow]
    dsimp only
    rw [if_neg (by omega), hlen]
  · have hle' : r.lo ≤ r.hi := by omega
    dsimp only
    rw [List.append_assoc, List.cons_append]
    apply parsePrefixRange_op hparse hw ?_ (parseRangeOperator_range hle' (by omega))
    · rw [writtenWindow]
      dsimp only
      rw [if_neg (by omega)]
    · intro c hc
      rcases List.mem_append.1 hc with hc | hc
      · exact hdigit _ c hc
      · rcases List.mem_cons.1 hc with rfl | hc
        · decide
        · exact hdigit _ c hc

end

/-! ## What ranges and operators mean -/

theorem PrefixRange.exists_mem_denote {r : PrefixRange} (h : r.isEmpty = false) :
    ∃ q, q ∈ r.denote := by
  obtain ⟨p, hb, hle⟩ := isEmpty_eq_false_iff.1 h
  obtain ⟨hp, hlo, hhi, -⟩ := pfx_wf hb
  have hmem : slot p r.lo 0 ∈ listAt p r.lo :=
    List.mem_map_of_mem (List.mem_range.2 (Nat.two_pow_pos _))
  obtain ⟨hm, hbits, hc⟩ := (mem_listAt hp hlo (hle.trans hhi)).1 hmem
  exact ⟨⟨_, hm⟩, contains_iff.2 ⟨p, hb, hbits.ge, hbits.le.trans hle, hc⟩⟩

/-- What `Apply`, `Intersect`, `All` and `Materialize` make of a range. -/
structure RangeMeaning (r : PrefixRange) : Prop where
  /-- An operator makes what it allows of the prefixes denoted, if it allows any. -/
  apply_denote : ∀ o : RangeOperator, ∀ s, parseRangeOperator s = some o →
    ((o.apply r).isSome = true ↔ ∃ q, q ∈ o.image r.denote) ∧
      ∀ t, o.apply r = some t → t.denote = o.image r.denote
  /-- The intersection denotes what both do, if they share any. -/
  intersect_denote : ∀ s : PrefixRange,
    ((r.intersect s).isSome = true ↔ ∃ q, q ∈ r.denote ∩ s.denote) ∧
      ∀ t, r.intersect s = some t → t.denote = r.denote ∩ s.denote
  /-- What is denoted is enumerated, in order, and collected up to a cap. -/
  enumerate : ∃ ps : List Prefix, ps.Pairwise Prefix.Before ∧
    (∀ p, p ∈ ps ↔ p.masked = p ∧ r.contains p = true) ∧
    ∃ n, ∀ fuel ≥ n, r.all fuel = some (ps.map some) ∧
      ∀ cap : Int, cap < 2 ^ 31 → r.materialize fuel cap =
        some (if (ps.length : Int) ≤ cap then .ok (ps.map some) else .error .tooManyPrefixes)

/-- **Range operators and prefix ranges mean what they say**, and a range is read back from its
text. -/
theorem prefixRange_meaning (parse : Text → Option Prefix)
    (hparse : ∀ p : Prefix, parse p.text = some p) :
    (∀ r : PrefixRange, r.isEmpty = false → RangeMeaning r) ∧
      ∀ s r, parsePrefixRange parse s = some r →
        parsePrefixRange parse (r.text netipText) = some r := by
  constructor
  · intro r hr
    refine ⟨fun o _ _ => ?_, fun s => ?_, ?_⟩
    · have himage := o.apply_denote r
      have hden : ∀ t, o.apply r = some t → t.denote = o.image r.denote := by
        intro t ht
        rw [himage]
        ext q
        simp [ht]
      refine ⟨⟨fun h => ?_, fun h => ?_⟩, hden⟩
      · obtain ⟨t, ht⟩ := Option.isSome_iff_exists.1 h
        obtain ⟨q, hq⟩ := PrefixRange.exists_mem_denote (RangeOperator.isEmpty_apply hr ht)
        rw [hden t ht] at hq
        exact ⟨q, hq⟩
      · obtain ⟨q, hq⟩ := h
        rw [himage] at hq
        obtain ⟨t, ht, -⟩ := hq
        rw [ht]
        rfl
    · have hden : ∀ t, r.intersect s = some t → t.denote = r.denote ∩ s.denote := by
        intro t ht
        ext q
        rw [Set.mem_inter_iff, PrefixRange.mem_denote, PrefixRange.mem_denote,
          PrefixRange.mem_denote, r.intersect_contains s q.1]
        simp [ht]
      refine ⟨⟨fun h => ?_, fun h => ?_⟩, hden⟩
      · obtain ⟨t, ht⟩ := Option.isSome_iff_exists.1 h
        obtain ⟨q, hq⟩ := PrefixRange.exists_mem_denote (PrefixRange.isEmpty_intersect ht)
        rw [hden t ht] at hq
        exact ⟨q, hq⟩
      · obtain ⟨q, hq⟩ := h
        obtain ⟨t, ht, -⟩ := (r.intersect_contains s q.1).1 hq
        rw [ht]
        rfl
    · obtain ⟨n, hall⟩ := r.all_eq
      obtain ⟨m, hmat⟩ := PrefixRange.materialize_eq hr
      refine ⟨r.listOf, r.pairwise_listOf, fun p => PrefixRange.mem_listOf, max n m,
        fun fuel hfuel => ⟨hall fuel ?_, hmat fuel ?_⟩⟩
      · exact (Nat.le_max_left n m).trans hfuel
      · exact (Nat.le_max_right n m).trans hfuel
  · intro s r h
    obtain ⟨p, hw⟩ := written_of_parse h
    exact parsePrefixRange_text hparse hw

/-- A reading of what `net/netip` writes: there is one, as no two prefixes are written alike. -/
noncomputable def readText (s : Text) : Option Prefix :=
  open Classical in if h : ∃ p : Prefix, p.text = s then some h.choose else none

theorem readText_text (p : Prefix) : readText p.text = some p := by
  have h : ∃ q : Prefix, q.text = p.text := ⟨p, rfl⟩
  rw [readText, dif_pos h]
  exact congrArg some (netipText.inj h.choose_spec)

/-- A host route's `^-`, which denotes nothing, is read back too. -/
theorem hostRoute_minus_read : ∃ r : PrefixRange, r.isEmpty = true ∧
    parsePrefixRange readText (r.text netipText) = some r := by
  let p : Prefix := ⟨⟨.v4, 0xc0000201⟩, 32, le_rfl⟩
  have hmask : p.masked = p := by decide +kernel
  let r : PrefixRange := ⟨some p, 33, 32, hmask, by decide, le_rfl, .inr ⟨rfl, rfl⟩⟩
  have hw : Written r p := ⟨rfl, hmask, Nat.le_succ 32, le_rfl, .inr ⟨rfl, rfl⟩⟩
  have hread := parsePrefixRange_text readText_text hw
  exact ⟨r, rfl, (prefixRange_meaning readText readText_text).2 _ r hread⟩

end Rpsl
