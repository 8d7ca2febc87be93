import Rpsl.Types.Proof.SpaceExact

/-!
# The ranges of a space

`PrefixSpace.Ranges` lists the space: its ranges denote exactly the prefixes the space contains.
Each node gives one range for each run of lengths in its mask.
-/

namespace Rpsl

namespace SpaceNode

/-! ## Runs of lengths -/

theorem runEnd_spec (m : LenMask) (rem hi : Nat) :
    hi ≤ runEnd m rem hi ∧ runEnd m rem hi ≤ hi + rem ∧
      ∀ x, hi < x → x ≤ runEnd m rem hi → m.has x = true := by
  induction rem generalizing hi with
  | zero => exact ⟨Nat.le_refl hi, Nat.le_refl hi, fun x h h' => absurd h (Nat.not_lt.2 h')⟩
  | succ rem ih =>
    unfold runEnd
    split
    · rename_i hm
      obtain ⟨h1, h2, h3⟩ := ih (hi + 1)
      refine ⟨by omega, by omega, fun x h h' => ?_⟩
      by_cases hx : x = hi + 1
      · rw [hx, hm]
      · exact h3 x (by omega) h'
    · exact ⟨Nat.le_refl hi, by omega, fun x h h' => absurd h (Nat.not_lt.2 h')⟩

/-- **The runs from `l` on hold the lengths of the mask from `l` on.** -/
theorem mem_runs (m : LenMask) (width fuel l x : Nat) (hf : width < l + fuel) :
    (∃ w ∈ runs m width fuel l, w.1 ≤ x ∧ x ≤ w.2) ↔ l ≤ x ∧ x ≤ width ∧ m.has x = true := by
  induction fuel generalizing l with
  | zero =>
    simp only [runs, List.not_mem_nil, false_and, exists_false, false_iff]
    omega
  | succ fuel ih =>
    unfold runs
    split
    · simp only [List.not_mem_nil, false_and, exists_false, false_iff]
      omega
    split
    · rename_i hm
      rw [ih (l + 1) (by omega)]
      by_cases hx : x = l
      · subst hx
        simp_all
      · simp only [and_congr_left_iff]
        omega
    · rename_i hw hm
      obtain ⟨h1, h2, h3⟩ := runEnd_spec m (width - l) l
      simp only [List.mem_cons, exists_eq_or_imp]
      rw [ih _ (by omega)]
      by_cases hx : x ≤ runEnd m (width - l) l
      · by_cases hl : x = l
        · subst hl
          simp_all
        · have := h3 x
          refine ⟨fun h => ⟨by omega, by omega, this (by omega) hx⟩, fun h => .inl ⟨h.1, hx⟩⟩
      · refine ⟨fun h => ?_, fun h => .inr ⟨by omega, h.2⟩⟩
        rcases h with h | h
        · omega
        · exact ⟨by omega, h.2⟩

theorem runs_bounds (m : LenMask) (width fuel l : Nat) :
    ∀ w ∈ runs m width fuel l, l ≤ w.1 ∧ w.1 ≤ w.2 ∧ w.2 ≤ width := by
  induction fuel generalizing l with
  | zero => simp [runs]
  | succ fuel ih =>
    unfold runs
    split
    · simp
    split
    · intro w hw
      obtain ⟨h1, h2⟩ := ih (l + 1) w hw
      exact ⟨by omega, h2⟩
    · obtain ⟨h1, h2, -⟩ := runEnd_spec m (width - l) l
      intro w hw
      rcases List.mem_cons.1 hw with rfl | hw
      · exact ⟨Nat.le_refl l, h1, by omega⟩
      · obtain ⟨h3, h4⟩ := ih _ w hw
        exact ⟨by omega, h4⟩

/-! ## One family's trie -/

theorem contains_nodeRanges (f : Family) (m : LenMask) (bs : List Bool) (q : Prefix)
    (hq : q.fam = f) :
    (∃ r ∈ (runs m f.width (f.width + 1) bs.length).filterMap (fun w =>
        (prefixAt f bs).bind fun p => PrefixRange.new p w.1 w.2), r.contains q = true) ↔
      bs <+: q.path ∧ m.has q.bits = true := by
  have hle : q.bits ≤ f.width := hq ▸ q.le
  have hruns := mem_runs m f.width (f.width + 1) bs.length q.bits (by omega)
  by_cases hbs : bs.length ≤ f.width
  · have hp : prefixAt f bs = some (Prefix.ofPath f bs hbs) := dif_pos hbs
    have hcov : (Prefix.ofPath f bs hbs).Covers q ↔ bs <+: q.path := by
      simp [Prefix.Covers, hq]
    simp only [List.mem_filterMap, hp, Option.bind_some]
    refine ⟨fun h => ?_, fun h => ?_⟩
    · obtain ⟨r, ⟨w, hw, hr⟩, hc⟩ := h
      obtain ⟨h1, h2, h3⟩ := (PrefixRange.contains_new hr q).1 hc
      exact ⟨hcov.1 h3, (hruns.1 ⟨w, hw, h1, h2⟩).2.2⟩
    · obtain ⟨hpre, hm⟩ := h
      have hlen : bs.length ≤ q.bits := by simpa using hpre.length_le
      obtain ⟨w, hw, h1, h2⟩ := hruns.2 ⟨hlen, hle, hm⟩
      obtain ⟨b1, b2, b3⟩ := runs_bounds _ _ _ _ w hw
      cases hr : PrefixRange.new (Prefix.ofPath f bs hbs) w.1 w.2 with
      | none =>
        have hbl : (Prefix.ofPath f bs hbs).bitLen = f.width := rfl
        have := PrefixRange.new_eq_none hr
        rw [hbl, Prefix.ofPath_bits] at this
        omega
      | some r => exact ⟨r, ⟨w, hw, hr⟩, (PrefixRange.contains_new hr q).2 ⟨h1, h2, hcov.2 hpre⟩⟩
  · -- no prefix is so long: neither side holds
    have hp : prefixAt f bs = none := dif_neg hbs
    refine ⟨fun h => ?_, fun h => ?_⟩
    · obtain ⟨r, hr, -⟩ := h
      simp [hp] at hr
    · have hlen : bs.length ≤ q.bits := by simpa using h.1.length_le
      omega

/-- **The ranges below a node denote what the trie holds below it.** -/
theorem contains_walkRanges (f : Family) (n : SpaceNode) (bs : List Bool) (q : Prefix)
    (hq : q.fam = f) :
    (∃ r ∈ n.walkRanges f bs, r.contains q = true) ↔
      ∃ suf, q.path = bs ++ suf ∧ n.holds bs.length suf = true := by
  induction n generalizing bs with
  | nil => simp [walkRanges]
  | node m c0 c1 ih0 ih1 =>
    have hbits : ∀ suf, q.path = bs ++ suf → q.bits = bs.length + suf.length := by
      intro suf h
      rw [← q.path_length, h, List.length_append]
    simp only [walkRanges, List.mem_append, or_and_right, exists_or]
    rw [contains_nodeRanges f m bs q hq, ih0, ih1]
    refine ⟨fun h => ?_, fun ⟨suf, hs, hh⟩ => ?_⟩
    · rcases h with ⟨⟨suf, hs⟩, hm⟩ | ⟨suf, hs, hh⟩ | ⟨suf, hs, hh⟩
      · refine ⟨suf, hs.symm, ?_⟩
        unfold holds
        rw [← hbits suf hs.symm, hm, Bool.true_or]
      · refine ⟨false :: suf, by simpa using hs, ?_⟩
        rw [holds_cons, kid_node_false, Bool.or_eq_true]
        exact .inr (by simpa using hh)
      · refine ⟨true :: suf, by simpa using hs, ?_⟩
        rw [holds_cons, kid_node_true, Bool.or_eq_true]
        exact .inr (by simpa using hh)
    · cases suf with
      | nil =>
        rw [holds_empty, mask_node] at hh
        exact .inl ⟨⟨[], hs.symm⟩, by rw [hbits [] hs]; exact hh⟩
      | cons b suf =>
        rw [holds_cons, mask_node, Bool.or_eq_true] at hh
        rcases hh with hh | hh
        · refine .inl ⟨⟨b :: suf, hs.symm⟩, ?_⟩
          rw [hbits _ hs, List.length_cons, ← Nat.add_assoc]
          exact hh
        · cases b
          · exact .inr (.inl ⟨suf, by simpa using hs, by simpa using hh⟩)
          · exact .inr (.inr ⟨suf, by simpa using hs, by simpa using hh⟩)

theorem walkRanges_fam (f : Family) (n : SpaceNode) (bs : List Bool) :
    ∀ r ∈ n.walkRanges f bs, ∀ q : Prefix, r.contains q = true → q.fam = f := by
  induction n generalizing bs with
  | nil => simp [walkRanges]
  | node m c0 c1 ih0 ih1 =>
    intro r hr q hc
    simp only [walkRanges, List.mem_append, List.mem_filterMap, Option.bind_eq_some_iff] at hr
    rcases hr with ⟨w, -, p, hp, hr⟩ | hr | hr
    · unfold prefixAt at hp
      split at hp
      · cases hp
        exact ((PrefixRange.contains_new hr q).1 hc).2.2.1.symm
      · cases hp
    · exact ih0 _ r hr q hc
    · exact ih1 _ r hr q hc

end SpaceNode

/-- **`Ranges` lists the space**: its ranges denote exactly the prefixes the space contains. -/
theorem PrefixSpace.contains_ranges (s : PrefixSpace) (q : Prefix) :
    (∃ r ∈ s.ranges, r.contains q = true) ↔ s.contains q = true := by
  have hroot : ∀ f, q.fam = f → ((∃ r ∈ (s.root f).walkRanges f [], r.contains q = true) ↔
      s.contains q = true) := by
    intro f hf
    rw [SpaceNode.contains_walkRanges f _ [] q hf, contains_eq_holds, hf]
    simp
  have hother : ∀ f, q.fam ≠ f → ¬ ∃ r ∈ (s.root f).walkRanges f [], r.contains q = true :=
    fun f hf ⟨r, hr, hc⟩ => hf (SpaceNode.walkRanges_fam f _ _ r hr q hc)
  simp only [ranges, List.mem_append, or_and_right, exists_or]
  cases hf : q.fam with
  | v4 =>
    rw [← hroot .v4 hf]
    exact or_iff_left (hother .v6 (by simp [hf]))
  | v6 =>
    rw [← hroot .v6 hf]
    exact or_iff_right (hother .v4 (by simp [hf]))

end Rpsl
