import Rpsl.Types.AddrText
import Rpsl.Types.RangeText
import Rpsl.Types.Proof.Order
import Rpsl.Types.Proof.SetNameText

/-!
# Addresses are known by their texts

An IPv6 address is read back from the pieces between the colons of its text: those before the first
empty one, those after it, and zeros between them. With it `netip.Prefix.String` is a `PrefixText`
(`netipText`).
-/

namespace Rpsl

open Text

/-! ## Hexadecimal numbers -/

def hexVal (c : Char) : Nat := if c.isDigit then c.toNat - 48 else c.toNat - 87

def hexNumber (s : Text) : Nat := s.foldl (fun n c => 16 * n + hexVal c) 0

theorem hexNumber_toDigits (n : Nat) : hexNumber (Nat.toDigits 16 n) = n := by
  have hdigit : ∀ d < 16, hexVal (Nat.digitChar d) = d := by decide
  induction n using Nat.strongRecOn with
  | ind n ih =>
    rw [Nat.toDigits_eq_if (by decide)]
    split_ifs with hn
    · simp [hexNumber, hdigit n hn]
    · have hstep : hexNumber (Nat.toDigits 16 (n / 16) ++ [(n % 16).digitChar]) =
          16 * hexNumber (Nat.toDigits 16 (n / 16)) + hexVal (n % 16).digitChar := by
        simp [hexNumber]
      rw [hstep, ih (n / 16) (by omega), hdigit _ (Nat.mod_lt _ (by decide))]
      omega

def isHexChar (c : Char) : Bool := c.isDigit || ('a' ≤ c && c ≤ 'f')

variable {n : Nat} {c : Char}

theorem isHexChar_of_mem (h : c ∈ Nat.toDigits 16 n) :
    isHexChar c = true := by
  have hdigit : ∀ d < 16, isHexChar (Nat.digitChar d) = true := by decide
  induction n using Nat.strongRecOn with
  | ind n ih =>
    rw [Nat.toDigits_eq_if (by decide)] at h
    split_ifs at h with hn
    · rw [List.mem_singleton.1 h]
      exact hdigit n hn
    · rcases List.mem_append.1 h with h | h
      · exact ih (n / 16) (by omega) h
      · rw [List.mem_singleton.1 h]
        exact hdigit _ (Nat.mod_lt _ (by decide))

theorem colon_not_mem_toDigits (n : Nat) : ':' ∉ Nat.toDigits 16 n := fun h =>
  absurd (isHexChar_of_mem h) (by decide)

/-! ## Groups -/

variable {gs : List Nat}

theorem zeroGap_spec {i j : Nat} (h : zeroGap gs = some (i, j)) :
    i ≤ j ∧ j ≤ gs.length ∧ gs = gs.take i ++ List.replicate (j - i) 0 ++ gs.drop j := by
  have hrun : ∀ l : List Nat, zeroRun l ≤ l.length ∧
      l = List.replicate (zeroRun l) 0 ++ l.drop (zeroRun l) := by
    intro l
    induction l with
    | nil => exact ⟨le_rfl, rfl⟩
    | cons g l ih =>
      by_cases hg : g = 0
      · have hz : zeroRun (g :: l) = zeroRun l + 1 := by simp [zeroRun, hg]
        rw [hz, List.replicate_succ, List.drop_succ_cons, List.cons_append, ← ih.2]
        exact ⟨Nat.succ_le_succ ih.1, by rw [hg]⟩
      · have hz : zeroRun (g :: l) = 0 := by simp [zeroRun, hg]
        rw [hz]
        exact ⟨Nat.zero_le _, rfl⟩
  -- the fold keeps the start of a run and its end
  have hfold : ∀ (is : List Nat) (best : Option (Nat × Nat)),
      (∀ b ∈ best, b.1 ≤ gs.length ∧ b.2 = b.1 + zeroRun (gs.drop b.1)) →
      (∀ i ∈ is, i ≤ gs.length) →
      ∀ b ∈ is.foldl (fun best i =>
        let l := zeroRun (gs.drop i)
        if 2 ≤ l ∧ (best.elim 0 fun b => b.2 - b.1) < l then some (i, i + l) else best) best,
        b.1 ≤ gs.length ∧ b.2 = b.1 + zeroRun (gs.drop b.1) := by
    intro is
    induction is with
    | nil => intro best hbest _ b hb; exact hbest b hb
    | cons i is ih =>
      intro best hbest his
      rw [List.foldl_cons]
      apply ih
      · intro b hb
        dsimp only at hb
        split_ifs at hb
        · cases hb
          exact ⟨his i List.mem_cons_self, rfl⟩
        · exact hbest b hb
      · exact fun k hk => his k (List.mem_cons_of_mem _ hk)
  obtain ⟨hi, hj⟩ := hfold (List.range gs.length) none (by simp)
    (fun k hk => (List.mem_range.1 hk).le) (i, j) h
  dsimp only at hi hj
  obtain ⟨hlen, hzeros⟩ := hrun (gs.drop i)
  rw [List.length_drop] at hlen
  refine ⟨by omega, by omega, ?_⟩
  have hsplit := List.take_append_drop i gs
  rw [hzeros, List.drop_drop, ← List.append_assoc] at hsplit
  rw [show j - i = zeroRun (gs.drop i) by omega, hj]
  exact hsplit.symm

def pieces (gs : List Nat) : List Text := if gs = [] then [[]] else gs.map (Nat.toDigits 16)

theorem pieces_ne_nil (gs : List Nat) : pieces gs ≠ [] := by
  unfold pieces
  split_ifs with h
  · simp
  · simpa using h

theorem hexGroups_eq (gs : List Nat) : hexGroups gs = [':'].intercalate (pieces gs) := by
  unfold hexGroups pieces
  split_ifs with h
  · rw [h]
    rfl
  · rfl

theorem colon_not_mem_pieces : ∀ t ∈ pieces gs, ':' ∉ t := by
  intro t ht
  unfold pieces at ht
  split_ifs at ht
  · simp_all
  · obtain ⟨n, -, rfl⟩ := List.mem_map.1 ht
    exact colon_not_mem_toDigits n

def groupPieces (gs : List Nat) : List Text :=
  match zeroGap gs with
  | none => pieces gs
  | some (i, j) => pieces (gs.take i) ++ [] :: pieces (gs.drop j)

def groupsText (gs : List Nat) : Text :=
  match zeroGap gs with
  | none => hexGroups gs
  | some (i, j) => hexGroups (gs.take i) ++ lit "::" ++ hexGroups (gs.drop j)

theorem intercalate_append {sep : Text} {xs ys : List Text} (hx : xs ≠ []) (hy : ys ≠ []) :
    sep.intercalate (xs ++ ys) = sep.intercalate xs ++ sep ++ sep.intercalate ys := by
  induction xs with
  | nil => exact absurd rfl hx
  | cons x xs ih =>
    cases xs with
    | nil =>
      cases ys with
      | nil => exact absurd rfl hy
      | cons y ys => simp [List.intercalate_cons_cons]
    | cons x' xs =>
      rw [List.cons_append, List.cons_append, List.intercalate_cons_cons, ← List.cons_append,
        ih (by simp), List.intercalate_cons_cons]
      simp

theorem groupsText_eq (gs : List Nat) : groupsText gs = [':'].intercalate (groupPieces gs) := by
  unfold groupsText groupPieces
  cases zeroGap gs with
  | none => exact hexGroups_eq gs
  | some b =>
    obtain ⟨i, j⟩ := b
    dsimp only
    rw [intercalate_append (pieces_ne_nil _) (by simp), hexGroups_eq, hexGroups_eq]
    cases hp : pieces (gs.drop j) with
    | nil => exact absurd hp (pieces_ne_nil _)
    | cons p ps =>
      rw [List.intercalate_cons_cons, List.nil_append, List.append_assoc, List.append_assoc]
      rfl

def readGroups (ts : List Text) : List Nat :=
  let before := (ts.takeWhile (· ≠ [])).map hexNumber
  let after := ((ts.dropWhile (· ≠ [])).filter (· ≠ [])).map hexNumber
  before ++ List.replicate (8 - before.length - after.length) 0 ++ after

theorem hexNumber_map (gs : List Nat) : (gs.map (Nat.toDigits 16)).map hexNumber = gs := by
  rw [List.map_map]
  conv_rhs => rw [← List.map_id gs]
  exact List.map_congr_left fun n _ => hexNumber_toDigits n

theorem readGroups_groupPieces (h : gs.length = 8) :
    readGroups (groupPieces gs) = gs := by
  have hne : ∀ (l : List Nat), ∀ t ∈ l.map (Nat.toDigits 16), decide (t ≠ []) = true := by
    intro l t ht
    obtain ⟨n, -, rfl⟩ := List.mem_map.1 ht
    simp [Nat.toDigits_ne_nil]
  have hfilter : ∀ l : List Nat, ((pieces l).filter (· ≠ [])).map hexNumber = l := by
    intro l
    unfold pieces
    split_ifs with hl
    · simp [hl]
    · rw [List.filter_eq_self.2 (hne l), hexNumber_map]
  unfold groupPieces
  cases hgap : zeroGap gs with
  | none =>
    have hgs : gs ≠ [] := by
      rintro rfl
      cases h
    have htake : (gs.map (Nat.toDigits 16)).takeWhile (· ≠ []) = gs.map (Nat.toDigits 16) :=
      List.takeWhile_eq_self_iff.2 (hne gs)
    have hdrop : (gs.map (Nat.toDigits 16)).dropWhile (· ≠ []) = [] :=
      List.dropWhile_eq_nil_iff.2 (hne gs)
    simp only [pieces, hgs, if_false, readGroups, htake, hdrop, hexNumber_map, h]
    simp
  | some b =>
    obtain ⟨i, j⟩ := b
    obtain ⟨hij, hj, hzeros⟩ := zeroGap_spec hgap
    -- the first empty piece is the gap's, or one of no groups before it
    have hsplit : ∀ l m : List Nat, readGroups (pieces l ++ [] :: pieces m) =
        l ++ List.replicate (8 - l.length - m.length) 0 ++ m := by
      intro l m
      have hafter : (([] :: pieces m).filter (· ≠ [])).map hexNumber = m := by
        rw [List.filter_cons_of_neg (by simp), hfilter]
      by_cases hl : l = []
      · subst hl
        have hcons : pieces [] ++ [] :: pieces m = [] :: [] :: pieces m := rfl
        have hskip : (([] :: [] :: pieces m).filter (· ≠ [])).map hexNumber = m := by
          rw [List.filter_cons_of_neg (by simp), hafter]
        simp only [readGroups, hcons, List.takeWhile_cons, List.dropWhile_cons, ne_eq,
          not_true_eq_false, decide_false, Bool.false_eq_true, if_false, List.map_nil,
          List.nil_append]
        simp only [ne_eq] at hskip
        rw [hskip]
      · have htake : (pieces l ++ [] :: pieces m).takeWhile (· ≠ []) = l.map (Nat.toDigits 16) := by
          rw [pieces, if_neg hl, List.takeWhile_append_of_pos (hne l)]
          simp
        have hdrop : (pieces l ++ [] :: pieces m).dropWhile (· ≠ []) = [] :: pieces m := by
          rw [pieces, if_neg hl, List.dropWhile_append_of_pos (hne l)]
          simp
        rw [readGroups, htake, hdrop, hafter, hexNumber_map]
    dsimp only
    rw [hsplit, List.length_take, List.length_drop, h, Nat.min_eq_left (by omega),
      show 8 - i - (8 - j) = j - i by omega]
    exact hzeros.symm

theorem groupsText_inj {hs : List Nat} (hg : gs.length = 8) (hh : hs.length = 8)
    (h : groupsText gs = groupsText hs) : gs = hs := by
  have hcolon : ∀ gs : List Nat, ∀ t ∈ groupPieces gs, ':' ∉ t := by
    intro gs t ht
    unfold groupPieces at ht
    split at ht
    · exact colon_not_mem_pieces t ht
    · rcases List.mem_append.1 ht with ht | ht
      · exact colon_not_mem_pieces t ht
      · rcases List.mem_cons.1 ht with rfl | ht
        · exact List.not_mem_nil
        · exact colon_not_mem_pieces t ht
  have hne : ∀ gs : List Nat, groupPieces gs ≠ [] := by
    intro gs
    unfold groupPieces
    split
    · exact pieces_ne_nil _
    · simp
  rw [groupsText_eq, groupsText_eq] at h
  have hpieces := congrArg (List.splitOn ':') h
  rw [List.splitOn_intercalate _ (hcolon gs) (hne gs),
    List.splitOn_intercalate _ (hcolon hs) (hne hs)] at hpieces
  rw [← readGroups_groupPieces hg, hpieces, readGroups_groupPieces hh]

/-! ## Addresses -/

theorem mem_dotted (h : c ∈ dotted n) : c.isDigit = true ∨ c = '.' := by
  rcases Lib.mem_intercalate h with h | h
  · exact .inr (List.mem_singleton.1 h)
  · obtain ⟨t, ht, hc⟩ := h
    obtain ⟨low, -, rfl⟩ := List.mem_map.1 ht
    exact .inl (SetName.isDigit_of_mem_ofNat hc)

theorem splitOn_dotted (n : Nat) :
    (dotted n).splitOn '.' = [24, 16, 8, 0].map fun low => ofNat (groupOf n 8 low) := by
  apply List.splitOn_intercalate
  · intro t ht
    obtain ⟨low, -, rfl⟩ := List.mem_map.1 ht
    exact fun h => absurd (SetName.isDigit_of_mem_ofNat h) (by decide)
  · simp

theorem ofNat_injective : Function.Injective ofNat := by
  intro n m h
  have hn : Nat.ofDigitChars 10 (ofNat n) 0 = n := Nat.ofDigitChars_toDigits (by decide) (by decide)
  rw [h] at hn
  exact hn.symm.trans (Nat.ofDigitChars_toDigits (by decide) (by decide))

theorem dotted_inj {m : Nat} (hn : n < 2 ^ 32) (hm : m < 2 ^ 32) (h : dotted n = dotted m) :
    n = m := by
  have hpieces := congrArg (List.splitOn '.') h
  rw [splitOn_dotted, splitOn_dotted] at hpieces
  simp only [List.map_cons, List.map_nil, List.cons.injEq, ofNat_injective.eq_iff, groupOf,
    and_true] at hpieces
  omega

def groupsOf (n : Nat) : List Nat := [112, 96, 80, 64, 48, 32, 16, 0].map (groupOf n 16)

theorem groupsOf_inj {m : Nat} (hn : n < 2 ^ 128) (hm : m < 2 ^ 128)
    (h : groupsOf n = groupsOf m) : n = m := by
  simp only [groupsOf, List.map_cons, List.map_nil, List.cons.injEq, groupOf, and_true] at h
  omega

theorem text_v4 (v : BitVec Family.v4.width) : Addr.text ⟨.v4, v⟩ = dotted v.toNat := rfl

theorem text_v6 (v : BitVec Family.v6.width) : Addr.text ⟨.v6, v⟩ =
    if v.toNat / 2 ^ 32 = 0xffff then lit "::ffff:" ++ dotted (v.toNat % 2 ^ 32)
    else groupsText (groupsOf v.toNat) := rfl

theorem mem_groupsText (h : c ∈ groupsText gs) :
    isHexChar c = true ∨ c = ':' := by
  have hgroups : ∀ {l : List Nat}, c ∈ hexGroups l → isHexChar c = true ∨ c = ':' := by
    intro l h
    rcases Lib.mem_intercalate h with h | h
    · exact .inr (List.mem_singleton.1 h)
    · obtain ⟨t, ht, hc⟩ := h
      obtain ⟨n, -, rfl⟩ := List.mem_map.1 ht
      exact .inl (isHexChar_of_mem hc)
  unfold groupsText at h
  split at h
  · exact hgroups h
  · rcases List.mem_append.1 h with h | h
    · rcases List.mem_append.1 h with h | h
      · exact hgroups h
      · right
        fin_cases h <;> rfl
    · exact hgroups h

theorem colon_mem_v6 (v : BitVec Family.v6.width) : ':' ∈ Addr.text ⟨.v6, v⟩ := by
  rw [text_v6]
  split_ifs
  · exact List.mem_append_left _ (by decide)
  · unfold groupsText
    split
    · simp [groupsOf, hexGroups, List.intercalate_cons_cons]
    · exact List.mem_append_left _ (List.mem_append_right _ (by decide))

theorem colon_not_mem_v4 (v : BitVec Family.v4.width) : ':' ∉ Addr.text ⟨.v4, v⟩ := by
  intro h
  rcases mem_dotted h with h | h
  · exact absurd h (by decide)
  · exact absurd h (by decide)

theorem isPrefixChar_of_mem_addr {a : Addr} (h : c ∈ a.text) :
    isPrefixChar c = true ∧ c ≠ '/' := by
  have hdot : c.isDigit = true ∨ c = '.' → isPrefixChar c = true ∧ c ≠ '/' := by
    intro h
    rcases h with h | rfl
    · refine ⟨by simp [isPrefixChar, h], ?_⟩
      rintro rfl
      cases h
    · decide
  obtain ⟨f, v⟩ := a
  cases f with
  | v4 => exact hdot (mem_dotted h)
  | v6 =>
    rw [text_v6] at h
    split_ifs at h
    · rcases List.mem_append.1 h with h | h
      · fin_cases h <;> decide
      · exact hdot (mem_dotted h)
    · rcases mem_groupsText h with h | rfl
      · unfold isHexChar at h
        refine ⟨by simp only [isPrefixChar, h, Bool.true_or], ?_⟩
        rintro rfl
        revert h
        decide
      · decide

theorem Addr.text_injective : Function.Injective Addr.text := by
  intro a b h
  obtain ⟨f, x⟩ := a
  obtain ⟨g, y⟩ := b
  cases f with
  | v4 =>
    cases g with
    | v4 => exact Addr.ext_toNat rfl (dotted_inj x.isLt y.isLt h)
    | v6 => exact absurd (h ▸ colon_mem_v6 y) (colon_not_mem_v4 x)
  | v6 =>
    cases g with
    | v4 => exact absurd (h ▸ colon_mem_v6 x) (colon_not_mem_v4 y)
    | v6 =>
      have hx : x.toNat < 2 ^ 128 := x.isLt
      have hy : y.toNat < 2 ^ 128 := y.isLt
      have hdot : ∀ n, '.' ∈ dotted n := by
        intro n
        simp [dotted, List.intercalate_cons_cons]
      have hno : ∀ gs, '.' ∉ groupsText gs := by
        intro gs hmem
        rcases mem_groupsText hmem with h | h
        · exact absurd h (by decide)
        · exact absurd h (by decide)
      rw [text_v6, text_v6] at h
      suffices hval : x.toNat = y.toNat by rw [BitVec.eq_of_toNat_eq hval]
      split_ifs at h with hx4 hy4 hy4
      · have := dotted_inj (Nat.mod_lt _ (by decide)) (Nat.mod_lt _ (by decide))
          (List.append_cancel_left h)
        omega
      · exact absurd (h ▸ List.mem_append_right _ (hdot _)) (hno _)
      · exact absurd (h ▸ List.mem_append_right _ (hdot _)) (hno _)
      · exact groupsOf_inj hx hy (groupsText_inj rfl rfl h)

/-! ## Prefixes -/

/-- `netip.Prefix.String` tells prefixes apart. -/
def netipText : PrefixText where
  text := Prefix.text
  inj := by
    intro p q h
    have hslash : ∀ a : Addr, '/' ∉ a.text := fun a ha => (isPrefixChar_of_mem_addr ha).2 rfl
    have haddr := Lib.append_mark_inj (hslash p.addr) (hslash q.addr) h
    have hbits : ofNat p.bits = ofNat q.bits := by
      have h' : p.addr.text ++ '/' :: ofNat p.bits = q.addr.text ++ '/' :: ofNat q.bits := h
      rw [haddr] at h'
      exact (List.cons.inj (List.append_cancel_left h')).2
    have ha := Addr.text_injective haddr
    have hb := ofNat_injective hbits
    obtain ⟨a, n, hn⟩ := p
    obtain ⟨b, m, hm⟩ := q
    cases ha
    cases hb
    rfl
  chars := by
    intro p c hc
    rcases List.mem_append.1 hc with hc | hc
    · exact (isPrefixChar_of_mem_addr hc).1
    · rcases List.mem_cons.1 hc with rfl | hc
      · decide
      · simp [isPrefixChar, SetName.isDigit_of_mem_ofNat hc]

end Rpsl
