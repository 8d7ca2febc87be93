import Rpsl.Types.PrefixSubset
import Rpsl.Types.Proof.SpaceExact

/-!
# Inclusion is exact

`within` is `subsetUnion` without its work list: the list comes back as it was given
(`subsetUnion_eq`), and `subsetNode` is `within` against one node (`subsetNode_eq`). So one
induction over the levels left settles both walks (`within_iff`): the answer is true exactly when
whatever the trie holds below a node, its ancestors' lengths included, one of the others does.
-/

namespace Rpsl

namespace SpaceNode

variable {shared : List Bool → Bool} {width : Nat}

/-! ## The work list -/

def within (shared : List Bool → Bool) (width : Nat) :
    Nat → List Bool → SpaceNode → List SpaceNode → Nat → LenMask → LenMask → Bool
  | rem, pos, a, bs, d, inA, inB =>
    if inA.isZero && (a.isNil || shared pos && decide (a ∈ bs)) then true
    else if inA.isZero && bs.isEmpty && inB.isZero then false
    else
      let fa := (inA ||| a.mask) &&& LenMask.ge d
      let fb := bs.foldl (fun m b => m ||| b.mask) inB &&& LenMask.ge d
      if covered a fa fb d width then true
      else if a.leaf && bs.all (·.leaf) then (fa.andNot fb).isZero
      else if !(fa.andNot fb &&& LenMask.one d).isZero then false
      else
        match rem with
        | 0 => true
        | rem + 1 =>
          let ia := fa &&& LenMask.ge (d + 1)
          let ib := fb &&& LenMask.ge (d + 1)
          within shared width rem (pos ++ [false]) (a.kid false) (kids bs false) (d + 1) ia ib &&
            within shared width rem (pos ++ [true]) (a.kid true) (kids bs true) (d + 1) ia ib

theorem slice_append (work bs : List SpaceNode) :
    slice (work ++ bs) work.length (work ++ bs).length = bs := by
  rw [slice, List.take_length, List.drop_left]

theorem subsetUnion_eq (rem : Nat) (pos : List Bool) (a : SpaceNode) (win : Nat × Nat) (d : Nat)
    (inA inB : LenMask) (work : List SpaceNode) :
    subsetUnion shared width rem pos a win d inA inB work =
      (within shared width rem pos a (slice work win.1 win.2) d inA inB, work) := by
  induction rem generalizing pos a win d inA inB work with
  | zero =>
    unfold subsetUnion within
    simp only
    split_ifs <;> rfl
  | succ rem ih =>
    unfold subsetUnion within
    simp only [ih, slice_append, List.take_left]
    split_ifs with _ _ _ _ _ hok
    · rfl
    · rfl
    · rfl
    · rfl
    · rfl
    · rw [hok, Bool.true_and]
    · rw [Bool.not_eq_true] at hok
      rw [hok, Bool.false_and]

theorem kids_singleton (b : SpaceNode) (i : Bool) :
    kids ([b].filter (!·.isNil)) i = [b.kid i].filter (!·.isNil) := by
  cases b with
  | nil => simp [kids, isNil]
  | node m c0 c1 => simp [kids, isNil]

theorem subsetNode_eq (rem : Nat) (pos : List Bool) (a b : SpaceNode) (d : Nat)
    (inA inB : LenMask) :
    subsetNode shared width rem pos a b d inA inB =
      within shared width rem pos a ([b].filter (!·.isNil)) d inA inB := by
  induction rem generalizing pos a b d inA inB with
  | zero => cases b <;> cases a <;> simp [subsetNode, within, isNil, leaf]
  | succ rem ih =>
    unfold subsetNode within
    simp only [ih, kids_singleton]
    cases b <;> cases a <;> simp [isNil, leaf]

/-! ## What the walk decides -/

theorem holds_of_mask {n : SpaceNode} {d : Nat} {bs : List Bool}
    (h : n.mask.has (d + bs.length) = true) : n.holds d bs = true := by
  cases bs with
  | nil => rw [holds_empty]; exact h
  | cons b bs => rw [holds_cons, Nat.add_assoc]; exact Bool.or_eq_true_iff.2 (.inl h)

theorem has_foldl_mask (bs : List SpaceNode) (m : LenMask) (l : Nat) :
    (bs.foldl (fun m b => m ||| b.mask) m).has l = (m.has l || bs.any (·.mask.has l)) := by
  induction bs generalizing m with
  | nil => simp
  | cons b bs ih => rw [List.foldl_cons, ih, LenMask.has_or, List.any_cons, Bool.or_assoc]

theorem andNot_isZero_iff {m o : LenMask} :
    (m.andNot o).isZero = true ↔ ∀ l, m.has l = true → o.has l = true := by
  rw [LenMask.isZero_iff]
  refine forall_congr' fun l => ?_
  rw [LenMask.has_andNot]
  cases m.has l <;> cases o.has l <;> simp

/-- A prefix below a node at depth `d`, held there or of a length an ancestor holds. -/
def Held (anc : LenMask) (n : SpaceNode) (d : Nat) (path : List Bool) : Prop :=
  anc.has (d + path.length) = true ∨ n.holds d path = true

/-- The same of some nodes: one of them holds it, or an ancestor of one does. -/
def HeldAny (anc : LenMask) (bs : List SpaceNode) (d : Nat) (path : List Bool) : Prop :=
  anc.has (d + path.length) = true ∨ ∃ b ∈ bs, b.holds d path = true

def fold (anc m : LenMask) (d : Nat) : LenMask := (anc ||| m) &&& LenMask.ge d

theorem has_fold {anc m : LenMask} {d l : Nat} (hd : d ≤ l) (hl : l ≤ 128) :
    (fold anc m d).has l = true ↔ anc.has l = true ∨ m.has l = true := by
  simp [fold, hd, hl]

def masks (bs : List SpaceNode) : LenMask := bs.foldl (fun m b => m ||| b.mask) 0#192

theorem foldl_mask_eq (bs : List SpaceNode) (m : LenMask) :
    bs.foldl (fun m b => m ||| b.mask) m = m ||| masks bs := by
  refine LenMask.ext_has fun l => ?_
  rw [has_foldl_mask, LenMask.has_or, masks, has_foldl_mask, LenMask.has_zero, Bool.false_or]

theorem has_masks {bs : List SpaceNode} {l : Nat} :
    (masks bs).has l = true ↔ ∃ b ∈ bs, b.mask.has l = true := by
  rw [masks, has_foldl_mask, LenMask.has_zero, Bool.false_or, List.any_eq_true]

section

variable {a : SpaceNode} {bs : List SpaceNode} {d : Nat} {anc : LenMask} {path : List Bool}

theorem heldAny_of_fold (h : (fold anc (masks bs) d).has (d + path.length) = true) :
    HeldAny anc bs d path := by
  simp only [fold, LenMask.has_and, LenMask.has_or, Bool.and_eq_true, Bool.or_eq_true] at h
  rcases h.1 with h | h
  · exact .inl h
  · obtain ⟨b, hb, hm⟩ := has_masks.1 h
    exact .inr ⟨b, hb, holds_of_mask hm⟩

theorem held_leaf_iff (ha : a.leaf = true) (hl : d + path.length ≤ 128) :
    Held anc a d path ↔ (fold anc a.mask d).has (d + path.length) = true := by
  rw [Held, holds_of_leaf ha, has_fold (Nat.le_add_right _ _) hl]

theorem heldAny_leaves_iff (hbs : ∀ b ∈ bs, b.leaf = true) (hl : d + path.length ≤ 128) :
    HeldAny anc bs d path ↔ (fold anc (masks bs) d).has (d + path.length) = true := by
  rw [HeldAny, has_fold (Nat.le_add_right _ _) hl, has_masks]
  refine or_congr_right (exists_congr fun b => and_congr_right fun hb => ?_)
  rw [holds_of_leaf (hbs b hb)]

theorem held_nil_iff (hd : d ≤ 128) :
    Held anc a d [] ↔ (fold anc a.mask d).has d = true := by
  rw [Held, holds_empty, has_fold le_rfl hd, List.length_nil, Nat.add_zero]

theorem heldAny_nil_iff (hd : d ≤ 128) :
    HeldAny anc bs d [] ↔ (fold anc (masks bs) d).has d = true := by
  rw [HeldAny, has_fold le_rfl hd, has_masks, List.length_nil, Nat.add_zero]
  simp only [holds_empty]

theorem held_kid_iff {b : Bool} (hl : d + path.length + 1 ≤ 128) :
    Held (fold anc a.mask d &&& LenMask.ge (d + 1)) (a.kid b) (d + 1) path ↔
      Held anc a d (b :: path) := by
  have hlen : d + 1 + path.length = d + path.length + 1 := by omega
  have hge : (LenMask.ge (d + 1)).has (d + path.length + 1) = true := by simp; omega
  rw [Held, Held, holds_cons, List.length_cons, ← Nat.add_assoc, hlen, LenMask.has_and, hge,
    Bool.and_true, has_fold (by omega) hl, Bool.or_eq_true, or_assoc]

theorem mem_kids {c : SpaceNode} {i : Bool} : c ∈ kids bs i ↔ ∃ b ∈ bs, b.kid i = c ∧ c ≠ nil := by
  simp only [kids, List.mem_filter, List.mem_map, Bool.not_eq_true', ← Bool.not_eq_true, isNil_iff]
  grind

theorem heldAny_kid_iff {b : Bool} (hl : d + path.length + 1 ≤ 128) :
    HeldAny (fold anc (masks bs) d &&& LenMask.ge (d + 1)) (kids bs b) (d + 1) path ↔
      HeldAny anc bs d (b :: path) := by
  have hlen : d + 1 + path.length = d + path.length + 1 := by omega
  have hge : (LenMask.ge (d + 1)).has (d + path.length + 1) = true := by simp; omega
  rw [HeldAny, HeldAny, List.length_cons, ← Nat.add_assoc, hlen, LenMask.has_and, hge,
    Bool.and_true, has_fold (by omega) hl, has_masks, or_assoc]
  refine or_congr_right ?_
  simp only [holds_cons, Bool.or_eq_true, and_or_left, exists_or]
  refine or_congr_right ⟨?_, ?_⟩
  · rintro ⟨c, hc, hh⟩
    obtain ⟨n, hn, rfl, -⟩ := mem_kids.1 hc
    exact ⟨n, hn, hh⟩
  · rintro ⟨n, hn, hh⟩
    refine ⟨n.kid b, mem_kids.2 ⟨n, hn, rfl, ?_⟩, hh⟩
    rintro hnil
    rw [hnil] at hh
    cases hh

end

theorem within_node (hw : width ≤ 128) {rem : Nat} {pos : List Bool} {a : SpaceNode}
    {bs : List SpaceNode} {d : Nat} {inA inB : LenMask} (hd : d + rem = width)
    (ha : Canon width a d inA) (hA : ∀ l, inA.has l = true → l ≤ width) {below : Bool}
    (hbelow : below = true ↔ ∀ (b : Bool) (path : List Bool), path.length + 1 ≤ rem →
      Held inA a d (b :: path) → HeldAny inB bs d (b :: path)) :
    (if inA.isZero && (a.isNil || shared pos && decide (a ∈ bs)) then true
      else if inA.isZero && bs.isEmpty && inB.isZero then false
      else if covered a (fold inA a.mask d) (fold inB (masks bs) d) d width then true
      else if a.leaf && bs.all (·.leaf) then
        ((fold inA a.mask d).andNot (fold inB (masks bs) d)).isZero
      else if !((fold inA a.mask d).andNot (fold inB (masks bs) d) &&& LenMask.one d).isZero then
        false
      else below) = true ↔
      ∀ path : List Bool, path.length ≤ rem → Held inA a d path → HeldAny inB bs d path := by
  have hlen : ∀ path : List Bool, path.length ≤ rem → d + path.length ≤ 128 := by
    intro path hp; omega
  -- a leaf holds what its folded mask does, so it is enough to compare masks
  have hleaf : a.leaf = true →
      (∀ l, (fold inA a.mask d).has l = true → (fold inB (masks bs) d).has l = true) →
      ∀ path : List Bool, path.length ≤ rem → Held inA a d path → HeldAny inB bs d path := by
    intro hl hsub path hp hh
    exact heldAny_of_fold (hsub _ ((held_leaf_iff hl (hlen path hp)).1 hh))
  split_ifs with h1 h2 h3 h4 h5
  · -- nothing, or one of the others itself
    simp only [true_iff]
    intro path _ hh
    simp only [Bool.and_eq_true, Bool.or_eq_true, isNil_iff, decide_eq_true_eq] at h1
    rcases hh with hh | hh
    · rw [LenMask.isZero_iff.1 h1.1] at hh
      cases hh
    · rcases h1.2 with rfl | ⟨-, hmem⟩
      · cases hh
      · exact .inr ⟨a, hmem, hh⟩
  · -- something against nothing at all
    simp only [Bool.and_eq_true, List.isEmpty_iff] at h2
    have hne : a ≠ nil := by
      rintro rfl
      simp [h2.1.1, isNil] at h1
    obtain ⟨path, hh, -, hp⟩ := ha.exists_holds hne
    simp only [false_iff]
    intro hall
    rcases hall path (by omega) (.inr hh) with hb | ⟨b, hb, -⟩
    · rw [LenMask.isZero_iff.1 h2.2] at hb
      cases hb
    · rw [h2.1.2] at hb
      cases hb
  · simp only [true_iff]
    rw [covered, Bool.or_eq_true, Bool.and_eq_true, andNot_isZero_iff, andNot_isZero_iff] at h3
    rcases h3 with h3 | ⟨hl, h3⟩
    · intro path hp _
      exact heldAny_of_fold (h3 _ (by simp; omega))
    · exact hleaf hl h3
  · rw [Bool.and_eq_true, List.all_eq_true] at h4
    rw [andNot_isZero_iff]
    refine ⟨hleaf h4.1, fun hall l hl => ?_⟩
    obtain ⟨hdl, hlw⟩ := ha.fold_le hA hl
    have hl' : d + (List.replicate (l - d) false).length = l := by simp; omega
    have hp : (List.replicate (l - d) false).length ≤ rem := by simp; omega
    rw [← hl'] at hl ⊢
    exact (heldAny_leaves_iff h4.2 (hlen _ hp)).1
      (hall _ hp ((held_leaf_iff h4.1 (hlen _ hp)).2 hl))
  · -- the node's own prefix is missing
    simp only [false_iff]
    intro hall
    rw [Bool.not_eq_true', LenMask.isZero_eq_false_iff] at h5
    obtain ⟨l, hl⟩ := h5
    simp only [LenMask.has_and, LenMask.has_andNot, LenMask.has_one, Bool.and_eq_true,
      Bool.not_eq_true', decide_eq_true_eq] at hl
    obtain ⟨⟨hfa, hfb⟩, rfl, hd'⟩ := hl
    rw [(heldAny_nil_iff hd').1 (hall [] (Nat.zero_le _) ((held_nil_iff hd').2 hfa))] at hfb
    cases hfb
  · have hown : Held inA a d [] → HeldAny inB bs d [] := by
      intro hh
      have hd' : d ≤ 128 := by omega
      rw [heldAny_nil_iff hd']
      rw [held_nil_iff hd'] at hh
      rw [Bool.not_eq_true, Bool.not_eq_false', LenMask.isZero_iff] at h5
      have := h5 d
      simpa [hh, hd'] using this
    rw [hbelow]
    constructor
    · intro hall path hp hh
      cases path with
      | nil => exact hown hh
      | cons b path => exact hall b path (by simpa using hp) hh
    · intro hall b path hp
      exact hall (b :: path) (by simpa using hp)

/-- **The walk is exact**: it answers whether what the node holds, with its ancestors, the others
do. -/
theorem within_iff (hw : width ≤ 128) (rem : Nat) (pos : List Bool) (a : SpaceNode)
    (bs : List SpaceNode) (d : Nat) (inA inB : LenMask) (hd : d + rem = width)
    (ha : Canon width a d inA) (hA : ∀ l, inA.has l = true → l ≤ width) :
    within shared width rem pos a bs d inA inB = true ↔
      ∀ path : List Bool, path.length ≤ rem → Held inA a d path → HeldAny inB bs d path := by
  induction rem generalizing pos a bs d inA inB with
  | zero =>
    unfold within
    simp only [foldl_mask_eq]
    refine within_node hw hd ha hA ⟨fun _ b path hp => absurd hp (by omega), fun _ => rfl⟩
  | succ rem ih =>
    unfold within
    simp only [foldl_mask_eq]
    refine within_node hw hd ha hA ?_
    have hkid : ∀ b : Bool, within shared width rem (pos ++ [b]) (a.kid b) (kids bs b) (d + 1)
          (fold inA a.mask d &&& LenMask.ge (d + 1)) (fold inB (masks bs) d &&& LenMask.ge (d + 1))
          = true ↔
        ∀ path : List Bool, path.length + 1 ≤ rem + 1 → Held inA a d (b :: path) →
          HeldAny inB bs d (b :: path) := by
      intro b
      have hcanon : Canon width (a.kid b) (d + 1) (fold inA a.mask d &&& LenMask.ge (d + 1)) :=
        ha.fold_kid b
      rw [ih (pos ++ [b]) (a.kid b) (kids bs b) (d + 1) _ _ (by omega) hcanon]
      · refine forall_congr' fun path => ?_
        rw [Nat.add_le_add_iff_right]
        refine imp_congr_right fun hp => ?_
        rw [held_kid_iff (by omega), heldAny_kid_iff (by omega)]
      · intro l hl
        rw [LenMask.has_and, Bool.and_eq_true] at hl
        exact (ha.fold_le hA hl.1).2
    rw [Bool.forall_bool]
    exact Bool.and_eq_true_iff.trans (and_congr (hkid false) (hkid true))

end SpaceNode

namespace PrefixSpace

variable {shared : Family → List Bool → Bool}

variable {s : PrefixSpace}

theorem within_roots_iff (shared : Family → List Bool → Bool)
    (hs : s.Canonical) (ts : List PrefixSpace) (f : Family) :
    SpaceNode.within (shared f) f.width f.width [] (s.root f)
        ((ts.map (·.root f)).filter (!·.isNil)) 0 0#192 0#192 = true ↔
      ∀ p : Prefix, p.fam = f → s.contains p = true → ∃ t ∈ ts, t.contains p = true := by
  rw [SpaceNode.within_iff f.width_le _ _ _ _ _ _ _ (Nat.zero_add _) (hs f) (by simp)]
  have hany : ∀ path : List Bool,
      SpaceNode.HeldAny 0#192 ((ts.map (·.root f)).filter (!·.isNil)) 0 path ↔
        ∃ t ∈ ts, (t.root f).holds 0 path = true := by
    intro path
    simp only [SpaceNode.HeldAny, LenMask.has_zero, Bool.false_eq_true, false_or,
      List.mem_filter, List.mem_map]
    constructor
    · rintro ⟨n, ⟨⟨t, ht, rfl⟩, -⟩, hh⟩
      exact ⟨t, ht, hh⟩
    · rintro ⟨t, ht, hh⟩
      refine ⟨t.root f, ⟨⟨t, ht, rfl⟩, ?_⟩, hh⟩
      cases hn : t.root f with
      | nil => rw [hn] at hh; cases hh
      | node m c0 c1 => rfl
  simp only [hany, SpaceNode.Held, LenMask.has_zero, Bool.false_eq_true, false_or]
  constructor
  · rintro h p rfl hp
    rw [contains_eq_holds] at hp
    obtain ⟨t, ht, hh⟩ := h p.path (by rw [Prefix.path_length]; exact p.le) hp
    exact ⟨t, ht, by rw [contains_eq_holds]; exact hh⟩
  · intro h path hp hh
    obtain ⟨t, ht, hc⟩ := h (Prefix.ofPath f path hp) (Prefix.ofPath_fam ..)
      (by rw [contains_eq_holds, Prefix.ofPath_path, Prefix.ofPath_fam]; exact hh)
    rw [contains_eq_holds, Prefix.ofPath_path, Prefix.ofPath_fam] at hc
    exact ⟨t, ht, hc⟩

theorem forall_family_iff {P : Prefix → Prop} :
    (∀ p, P p) ↔ (∀ p : Prefix, p.fam = .v4 → P p) ∧ ∀ p : Prefix, p.fam = .v6 → P p := by
  refine ⟨fun h => ⟨fun p _ => h p, fun p _ => h p⟩, fun h p => ?_⟩
  cases hf : p.fam with
  | v4 => exact h.1 p hf
  | v6 => exact h.2 p hf

theorem subset_iff (hs : s.Canonical) (t : PrefixSpace) :
    s.subset shared t = true ↔ ∀ p, s.contains p = true → t.contains p = true := by
  rw [subset, Bool.and_eq_true, SpaceNode.subsetNode_eq, SpaceNode.subsetNode_eq, forall_family_iff]
  have h4 := within_roots_iff shared hs [t] .v4
  have h6 := within_roots_iff shared hs [t] .v6
  simp only [List.mem_singleton, exists_eq_left] at h4 h6
  exact and_congr h4 h6

theorem subsetOfRoots_iff (hs : s.Canonical) (ts : List PrefixSpace)
    (f : Family) :
    s.subsetOfRoots shared f ts = true ↔
      ∀ p : Prefix, p.fam = f → s.contains p = true → ∃ t ∈ ts, t.contains p = true := by
  rw [← within_roots_iff shared hs ts f, subsetOfRoots]
  simp only [SpaceNode.subsetUnion_eq]
  rw [SpaceNode.slice, List.take_length, List.drop_zero]

theorem subsetOfUnion_iff (hs : s.Canonical) (ts : List PrefixSpace) :
    s.subsetOfUnion shared ts = true ↔
      ∀ p, s.contains p = true → ∃ t ∈ ts, t.contains p = true := by
  unfold subsetOfUnion
  split
  · rw [subset_iff hs]
    simp
  · rw [Bool.and_eq_true, subsetOfRoots_iff hs, subsetOfRoots_iff hs]
    exact forall_family_iff.symm

/-- **Inclusion is exact**, in one space and in several together, wherever nodes are shared. -/
theorem subset_exact (hs : s.Built) (shared : Family → List Bool → Bool)
    (t : PrefixSpace) (ts : List PrefixSpace) :
    (s.subsetOfUnion shared ts = true ↔
        ∀ p, s.contains p = true → ∃ t ∈ ts, t.contains p = true) ∧
      (s.subset shared t = true ↔ ∀ p, s.contains p = true → t.contains p = true) :=
  ⟨subsetOfUnion_iff hs.canonical ts, subset_iff hs.canonical t⟩

/-- A space is within two of which neither holds it: IPv4's prefixes of length 1 in its halves. -/
theorem subset_exact_halves :
    let half (b : Bool) :=
      spaceOf (PrefixRange.new (Prefix.ofPath .v4 [b] (by simp [Family.width])) 1 1).toList
    let whole := spaceOf (PrefixRange.new (Prefix.ofPath .v4 [] (by decide)) 1 1).toList
    whole.subset (fun _ _ => false) (half false) = false ∧
      ∀ p, whole.contains p = true → ∃ t ∈ [half false, half true], t.contains p = true :=
  ⟨by decide +kernel,
    (subset_exact (.spaceOf _) (fun _ _ => false) empty _).1.1 (by decide +kernel)⟩

end PrefixSpace

end Rpsl
