import Rpsl.Types.Proof.SpaceMem

/-!
# The canonical form of a trie

`SpaceNode.Canon width n d anc` is the representation invariant of `spaceNode`: no node holds a
length below its depth, above its family's width, or one an ancestor holds (`anc`, and below a
node its own mask too); no two children of one node hold the same length; no node is empty.

* `canon_lift`: rebuilding a node over canonical children with `lift` and `mk` is canonical. All
  of `normalize` and `merge` rests on it (`canon_normalize`, `canon_mergeGo`).
* `Canon.ext`: two canonical tries that hold the same prefixes are equal. A length is in a
  canonical node's mask exactly when every prefix of that length under the node is held
  (`Canon.mask_iff`), so the masks agree from the root down.
-/

namespace Rpsl

namespace SpaceNode

/-- The canonical form. -/
def Canon (width : Nat) : SpaceNode → Nat → LenMask → Prop
  | nil, _, _ => True
  | node m c0 c1, d, anc =>
    (∀ l, m.has l = true → d ≤ l ∧ l ≤ width ∧ anc.has l = false) ∧
    (∀ l, ¬ (c0.mask.has l = true ∧ c1.mask.has l = true)) ∧
    ¬ (m = 0#192 ∧ c0 = nil ∧ c1 = nil) ∧
    Canon width c0 (d + 1) (anc ||| m) ∧ Canon width c1 (d + 1) (anc ||| m)

variable {width : Nat}

variable {n : SpaceNode} {d l : Nat} {anc : LenMask}

theorem Canon.mask (h : Canon width n d anc)
    (hl : n.mask.has l = true) : d ≤ l ∧ l ≤ width ∧ anc.has l = false := by
  cases n with
  | nil => simp at hl
  | node m c0 c1 => exact h.1 l hl

theorem Canon.kid (h : Canon width n d anc) (b : Bool) :
    Canon width (n.kid b) (d + 1) (anc ||| n.mask) := by
  cases n with
  | nil => rw [kid_nil]; trivial
  | node m c0 c1 =>
    cases b
    · exact h.2.2.2.1
    · exact h.2.2.2.2

theorem Canon.anti {anc' : LenMask} (h : Canon width n d anc)
    (ha : ∀ l, d ≤ l → l ≤ width → anc'.has l = true → anc.has l = true) :
    Canon width n d anc' := by
  induction n generalizing d anc anc' with
  | nil => trivial
  | node m c0 c1 ih0 ih1 =>
    obtain ⟨hm, hc, hne, h0, h1⟩ := h
    have hb : ∀ l, d + 1 ≤ l → l ≤ width → (anc' ||| m).has l = true →
        (anc ||| m).has l = true := by
      intro l hd hw hl
      rw [LenMask.has_or, Bool.or_eq_true] at hl ⊢
      exact hl.imp_left (ha l (by omega) hw)
    refine ⟨fun l hl => ?_, hc, hne, ih0 h0 hb, ih1 h1 hb⟩
    obtain ⟨hd, hw, hna⟩ := hm l hl
    refine ⟨hd, hw, Bool.eq_false_iff.2 fun h' => ?_⟩
    rw [ha l hd hw h'] at hna
    cases hna

variable {m : LenMask} {c0 c1 : SpaceNode}

theorem canon_mk
    (hm : ∀ l, m.has l = true → d ≤ l ∧ l ≤ width ∧ anc.has l = false)
    (hc : ∀ l, ¬ (c0.mask.has l = true ∧ c1.mask.has l = true))
    (h0 : Canon width c0 (d + 1) (anc ||| m)) (h1 : Canon width c1 (d + 1) (anc ||| m)) :
    Canon width (mk m c0 c1) d anc := by
  unfold mk
  split
  · trivial
  · rename_i h
    refine ⟨hm, hc, fun ⟨e, e0, e1⟩ => h ?_, h0, h1⟩
    simp [e, e0, e1, LenMask.isZero, isNil]

theorem canon_mk_leaf
    (hm : ∀ l, m.has l = true → d ≤ l ∧ l ≤ width ∧ anc.has l = false) :
    Canon width (mk m nil nil) d anc :=
  canon_mk hm (by simp) trivial trivial

theorem Canon.without {k : LenMask} (h : Canon width n d anc)
    (hk : ∀ l, k.has l = true → n.mask.has l = true) :
    Canon width (n.without k) d (anc ||| k) := by
  cases n with
  | nil => simp [SpaceNode.without, mk, LenMask.isZero, LenMask.andNot, isNil, Canon]
  | node m c0 c1 =>
    obtain ⟨hm, hc, -, h0, h1⟩ := h
    have hb : ∀ l, d + 1 ≤ l → l ≤ width → (anc ||| k ||| m.andNot k).has l = true →
        (anc ||| m).has l = true := by
      intro l _ _ hl
      simp only [LenMask.has_or, LenMask.has_andNot, Bool.or_eq_true, Bool.and_eq_true] at hl ⊢
      rcases hl with (hl | hl) | hl
      · exact .inl hl
      · exact .inr (hk l hl)
      · exact .inr hl.1
    refine canon_mk (fun l hl => ?_) hc (h0.anti hb) (h1.anti hb)
    simp only [mask_node, LenMask.has_andNot, Bool.and_eq_true, Bool.not_eq_true'] at hl
    obtain ⟨hd, hw, hna⟩ := hm l hl.1
    exact ⟨hd, hw, by simp [hna, hl.2]⟩

theorem common_has :
    (common c0 c1 d).has l = true ↔
      c0.mask.has l = true ∧ c1.mask.has l = true ∧ d + 1 ≤ l ∧ l ≤ 128 := by
  simp [common, and_assoc]

/-- **Rebuilding a node over canonical children.** -/
theorem canon_lift (hw : width ≤ 128)
    (hm : ∀ l, m.has l = true → d ≤ l ∧ l ≤ width ∧ anc.has l = false)
    (h0 : Canon width c0 (d + 1) (anc ||| m)) (h1 : Canon width c1 (d + 1) (anc ||| m)) :
    Canon width (mk (lift m c0 c1 d).1 (lift m c0 c1 d).2.1 (lift m c0 c1 d).2.2) d anc := by
  -- what both children hold is common: their lengths are past `d` and within the width
  have hcom : ∀ l, c0.mask.has l = true → c1.mask.has l = true →
      (common c0 c1 d).has l = true := by
    intro l e0 e1
    obtain ⟨hd, hlw, -⟩ := h0.mask e0
    exact common_has.2 ⟨e0, e1, hd, by omega⟩
  rcases lift_cases m c0 c1 d with ⟨hz, h⟩ | h
  · rw [h]
    refine canon_mk hm (fun l ⟨e0, e1⟩ => ?_) h0 h1
    have := hcom l e0 e1
    rw [hz] at this
    simp at this
  · rw [h]
    have e : anc ||| (m ||| common c0 c1 d) = anc ||| m ||| common c0 c1 d := by
      rw [BitVec.or_assoc]
    refine canon_mk (fun l hl => ?_) (fun l hl => ?_) ?_ ?_
    · rw [LenMask.has_or, Bool.or_eq_true] at hl
      rcases hl with hl | hl
      · exact hm l hl
      · obtain ⟨hd, hlw, hna⟩ := h0.mask (common_has.1 hl).1
        rw [LenMask.has_or, Bool.or_eq_false_iff] at hna
        exact ⟨by omega, hlw, hna.1⟩
    · simp only [mask_without, LenMask.has_andNot, Bool.and_eq_true, Bool.not_eq_true'] at hl
      have := hcom l hl.1.1 hl.2.1
      rw [hl.1.2] at this
      cases this
    · rw [e]; exact h0.without fun l hl => (common_has.1 hl).1
    · rw [e]; exact h1.without fun l hl => (common_has.1 hl).2.1

/-! ## Uniqueness -/

/-- **A length is in a canonical node's mask exactly when the node holds every prefix of that
length** and no ancestor does. -/
theorem Canon.mask_iff (h : Canon width n d anc)
    (hl : d ≤ l) (ha : anc.has l = false) :
    n.mask.has l = true ↔ ∀ bs : List Bool, d + bs.length = l → n.holds d bs = true := by
  constructor
  · intro hm bs hbs
    cases bs with
    | nil => rw [holds_empty, ← hm, ← hbs]; rfl
    | cons b bs =>
      rw [List.length_cons] at hbs
      rw [holds_cons, show d + bs.length + 1 = l by omega, hm, Bool.true_or]
  · intro hall
    induction n generalizing d anc with
    | nil => simpa using hall (List.replicate (l - d) false) (by simp; omega)
    | node m c0 c1 ih0 ih1 =>
      by_contra hm
      rw [mask_node, Bool.not_eq_true] at hm
      obtain ⟨-, hc, -, h0, h1⟩ := h
      have hdl : d < l := by
        rcases Nat.eq_or_lt_of_le hl with rfl | hlt
        · have := hall [] rfl
          rw [holds_empty, mask_node, hm] at this
          cases this
        · exact hlt
      have hanc : (anc ||| m).has l = false := by rw [LenMask.has_or, ha, hm]; rfl
      -- below the node, both children hold every prefix of the length
      have hkid : ∀ b, ∀ bs : List Bool, d + 1 + bs.length = l →
          ((node m c0 c1).kid b).holds (d + 1) bs = true := by
        intro b bs hbs
        have := hall (b :: bs) (by rw [List.length_cons]; omega)
        rwa [holds_cons, mask_node, show d + bs.length + 1 = l by omega, hm, Bool.false_or] at this
      exact hc l ⟨ih0 h0 hdl hanc (hkid false), ih1 h1 hdl hanc (hkid true)⟩

theorem Canon.exists_holds (h : Canon width n d anc)
    (hn : n ≠ nil) :
    ∃ bs : List Bool, n.holds d bs = true ∧ anc.has (d + bs.length) = false ∧
      d + bs.length ≤ width := by
  induction n generalizing d anc with
  | nil => exact absurd rfl hn
  | node m c0 c1 ih0 ih1 =>
    obtain ⟨hm, -, hne, h0, h1⟩ := h
    have hsub : ∀ b (bs : List Bool), ((node m c0 c1).kid b).holds (d + 1) bs = true →
        (anc ||| m).has (d + 1 + bs.length) = false → d + 1 + bs.length ≤ width →
        ∃ bs : List Bool, (node m c0 c1).holds d bs = true ∧ anc.has (d + bs.length) = false ∧
          d + bs.length ≤ width := by
      intro b bs hb ha hw
      rw [LenMask.has_or, Bool.or_eq_false_iff] at ha
      refine ⟨b :: bs, by rw [holds_cons, hb, Bool.or_true], ?_, by rw [List.length_cons]; omega⟩
      rw [List.length_cons, ← ha.1]
      congr 1; omega
    by_cases e0 : c0 = nil
    · by_cases e1 : c1 = nil
      · -- a leaf: its mask is not empty
        have hz : m.isZero = false := by
          rw [Bool.eq_false_iff]
          exact fun hz => hne ⟨by simpa [LenMask.isZero] using hz, e0, e1⟩
        obtain ⟨l, hl⟩ := LenMask.isZero_eq_false_iff.1 hz
        obtain ⟨hd, hw, hna⟩ := hm l hl
        have hlen : d + (List.replicate (l - d) false).length = l := by simp; omega
        refine ⟨List.replicate (l - d) false, ?_, by rw [hlen]; exact hna, by omega⟩
        rw [holds_of_leaf (by rw [leaf_iff]; rintro (_ | _) <;> assumption), hlen]
        exact hl
      · obtain ⟨bs, hb, ha, hw⟩ := ih1 h1 e1
        exact hsub true bs hb ha hw
    · obtain ⟨bs, hb, ha, hw⟩ := ih0 h0 e0
      exact hsub false bs hb ha hw

theorem Canon.eq_nil (h : Canon width n d anc)
    (hf : ∀ bs : List Bool, anc.has (d + bs.length) = false → d + bs.length ≤ width →
      n.holds d bs = false) : n = nil := by
  by_contra hne
  obtain ⟨bs, hb, ha, hw⟩ := h.exists_holds hne
  rw [hf bs ha hw] at hb
  cases hb

/-- **Uniqueness**: canonical tries that agree on every prefix outside their ancestors' lengths
are equal. -/
theorem Canon.ext {n' : SpaceNode} (h : Canon width n d anc)
    (h' : Canon width n' d anc)
    (heq : ∀ bs : List Bool, anc.has (d + bs.length) = false → d + bs.length ≤ width →
      n.holds d bs = n'.holds d bs) : n = n' := by
  induction n generalizing n' d anc with
  | nil => exact (h'.eq_nil fun bs ha hw => (heq bs ha hw).symm).symm
  | node m c0 c1 ih0 ih1 =>
    cases n' with
    | nil => exact h.eq_nil heq
    | node m' c0' c1' =>
      have hm : m = m' := by
        refine LenMask.ext_has fun l => Bool.eq_iff_iff.2 ?_
        by_cases hl : d ≤ l ∧ l ≤ width ∧ anc.has l = false
        · obtain ⟨hd, hw, ha⟩ := hl
          rw [show m = (node m c0 c1).mask from rfl, show m' = (node m' c0' c1').mask from rfl,
            h.mask_iff hd ha, h'.mask_iff hd ha]
          refine forall₂_congr fun bs hbs => ?_
          rw [heq bs (by rw [hbs]; exact ha) (by omega)]
        · exact ⟨fun e => absurd (h.mask e) hl, fun e => absurd (h'.mask e) hl⟩
      subst hm
      -- the masks being one, the children agree outside it
      have hk : ∀ b, ∀ bs : List Bool, (anc ||| m).has (d + 1 + bs.length) = false →
          d + 1 + bs.length ≤ width →
          ((node m c0 c1).kid b).holds (d + 1) bs = ((node m c0' c1').kid b).holds (d + 1) bs := by
        intro b bs ha hw
        rw [show d + 1 + bs.length = d + bs.length + 1 by omega, LenMask.has_or,
          Bool.or_eq_false_iff] at ha
        have := heq (b :: bs) (by rw [List.length_cons, ← ha.1]; congr 1)
          (by rw [List.length_cons]; omega)
        rwa [holds_cons, holds_cons, mask_node, mask_node, ha.2, Bool.false_or, Bool.false_or]
          at this
      rw [ih0 h.2.2.2.1 h'.2.2.2.1 (hk false), ih1 h.2.2.2.2 h'.2.2.2.2 (hk true)]

end SpaceNode

end Rpsl
