import Rpsl.Types.PrefixSpace

/-!
# What a trie holds

`SpaceNode.holds n d bs`: the node `n` at depth `d` holds the prefix whose bits below the node's
own are `bs`. This is the set a trie stands for, by recursion on the bits instead of the address;
`PrefixSpace.contains` is `holds` of the prefix's path (`contains_eq_holds`).

The lemmas for `lift`, `without` and `mk` say that rebuilding a node changes no membership.
-/

namespace Rpsl

/-! ## Length masks -/

namespace LenMask

@[simp] theorem has_zero (l : Nat) : has 0#192 l = false := by simp [has]

@[simp] theorem has_or (a b : LenMask) (l : Nat) : has (a ||| b) l = (has a l || has b l) := by
  simp [has]

@[simp] theorem has_and (a b : LenMask) (l : Nat) : has (a &&& b) l = (has a l && has b l) := by
  simp [has]

theorem has_lt {m : LenMask} {l : Nat} (h : has m l = true) : l < 192 := by
  by_contra hl
  rw [has, BitVec.getLsbD_of_ge _ _ (by omega)] at h
  cases h

@[simp] theorem has_andNot (a b : LenMask) (l : Nat) :
    has (andNot a b) l = (has a l && !has b l) := by
  by_cases hl : l < 192
  · simp [has, andNot, hl]
  · simp [has, andNot, BitVec.getLsbD_of_ge a l (by omega)]

theorem has_set (m : LenMask) (k l : Nat) :
    has (set m k) l = (has m l || decide (l = k ∧ k < 192)) := by
  unfold has set
  rw [BitVec.getLsbD_or, BitVec.getLsbD_shiftLeft, BitVec.getLsbD_one]
  congr 1
  by_cases h : l = k
  · subst h; simp
  · simp only [h, false_and, decide_false]
    by_cases h1 : l < k
    · simp [h1]
    · simp [show l - k ≠ 0 by omega]

theorem has_foldl_set (ls : List Nat) (m : LenMask) (l : Nat) :
    has (ls.foldl set m) l = (has m l || decide (l ∈ ls ∧ l < 192)) := by
  induction ls generalizing m with
  | nil => simp
  | cons k ls ih =>
    rw [List.foldl_cons, ih, has_set, Bool.or_assoc]
    congr 1
    by_cases h : l = k
    · subst h; simp
    · simp [h]

@[simp] theorem has_ge (d l : Nat) : has (ge d) l = decide (d ≤ l ∧ l ≤ 128) := by
  unfold ge
  rw [has_foldl_set]
  simp only [has_zero, Bool.false_or, List.mem_range'_1]
  congr 1
  simp only [eq_iff_iff]
  omega

@[simp] theorem has_window (lo hi l : Nat) :
    has (window lo hi) l = decide (lo ≤ l ∧ l ≤ hi ∧ l ≤ 128) := by
  unfold window
  rw [has_andNot, has_ge, has_ge, ← decide_not, ← Bool.decide_and]
  congr 1
  simp only [eq_iff_iff]
  omega

@[simp] theorem has_one (k l : Nat) : has (one k) l = decide (l = k ∧ k ≤ 128) := by
  unfold one
  rw [has_window]
  congr 1
  simp only [eq_iff_iff]
  omega

theorem ext_has {a b : LenMask} (h : ∀ l, has a l = has b l) : a = b :=
  BitVec.eq_of_getLsbD_eq fun l _ => h l

theorem isZero_iff {m : LenMask} : isZero m = true ↔ ∀ l, has m l = false := by
  unfold isZero
  rw [beq_iff_eq]
  constructor
  · rintro rfl l; simp
  · intro h; exact ext_has fun l => by simp [h l]

theorem isZero_eq_false_iff {m : LenMask} : isZero m = false ↔ ∃ l, has m l = true := by
  rw [← Bool.not_eq_true, isZero_iff]
  simp

end LenMask

/-! ## Membership -/

namespace SpaceNode

/-- The prefix `bs` below the node at depth `d` is held by the node or by one below it. -/
def holds : SpaceNode → Nat → List Bool → Bool
  | nil, _, _ => false
  | node m c0 c1, d, bs =>
    m.has (d + bs.length) || match bs with
      | [] => false
      | false :: bs => c0.holds (d + 1) bs
      | true :: bs => c1.holds (d + 1) bs

@[simp] theorem holds_nil (d : Nat) (bs : List Bool) : nil.holds d bs = false := rfl

theorem holds_empty (n : SpaceNode) (d : Nat) : n.holds d [] = n.mask.has d := by
  cases n <;> simp [holds, mask]

theorem holds_cons (n : SpaceNode) (d : Nat) (b : Bool) (bs : List Bool) :
    n.holds d (b :: bs) = (n.mask.has (d + bs.length + 1) || (n.kid b).holds (d + 1) bs) := by
  cases n with
  | nil => simp [mask, kid]
  | node m c0 c1 => cases b <;> simp [holds, mask, kid, Nat.add_assoc]

@[simp] theorem mask_nil : mask nil = 0#192 := rfl
@[simp] theorem mask_node (m : LenMask) (c0 c1 : SpaceNode) : (node m c0 c1).mask = m := rfl
@[simp] theorem kid_nil (b : Bool) : nil.kid b = nil := by cases b <;> rfl
@[simp] theorem kid_node_false (m : LenMask) (c0 c1 : SpaceNode) :
    (node m c0 c1).kid false = c0 := rfl
@[simp] theorem kid_node_true (m : LenMask) (c0 c1 : SpaceNode) :
    (node m c0 c1).kid true = c1 := rfl

theorem isNil_iff {n : SpaceNode} : n.isNil = true ↔ n = nil := by cases n <;> simp [isNil]

theorem leaf_iff {n : SpaceNode} : n.leaf = true ↔ ∀ b, n.kid b = nil := by
  simp [leaf, isNil_iff, Bool.forall_bool]

theorem holds_of_leaf {n : SpaceNode} (h : n.leaf = true) (d : Nat) (bs : List Bool) :
    n.holds d bs = n.mask.has (d + bs.length) := by
  cases bs with
  | nil => exact holds_empty n d
  | cons b bs => rw [holds_cons, leaf_iff.1 h b]; simp [Nat.add_assoc]

@[simp] theorem mask_mk (m : LenMask) (c0 c1 : SpaceNode) : (mk m c0 c1).mask = m := by
  unfold mk
  split
  · rename_i h
    simp only [Bool.and_eq_true, LenMask.isZero, beq_iff_eq] at h
    rw [h.1.1]; rfl
  · rfl

@[simp] theorem kid_mk (m : LenMask) (c0 c1 : SpaceNode) (b : Bool) :
    (mk m c0 c1).kid b = (node m c0 c1).kid b := by
  unfold mk
  split
  · rename_i h
    simp only [Bool.and_eq_true, isNil_iff] at h
    rw [h.1.2, h.2]; cases b <;> rfl
  · rfl

theorem holds_congr {n n' : SpaceNode} (hm : n.mask = n'.mask) (hk : ∀ b, n.kid b = n'.kid b)
    (d : Nat) (bs : List Bool) : n.holds d bs = n'.holds d bs := by
  cases bs with
  | nil => rw [holds_empty, holds_empty, hm]
  | cons b bs => rw [holds_cons, holds_cons, hm, hk]

@[simp] theorem holds_mk (m : LenMask) (c0 c1 : SpaceNode) (d : Nat) (bs : List Bool) :
    (mk m c0 c1).holds d bs = (node m c0 c1).holds d bs :=
  holds_congr (by simp) (by simp) d bs

@[simp] theorem mask_without (n : SpaceNode) (m : LenMask) :
    (n.without m).mask = n.mask.andNot m := by simp [without]

@[simp] theorem kid_without (n : SpaceNode) (m : LenMask) (b : Bool) :
    (n.without m).kid b = n.kid b := by cases b <;> simp [without]

theorem holds_without_or (n : SpaceNode) (m : LenMask) (d : Nat) (bs : List Bool) :
    (m.has (d + bs.length) || (n.without m).holds d bs) =
      (m.has (d + bs.length) || n.holds d bs) := by
  cases bs with
  | nil => simp [holds_empty]; cases m.has d <;> simp
  | cons b bs =>
    simp only [holds_cons, mask_without, kid_without, LenMask.has_andNot, List.length_cons,
      Nat.add_assoc]
    cases m.has (d + (bs.length + 1)) <;> simp

/-! ## `lift` -/

def common (c0 c1 : SpaceNode) (d : Nat) : LenMask := c0.mask &&& c1.mask &&& LenMask.ge (d + 1)

theorem lift_cases (m : LenMask) (c0 c1 : SpaceNode) (d : Nat) :
    (common c0 c1 d = 0#192 ∧ lift m c0 c1 d = (m, c0, c1)) ∨
      lift m c0 c1 d =
        (m ||| common c0 c1 d, c0.without (common c0 c1 d), c1.without (common c0 c1 d)) := by
  unfold lift
  split
  · rename_i h
    simp only [Bool.or_eq_true, isNil_iff] at h
    refine .inl ⟨LenMask.ext_has fun l => ?_, rfl⟩
    rcases h with rfl | rfl <;> simp [common]
  · simp only
    split
    · rename_i h
      exact .inl ⟨by simpa [LenMask.isZero, common] using h, rfl⟩
    · exact .inr rfl

theorem lift_holds (m : LenMask) (c0 c1 : SpaceNode) (d d' : Nat) (bs : List Bool) :
    (node (lift m c0 c1 d).1 (lift m c0 c1 d).2.1 (lift m c0 c1 d).2.2).holds d' bs =
      (node (m ||| common c0 c1 d) c0 c1).holds d' bs := by
  rcases lift_cases m c0 c1 d with ⟨h0, h⟩ | h
  · rw [h, h0, BitVec.or_zero]
  · rw [h]
    generalize common c0 c1 d = k
    cases bs with
    | nil => simp [holds_empty]
    | cons b bs =>
      have key (c : SpaceNode) : (m.has (d' + bs.length + 1) || k.has (d' + bs.length + 1) ||
            (c.without k).holds (d' + 1) bs) =
          (m.has (d' + bs.length + 1) || k.has (d' + bs.length + 1) || c.holds (d' + 1) bs) := by
        have h := holds_without_or c k (d' + 1) bs
        rw [show d' + 1 + bs.length = d' + bs.length + 1 by omega] at h
        rw [Bool.or_assoc, Bool.or_assoc, h]
      simp only [holds_cons, mask_node, LenMask.has_or]
      cases b
      · exact key c0
      · exact key c1

theorem common_holds {c0 c1 : SpaceNode} {d : Nat} {b : Bool} {bs : List Bool} {m : LenMask}
    (h : (common c0 c1 d).has (d + bs.length + 1) = true) :
    ((node m c0 c1).kid b).holds (d + 1) bs = true := by
  have hl : ∀ c : SpaceNode, c.mask.has (d + bs.length + 1) = true → c.holds (d + 1) bs = true := by
    intro c hc
    cases bs with
    | nil => rw [holds_empty]; simpa using hc
    | cons b bs =>
      rw [holds_cons]
      simp only [List.length_cons] at hc
      rw [show d + 1 + bs.length + 1 = d + (bs.length + 1) + 1 by omega, hc, Bool.true_or]
  simp only [common, LenMask.has_and, Bool.and_eq_true] at h
  cases b
  · exact hl c0 h.1.1
  · exact hl c1 h.1.2

theorem holds_lift (m : LenMask) (c0 c1 : SpaceNode) (d : Nat) (bs : List Bool) :
    (mk (lift m c0 c1 d).1 (lift m c0 c1 d).2.1 (lift m c0 c1 d).2.2).holds d bs =
      (node m c0 c1).holds d bs := by
  rw [holds_mk, lift_holds]
  cases bs with
  | nil => simp [holds_empty, common]
  | cons b bs =>
    rw [holds_cons, holds_cons, mask_node, LenMask.has_or]
    by_cases hc : (common c0 c1 d).has (d + bs.length + 1) = true
    · rw [common_holds (m := m ||| common c0 c1 d) hc, common_holds (m := m) hc]; simp
    · rw [Bool.not_eq_true] at hc
      rw [hc, Bool.or_false, mask_node]
      cases b <;> rfl

/-! ## The descent by address -/

theorem containsAt_eq_holds (n : SpaceNode) (a : Addr) (l d : Nat) (h : d ≤ l) :
    n.containsAt a l d = n.holds d ((List.range' d (l - d)).map a.bitAt) := by
  induction n generalizing d with
  | nil => rfl
  | node m c0 c1 ih0 ih1 =>
    unfold containsAt
    have hlen : d + ((List.range' d (l - d)).map a.bitAt).length = l := by simp; omega
    by_cases hm : m.has l = true
    · rw [if_pos hm]
      cases hbs : (List.range' d (l - d)).map a.bitAt with
      | nil => rw [hbs] at hlen; rw [holds_empty, mask_node, ← hm, ← hlen]; rfl
      | cons b bs =>
        rw [hbs, List.length_cons] at hlen
        rw [holds_cons, mask_node, show d + bs.length + 1 = l by omega, hm, Bool.true_or]
    · rw [if_neg hm]
      rw [Bool.not_eq_true] at hm
      by_cases hd : d = l
      · subst hd
        rw [if_pos rfl]
        simp [holds_empty, hm]
      · rw [if_neg hd]
        have hr : List.range' d (l - d) = d :: List.range' (d + 1) (l - (d + 1)) := by
          rw [show l - d = (l - (d + 1)) + 1 by omega, List.range'_succ]
        rw [hr, List.map_cons, holds_cons, mask_node, List.length_map, List.length_range',
          show d + (l - (d + 1)) + 1 = l by omega, hm, Bool.false_or]
        cases a.bitAt d
        · exact ih0 (d + 1) (by omega)
        · exact ih1 (d + 1) (by omega)

end SpaceNode

theorem PrefixSpace.contains_eq_holds (s : PrefixSpace) (p : Prefix) :
    s.contains p = (s.root p.fam).holds 0 p.path := by
  unfold PrefixSpace.contains
  rw [SpaceNode.containsAt_eq_holds _ _ _ _ (Nat.zero_le _), Nat.sub_zero, ← Prefix.masked_path p]
  unfold Prefix.path
  rw [← List.range_eq_range']
  rfl

end Rpsl
