import Rpsl.Types.Proof.Range
import Rpsl.Types.Proof.SpaceCanon

/-!
# The set operations are exact and canonical

`merge` and `normalize` decide membership exactly (`holds_mergeGo`, `holds_normalize`) and return
canonical tries (`canon_mergeGo`, `canon_normalize`). For the spaces the exported constructors and
operations build (`PrefixSpace.Built`) this gives `space_ops_exact`: `Contains` of a union,
intersection or difference is the boolean operation on `Contains` of the operands; and
`space_canonical`: the representation is canonical, and two spaces are `Equal` exactly when they
contain the same prefixes.
-/

namespace Rpsl

def SetOp.bool : SetOp → Bool → Bool → Bool
  | .union, a, b => a || b
  | .intersect, a, b => a && b
  | .minus, a, b => a && !b

@[simp] theorem SetOp.has_apply (op : SetOp) (a b : LenMask) (l : Nat) :
    (op.apply a b).has l = op.bool (a.has l) (b.has l) := by
  cases op <;> simp [SetOp.apply, SetOp.bool]

theorem SetOp.or_of_bool {op : SetOp} {a b : Bool} (h : op.bool a b = true) :
    a = true ∨ b = true := by
  cases op <;> simp_all [SetOp.bool]

namespace SpaceNode

/-! ## `merge` -/

theorem holds_shortcut {op : SetOp} {a b r : SpaceNode} {inA inB : LenMask}
    (h : shortcut op a b inA inB = some r) :
    inA = 0#192 ∧ inB = 0#192 ∧ (r = a ∨ r = b ∨ r = nil) ∧
      ∀ d bs, r.holds d bs = op.bool (a.holds d bs) (b.holds d bs) := by
  unfold shortcut at h
  split at h
  · rename_i hz
    simp only [Bool.and_eq_true, LenMask.isZero, beq_iff_eq] at hz
    refine ⟨hz.1, hz.2, ?_⟩
    cases op with
    | union =>
      simp only at h
      split at h
      · rename_i ha
        rw [isNil_iff] at ha; subst ha
        cases h; exact ⟨.inr (.inl rfl), by simp [SetOp.bool]⟩
      · split at h
        · rename_i hb
          rw [isNil_iff] at hb; subst hb
          cases h; exact ⟨.inl rfl, by simp [SetOp.bool]⟩
        · cases h
    | intersect =>
      simp only [Bool.or_eq_true, isNil_iff] at h
      split at h
      · rename_i hab
        cases h
        refine ⟨.inr (.inr rfl), fun d bs => ?_⟩
        rcases hab with rfl | rfl <;> simp [SetOp.bool]
      · cases h
    | minus =>
      simp only at h
      split at h
      · rename_i ha
        rw [isNil_iff] at ha; subst ha
        cases h; exact ⟨.inl rfl, by simp [SetOp.bool]⟩
      · split at h
        · rename_i hb
          rw [isNil_iff] at hb; subst hb
          cases h; exact ⟨.inl rfl, by simp [SetOp.bool]⟩
        · cases h
  · cases h

/-- **`merge` is exact**: a prefix is in the result when the operation holds of its being in the
operands, each read with what its ancestors hold. -/
theorem holds_mergeGo (op : SetOp) (rem : Nat) (a b : SpaceNode) (d : Nat) (inA inB : LenMask)
    (bs : List Bool) (hbs : bs.length ≤ rem) (hd : d + rem ≤ 128) :
    (mergeGo op rem a b d inA inB).holds d bs =
      op.bool (inA.has (d + bs.length) || a.holds d bs)
        (inB.has (d + bs.length) || b.holds d bs) := by
  induction rem generalizing a b d inA inB bs with
  | zero =>
    obtain rfl : bs = [] := List.length_eq_zero_iff.1 (by omega)
    unfold mergeGo
    split
    · rename_i r h
      obtain ⟨rfl, rfl, -, hr⟩ := holds_shortcut h
      rw [hr]; simp
    · have h1 : d ≤ 128 := by omega
      simp only
      split <;> simp [holds_empty, h1]
  | succ rem ih =>
    unfold mergeGo
    split
    · rename_i r h
      obtain ⟨rfl, rfl, -, hr⟩ := holds_shortcut h
      rw [hr]; simp
    · simp only
      split
      · rename_i hl
        rw [Bool.and_eq_true] at hl
        have h1 : d ≤ d + bs.length ∧ d + bs.length ≤ 128 := by omega
        rw [holds_mk, holds_of_leaf (by rfl), holds_of_leaf hl.1, holds_of_leaf hl.2]
        simp only [mask_node, SetOp.has_apply, LenMask.has_and, LenMask.has_or, LenMask.has_ge, h1,
          and_self, decide_true, Bool.and_true]
      · rw [holds_lift]
        cases bs with
        | nil =>
          have h1 : d ≤ 128 := by omega
          simp [holds_empty, h1]
        | cons b' bs =>
          rw [List.length_cons] at hbs
          have h1 : d ≤ d + bs.length + 1 ∧ d + bs.length + 1 ≤ 128 := by omega
          have h2 : d + 1 ≤ d + bs.length + 1 := by omega
          have hi := ih (a.kid b') (b.kid b') (d + 1)
            ((inA ||| a.mask) &&& LenMask.ge d &&& LenMask.ge (d + 1))
            ((inB ||| b.mask) &&& LenMask.ge d &&& LenMask.ge (d + 1)) bs (by omega) (by omega)
          rw [show d + 1 + bs.length = d + bs.length + 1 by omega] at hi
          simp only [LenMask.has_and, LenMask.has_or, LenMask.has_ge, h1, h2, and_self, decide_true,
            Bool.and_true] at hi
          rw [holds_cons, holds_cons, holds_cons, mask_node, List.length_cons, ← Nat.add_assoc]
          simp only [LenMask.has_and, LenMask.has_one, show ¬ d + bs.length + 1 = d by omega,
            false_and, decide_false, Bool.and_false, Bool.false_or, ← Bool.or_assoc]
          rw [← hi]
          cases b' <;> rfl

section
variable {width : Nat} {op : SetOp} {a b : SpaceNode} {d : Nat} {inA inB : LenMask}

theorem Canon.fold_le (ha : Canon width a d inA) (hA : ∀ l, inA.has l = true → l ≤ width) {l : Nat}
    (hl : ((inA ||| a.mask) &&& LenMask.ge d).has l = true) : d ≤ l ∧ l ≤ width := by
  simp only [LenMask.has_and, LenMask.has_or, LenMask.has_ge, Bool.and_eq_true, Bool.or_eq_true,
    decide_eq_true_eq] at hl
  refine ⟨hl.2.1, ?_⟩
  rcases hl.1 with h | h
  · exact hA l h
  · exact (ha.mask h).2.1

theorem Canon.fold_kid (ha : Canon width a d inA) (b' : Bool) :
    Canon width (a.kid b') (d + 1) ((inA ||| a.mask) &&& LenMask.ge d &&& LenMask.ge (d + 1)) := by
  refine (ha.kid b').anti fun l _ _ hl => ?_
  simp only [LenMask.has_and, Bool.and_eq_true] at hl
  exact hl.1.1

theorem apply_le (ha : Canon width a d inA) (hb : Canon width b d inB)
    (hA : ∀ l, inA.has l = true → l ≤ width) (hB : ∀ l, inB.has l = true → l ≤ width) {l : Nat}
    (hl : (op.apply ((inA ||| a.mask) &&& LenMask.ge d) ((inB ||| b.mask) &&& LenMask.ge d)).has l
      = true) : d ≤ l ∧ l ≤ width := by
  rw [SetOp.has_apply] at hl
  rcases SetOp.or_of_bool hl with h | h
  · exact ha.fold_le hA h
  · exact hb.fold_le hB h

theorem canon_shortcut {r : SpaceNode} (ha : Canon width a d inA) (hb : Canon width b d inB)
    (h : shortcut op a b inA inB = some r) : Canon width r d 0#192 := by
  obtain ⟨rfl, rfl, hr, -⟩ := holds_shortcut h
  rcases hr with rfl | rfl | rfl
  · exact ha
  · exact hb
  · trivial

end

/-- **`merge` of canonical operands is canonical.** -/
theorem canon_mergeGo {width : Nat} (hw : width ≤ 128) (op : SetOp) (rem : Nat) (a b : SpaceNode)
    (d : Nat) (inA inB : LenMask) (hd : d + rem = width) (ha : Canon width a d inA)
    (hb : Canon width b d inB) (hA : ∀ l, inA.has l = true → l ≤ width)
    (hB : ∀ l, inB.has l = true → l ≤ width) :
    Canon width (mergeGo op rem a b d inA inB) d 0#192 := by
  induction rem generalizing a b d inA inB with
  | zero =>
    unfold mergeGo
    split
    · exact canon_shortcut ha hb ‹_›
    · simp only
      split
      · refine canon_mk_leaf fun l hl => ?_
        exact ⟨(apply_le ha hb hA hB hl).1, (apply_le ha hb hA hB hl).2, by simp⟩
      · refine canon_mk_leaf fun l hl => ?_
        rw [LenMask.has_and, Bool.and_eq_true] at hl
        exact ⟨(apply_le ha hb hA hB hl.1).1, (apply_le ha hb hA hB hl.1).2, by simp⟩
  | succ rem ih =>
    unfold mergeGo
    split
    · exact canon_shortcut ha hb ‹_›
    · simp only
      split
      · refine canon_mk_leaf fun l hl => ?_
        exact ⟨(apply_le ha hb hA hB hl).1, (apply_le ha hb hA hB hl).2, by simp⟩
      · -- the children come out canonical on their own; the node itself adds only its own length
        have hrec : ∀ b', Canon width
            (mergeGo op rem (a.kid b') (b.kid b') (d + 1)
              ((inA ||| a.mask) &&& LenMask.ge d &&& LenMask.ge (d + 1))
              ((inB ||| b.mask) &&& LenMask.ge d &&& LenMask.ge (d + 1))) (d + 1)
            (0#192 ||| op.apply ((inA ||| a.mask) &&& LenMask.ge d)
              ((inB ||| b.mask) &&& LenMask.ge d) &&& LenMask.one d) := by
          intro b'
          refine (ih (a.kid b') (b.kid b') (d + 1) _ _ (by omega) (ha.fold_kid b') (hb.fold_kid b')
            (fun l hl => ?_) (fun l hl => ?_)).anti fun l hd' _ hl => ?_
          · rw [LenMask.has_and, Bool.and_eq_true] at hl
            exact (ha.fold_le hA hl.1).2
          · rw [LenMask.has_and, Bool.and_eq_true] at hl
            exact (hb.fold_le hB hl.1).2
          · simp only [BitVec.zero_or, LenMask.has_and, LenMask.has_one, Bool.and_eq_true,
              decide_eq_true_eq] at hl
            omega
        refine canon_lift hw (fun l hl => ?_) (hrec false) (hrec true)
        rw [LenMask.has_and, Bool.and_eq_true] at hl
        exact ⟨(apply_le ha hb hA hB hl.1).1, (apply_le ha hb hA hB hl.1).2, by simp⟩

/-! ## `SpaceOf` -/

/-- A raw trie of a family `width` bits wide: no length above the width. -/
def RawOk (width : Nat) : SpaceNode → Prop
  | nil => True
  | node m c0 c1 => (∀ l, m.has l = true → l ≤ width) ∧ RawOk width c0 ∧ RawOk width c1

theorem RawOk.mask {width : Nat} {n : SpaceNode} (h : RawOk width n) {l : Nat}
    (hl : n.mask.has l = true) : l ≤ width := by
  cases n with
  | nil => simp at hl
  | node m c0 c1 => exact h.1 l hl

theorem RawOk.kid {width : Nat} {n : SpaceNode} (h : RawOk width n) (b : Bool) :
    RawOk width (n.kid b) := by
  cases n with
  | nil => rw [kid_nil]; trivial
  | node m c0 c1 =>
    cases b
    · exact h.2.1
    · exact h.2.2

theorem rawOk_insert {width : Nat} {w : LenMask} (hw : ∀ l, w.has l = true → l ≤ width) :
    ∀ (bs : List Bool) {n : SpaceNode}, RawOk width n → RawOk width (n.insert bs w)
  | [], n, h => by
    refine ⟨fun l hl => ?_, h.kid false, h.kid true⟩
    rw [LenMask.has_or, Bool.or_eq_true] at hl
    exact hl.elim h.mask (hw l)
  | false :: bs, n, h => ⟨fun _ hl => h.mask hl, rawOk_insert hw bs (h.kid false), h.kid true⟩
  | true :: bs, n, h => ⟨fun _ hl => h.mask hl, h.kid false, rawOk_insert hw bs (h.kid true)⟩

theorem holds_insert (w : LenMask) (path : List Bool) (n : SpaceNode) (d : Nat) (bs : List Bool) :
    (n.insert path w).holds d bs =
      (n.holds d bs || decide (path <+: bs) && w.has (d + bs.length)) := by
  induction path generalizing n d bs with
  | nil =>
    cases bs with
    | nil => simp [insert, holds_empty]
    | cons b bs =>
      have hk : (node (n.mask ||| w) (n.kid false) (n.kid true)).kid b = n.kid b := by
        cases b <;> rfl
      simp only [insert, holds_cons, mask_node, hk, LenMask.has_or, List.nil_prefix, decide_true,
        Bool.true_and, List.length_cons, ← Nat.add_assoc]
      rw [Bool.or_assoc, Bool.or_assoc, Bool.or_comm (w.has _)]
  | cons c path ih =>
    have hm : (n.insert (c :: path) w).mask = n.mask := by cases c <;> rfl
    cases bs with
    | nil => simp [holds_empty, hm]
    | cons b bs =>
      have hp : decide (c :: path <+: b :: bs) = (decide (c = b) && decide (path <+: bs)) := by
        rw [← Bool.decide_and]
        exact decide_eq_decide.2 List.cons_prefix_cons
      rw [holds_cons, holds_cons, hm, List.length_cons, hp]
      by_cases hcb : c = b
      · subst hcb
        have hk : (n.insert (c :: path) w).kid c = (n.kid c).insert path w := by cases c <;> rfl
        rw [hk, ih, show d + 1 + bs.length = d + (bs.length + 1) by omega, decide_eq_true rfl,
          Bool.true_and, Bool.or_assoc]
      · have hk : (n.insert (c :: path) w).kid b = n.kid b := by
          cases c <;> cases b <;> first | rfl | exact absurd rfl hcb
        rw [hk, decide_eq_false hcb, Bool.false_and, Bool.false_and, Bool.or_false]

/-- **`normalize` keeps what is not covered.** -/
theorem holds_normalize (n : SpaceNode) (d width : Nat) (covered : LenMask) (bs : List Bool)
    (hbs : d + bs.length ≤ width) (hw : width ≤ 128) :
    (n.normalize d width covered).holds d bs =
      (n.holds d bs && !covered.has (d + bs.length)) := by
  induction n generalizing d covered bs with
  | nil => rfl
  | node mask c0 c1 ih0 ih1 =>
    have h1 : d ≤ 128 := by omega
    unfold normalize
    simp only
    split
    · rw [holds_lift]
      cases bs with
      | nil => simp [holds_empty, h1]
      | cons b bs =>
        rw [List.length_cons] at hbs
        have hl : d ≤ d + bs.length + 1 ∧ d + bs.length + 1 ≤ 128 := by omega
        have hl' : d + 1 ≤ d + bs.length + 1 := by omega
        have hrec : ((node ((mask &&& LenMask.ge d).andNot covered)
              (normalize c0 (d + 1) width
                ((covered ||| (mask &&& LenMask.ge d).andNot covered) &&& LenMask.ge (d + 1)))
              (normalize c1 (d + 1) width
                ((covered ||| (mask &&& LenMask.ge d).andNot covered) &&& LenMask.ge (d + 1)))).kid
              b).holds (d + 1) bs =
            (((node mask c0 c1).kid b).holds (d + 1) bs &&
              !(covered.has (d + bs.length + 1) ||
                mask.has (d + bs.length + 1) && !covered.has (d + bs.length + 1))) := by
          have e : d + 1 + bs.length = d + bs.length + 1 := by omega
          cases b
          · rw [kid_node_false, ih0 (d + 1) _ bs (by omega), e]; simp [hl, hl']
          · rw [kid_node_true, ih1 (d + 1) _ bs (by omega), e]; simp [hl, hl']
        rw [holds_cons, holds_cons, hrec, mask_node, mask_node, List.length_cons, ← Nat.add_assoc]
        simp only [LenMask.has_andNot, LenMask.has_and, LenMask.has_ge, hl, and_self, decide_true,
          Bool.and_true]
        cases covered.has (d + bs.length + 1) <;> cases mask.has (d + bs.length + 1) <;> simp
    · obtain rfl : bs = [] := List.length_eq_zero_iff.1 (by omega)
      simp [holds_empty, h1]

/-- **`normalize` is canonical** under what it was told is covered. -/
theorem canon_normalize {width : Nat} (hw : width ≤ 128) {n : SpaceNode} (hn : RawOk width n)
    (d : Nat) (covered : LenMask) : Canon width (n.normalize d width covered) d covered := by
  induction n generalizing d covered with
  | nil => trivial
  | node mask c0 c1 ih0 ih1 =>
    have hm : ∀ l, ((mask &&& LenMask.ge d).andNot covered).has l = true →
        d ≤ l ∧ l ≤ width ∧ covered.has l = false := by
      intro l hl
      simp only [LenMask.has_andNot, LenMask.has_and, LenMask.has_ge, Bool.and_eq_true,
        decide_eq_true_eq, Bool.not_eq_true'] at hl
      exact ⟨hl.1.2.1, hn.1 l hl.1.1, hl.2⟩
    unfold normalize
    simp only
    split
    · -- `below` is `covered` and the node's own lengths, at the depths a child can hold
      have hb : ∀ l, d + 1 ≤ l → l ≤ width →
          (covered ||| (mask &&& LenMask.ge d).andNot covered).has l = true →
          ((covered ||| (mask &&& LenMask.ge d).andNot covered) &&& LenMask.ge (d + 1)).has l
            = true := by
        intro l hd hlw hl
        rw [LenMask.has_and, hl, LenMask.has_ge, Bool.true_and, decide_eq_true_eq]
        omega
      exact canon_lift hw hm ((ih0 hn.2.1 _ _).anti hb) ((ih1 hn.2.2 _ _).anti hb)
    · exact canon_mk_leaf hm

end SpaceNode

namespace PrefixSpace

/-- The trie of each family is canonical from its root. -/
def Canonical (s : PrefixSpace) : Prop := ∀ f : Family, (s.root f).Canon f.width 0 0#192

/-- The spaces the exported constructors and operations build, in any nesting. -/
inductive Built : PrefixSpace → Prop
  | spaceOf (rs : List PrefixRange) : Built (spaceOf rs)
  | fullSpace (afi : AFI) : Built (fullSpace afi)
  | union {s t : PrefixSpace} : Built s → Built t → Built (s.union t)
  | intersect {s t : PrefixSpace} : Built s → Built t → Built (s.intersect t)
  | minus {s t : PrefixSpace} : Built s → Built t → Built (s.minus t)

theorem root_combine (op : SetOp) (s t : PrefixSpace) (f : Family) :
    (combine op s t).root f = merge op (s.root f) (t.root f) 0 f.width 0#192 0#192 := by
  cases f <;> rfl

theorem contains_combine (op : SetOp) (s t : PrefixSpace) (p : Prefix) :
    (combine op s t).contains p = op.bool (s.contains p) (t.contains p) := by
  have hw := p.fam.width_le
  have hp : p.path.length ≤ p.fam.width - 0 := by rw [p.path_length, Nat.sub_zero]; exact p.le
  rw [contains_eq_holds, contains_eq_holds, contains_eq_holds, root_combine]
  unfold merge
  rw [SpaceNode.holds_mergeGo op _ _ _ 0 _ _ _ hp (by omega)]
  simp

theorem Canonical.combine {s t : PrefixSpace} (op : SetOp) (hs : s.Canonical) (ht : t.Canonical) :
    (PrefixSpace.combine op s t).Canonical := by
  intro f
  rw [root_combine]
  exact SpaceNode.canon_mergeGo f.width_le op _ _ _ 0 _ _ (by omega) (hs f) (ht f) (by simp)
    (by simp)

/-! ## `SpaceOf` and `FullSpace` -/

theorem root_addRaw (raw : PrefixSpace) (r : PrefixRange) (f : Family) :
    ((addRaw raw r).root f = raw.root f ∧ ∀ q : Prefix, q.fam = f → r.contains q = false) ∨
      ∃ p, r.pfx = some p ∧ r.isEmpty = false ∧ p.fam = f ∧
        (addRaw raw r).root f =
          (raw.root f).insert p.path (LenMask.window (max r.lo p.bits) r.hi) := by
  unfold addRaw
  split
  · rename_i he
    exact .inl ⟨rfl, fun q _ => PrefixRange.not_contains_of_isEmpty he q⟩
  · rename_i he
    rw [Bool.not_eq_true] at he
    obtain ⟨p, hp, -⟩ := PrefixRange.isEmpty_eq_false_iff.1 he
    have hother : p.fam ≠ f → ∀ q : Prefix, q.fam = f → r.contains q = false := by
      intro hne q hq
      rw [Bool.eq_false_iff]
      intro hc
      obtain ⟨b, hb, -, -, hcov⟩ := PrefixRange.contains_iff.1 hc
      obtain rfl : p = b := Option.some.inj (hp.symm.trans hb)
      exact hne (hcov.1.trans hq)
    rw [hp]
    simp only
    cases hf : p.fam <;> cases f
    · exact .inr ⟨p, rfl, he, hf, rfl⟩
    · exact .inl ⟨rfl, hother (by rw [hf]; decide)⟩
    · exact .inl ⟨rfl, hother (by rw [hf]; decide)⟩
    · exact .inr ⟨p, rfl, he, hf, rfl⟩

theorem holds_addRaw (raw : PrefixSpace) (r : PrefixRange) (q : Prefix) :
    ((addRaw raw r).root q.fam).holds 0 q.path =
      ((raw.root q.fam).holds 0 q.path || r.contains q) := by
  have hq : q.bits ≤ 128 := q.le.trans q.fam.width_le
  rcases root_addRaw raw r q.fam with ⟨h, hno⟩ | ⟨p, hp, -, hf, h⟩
  · rw [h, hno q rfl, Bool.or_false]
  · obtain ⟨-, hlo, -⟩ := PrefixRange.pfx_wf hp
    rw [h, SpaceNode.holds_insert]
    congr 1
    rw [Bool.eq_iff_iff, PrefixRange.contains_iff]
    simp only [hp, Option.some.injEq, exists_eq_left', Prefix.Covers, hf, true_and, Nat.zero_add,
      Prefix.path_length, LenMask.has_window, Bool.and_eq_true, decide_eq_true_eq]
    constructor
    · rintro ⟨hpre, h1, h2, -⟩; exact ⟨by omega, h2, hpre⟩
    · rintro ⟨h1, h2, hpre⟩; exact ⟨hpre, by omega, h2, hq⟩

theorem holds_foldl_addRaw (rs : List PrefixRange) (raw : PrefixSpace) (q : Prefix) :
    ((rs.foldl addRaw raw).root q.fam).holds 0 q.path =
      ((raw.root q.fam).holds 0 q.path || rs.any (·.contains q)) := by
  induction rs generalizing raw with
  | nil => simp
  | cons r rs ih => rw [List.foldl_cons, ih, holds_addRaw, List.any_cons, Bool.or_assoc]

theorem rawOk_foldl_addRaw (rs : List PrefixRange) (raw : PrefixSpace) (f : Family)
    (h : (raw.root f).RawOk f.width) : ((rs.foldl addRaw raw).root f).RawOk f.width := by
  induction rs generalizing raw with
  | nil => exact h
  | cons r rs ih =>
    rw [List.foldl_cons]
    refine ih _ ?_
    rcases root_addRaw raw r f with ⟨e, -⟩ | ⟨p, hp, -, hf, e⟩
    · rw [e]; exact h
    · rw [e]
      refine SpaceNode.rawOk_insert (fun l hl => ?_) _ h
      rw [LenMask.has_window, decide_eq_true_eq] at hl
      obtain ⟨-, -, hhi, -⟩ := PrefixRange.pfx_wf hp
      have : p.bitLen = f.width := congrArg Family.width hf
      omega

theorem root_spaceOf (rs : List PrefixRange) (f : Family) :
    (spaceOf rs).root f = ((rs.foldl addRaw empty).root f).normalize 0 f.width 0#192 := by
  cases f <;> rfl

theorem root_empty (f : Family) : empty.root f = .nil := by cases f <;> rfl

theorem contains_spaceOf (rs : List PrefixRange) (q : Prefix) :
    (spaceOf rs).contains q = rs.any (·.contains q) := by
  rw [contains_eq_holds, root_spaceOf, SpaceNode.holds_normalize _ _ _ _ _ _ q.fam.width_le,
    holds_foldl_addRaw, root_empty]
  · simp
  · rw [q.path_length, Nat.zero_add]; exact q.le

theorem canonical_spaceOf (rs : List PrefixRange) : (spaceOf rs).Canonical := by
  intro f
  rw [root_spaceOf]
  refine SpaceNode.canon_normalize f.width_le (rawOk_foldl_addRaw rs empty f ?_) 0 _
  rw [root_empty]; trivial

theorem canonical_fullSpace (afi : AFI) : (fullSpace afi).Canonical := by
  have hfull : ∀ w ≤ 128, SpaceNode.Canon w (.node (LenMask.window 0 w) .nil .nil) 0 0#192 := by
    intro w hw
    refine ⟨fun l hl => ?_, by simp, fun h => ?_, trivial, trivial⟩
    · rw [LenMask.has_window, decide_eq_true_eq] at hl
      exact ⟨hl.1, hl.2.1, by simp⟩
    · have : (LenMask.window 0 w).has 0 = true := by simp
      rw [h.1] at this
      simp at this
  intro f
  cases f <;> cases afi <;> first | exact hfull _ (by decide) | trivial

theorem Built.canonical {s : PrefixSpace} (h : s.Built) : s.Canonical := by
  induction h with
  | spaceOf rs => exact canonical_spaceOf rs
  | fullSpace afi => exact canonical_fullSpace afi
  | union _ _ hs ht => exact hs.combine .union ht
  | intersect _ _ hs ht => exact hs.combine .intersect ht
  | minus _ _ hs ht => exact hs.combine .minus ht

/-- **The set operations are exact**, on any two tries, so on the spaces built in any nesting. -/
theorem space_ops_exact (s t : PrefixSpace) (rs : List PrefixRange) (p : Prefix) :
    ((s.union t).contains p = true ↔ s.contains p = true ∨ t.contains p = true) ∧
    ((s.intersect t).contains p = true ↔ s.contains p = true ∧ t.contains p = true) ∧
    ((s.minus t).contains p = true ↔ s.contains p = true ∧ ¬ t.contains p = true) ∧
    ((spaceOf rs).contains p = true ↔ ∃ r ∈ rs, r.contains p = true) := by
  refine ⟨?_, ?_, ?_, ?_⟩
  · simp [union, contains_combine, SetOp.bool]
  · simp [intersect, contains_combine, SetOp.bool]
  · simp [minus, contains_combine, SetOp.bool]
  · simp [contains_spaceOf]

end PrefixSpace

theorem SpaceNode.equalNode_iff (a b : SpaceNode) : a.equalNode b = true ↔ a = b := by
  induction a generalizing b with
  | nil => cases b <;> simp [SpaceNode.equalNode]
  | node m c0 c1 ih0 ih1 =>
    cases b with
    | nil => simp [SpaceNode.equalNode]
    | node m' c0' c1' => simp [SpaceNode.equalNode, ih0, ih1, and_assoc]

namespace PrefixSpace

theorem equal_iff (s t : PrefixSpace) : s.equal t = true ↔ s = t := by
  obtain ⟨a, b⟩ := s
  obtain ⟨c, d⟩ := t
  simp [equal, SpaceNode.equalNode_iff]

theorem Canonical.ext {s t : PrefixSpace} (hs : s.Canonical) (ht : t.Canonical)
    (h : ∀ p, s.contains p = t.contains p) : s = t := by
  have hroot : ∀ f, s.root f = t.root f := by
    intro f
    refine (hs f).ext (ht f) fun bs _ hw => ?_
    rw [Nat.zero_add] at hw
    have := h (Prefix.ofPath f bs hw)
    rwa [contains_eq_holds, contains_eq_holds, Prefix.ofPath_path, Prefix.ofPath_fam] at this
  obtain ⟨a, b⟩ := s
  obtain ⟨c, d⟩ := t
  have h4 : a = c := hroot .v4
  have h6 : b = d := hroot .v6
  rw [h4, h6]

/-- **The representation is canonical and unique.** -/
theorem space_canonical {s t : PrefixSpace} (hs : s.Built) (ht : t.Built) :
    s.Canonical ∧ ((∀ p, s.contains p = t.contains p) → s = t) ∧
      (s.equal t = true ↔ ∀ p, s.contains p = t.contains p) := by
  refine ⟨hs.canonical, hs.canonical.ext ht.canonical, ?_⟩
  rw [equal_iff]
  exact ⟨fun h p => by rw [h], hs.canonical.ext ht.canonical⟩

/-- The two halves of IPv4 together are the one node `0.0.0.0/0^1`. -/
theorem space_canonical_halves :
    let half (b : Bool) :=
      (PrefixRange.new (Prefix.ofPath .v4 [b] (by simp [Family.width])) 1 1).toList
    let whole := (PrefixRange.new (Prefix.ofPath .v4 [] (by decide)) 1 1).toList
    ((spaceOf (half false)).union (spaceOf (half true))).equal (spaceOf whole) = true ∧
      ∀ p, ((spaceOf (half false)).union (spaceOf (half true))).contains p =
        (spaceOf whole).contains p :=
  ⟨by decide +kernel,
    (space_canonical (.union (.spaceOf _) (.spaceOf _)) (.spaceOf _)).2.2.1 (by decide +kernel)⟩

end PrefixSpace

end Rpsl
