import Rpsl.Types.PrefixRange

/-!
# What ranges and range operators denote

A range denotes the prefixes under its base whose length is in its window (`contains_iff`);
`Intersect` is intersection (`intersect_contains`), and an operator applied to a range denotes the
operator applied to each prefix the range denotes (`apply_contains`), which is why a stack of
operators may be composed before any prefix is enumerated.
-/

namespace Rpsl

namespace PrefixRange

theorem contains_iff {r : PrefixRange} {p : Prefix} :
    r.contains p = true ↔ ∃ b, r.pfx = some b ∧ r.lo ≤ p.bits ∧ p.bits ≤ r.hi ∧ b.Covers p := by
  unfold contains
  split
  · rename_i h; simp [h]
  · rename_i b h
    have hwf := r.wf
    rw [h] at hwf
    simp only [Bool.and_eq_true, Bool.not_eq_true', decide_eq_true_eq, h, Option.some.injEq,
      exists_eq_left', isEmpty, isZero, Option.isNone_some, Bool.false_or,
      decide_eq_false_iff_not, Nat.not_lt]
    constructor
    · rintro ⟨⟨⟨-, hlo⟩, hhi⟩, hc⟩
      exact ⟨hlo, hhi, (Prefix.contains_masked_iff (hwf.2.1.trans hlo)).1 hc⟩
    · rintro ⟨hlo, hhi, hc⟩
      exact ⟨⟨⟨hlo.trans hhi, hlo⟩, hhi⟩, (Prefix.contains_masked_iff hc.bits_le).2 hc⟩

theorem isEmpty_eq_false_iff {r : PrefixRange} :
    r.isEmpty = false ↔ ∃ b, r.pfx = some b ∧ r.lo ≤ r.hi := by
  unfold isEmpty isZero
  cases r.pfx <;> simp

theorem not_contains_of_isEmpty {r : PrefixRange} (h : r.isEmpty = true) (p : Prefix) :
    r.contains p = false := by
  rw [Bool.eq_false_iff]
  intro hc
  obtain ⟨b, hb, hlo, hhi, -⟩ := contains_iff.1 hc
  have := isEmpty_eq_false_iff.2 ⟨b, hb, hlo.trans hhi⟩
  rw [h] at this
  cases this

theorem pfx_wf {r : PrefixRange} {b : Prefix} (h : r.pfx = some b) :
    b.masked = b ∧ b.bits ≤ r.lo ∧ r.hi ≤ b.bitLen ∧
      (r.lo ≤ r.hi ∨ (r.lo = b.bitLen + 1 ∧ r.hi = b.bitLen)) := by
  have := r.wf
  rwa [h] at this

variable {lo hi : Nat}

theorem new_eq_some {p : Prefix} {r : PrefixRange} (h : new p lo hi = some r) :
    r.pfx = some p.masked ∧ r.lo = max lo p.bits ∧ r.hi = min hi p.bitLen := by
  unfold new at h
  simp only at h
  split at h
  · simp only [Option.some.injEq] at h
    subst h
    exact ⟨rfl, rfl, rfl⟩
  · cases h

theorem new_eq_none {p : Prefix} (h : new p lo hi = none) :
    min hi p.bitLen < max lo p.bits := by
  unfold new at h
  simp only at h
  split at h
  · cases h
  · rename_i hc
    simp only [Prefix.masked_bits, Prefix.masked_bitLen] at hc
    omega

theorem isEmpty_new {p : Prefix} {r : PrefixRange} (h : new p lo hi = some r) :
    r.isEmpty = false := by
  unfold new at h
  simp only at h
  split at h
  · rename_i hle
    simp only [Option.some.injEq] at h
    subst h
    exact isEmpty_eq_false_iff.2 ⟨_, rfl, hle⟩
  · cases h

theorem Covers_masked_left {p q : Prefix} : p.masked.Covers q ↔ p.Covers q := by
  simp [Prefix.Covers]

theorem contains_new {p : Prefix} {r : PrefixRange} (h : new p lo hi = some r)
    (q : Prefix) : r.contains q = true ↔ lo ≤ q.bits ∧ q.bits ≤ hi ∧ p.Covers q := by
  obtain ⟨h1, h2, h3⟩ := new_eq_some h
  rw [contains_iff, h1, h2, h3]
  simp only [Option.some.injEq, exists_eq_left', Covers_masked_left]
  constructor
  · rintro ⟨hlo, hhi, hc⟩
    exact ⟨by omega, by omega, hc⟩
  · rintro ⟨hlo, hhi, hc⟩
    have hb := hc.bits_le
    have hq : q.bits ≤ p.bitLen := by
      have := q.le
      unfold Prefix.bitLen Addr.bitLen
      have hf : p.addr.fam = q.addr.fam := hc.1
      rw [hf]; exact this
    exact ⟨by omega, by omega, hc⟩

theorem covers_base {p q x : Prefix} (hp : p.Covers x) (hq : q.Covers x) (h : p.bits ≤ q.bits) :
    p.Covers q :=
  ⟨hp.1.trans hq.1.symm, List.prefix_of_prefix_length_le hp.2 hq.2 (by simpa using h)⟩

theorem intersect_eq (r s : PrefixRange) {p q : Prefix} (hp : r.pfx = some p) (hq : s.pfx = some q)
    (hr : r.isEmpty = false) (hs : s.isEmpty = false) :
    let base := if p.bits < q.bits then q else p
    (∃ t, r.intersect s = some t ∧ t.pfx = some base ∧ t.lo = max (max r.lo s.lo) base.bits ∧
        t.hi = min r.hi s.hi ∧ t.lo ≤ t.hi ∧ p.Covers base ∧ q.Covers base) ∨
      (r.intersect s = none ∧ (¬ (p.Covers base ∧ q.Covers base) ∨
        min r.hi s.hi < max (max r.lo s.lo) base.bits)) := by
  intro base
  have hpm := (pfx_wf hp).1
  have hqm := (pfx_wf hq).1
  have hbm : base.masked = base := by
    simp only [base]; split <;> assumption
  have hpb : p.bits ≤ base.bits := by simp only [base]; split <;> omega
  have hqb : q.bits ≤ base.bits := by simp only [base]; split <;> omega
  have cp := Prefix.contains_masked_iff hpb
  have cq := Prefix.contains_masked_iff hqb
  rw [hbm] at cp cq
  unfold intersect
  simp only [hr, hs, Bool.or_false, Bool.false_eq_true, if_false]
  split
  · rename_i p' q' hp' hq'
    obtain rfl : p' = p := Option.some.inj (hp'.symm.trans hp)
    obtain rfl : q' = q := Option.some.inj (hq'.symm.trans hq)
    change _ at base
    by_cases hc : p'.Covers base ∧ q'.Covers base
    · have hcb : (!p'.contains base.addr || !q'.contains base.addr) = false := by
        rw [cp.2 hc.1, cq.2 hc.2]; rfl
      rw [if_neg (by rw [hcb]; simp)]
      by_cases hle : max (max r.lo s.lo) base.bits ≤ min r.hi s.hi
      · rw [dif_pos hle]
        exact .inl ⟨_, rfl, rfl, rfl, rfl, hle, hc.1, hc.2⟩
      · rw [dif_neg hle]
        exact .inr ⟨rfl, .inr (by omega)⟩
    · have hcb : (!p'.contains base.addr || !q'.contains base.addr) = true := by
        rw [Bool.or_eq_true, Bool.not_eq_true', Bool.not_eq_true', Bool.eq_false_iff,
          Bool.eq_false_iff]
        exact not_and_or.1 fun h => hc ⟨cp.1 h.1, cq.1 h.2⟩
      rw [if_pos hcb]
      exact .inr ⟨rfl, .inl hc⟩
  · rename_i hno
    exact absurd hq (hno p q hp)

/-- **`Intersect` denotes what both ranges denote**, and fails when that is nothing. -/
theorem intersect_contains (r s : PrefixRange) (x : Prefix) :
    (r.contains x = true ∧ s.contains x = true) ↔
      ∃ t, r.intersect s = some t ∧ t.contains x = true := by
  by_cases hr : r.isEmpty = true
  · simp [not_contains_of_isEmpty hr, intersect, hr]
  by_cases hs : s.isEmpty = true
  · simp [not_contains_of_isEmpty hs, intersect, hs]
  rw [Bool.not_eq_true] at hr hs
  obtain ⟨p, hp, -⟩ := isEmpty_eq_false_iff.1 hr
  obtain ⟨q, hq, -⟩ := isEmpty_eq_false_iff.1 hs
  have key := intersect_eq r s hp hq hr hs
  simp only at key
  -- the base covers `x` when both bases do, and the other way round where they nest
  have hbase : p.Covers x → q.Covers x → p.Covers (if p.bits < q.bits then q else p) ∧
      q.Covers (if p.bits < q.bits then q else p) ∧
      (if p.bits < q.bits then q else p).Covers x := by
    intro h1 h2
    split
    · exact ⟨covers_base h1 h2 (by omega), .refl q, h2⟩
    · exact ⟨.refl p, covers_base h2 h1 (by omega), h1⟩
  rw [contains_iff, contains_iff, hp, hq]
  simp only [Option.some.injEq, exists_eq_left']
  rcases key with ⟨t, ht, htp, hlo, hhi, -, hcp, hcq⟩ | ⟨ht, hno⟩
  · rw [ht]
    simp only [Option.some.injEq, exists_eq_left', contains_iff, htp, hlo, hhi]
    constructor
    · rintro ⟨⟨h1, h2, h3⟩, h4, h5, h6⟩
      have hb := (hbase h3 h6).2.2
      have := hb.bits_le
      exact ⟨by omega, by omega, hb⟩
    · rintro ⟨h1, h2, h3⟩
      exact ⟨⟨by omega, by omega, hcp.trans h3⟩, by omega, by omega, hcq.trans h3⟩
  · rw [ht]
    simp only [reduceCtorEq, false_and, exists_false, iff_false]
    rintro ⟨⟨h1, h2, h3⟩, h4, h5, h6⟩
    obtain ⟨hb1, hb2, hb3⟩ := hbase h3 h6
    have := hb3.bits_le
    rcases hno with hno | hno
    · exact hno ⟨hb1, hb2⟩
    · omega

theorem isEmpty_intersect {r s t : PrefixRange} (h : r.intersect s = some t) :
    t.isEmpty = false := by
  by_cases hr : r.isEmpty = true
  · simp [intersect, hr] at h
  by_cases hs : s.isEmpty = true
  · simp [intersect, hs] at h
  rw [Bool.not_eq_true] at hr hs
  obtain ⟨p, hp, -⟩ := isEmpty_eq_false_iff.1 hr
  obtain ⟨q, hq, -⟩ := isEmpty_eq_false_iff.1 hs
  rcases intersect_eq r s hp hq hr hs with ⟨t', ht, htp, -, -, hle, -⟩ | ⟨ht, -⟩
  · rw [h] at ht; cases ht
    exact isEmpty_eq_false_iff.2 ⟨_, htp, hle⟩
  · rw [h] at ht; cases ht

end PrefixRange

/-! ## Operators -/

namespace RangeOperator

/-- The prefixes the operator makes of one prefix: those under it (strictly under it, for `^-`)
whose length the operator allows. -/
def Allows (o : RangeOperator) (p q : Prefix) : Prop :=
  match o.op with
  | .exact => q = p
  | .plus => p.Covers q
  | .minus => p.Covers q ∧ p.bits < q.bits
  | .length | .range => p.Covers q ∧ o.n ≤ q.bits ∧ q.bits ≤ o.m

/-- The operator applied to every prefix of a set. -/
def image (o : RangeOperator) (S : Set Net) : Set Net := {q | ∃ p ∈ S, o.Allows p.1 q.1}

theorem image_mono (o : RangeOperator) {S T : Set Net} (h : S ⊆ T) : o.image S ⊆ o.image T :=
  fun _ ⟨p, hp, hq⟩ => ⟨p, h hp, hq⟩

end RangeOperator

/-- The prefixes a range denotes. -/
def PrefixRange.denote (r : PrefixRange) : Set Net := {p | r.contains p.1 = true}

theorem PrefixRange.mem_denote {r : PrefixRange} {p : Net} :
    p ∈ r.denote ↔ r.contains p.1 = true := Iff.rfl

namespace RangeOperator

variable {o : RangeOperator}

theorem image_of_isZero (h : o.isZero = true) (S : Set Net) :
    o.image S = S := by
  have h' : o.op = .exact := by simpa [isZero] using h
  ext q
  simp only [image, Allows, h', Set.mem_ofPred_eq]
  constructor
  · rintro ⟨p, hp, hq⟩; rwa [Subtype.ext hq]
  · intro hq; exact ⟨q, hq, rfl⟩

theorem allows_iff (h : o.isZero = false) {p q : Prefix} :
    o.Allows p q ↔ p.Covers q ∧ (o.window p.bits q.bitLen).1 ≤ q.bits ∧
      q.bits ≤ (o.window p.bits q.bitLen).2 := by
  have hq : q.bits ≤ q.bitLen := q.le
  have h' : o.op ≠ .exact := by simpa [isZero] using h
  unfold Allows window
  constructor
  · intro ha
    have hc : p.Covers q := by cases ho : o.op <;> simp_all
    have hb := hc.bits_le
    refine ⟨hc, ?_⟩
    cases ho : o.op <;> simp_all
  · rintro ⟨hc, ha⟩
    have hb := hc.bits_le
    cases ho : o.op <;> simp_all

theorem window_mono (o : RangeOperator) {k k' : Nat} (h : k ≤ k') (w : Nat) :
    (o.window k w).1 ≤ (o.window k' w).1 ∧ (o.window k' w).2 = (o.window k w).2 ∧
      k ≤ (o.window k w).1 ∧ (o.window k w).2 ≤ w := by
  unfold window
  cases o.op <;> simp <;> omega

/-- **`Apply` denotes the operator applied to every prefix the range denotes.** -/
theorem apply_denote (o : RangeOperator) (r : PrefixRange) :
    o.image r.denote = {q | ∃ t, o.apply r = some t ∧ q ∈ t.denote} := by
  by_cases hz : o.isZero = true
  · rw [image_of_isZero hz]
    ext q
    simp [apply, hz]
  rw [Bool.not_eq_true] at hz
  ext q
  simp only [image, Set.mem_ofPred_eq, PrefixRange.mem_denote, allows_iff hz]
  unfold apply
  simp only [hz, Bool.false_eq_true, if_false]
  cases hb : r.pfx with
  | none =>
    simp only [reduceCtorEq, false_and, exists_false, iff_false]
    rintro ⟨p, hc, -⟩
    obtain ⟨b, hb', -⟩ := PrefixRange.contains_iff.1 hc
    rw [hb] at hb'; cases hb'
  | some b =>
    obtain ⟨-, hblo, hhi, hwin⟩ := PrefixRange.pfx_wf hb
    obtain ⟨-, -, hkw, hwl⟩ := o.window_mono (le_refl r.lo) b.bitLen
    have hbitLen : b.Covers q.1 → q.1.bitLen = b.bitLen := fun h => by
      unfold Prefix.bitLen Addr.bitLen
      exact congrArg Family.width h.1.symm
    simp only
    constructor
    · rintro ⟨p, hc, hcov, hlo, hhi'⟩
      obtain ⟨b', hb', hplo, hphi, hbp⟩ := PrefixRange.contains_iff.1 hc
      obtain rfl : b = b' := Option.some.inj (hb.symm.trans hb')
      have hbq := hbp.trans hcov
      rw [hbitLen hbq] at hlo hhi'
      -- `p` is no shorter than the range's low length, whose window is the widest
      obtain ⟨hm1, hm2, -⟩ := o.window_mono hplo b.bitLen
      rw [if_neg (by omega)]
      cases hn : PrefixRange.new b (o.window r.lo b.bitLen).1 (o.window r.lo b.bitLen).2 with
      | none =>
        have := PrefixRange.new_eq_none hn
        omega
      | some t =>
        exact ⟨t, rfl, (PrefixRange.contains_new hn q.1).2 ⟨by omega, by omega, hbq⟩⟩
    · rintro ⟨t, ht, hq⟩
      split at ht
      · cases ht
      · rename_i hle
        obtain ⟨h1, h2, hbq⟩ := (PrefixRange.contains_new ht q.1).1 hq
        have hqb : q.1.bits ≤ b.bitLen := by rw [← hbitLen hbq]; exact q.1.le
        -- the prefix of the low length that `q` lies under is in the range
        have hk : (q.1.up r.lo).bits = r.lo := q.1.up_bits (by omega)
        refine ⟨⟨q.1.up r.lo, q.1.up_masked _⟩, PrefixRange.contains_iff.2
          ⟨b, hb, hk.ge, hk.le.trans (by omega), hbq.up hblo⟩, q.1.up_covers _, ?_, ?_⟩
        · rw [hk, hbitLen hbq]; exact h1
        · rw [hk, hbitLen hbq]; exact h2

theorem isEmpty_apply {r t : PrefixRange} (hr : r.isEmpty = false)
    (h : o.apply r = some t) : t.isEmpty = false := by
  unfold RangeOperator.apply at h
  split_ifs at h
  · cases h
    exact hr
  · split at h
    · cases h
    · dsimp only at h
      split_ifs at h
      exact PrefixRange.isEmpty_new h

end RangeOperator

end Rpsl
