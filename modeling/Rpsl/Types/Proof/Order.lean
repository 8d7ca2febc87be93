import Rpsl.Types.RangeText

/-!
# The order of prefixes

Prefixes are listed by address, then length. Of two prefixes without host bits, one that covers the
other comes first (`less_of_covers`), and otherwise the one with a 0 where their paths part
(`less_of_part`).
-/

namespace Rpsl

namespace Addr

variable {a b : Addr}

theorem ext_toNat (hf : a.fam = b.fam) (h : a.val.toNat = b.val.toNat) : a = b := by
  obtain ⟨f, x⟩ := a
  obtain ⟨g, y⟩ := b
  cases hf
  cases BitVec.eq_of_toNat_eq h
  rfl

theorem testBit_val (a : Addr) {d : Nat} (h : d < a.fam.width) :
    a.val.toNat.testBit d = a.bitAt (a.fam.width - 1 - d) := by
  have hd : a.fam.width - 1 - d < a.fam.width := by omega
  have hdd : a.fam.width - 1 - (a.fam.width - 1 - d) = d := by omega
  rw [BitVec.testBit_toNat, bitAt, BitVec.getMsbD, hdd]
  simp [hd]

theorem testBit_val_of_le (a : Addr) {d : Nat} (h : a.fam.width ≤ d) :
    a.val.toNat.testBit d = false :=
  Nat.testBit_lt_two_pow (lt_of_lt_of_le a.val.isLt (Nat.pow_le_pow_right (by decide) h))

theorem val_lt_of_bit (hf : a.fam = b.fam) {k : Nat} (hk : k < a.fam.width)
    (h : ∀ d < k, a.bitAt d = b.bitAt d) (ha : a.bitAt k = false) (hb : b.bitAt k = true) :
    a.val.toNat < b.val.toNat := by
  have hw : b.fam.width = a.fam.width := by rw [hf]
  have hkk : a.fam.width - 1 - (a.fam.width - 1 - k) = k := by omega
  have hlt : a.fam.width - 1 - k < a.fam.width := by omega
  refine Nat.lt_of_testBit (a.fam.width - 1 - k) ?_ ?_ fun j hj => ?_
  · rw [a.testBit_val hlt, hkk, ha]
  · rw [b.testBit_val (by omega), ← hf, hkk, hb]
  · by_cases hjw : j < a.fam.width
    · rw [a.testBit_val hjw, b.testBit_val (by omega), h _ (by omega), hf]
    · rw [a.testBit_val_of_le (by omega), b.testBit_val_of_le (by omega)]

theorem val_le_of_bits (hf : a.fam = b.fam)
    (h : ∀ d, a.bitAt d = true → b.bitAt d = true) : a.val.toNat ≤ b.val.toNat := by
  have hw : b.fam.width = a.fam.width := by rw [hf]
  have hor : a.val.toNat ||| b.val.toNat = b.val.toNat := by
    refine Nat.eq_of_testBit_eq fun j => ?_
    rw [Nat.testBit_or]
    by_cases hj : j < a.fam.width
    · rw [a.testBit_val hj, b.testBit_val (by omega), ← hf]
      cases hb : a.bitAt (a.fam.width - 1 - j) with
      | false => rw [Bool.false_or]
      | true => rw [h _ hb, Bool.true_or]
    · rw [a.testBit_val_of_le (by omega), b.testBit_val_of_le (by omega), Bool.false_or]
  rw [← hor]
  exact Nat.left_le_or

theorem lt_iff (hf : a.fam = b.fam) :
    a.lt b = true ↔ a.val.toNat < b.val.toNat := by
  simp [lt, bitLen, hf]

theorem lt_eq_false_iff (hf : a.fam = b.fam) :
    a.lt b = false ↔ b.val.toNat ≤ a.val.toNat := by
  rw [Bool.eq_false_iff, ne_eq, lt_iff hf, Nat.not_lt]

end Addr

namespace Prefix

variable {p : Prefix}

theorem bitAt_of_masked (hp : p.masked = p) {d : Nat} (hd : p.bits ≤ d) :
    p.addr.bitAt d = false := by
  rw [← hp]
  simp only [masked]
  rw [Addr.bitAt_mask _ p.le]
  simp [Nat.not_lt.2 hd]

variable {q : Prefix}

theorem Covers.bitAt_eq (h : p.Covers q) {d : Nat} (hd : d < p.bits) :
    p.addr.bitAt d = q.addr.bitAt d :=
  (path_isPrefix_iff h.bits_le).1 h.2 d hd

theorem Covers.val_le (hp : p.masked = p) (h : p.Covers q) :
    p.addr.val.toNat ≤ q.addr.val.toNat := by
  refine Addr.val_le_of_bits h.1 fun d hd => ?_
  by_cases hlt : d < p.bits
  · rwa [← h.bitAt_eq hlt]
  · rw [bitAt_of_masked hp (by omega)] at hd
    cases hd

theorem less_of_covers (hp : p.masked = p) (h : p.Covers q)
    (hlt : p.bits < q.bits) : p.less q = true := by
  have hle := (Addr.lt_eq_false_iff (a := q.addr) (b := p.addr) h.1.symm).2 (h.val_le hp)
  simp [less, hle, hlt]

theorem less_of_part (hf : p.fam = q.fam) {s : List Bool}
    (hp : s ++ [false] <+: p.path) (hq : s ++ [true] <+: q.path) : p.less q = true := by
  have hbit : ∀ {r : Prefix} {b : Bool}, s ++ [b] <+: r.path → s.length < r.bits ∧
      r.addr.bitAt s.length = b ∧ ∀ d < s.length, s[d]? = some (r.addr.bitAt d) := by
    intro r b h
    have hlen : s.length < r.bits := by simpa using h.length_le
    have hget : ∀ d < s.length + 1, (s ++ [b])[d]? = some (r.addr.bitAt d) := by
      intro d hd
      obtain ⟨t, ht⟩ := h
      rw [← r.path_getElem? (by omega), ← ht]
      exact (List.getElem?_append_left (by simpa using hd)).symm
    refine ⟨hlen, ?_, fun d hd => ?_⟩
    · simpa using (hget s.length (by omega)).symm
    · rw [← hget d (by omega), List.getElem?_append_left hd]
  obtain ⟨hlp, hp0, hpd⟩ := hbit hp
  obtain ⟨hlq, hq1, hqd⟩ := hbit hq
  have hlt : p.addr.lt q.addr = true := by
    refine (Addr.lt_iff hf).2 (Addr.val_lt_of_bit hf (lt_of_lt_of_le hlp p.le) ?_ hp0 hq1)
    intro d hd
    exact Option.some.inj ((hpd d hd).symm.trans (hqd d hd))
  simp [less, hlt]

theorem less_asymm (h : p.less q = true) : q.less p = false := by
  rw [Bool.eq_false_iff]
  intro h'
  simp only [less, Addr.lt, Bool.or_eq_true, Bool.and_eq_true, Bool.not_eq_eq_eq_not,
    Bool.not_true, Bool.or_eq_false_iff, Bool.and_eq_false_iff, decide_eq_true_eq,
    decide_eq_false_iff_not] at h h'
  omega

theorem less_irrefl (p : Prefix) : p.less p = false := by
  have h : p.addr.lt p.addr = false := (Addr.lt_eq_false_iff rfl).2 (le_refl _)
  simp [less, h]

end Prefix

end Rpsl
