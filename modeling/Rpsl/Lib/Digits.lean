import Mathlib.Data.Nat.Digits.Lemmas

/-!
# Numbers of a fixed number of digits

The digits of a number from the least significant one, as many as asked for (`lowDigits`), and the
numbers whose high digits are given: they are an interval, from zeros in the other places to the
largest digits (`ofDigits_block`).
-/

namespace Lib

open Nat (ofDigits)

/-- The `w` lowest digits of `v`, the lowest first. -/
def lowDigits (b : Nat) : Nat → Nat → List Nat
  | 0, _ => []
  | w + 1, v => v % b :: lowDigits b w (v / b)

@[simp] theorem length_lowDigits (b w v : Nat) : (lowDigits b w v).length = w := by
  induction w generalizing v with
  | zero => rfl
  | succ w ih => rw [lowDigits, List.length_cons, ih]

theorem lt_of_mem_lowDigits {b w v d : Nat} (hb : 0 < b) (h : d ∈ lowDigits b w v) : d < b := by
  induction w generalizing v with
  | zero => cases h
  | succ w ih =>
    rcases List.mem_cons.1 h with rfl | h
    · exact Nat.mod_lt v hb
    · exact ih h

theorem ofDigits_lowDigits {b w v : Nat} (h : v < b ^ w) : ofDigits b (lowDigits b w v) = v := by
  induction w generalizing v with
  | zero =>
    rw [Nat.pow_zero] at h
    rw [lowDigits, Nat.ofDigits_nil]
    omega
  | succ w ih =>
    have hdiv : v / b < b ^ w := by
      apply Nat.div_lt_of_lt_mul
      rwa [← Nat.pow_succ']
    rw [lowDigits, Nat.ofDigits_cons, ih hdiv, Nat.mod_add_div]

theorem ofDigits_replicate_pred {b : Nat} (hb : 0 < b) (k : Nat) :
    ofDigits b (List.replicate k (b - 1)) + 1 = b ^ k := by
  induction k with
  | zero => rfl
  | succ k ih =>
    rw [List.replicate_succ, Nat.ofDigits_cons, Nat.pow_succ', ← ih, Nat.mul_add, Nat.mul_one]
    omega

theorem mul_le_add_mul_iff {n l x y : Nat} (hl : l < n) : n * x ≤ l + n * y ↔ x ≤ y := by
  constructor
  · intro h
    by_contra hlt
    have hmul : n * (y + 1) ≤ n * x := Nat.mul_le_mul_left n (by omega)
    rw [Nat.mul_add, Nat.mul_one] at hmul
    omega
  · intro h
    exact (Nat.mul_le_mul_left n h).trans (Nat.le_add_left _ _)

theorem add_mul_le_iff {n l m x y : Nat} (hl : l < n) (hm : m + 1 = n) :
    l + n * x ≤ m + n * y ↔ x ≤ y := by
  constructor
  · intro h
    by_contra hlt
    have hmul : n * (y + 1) ≤ n * x := Nat.mul_le_mul_left n (by omega)
    rw [Nat.mul_add, Nat.mul_one] at hmul
    omega
  · intro h
    have hmul : n * x ≤ n * y := Nat.mul_le_mul_left n h
    omega

section

variable {b k x y : Nat} {hs ds : List Nat}

/-- **The numbers with given high digits are an interval**: `k` free digits, one from `x` to `y`,
and `hs` above. -/
theorem ofDigits_block (hb : 1 < b) (hlen : ds.length = k + 1 + hs.length) (hds : ∀ d ∈ ds, d < b)
    (hhs : ∀ d ∈ hs, d < b) (hy : y < b) :
    ofDigits b (List.replicate k 0 ++ x :: hs) ≤ ofDigits b ds ∧
        ofDigits b ds ≤ ofDigits b (List.replicate k (b - 1) ++ y :: hs) ↔
      ∃ low d, ds = low ++ d :: hs ∧ low.length = k ∧ x ≤ d ∧ d ≤ y := by
  obtain ⟨low, high, rfl, hlow⟩ : ∃ low high, ds = low ++ high ∧ low.length = k :=
    ⟨ds.take k, ds.drop k, (List.take_append_drop k ds).symm, by simp; omega⟩
  cases high with
  | nil => simp at hlen; omega
  | cons d high =>
    have hhigh : high.length = hs.length := by simp at hlen; omega
    have hlt : ofDigits b low < b ^ k := by
      rw [← hlow]
      exact Nat.ofDigits_lt_base_pow_length hb fun e he => hds e (List.mem_append_left _ he)
    have hd : d < b := hds d (by simp)
    rw [Nat.ofDigits_append, Nat.ofDigits_append, Nat.ofDigits_append, List.length_replicate,
      List.length_replicate, Nat.ofDigits_replicate_zero, Nat.zero_add, hlow,
      mul_le_add_mul_iff hlt, add_mul_le_iff hlt (ofDigits_replicate_pred (by omega) k),
      Nat.ofDigits_cons, Nat.ofDigits_cons, Nat.ofDigits_cons]
    constructor
    · intro h
      have heq : ofDigits b high = ofDigits b hs := by
        have h1 : ofDigits b hs ≤ ofDigits b high := by
          rw [← mul_le_add_mul_iff hd]
          omega
        have h2 : ofDigits b high ≤ ofDigits b hs := by
          rw [← mul_le_add_mul_iff hy]
          omega
        omega
      have hhs' : high = hs := Nat.ofDigits_inj_of_len_eq hb hhigh
        (fun e he => hds e (by simp [he])) hhs heq
      rw [heq] at h
      exact ⟨low, d, by rw [hhs'], hlow, by omega, by omega⟩
    · intro h
      obtain ⟨low', d', heq, hlow', hxd, hdy⟩ := h
      obtain ⟨rfl, htail⟩ := List.append_inj heq (hlow.trans hlow'.symm)
      rw [List.cons.injEq] at htail
      rw [htail.1, htail.2]
      omega

end

end Lib
