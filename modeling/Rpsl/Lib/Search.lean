import Mathlib.Tactic

/-!
# Binary search

`sort.Search`: the least index at which a predicate holds that stays true once it is
(`search_spec`).
-/

namespace Lib

/-- The loop of `sort.Search` over the indexes from `i` up to `j`. -/
def searchFrom (f : Nat → Bool) (i j : Nat) : Nat :=
  if i < j then
    if f ((i + j) / 2) then searchFrom f i ((i + j) / 2)
    else searchFrom f ((i + j) / 2 + 1) j
  else i
termination_by j - i
decreasing_by all_goals omega

def search (n : Nat) (f : Nat → Bool) : Nat := searchFrom f 0 n

section

variable {f : Nat → Bool} {n : Nat}

theorem searchFrom_spec (hf : ∀ a b, a ≤ b → b < n → f a = true → f b = true) {i j : Nat}
    (hij : i ≤ j) (hj : j ≤ n) (hlow : ∀ a < i, f a = false)
    (hhigh : ∀ b, j ≤ b → b < n → f b = true) :
    searchFrom f i j ≤ n ∧ (∀ a < searchFrom f i j, f a = false) ∧
      ∀ b, searchFrom f i j ≤ b → b < n → f b = true := by
  fun_induction searchFrom f i j with
  | case1 i j hlt hm ih =>
    apply ih (by omega) (by omega) hlow
    intro b hb hn
    exact hf _ b hb hn hm
  | case2 i j hlt hm ih =>
    refine ih (by omega) hj ?_ hhigh
    intro a ha
    rw [Bool.eq_false_iff]
    intro hfa
    exact hm (hf a _ (by omega) (by omega) hfa)
  | case3 i j hlt => exact ⟨by omega, hlow, fun b hb => hhigh b (by omega)⟩

theorem search_spec (hf : ∀ a b, a ≤ b → b < n → f a = true → f b = true) :
    search n f ≤ n ∧ (∀ a < search n f, f a = false) ∧
      ∀ b, search n f ≤ b → b < n → f b = true :=
  searchFrom_spec hf (Nat.zero_le n) le_rfl (fun a ha => absurd ha (Nat.not_lt_zero a))
    fun b hb hn => absurd hb (by omega)

end

end Lib
