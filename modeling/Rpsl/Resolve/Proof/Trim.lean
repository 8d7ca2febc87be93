import Rpsl.Policy.Proof.Template
import Rpsl.Resolve.Claims

/-!
# Trimmed white space

What `trimSpace` drops at the end of a text is white space (`trimRight_append`), and white space is
told from its front (`allSpace_iff`).
-/

namespace Rpsl.Resolve

open Text Policy
open SetNameTemplate (spaceLen_ascii fieldsFrom_ne_nil)

theorem ascii_of_blank {c : Char} (h : c = ' ' ∨ ('\t' ≤ c ∧ c ≤ '\r')) : c.toNat < 128 := by
  rcases h with rfl | h
  · decide
  · exact Nat.lt_of_le_of_lt (show c.toNat ≤ 13 from h.2) (by decide)

theorem spaceLen_blank {c : Char} (h : c = ' ' ∨ ('\t' ≤ c ∧ c ≤ '\r')) (s : Text) :
    spaceLen (c :: s) = 1 := by
  rw [spaceLen_ascii (ascii_of_blank h), if_pos h]

def AllSpace (s : Text) : Prop := fieldsFrom 0 [] s = []

theorem fieldsFrom_skip (n : Nat) (cur s : Text) :
    fieldsFrom n cur s = fieldsFrom 0 cur (s.drop n) := by
  induction n generalizing s with
  | zero => rfl
  | succ n ih =>
    cases s with
    | nil => simp [fieldsFrom]
    | cons c s => exact ih s

theorem allSpace_iff {s : Text} (hs : s ≠ []) :
    AllSpace s ↔ spaceLen s ≠ 0 ∧ AllSpace (s.drop (spaceLen s)) := by
  cases s with
  | nil => exact absurd rfl hs
  | cons c s =>
    unfold AllSpace
    rw [fieldsFrom]
    cases h : spaceLen (c :: s) with
    | zero => simpa using fieldsFrom_ne_nil (by simp) 0 s
    | succ n => simp [fieldsFrom_skip n]

theorem trimRight_append (s : Text) : ∃ w, s = trimRight s ++ w ∧ AllSpace w := by
  induction s with
  | nil => exact ⟨[], rfl, rfl⟩
  | cons c s ih =>
    rw [trimRight]
    split_ifs with h
    · exact ⟨c :: s, rfl, List.isEmpty_iff.1 h⟩
    · obtain ⟨w, hs, hw⟩ := ih
      exact ⟨w, by rw [List.cons_append, ← hs], hw⟩

theorem trimLeftFrom_eq {s : Text} (h : spaceLen s = 0) : trimLeftFrom 0 s = s := by
  cases s with
  | nil => rfl
  | cons c s => rw [trimLeftFrom, h]

end Rpsl.Resolve
