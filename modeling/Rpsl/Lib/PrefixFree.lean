import Mathlib.Data.List.Basic

/-!
# Prefix-free codes

Texts written one after another, with or without a separator between them, can be told apart
again when no text begins another one. The separator may be anything: it may occur in the texts.
-/

namespace Lib

variable {α : Type*} {C : List α → Prop}

/-- No word is empty, and a word is known by any text that begins with it. -/
structure PrefixFree (C : List α → Prop) : Prop where
  ne_nil : ∀ {x}, C x → x ≠ []
  eq_of_append : ∀ {x y s t}, C x → C y → x ++ s = y ++ t → x = y

/-- The words of `xs`, each with `sep` before it. -/
def precede (sep : List α) (xs : List (List α)) : List α := xs.flatMap (sep ++ ·)

theorem intercalate_cons (sep x : List α) (xs : List (List α)) :
    sep.intercalate (x :: xs) = x ++ precede sep xs := by
  induction xs generalizing x with
  | nil => simp [precede]
  | cons y ys ih => rw [List.intercalate_cons_cons, ih]; simp [precede]

theorem mem_intercalate {sep : List α} {xs : List (List α)} {a : α}
    (h : a ∈ sep.intercalate xs) : a ∈ sep ∨ ∃ x ∈ xs, a ∈ x := by
  cases xs with
  | nil => simp at h
  | cons x xs =>
    rw [intercalate_cons, List.mem_append, precede, List.mem_flatMap] at h
    rcases h with h | ⟨y, hy, h⟩
    · exact .inr ⟨x, by simp, h⟩
    · exact (List.mem_append.1 h).imp_right fun h => ⟨y, by simp [hy], h⟩

theorem mem_intercalate_of_mem (sep : List α) {xs : List (List α)} {x : List α} {a : α}
    (hx : x ∈ xs) (h : a ∈ x) : a ∈ sep.intercalate xs := by
  cases xs with
  | nil => cases hx
  | cons y ys =>
    rw [intercalate_cons, List.mem_append, precede, List.mem_flatMap]
    rcases List.mem_cons.1 hx with rfl | hx
    · exact .inl h
    · exact .inr ⟨x, hx, List.mem_append_right sep h⟩

theorem not_mem_of_mem_splitOn [DecidableEq α] {a : α} {xs p : List α} (h : p ∈ xs.splitOn a) :
    a ∉ p := by
  unfold List.splitOn at h
  induction xs generalizing p with
  | nil => simp_all
  | cons x xs ih =>
    rw [List.splitOnP_cons_eq_if_modifyHead] at h
    split at h
    · rcases List.mem_cons.1 h with rfl | h
      · exact List.not_mem_nil
      · exact ih h
    next hx =>
      cases hs : xs.splitOnP (· == a) with
      | nil => simp [hs] at h
      | cons q qs =>
        rw [hs, List.modifyHead_cons] at h
        rcases List.mem_cons.1 h with rfl | h
        · rw [List.mem_cons, not_or]
          exact ⟨fun e => hx (by simp [e]), ih (by simp [hs])⟩
        · exact ih (by simp [hs, h])

namespace PrefixFree

theorem precede_inj (h : PrefixFree C) (sep : List α) {xs ys : List (List α)}
    (hx : ∀ x ∈ xs, C x) (hy : ∀ y ∈ ys, C y) (e : precede sep xs = precede sep ys) : xs = ys := by
  induction xs generalizing ys with
  | nil =>
    cases ys with
    | nil => rfl
    | cons y ys =>
      have hn : y = [] := by simp_all [precede]
      exact absurd hn (h.ne_nil (hy y (by simp)))
  | cons x xs ih =>
    cases ys with
    | nil =>
      have hn : x = [] := by simp_all [precede]
      exact absurd hn (h.ne_nil (hx x (by simp)))
    | cons y ys =>
      simp only [precede, List.flatMap_cons, List.append_assoc, List.append_cancel_left_eq] at e
      obtain rfl := h.eq_of_append (hx x (by simp)) (hy y (by simp)) e
      rw [ih (fun z hz => hx z (by simp [hz])) (fun z hz => hy z (by simp [hz]))
        (List.append_cancel_left e)]

/-- **A joined list of words is read back in one way.** -/
theorem intercalate_inj (h : PrefixFree C) (sep : List α) {xs ys : List (List α)}
    (hx : ∀ x ∈ xs, C x) (hy : ∀ y ∈ ys, C y)
    (e : sep.intercalate xs = sep.intercalate ys) : xs = ys := by
  cases xs with
  | nil =>
    cases ys with
    | nil => rfl
    | cons y ys =>
      rw [intercalate_cons, List.intercalate_nil] at e
      exact absurd (List.append_eq_nil_iff.1 e.symm).1 (h.ne_nil (hy y (by simp)))
  | cons x xs =>
    cases ys with
    | nil =>
      rw [intercalate_cons, List.intercalate_nil] at e
      exact absurd (List.append_eq_nil_iff.1 e).1 (h.ne_nil (hx x (by simp)))
    | cons y ys =>
      rw [intercalate_cons, intercalate_cons] at e
      obtain rfl := h.eq_of_append (hx x (by simp)) (hy y (by simp)) e
      rw [h.precede_inj sep (fun z hz => hx z (by simp [hz])) (fun z hz => hy z (by simp [hz]))
        (List.append_cancel_left e)]

end PrefixFree

theorem append_mark_inj {x y s t : List α} {m : α} (hx : m ∉ x) (hy : m ∉ y)
    (e : x ++ m :: s = y ++ m :: t) : x = y := by
  induction x generalizing y with
  | nil =>
    cases y with
    | nil => rfl
    | cons b y => simp_all
  | cons a x ih =>
    cases y with
    | nil => simp_all
    | cons b y =>
      simp only [List.cons_append, List.cons.injEq, List.mem_cons, not_or] at e hx hy
      rw [e.1, ih hx.2 hy.2 e.2]

end Lib
