import Mathlib

/-!
# Order of last use

Over a trace of uses, `UsedBefore us a b` is "the last use of `a` is before a use of `b`". A list
kept by moving the key of each use to its end (and dropping keys at will) is in this order, so its
head is always a least recently used key of it.
-/

namespace Lib

variable {K : Type}

/-- From some point of the trace on, `b` is used and `a` is not. -/
def UsedBefore (us : List K) (a b : K) : Prop := ∃ u v, us = u ++ v ∧ b ∈ v ∧ a ∉ v

/-- Least recently used first. -/
def Recency (us l : List K) : Prop := l.Pairwise (UsedBefore us)

theorem UsedBefore.use {us : List K} {a b k : K} (h : UsedBefore us a b) (hk : a ≠ k) :
    UsedBefore (us ++ [k]) a b := by
  obtain ⟨u, v, rfl, hb, ha⟩ := h
  exact ⟨u, v ++ [k], by simp, by simp [hb], by simp [ha, hk]⟩

theorem usedBefore_last (us : List K) {a k : K} (hk : a ≠ k) : UsedBefore (us ++ [k]) a k :=
  ⟨us, [k], rfl, by simp, by simpa using hk⟩

theorem Recency.sublist {us l l' : List K} (h : Recency us l) (hl : l'.Sublist l) :
    Recency us l' :=
  List.Pairwise.sublist hl h

theorem Recency.use {us l : List K} {k : K} (h : Recency us l) (hk : k ∉ l) :
    Recency (us ++ [k]) (l ++ [k]) := by
  have hne : ∀ a ∈ l, a ≠ k := fun a ha he => hk (he ▸ ha)
  refine List.pairwise_append.2 ⟨?_, by simp, fun a ha b hb => ?_⟩
  · exact List.Pairwise.imp_of_mem (fun ha _ hab => hab.use (hne _ ha)) h
  · rw [List.mem_singleton.1 hb]
    exact usedBefore_last us (hne a ha)

theorem Recency.front {us l₁ l₂ : List K} (h : Recency us (l₁ ++ l₂)) {a b : K} (ha : a ∈ l₁)
    (hb : b ∈ l₂) : UsedBefore us a b :=
  (List.pairwise_append.1 h).2.2 a ha b hb

end Lib
