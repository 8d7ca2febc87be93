import Mathlib

/-!
# First-fit placement

Items are dealt one after the other, each to the end of the first bin that has room for it and to
a new last bin if none has. Whatever `fits` is, every item goes to exactly one bin and the bins
keep the items' order (`deals_run`); what a bin holds is decided by `fits` alone (`run_inv`).
-/

namespace Lib.FirstFit

variable {α β : Type}

section Placing

variable (fits : β → α → Bool) (add : β → α → β) (new : β)

def place (a : α) : List β → List β
  | [] => [add new a]
  | b :: bs => if fits b a then add b a :: bs else b :: place a bs

def run (as : List α) : List β := as.foldl (fun bs a => place fits add new a bs) []

variable {fits add new}

theorem run_append_singleton (as : List α) (a : α) :
    run fits add new (as ++ [a]) = place fits add new a (run fits add new as) := by
  simp [run]

theorem run_inv {Inv : β → Prop} (hnew : ∀ a, Inv (add new a))
    (hadd : ∀ b a, fits b a = true → Inv b → Inv (add b a)) (as : List α) :
    ∀ b ∈ run fits add new as, Inv b := by
  have hplace : ∀ a bs, (∀ b ∈ bs, Inv b) → ∀ b ∈ place fits add new a bs, Inv b := by
    intro a bs
    induction bs with
    | nil => simpa [place] using hnew a
    | cons b bs ih =>
      intro h
      rw [List.forall_mem_cons] at h
      rw [place]
      by_cases hf : fits b a
      · simpa only [hf, if_true, List.forall_mem_cons] using And.intro (hadd b a hf h.1) h.2
      · simpa only [hf, Bool.false_eq_true, if_false, List.forall_mem_cons] using
          And.intro h.1 (ih h.2)
  induction as using List.reverseRecOn with
  | nil => simp [run]
  | append_singleton as a ih =>
    rw [run_append_singleton]
    exact hplace a _ ih

end Placing

/-- The items labelled `k`, in the order of the list. -/
def labelled (as : List α) (into : List Nat) (k : Nat) : List α :=
  ((as.zip into).filter fun x => x.2 == k).map Prod.fst

variable {as : List α} {into : List Nat}

theorem labelled_append_singleton (h : into.length = as.length)
    (a : α) (i k : Nat) :
    labelled (as ++ [a]) (into ++ [i]) k = labelled as into k ++ if i = k then [a] else [] := by
  rw [labelled, List.zip_append h.symm, List.filter_append, List.map_append, labelled]
  by_cases hik : i = k <;> simp [hik]

theorem mem_labelled {a : α} {k : Nat} :
    a ∈ labelled as into k ↔ (a, k) ∈ as.zip into := by
  simp [labelled]

/-- `into` says for each item which bin it is in: bin `k` holds the items labelled `k`. -/
def Deals (as : List α) (into : List Nat) (bins : List (List α)) : Prop :=
  into.length = as.length ∧ (∀ k ∈ into, k < bins.length) ∧
    bins = (List.range bins.length).map (labelled as into)

theorem deals_nil : Deals ([] : List α) [] [] := by simp [Deals]

variable {bins : List (List α)}

theorem Deals.getElem
    (h : Deals as into bins) {k : Nat} (hk : k < bins.length) :
    bins[k] = labelled as into k := by
  obtain ⟨-, -, h⟩ := h
  rw [List.getElem_of_eq h]
  simp

theorem Deals.deal
    (h : Deals as into bins) (a : α) {i : Nat} (hi : i < bins.length) :
    Deals (as ++ [a]) (into ++ [i]) (bins.modify i (· ++ [a])) := by
  refine ⟨by simp [h.1], ?_, List.ext_getElem (by simp) fun k hk _ => ?_⟩
  · simpa [or_imp, forall_and, hi] using h.2.1
  · have hk' : k < bins.length := by simpa using hk
    rw [List.getElem_modify, h.getElem hk', List.getElem_map, List.getElem_range,
      labelled_append_singleton h.1]
    by_cases hik : i = k <;> simp [hik]

theorem Deals.deal_new
    (h : Deals as into bins) (a : α) :
    Deals (as ++ [a]) (into ++ [bins.length]) (bins ++ [[a]]) := by
  refine ⟨by simp [h.1], ?_, List.ext_getElem (by simp) fun k hk _ => ?_⟩
  · simp only [List.mem_append, List.mem_singleton, List.length_append, List.length_singleton]
    intro k hk
    rcases hk with hk | hk
    · exact (h.2.1 k hk).trans (Nat.lt_succ_self _)
    · omega
  · rw [List.getElem_map, List.getElem_range, labelled_append_singleton h.1]
    by_cases hkl : k < bins.length
    · rw [List.getElem_append_left hkl, h.getElem hkl]
      simp [hkl.ne']
    · have hkl' : k = bins.length := by
        rw [List.length_append, List.length_singleton] at hk
        omega
      subst hkl'
      have hnone : labelled as into bins.length = [] := by
        rw [List.eq_nil_iff_forall_not_mem]
        intro x hx
        exact lt_irrefl _ (h.2.1 _ (List.of_mem_zip (mem_labelled.1 hx)).2)
      simp [hnone]

theorem Deals.mem_iff
    (h : Deals as into bins) (a : α) : (∃ b ∈ bins, a ∈ b) ↔ a ∈ as := by
  constructor
  · intro hb
    obtain ⟨b, hb, ha⟩ := hb
    rw [h.2.2] at hb
    obtain ⟨k, -, rfl⟩ := List.mem_map.1 hb
    exact (List.of_mem_zip (mem_labelled.1 ha)).1
  · intro ha
    obtain ⟨i, hi, rfl⟩ := List.getElem_of_mem ha
    have hi' : i < into.length := h.1 ▸ hi
    have hk := h.2.1 _ (List.getElem_mem hi')
    refine ⟨_, List.getElem_mem hk, ?_⟩
    rw [h.getElem hk, mem_labelled]
    exact List.mem_iff_getElem.2 ⟨i, by simp [hi, hi'], by simp⟩

section Bins

variable {fits : β → α → Bool} {add : β → α → β} {new : β} {items : β → List α}

theorem place_items (hnew : items new = []) (hadd : ∀ b a, items (add b a) = items b ++ [a])
    (a : α) (bs : List β) :
    (∃ i < bs.length, (place fits add new a bs).map items =
      (bs.map items).modify i (· ++ [a])) ∨
    (place fits add new a bs).map items = bs.map items ++ [[a]] := by
  induction bs with
  | nil => right; simp [place, hadd, hnew]
  | cons b bs ih =>
    rw [place]
    by_cases hf : fits b a
    · left
      exact ⟨0, by simp, by simp [hf, hadd]⟩
    · rcases ih with ih | ih
      · obtain ⟨i, hi, ih⟩ := ih
        left
        exact ⟨i + 1, by simpa using hi, by simp [hf, ih]⟩
      · right
        simp [hf, ih]

theorem deals_run (hnew : items new = []) (hadd : ∀ b a, items (add b a) = items b ++ [a])
    (as : List α) : ∃ into, Deals as into ((run fits add new as).map items) := by
  induction as using List.reverseRecOn with
  | nil => exact ⟨[], deals_nil⟩
  | append_singleton as a ih =>
    obtain ⟨into, ih⟩ := ih
    rw [run_append_singleton]
    rcases place_items hnew hadd a (run fits add new as) with h | h
    · obtain ⟨i, hi, h⟩ := h
      exact ⟨_, h ▸ ih.deal a (by simpa using hi)⟩
    · exact ⟨_, h ▸ ih.deal_new a⟩

end Bins

end Lib.FirstFit
