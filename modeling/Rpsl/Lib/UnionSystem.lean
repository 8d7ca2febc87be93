import Mathlib

/-!
# Systems of union equations

Each unknown is a union of known elements and of other unknowns with an operator applied to every
element. The least solution is what the paths of the system lead to: an element is in it when a
path leads to an unknown that knows an element from which the operators on the path make it.
-/

namespace Lib

/-- `value x = base x ∪ ⋃ {o applied to value y | edge x o y}`. -/
structure UnionSystem (X O α : Type*) where
  base : X → Set α
  edge : X → O → X → Prop
  /-- What the operator makes of one element. -/
  rel : O → α → α → Prop

namespace UnionSystem

variable {X O α : Type*} (S : UnionSystem X O α)

/-- The equations, as a map of candidate solutions. -/
def eqns : (X → Set α) →o (X → Set α) where
  toFun V x := S.base x ∪ {q | ∃ o y, S.edge x o y ∧ ∃ p ∈ V y, S.rel o p q}
  monotone' := by
    intro V W h x q hq
    rcases hq with hq | ⟨o, y, he, p, hp, hr⟩
    · exact .inl hq
    · exact .inr ⟨o, y, he, p, h y hp, hr⟩

/-- The least solution. -/
def value : X → Set α := OrderHom.lfp S.eqns

theorem value_eq : S.eqns S.value = S.value := OrderHom.map_lfp S.eqns

theorem base_subset_value (x : X) : S.base x ⊆ S.value x := by
  rw [← S.value_eq]
  exact fun _ h => .inl h

theorem value_of_edge {x y : X} {o : O} {p q : α} (he : S.edge x o y) (hp : p ∈ S.value y)
    (hr : S.rel o p q) : q ∈ S.value x := by
  rw [← S.value_eq]
  exact .inr ⟨o, y, he, p, hp, hr⟩

/-- A path from one unknown to another, with the operators met on the way. -/
inductive Path (x : X) : List O → X → Prop
  | nil : Path x [] x
  | snoc {os : List O} {y z : X} {o : O} : Path x os y → S.edge y o z → Path x (os ++ [o]) z

/-- What operators make of an element, the last one applied first. -/
def through (rel : O → α → α → Prop) : List O → α → α → Prop
  | [], p, q => p = q
  | o :: os, p, q => ∃ m, through rel os p m ∧ rel o m q

theorem through_snoc (rel : O → α → α → Prop) (os : List O) (o : O) (p q : α) :
    through rel (os ++ [o]) p q ↔ ∃ m, rel o p m ∧ through rel os m q := by
  induction os generalizing q with
  | nil => simp [through]
  | cons o' os ih =>
    simp only [List.cons_append, through, ih]
    exact ⟨fun ⟨m, ⟨m', h1, h2⟩, h3⟩ => ⟨m', h1, m, h2, h3⟩,
      fun ⟨m', h1, m, h2, h3⟩ => ⟨m, ⟨m', h1, h2⟩, h3⟩⟩

theorem value_of_path {x y : X} {os : List O} (hpath : S.Path x os y) {p q : α}
    (hp : p ∈ S.value y) (ht : through S.rel os p q) : q ∈ S.value x := by
  induction hpath generalizing p with
  | nil =>
    cases ht
    exact hp
  | snoc hpath he ih =>
    obtain ⟨m, hr, ht⟩ := (through_snoc _ _ _ _ _).1 ht
    exact ih (S.value_of_edge he hp hr) ht

/-- **The least solution is what the paths lead to.** -/
theorem mem_value_iff (x : X) (q : α) :
    q ∈ S.value x ↔ ∃ os y, S.Path x os y ∧ ∃ p ∈ S.base y, through S.rel os p q := by
  refine ⟨fun h => ?_, fun ⟨os, y, hpath, p, hp, ht⟩ => ?_⟩
  · -- the elements all of whose images along paths from `x` are reached solve the equations
    let W : X → Set α := fun y => {p | ∀ os, S.Path x os y → ∀ q, through S.rel os p q →
      ∃ os y, S.Path x os y ∧ ∃ p ∈ S.base y, through S.rel os p q}
    have hW : S.eqns W ≤ W := by
      intro y p hp os hpath q ht
      rcases hp with hp | ⟨o, z, he, p', hp', hr⟩
      · exact ⟨os, y, hpath, p, hp, ht⟩
      · exact hp' (os ++ [o]) (hpath.snoc he) q ((through_snoc _ _ _ _ _).2 ⟨p, hr, ht⟩)
    exact OrderHom.lfp_le _ hW x h [] .nil q rfl
  · exact S.value_of_path hpath (S.base_subset_value y hp) ht

end UnionSystem

end Lib
