import Rpsl.Policy.Proof.TestText
import Rpsl.Resolve.NormalForm
import Rpsl.Types.Proof.SpaceExact

/-!
# What a normal form means

A route as a filter reads it is a prefix and a truth value for every AS-path and community test.
A test is known by its canonical text, so a truth value is given to each text. A normal form
matches a route when one of its conjuncts does.
-/

namespace Rpsl.Resolve

open Text Policy

/-- The tests a route passes, by the text of the test without "NOT " (a path test with its angle
brackets). -/
abbrev Truth := Text → Bool

/-- A test written as normal-form text, with its polarity. -/
def Truth.passes (v : Truth) (t : Text) : Bool :=
  if (lit "NOT ").isPrefixOf t then !v (t.drop 4) else v t

def PathMatch.holds (m : PathMatch) (v : Truth) : Bool := v ('<' :: m.re.text ++ ['>']) != m.negated

def CommunityMatch.holds (m : CommunityMatch) (v : Truth) : Bool := v m.test.text != m.negated

/-- The prefix lies in one of `Prefixes` and in none of `NotPrefixes`. -/
def Conjunct.admits (c : Conjunct) (p : Prefix) : Bool :=
  c.prefixes.ranges.any (·.contains p) && !c.notPrefixes.ranges.any (·.contains p)

/-- A conjunct matches a route when every part does. -/
def Conjunct.matches (c : Conjunct) (v : Truth) (p : Prefix) : Bool :=
  c.admits p && c.paths.all (·.holds v) && c.communities.all (·.holds v)

def NormalFilter.matches (f : NormalFilter) (v : Truth) (p : Prefix) : Bool :=
  f.conjuncts.any (·.matches v p)

/-! ## Tests by text -/

theorem passes_notIf {v : Truth} {n : Bool} {t : Text} (h : (lit "NOT ").isPrefixOf t = false) :
    v.passes (notIf n t) = (v t != n) := by
  cases n with
  | false => simp [notIf, Truth.passes, h]
  | true =>
    have hp : (lit "NOT ").isPrefixOf (lit "NOT " ++ t) = true :=
      List.isPrefixOf_iff_prefix.2 ⟨t, rfl⟩
    have hd : (lit "NOT " ++ t).drop 4 = t := rfl
    rw [notIf, if_pos rfl, Truth.passes, if_pos hp, hd, Bool.bne_true]

theorem passes_path (v : Truth) (m : PathMatch) : v.passes m.text = m.holds v :=
  passes_notIf rfl

theorem passes_community (v : Truth) (m : CommunityMatch) : v.passes m.text = m.holds v := by
  apply passes_notIf
  unfold FilterCommunity.text
  cases m.test.op <;> rfl

/-- The tests of a conjunct, as text. -/
def Conjunct.tests (c : Conjunct) : List Text :=
  c.paths.map PathMatch.text ++ c.communities.map CommunityMatch.text

theorem Conjunct.isPart_tests (c : Conjunct) : ∀ t ∈ c.tests, IsPart t := by
  intro t ht
  rcases List.mem_append.1 ht with ht | ht
  · obtain ⟨m, -, rfl⟩ := List.mem_map.1 ht
    exact isPart_path m.negated m.re
  · obtain ⟨m, -, rfl⟩ := List.mem_map.1 ht
    exact isPart_community m.negated m.test

theorem Conjunct.all_tests (c : Conjunct) (v : Truth) :
    (∀ t ∈ c.tests, v.passes t = true) ↔
      (∀ m ∈ c.paths, m.holds v = true) ∧ ∀ m ∈ c.communities, m.holds v = true := by
  simp [Conjunct.tests, or_imp, forall_and, passes_path, passes_community]

theorem Conjunct.contains_space (c : Conjunct) (p : Prefix) :
    c.space.contains p = c.admits p := by
  rw [Conjunct.space, PrefixSpace.minus, PrefixSpace.contains_combine,
    PrefixSpace.contains_spaceOf, PrefixSpace.contains_spaceOf]
  rfl

theorem Conjunct.matches_iff (c : Conjunct) (v : Truth) (p : Prefix) :
    c.matches v p = true ↔ c.space.contains p = true ∧ ∀ t ∈ c.tests, v.passes t = true := by
  rw [c.all_tests, c.contains_space]
  simp [Conjunct.matches, and_assoc]

end Rpsl.Resolve
