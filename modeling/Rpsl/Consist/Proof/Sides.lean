import Rpsl.Consist.Consist
import Rpsl.Resolve.Meaning
import Rpsl.Types.Proof.SpaceRanges

/-!
# Sides of a session

What a policy does with a route, and what consistency reads of it. A route permitted by a policy
is one whose prefix lies in the space of a conjunct and that passes the conjunct's tests; the
groups of a side are its conjuncts by signature.
-/

namespace Rpsl

open Text Rpsl.Policy Resolve

namespace Peval

/-! ## What a policy does with a route -/

def Clause.matches (cl : Clause) (v : Truth) (p : Prefix) : Bool := cl.filter.matches v p

/-- The clause a route takes: the first it matches. -/
def Policy.takes (P : Policy) (v : Truth) (p : Prefix) : Option Clause :=
  P.clauses.find? (·.matches v p)

/-- A route that takes no clause is refused, or not announced. -/
def Policy.permits (P : Policy) (v : Truth) (p : Prefix) : Bool := (P.takes v p).isSome

end Peval

namespace Consist

open Peval

/-- A route on its way through a session: the tests it passes as the exporter reads it, and those it
passes as the importer does, after the exporter prepended its AS and applied its actions. -/
structure Route where
  pfx : Prefix
  atExporter : Truth
  atImporter : Truth

/-- A community test reads the same on both sides when the exporter's clause changes no
community. -/
def Route.Crosses (r : Route) (exp : Policy) : Prop :=
  ∀ cl, exp.takes r.atExporter r.pfx = some cl → changesCommunities cl = false →
    ∀ c : FilterCommunity, r.atImporter c.text = r.atExporter c.text

/-! ## Lists -/

theorem mem_compact {α : Type} [DecidableEq α] {x : α} (l : List α) :
    x ∈ compact l ↔ x ∈ l := by
  fun_induction compact l with
  | case1 a l h => grind
  | case2 a b l h ih => grind
  | case3 l h => rfl

theorem mem_sortCompact {α : Type} [DecidableEq α] [LE α] [DecidableLE α] {x : α} {l : List α} :
    x ∈ sortCompact l ↔ x ∈ l := by
  rw [sortCompact, mem_compact, List.mem_insertionSort]

theorem mem_signature {c : Conjunct} {t : Text} : t ∈ signature c ↔ t ∈ c.tests := mem_sortCompact

/-! ## Spaces -/

theorem not_contains_of_isEmpty {s : PrefixSpace} (h : s.isEmpty = true) (p : Prefix) :
    s.contains p = false := by
  obtain ⟨a, b⟩ := s
  simp only [PrefixSpace.isEmpty, Bool.and_eq_true, SpaceNode.isNil_iff] at h
  rw [PrefixSpace.contains_eq_holds]
  cases p.fam <;> simp [PrefixSpace.root, h]

theorem contains_foldl_union (cs : List Conj) (s : PrefixSpace) (p : Prefix) :
    (cs.foldl (fun s c => s.union c.space) s).contains p = true ↔
      s.contains p = true ∨ ∃ c ∈ cs, c.space.contains p = true := by
  induction cs generalizing s with
  | nil => simp
  | cons c cs ih =>
    rw [List.foldl_cons, ih, PrefixSpace.union, PrefixSpace.contains_combine]
    simp [SetOp.bool, or_assoc]

theorem contains_union (cs : List Conj) (p : Prefix) :
    (union cs).contains p = true ↔ ∃ c ∈ cs, c.space.contains p = true := by
  rw [union, contains_foldl_union]
  simp [not_contains_of_isEmpty (s := PrefixSpace.empty) rfl]

theorem contains_minus (s t : PrefixSpace) (p : Prefix) :
    (s.minus t).contains p = true ↔ s.contains p = true ∧ ¬ t.contains p = true := by
  simp [PrefixSpace.minus, PrefixSpace.contains_combine, SetOp.bool]

theorem contains_intersect (s t : PrefixSpace) (p : Prefix) :
    (s.intersect t).contains p = true ↔ s.contains p = true ∧ t.contains p = true := by
  simp [PrefixSpace.intersect, PrefixSpace.contains_combine, SetOp.bool]

/-! ## Conjuncts of a side -/

/-- A route is in a conjunct's reach: its prefix in the space, its tests passed. -/
def Conj.reads (c : Conj) (v : Truth) (p : Prefix) : Prop :=
  c.space.contains p = true ∧ ∀ t ∈ c.sig, v.passes t = true

theorem mem_conjs {P : Policy} {c : Conj} :
    c ∈ (sideOf P).conjs ↔ ∃ cl ∈ P.clauses, ∃ cj ∈ cl.filter.conjuncts,
      c = { sig := signature cj, space := cj.space, index := cl.index, path := !cj.paths.isEmpty,
            comm := !cj.communities.isEmpty, commActs := changesCommunities cl } := by
  simp [sideOf, clauseConjs, eq_comm]

theorem reads_iff_matches (cl : Clause) (cj : Conjunct) (i : Nat) (v : Truth) (p : Prefix) :
    Conj.reads { sig := signature cj, space := cj.space, index := i, path := !cj.paths.isEmpty,
                 comm := !cj.communities.isEmpty, commActs := changesCommunities cl } v p ↔
      cj.matches v p = true := by
  rw [Conj.reads, cj.matches_iff]
  simp only [mem_signature]

theorem clause_matches_iff (cl : Clause) (v : Truth) (p : Prefix) :
    cl.matches v p = true ↔ ∃ c ∈ clauseConjs cl, c.reads v p := by
  simp only [Clause.matches, NormalFilter.matches, List.any_eq_true, clauseConjs, List.mem_map,
    exists_exists_and_eq_and, reads_iff_matches]

/-- **A policy permits what a conjunct of its side reads.** -/
theorem permits_iff (P : Policy) (v : Truth) (p : Prefix) :
    P.permits v p = true ↔ ∃ c ∈ (sideOf P).conjs, c.reads v p := by
  rw [Policy.permits, Policy.takes, List.find?_isSome]
  simp only [clause_matches_iff, sideOf, List.mem_flatMap]
  exact ⟨fun ⟨cl, hcl, c, hc, h⟩ => ⟨c, ⟨cl, hcl, hc⟩, h⟩,
    fun ⟨c, ⟨cl, hcl, hc⟩, h⟩ => ⟨cl, hcl, c, hc, h⟩⟩

theorem takes_conj {P : Policy} {v : Truth} {p : Prefix} {cl : Clause}
    (h : P.takes v p = some cl) :
    ∃ c ∈ (sideOf P).conjs, c.reads v p ∧ c.commActs = changesCommunities cl := by
  unfold Policy.takes at h
  obtain ⟨c, hc, hr⟩ := (clause_matches_iff cl v p).1 (List.find?_some h :)
  refine ⟨c, List.mem_flatMap.2 ⟨cl, List.mem_of_find?_eq_some h, hc⟩, hr, ?_⟩
  obtain ⟨cj, -, rfl⟩ := List.mem_map.1 hc
  rfl

theorem isPart_sig {P : Policy} {c : Conj} (h : c ∈ (sideOf P).conjs) : ∀ t ∈ c.sig, IsPart t := by
  obtain ⟨cl, -, cj, -, rfl⟩ := mem_conjs.1 h
  exact fun t ht => cj.isPart_tests t (mem_signature.1 ht)

/-- **Conjuncts with one key have one signature**, whatever bytes their tests hold. -/
theorem sig_eq_of_key {P : Policy} {c d : Conj} (hc : c ∈ (sideOf P).conjs)
    (hd : d ∈ (sideOf P).conjs) (h : c.key = d.key) : c.sig = d.sig :=
  isPart_prefixFree.intercalate_inj _ (isPart_sig hc) (isPart_sig hd) h

/-! ## Groups -/

theorem mem_group {cs : List Conj} {k : Text} {c : Conj} :
    c ∈ group cs k ↔ c ∈ cs ∧ c.key = k := by simp [group]

theorem key_mem_groupKeys {cs : List Conj} {c : Conj} (h : c ∈ cs) : c.key ∈ groupKeys cs := by
  simp only [groupKeys, List.mem_insertionSort, List.mem_dedup]
  exact List.mem_map_of_mem h

def groupSig (g : List Conj) : List Text := (g.head?.map Conj.sig).getD []

theorem sig_of_mem_group {P : Policy} {k : Text} {c : Conj} (h : c ∈ group (sideOf P).conjs k) :
    c.sig = groupSig (group (sideOf P).conjs k) := by
  cases hg : group (sideOf P).conjs k with
  | nil => simp [hg] at h
  | cons d g =>
    have hd : d ∈ group (sideOf P).conjs k := by simp [hg]
    rw [mem_group] at h hd
    exact sig_eq_of_key h.1 hd.1 (h.2.trans hd.2.symm)

end Consist

end Rpsl
