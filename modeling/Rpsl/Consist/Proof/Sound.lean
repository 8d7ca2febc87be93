import Rpsl.Consist.Proof.Sides

/-!
# Findings are sound and complete

A definite finding holds of every route in its ranges that passes its tests; without a finding,
what the exporter permits the importer accepts; and the definite and the undecided part reported
under one signature are disjoint. All of it for every truth value of the tests: what decides a
route across the session is only the prefix and, where the exporter's clause changes no community,
community tests both sides hold.
-/

namespace Rpsl.Consist

open Text Rpsl.Policy Resolve Peval

/-! ## One group -/

def restOf (g dst : List Conj) (kind : Kind) : PrefixSpace :=
  (union g).minus (union (dst.filter (sure kind (groupSig g) (g.any Conj.commActs))))

def maybeOf (g dst : List Conj) (kind : Kind) : PrefixSpace :=
  union (dst.filter fun d => !sure kind (groupSig g) (g.any Conj.commActs) d)

variable {f : Finding}

/-- **What one group reports**: the rest outside the maybe part, and the rest inside it. -/
theorem mem_compareGroup {c : Checker} {g dst : List Conj} {kind : Kind}
    (h : f ∈ c.compareGroup g dst kind) : f.given = groupSig g ∧
      ((f.kind = kind ∧
          f.ranges = ((restOf g dst kind).minus (maybeOf g dst kind)).ranges.take c.max) ∨
        (f.kind = .undecided ∧ f.of = kind ∧
          f.ranges = ((restOf g dst kind).intersect (maybeOf g dst kind)).ranges.take c.max)) := by
  unfold Checker.compareGroup at h
  simp only at h
  split at h
  · cases h
  · rcases List.mem_append.1 h with h | h
    · split at h
      · cases h
      · cases List.mem_singleton.1 h
        unfold roles
        split <;> exact ⟨rfl, .inl ⟨rfl, rfl⟩⟩
    · split at h
      · cases h
      · cases List.mem_singleton.1 h
        unfold roles
        split <;> exact ⟨rfl, .inr ⟨rfl, rfl, rfl⟩⟩

theorem not_contains_restOf {c : Checker} {g dst : List Conj} {kind : Kind}
    (h : c.compareGroup g dst kind = []) (p : Prefix) :
    ¬ (restOf g dst kind).contains p = true := by
  intro hp
  unfold Checker.compareGroup at h
  simp only at h
  split at h
  · rename_i he
    exact absurd hp (by rw [restOf, groupSig, not_contains_of_isEmpty he]; decide)
  · obtain ⟨hd, hu⟩ := List.append_eq_nil_iff.1 h
    split at hd
    case isFalse => cases hd
    case isTrue hde =>
    split at hu
    case isFalse => cases hu
    case isTrue hue =>
    -- the prefix is in the maybe part or outside it, and both parts are empty
    have hout := not_contains_of_isEmpty hde p
    have hin := not_contains_of_isEmpty hue p
    rw [← Bool.not_eq_true, contains_minus] at hout
    rw [← Bool.not_eq_true, contains_intersect] at hin
    exact hout ⟨hp, fun hm => hin ⟨hp, hm⟩⟩

variable {p : Prefix}

theorem contains_of_take {s : PrefixSpace} {n : Nat} {r : PrefixRange}
    (hr : r ∈ s.ranges.take n) (h : r.contains p = true) : s.contains p = true :=
  (s.contains_ranges p).1 ⟨r, List.mem_of_mem_take hr, h⟩

/-! ## Two sides -/

section Compare

variable {c : Checker} {src dst : Policy} {kind : Kind}

theorem compare_definite (hk : kind ≠ .undecided)
    (hf : f ∈ c.compare (sideOf src) (sideOf dst) kind) (hfk : f.kind = kind) {v w : Truth}
    {r : PrefixRange} (hr : r ∈ f.ranges) (hp : r.contains p = true)
    (hg : ∀ t ∈ f.given, v.passes t = true) :
    src.permits v p = true ∧ ¬ dst.permits w p = true := by
  obtain ⟨k, -, hf⟩ := List.mem_flatMap.1 hf
  obtain ⟨hgiven, hdef | ⟨hu, -⟩⟩ := mem_compareGroup hf
  case inr => exact absurd (hfk.symm.trans hu) hk
  rw [hdef.2] at hr
  obtain ⟨hrest, hmb⟩ := (contains_minus _ _ _).1 (contains_of_take hr hp)
  obtain ⟨hu, hsure⟩ := (contains_minus _ _ _).1 hrest
  obtain ⟨cj, hcj, hsp⟩ := (contains_union _ _).1 hu
  refine ⟨?_, fun hd => ?_⟩
  · refine (permits_iff src v p).2 ⟨cj, (mem_group.1 hcj).1, hsp, ?_⟩
    rw [sig_of_mem_group hcj, ← hgiven]
    exact hg
  · -- every conjunct of dst is a sure one or a maybe one, and neither holds the prefix
    obtain ⟨d, hd, hsp, -⟩ := (permits_iff dst w p).1 hd
    by_cases hs : sure kind (groupSig (group (sideOf src).conjs k))
        ((group (sideOf src).conjs k).any Conj.commActs) d = true
    · exact hsure ((contains_union _ _).2 ⟨d, List.mem_filter.2 ⟨hd, hs⟩, hsp⟩)
    · exact hmb ((contains_union _ _).2 ⟨d, List.mem_filter.2 ⟨hd, by simpa using hs⟩, hsp⟩)

theorem mem_group_of_restOf {k : Text}
    (h : (restOf (group (sideOf src).conjs k) (sideOf dst).conjs kind).contains p = true) :
    ∃ cj ∈ group (sideOf src).conjs k, cj.space.contains p = true :=
  (contains_union _ _).1 ((contains_minus _ _ _).1 h).1

theorem key_eq_of_groupSig {k l : Text} {cj dj : Conj} (hc : cj ∈ group (sideOf src).conjs k)
    (hd : dj ∈ group (sideOf src).conjs l)
    (h : groupSig (group (sideOf src).conjs k) = groupSig (group (sideOf src).conjs l)) :
    k = l := by
  rw [← sig_of_mem_group hc, ← sig_of_mem_group hd] at h
  calc k = cj.key := (mem_group.1 hc).2.symm
    _ = dj.key := by rw [Conj.key, Conj.key, h]
    _ = l := (mem_group.1 hd).2

theorem compare_disjoint {g : Finding} (hk : kind ≠ .undecided)
    (hf : f ∈ c.compare (sideOf src) (sideOf dst) kind) (hfk : f.kind = kind)
    (hg : g ∈ c.compare (sideOf src) (sideOf dst) kind) (hgk : g.kind = .undecided)
    (hfg : f.given = g.given) {r s : PrefixRange} (hr : r ∈ f.ranges)
    (hrp : r.contains p = true) (hs : s ∈ g.ranges) : ¬ s.contains p = true := by
  intro hsp
  obtain ⟨k, -, hf⟩ := List.mem_flatMap.1 hf
  obtain ⟨l, -, hg⟩ := List.mem_flatMap.1 hg
  obtain ⟨hfs, hdef | ⟨hu, -⟩⟩ := mem_compareGroup hf
  case inr => exact absurd (hfk.symm.trans hu) hk
  obtain ⟨hgs, ⟨hd, -⟩ | hund⟩ := mem_compareGroup hg
  case inl => exact absurd (hd.symm.trans hgk) hk
  rw [hdef.2] at hr
  rw [hund.2.2] at hs
  obtain ⟨hrest, hout⟩ := (contains_minus _ _ _).1 (contains_of_take hr hrp)
  obtain ⟨hrest', hin⟩ := (contains_intersect _ _ _).1 (contains_of_take hs hsp)
  obtain ⟨cj, hcj, -⟩ := mem_group_of_restOf hrest
  obtain ⟨dj, hdj, -⟩ := mem_group_of_restOf hrest'
  obtain rfl := key_eq_of_groupSig hcj hdj (hfs.symm.trans (hfg.trans hgs))
  exact hout hin

theorem sure_notImported {sig : List Text} {acts : Bool} {d : Conj} :
    sure .notImported sig acts d = true ↔
      (∀ t ∈ d.sig, t ∈ sig) ∧ d.path = false ∧ (d.comm = true → acts = false) := by
  have himp : (d.comm = false ∨ acts = false) ↔ (d.comm = true → acts = false) := by
    cases d.comm <;> simp
  simp [sure, subset, and_assoc, himp]

theorem community_of_mem_sig {P : Policy} {d : Conj} (hd : d ∈ (sideOf P).conjs)
    (hpath : d.path = false) {t : Text} (ht : t ∈ d.sig) :
    d.comm = true ∧ ∃ m : CommunityMatch, t = m.text := by
  obtain ⟨cl, -, cj, -, rfl⟩ := mem_conjs.1 hd
  simp only [Bool.not_eq_eq_eq_not, Bool.not_false, List.isEmpty_iff] at hpath
  have ht : t ∈ cj.tests := mem_signature.1 ht
  rw [Conjunct.tests, hpath, List.map_nil, List.nil_append] at ht
  obtain ⟨m, hm, rfl⟩ := List.mem_map.1 ht
  exact ⟨by simpa using List.ne_nil_of_mem hm, m, rfl⟩

/-- **Without a finding the importer accepts what the exporter permits.** -/
theorem compare_complete {exp imp : Policy}
    (h : c.compare (sideOf exp) (sideOf imp) .notImported = []) {r : Route} (hr : r.Crosses exp)
    (hp : exp.permits r.atExporter r.pfx = true) :
    imp.permits r.atImporter r.pfx = true := by
  obtain ⟨cl, htake⟩ := Option.isSome_iff_exists.1 hp
  obtain ⟨cj, hcj, ⟨hsp, hpass⟩, hacts⟩ := takes_conj htake
  have hgroup : cj ∈ group (sideOf exp).conjs cj.key := mem_group.2 ⟨hcj, rfl⟩
  have hsig := sig_of_mem_group hgroup
  -- the group of the conjunct that permits the route reports nothing
  have hnil := List.flatMap_eq_nil_iff.1 h cj.key (key_mem_groupKeys hcj)
  have hrest := not_contains_restOf hnil r.pfx
  rw [restOf, contains_minus, not_and_not_right] at hrest
  obtain ⟨d, hd, hdsp⟩ :=
    (contains_union _ _).1 (hrest ((contains_union _ _).2 ⟨cj, hgroup, hsp⟩))
  obtain ⟨hd, hsure⟩ := List.mem_filter.1 hd
  refine (permits_iff imp r.atImporter r.pfx).2 ⟨d, hd, hdsp, ?_⟩
  intro t ht
  obtain ⟨hsub, hpath, hcomm⟩ := sure_notImported.1 hsure
  obtain ⟨hc, m, rfl⟩ := community_of_mem_sig hd hpath ht
  -- the clause the route takes is one of the group's, so it changes no community
  have hno : changesCommunities cl = false := by
    rw [← hacts]
    exact Bool.eq_false_iff.2 fun ha =>
      absurd (hcomm hc) (by simpa using ⟨cj, hgroup, ha⟩)
  have hexp := hpass _ (hsig ▸ hsub _ ht)
  rw [passes_community, CommunityMatch.holds] at hexp ⊢
  rwa [hr cl htake hno m.test]

end Compare

/-! ## A direction -/

section Direction

variable {c : Checker} {exp imp : Policy} {afi : AFI}

theorem kind_of_mem_compare {src dst : Policy} {kind : Kind}
    (h : f ∈ c.compare (sideOf src) (sideOf dst) kind) :
    f.kind = kind ∨ (f.kind = .undecided ∧ f.of = kind) := by
  obtain ⟨k, -, h⟩ := List.mem_flatMap.1 h
  exact (mem_compareGroup h).2.imp And.left fun h => ⟨h.1, h.2.1⟩

theorem demote_false (kind : Kind) (why : Why) : demote false kind why = id := by
  funext f
  simp [demote]

/-- **What a direction reports of policies without undecided terms.** -/
theorem mem_direction (he : exp.undecided = []) (hi : imp.undecided = [])
    (h : f ∈ c.direction (sideOf exp) (sideOf imp) afi) :
    f ∈ c.compare (sideOf exp) (sideOf imp) .notImported ∨
      f ∈ c.compare (sideOf imp) (sideOf exp) .notExported ∨
      f.kind = .noImport ∨ f.kind = .noExport := by
  have hue : (sideOf exp).undecided = false := by simp [sideOf, he]
  have hui : (sideOf imp).undecided = false := by simp [sideOf, hi]
  unfold Checker.direction at h
  simp only [hue, hui, Bool.false_eq_true, if_false, Bool.false_and, List.append_nil,
    demote_false, List.map_id] at h
  split at h
  · cases h
  · cases List.mem_singleton.1 h
    exact .inr (.inr (.inl rfl))
  · cases List.mem_singleton.1 h
    exact .inr (.inr (.inr rfl))
  · rw [List.mem_insertionSort, List.mem_append] at h
    exact h.imp_right .inl

theorem mem_compare_of_kind (he : exp.undecided = []) (hi : imp.undecided = [])
    (h : f ∈ c.direction (sideOf exp) (sideOf imp) afi) :
    (f.kind = .notImported ∨ (f.kind = .undecided ∧ f.of = .notImported) →
      f ∈ c.compare (sideOf exp) (sideOf imp) .notImported) ∧
    (f.kind = .notExported ∨ (f.kind = .undecided ∧ f.of = .notExported) →
      f ∈ c.compare (sideOf imp) (sideOf exp) .notExported) := by
  rcases mem_direction he hi h with h | h | h | h
  · have := kind_of_mem_compare h
    exact ⟨fun _ => h, fun hk => by grind⟩
  · have := kind_of_mem_compare h
    exact ⟨fun hk => by grind, fun _ => h⟩
  · exact ⟨fun hk => by grind, fun hk => by grind⟩
  · exact ⟨fun hk => by grind, fun hk => by grind⟩

theorem not_permits_of_isEmpty {P : Policy} (h : (union (sideOf P).conjs).isEmpty = true)
    (v : Truth) (p : Prefix) : ¬ P.permits v p = true := by
  intro hp
  obtain ⟨d, hd, hsp, -⟩ := (permits_iff P v p).1 hp
  have := (contains_union _ _).2 ⟨d, hd, hsp⟩
  rw [not_contains_of_isEmpty h] at this
  cases this

theorem direction_nil (he : exp.undecided = []) (hi : imp.undecided = [])
    (h : c.direction (sideOf exp) (sideOf imp) afi = []) :
    (∀ v p, ¬ exp.permits v p = true) ∨
      c.compare (sideOf exp) (sideOf imp) .notImported = [] := by
  have hue : (sideOf exp).undecided = false := by simp [sideOf, he]
  have hui : (sideOf imp).undecided = false := by simp [sideOf, hi]
  unfold Checker.direction at h
  simp only [hue, hui, Bool.false_eq_true, if_false, Bool.false_and, List.append_nil,
    demote_false, List.map_id] at h
  split at h
  · rename_i hexp _
    refine .inl fun v p => ?_
    rw [Bool.and_eq_false_iff] at hexp
    rcases hexp with hexp | hexp
    · have hnil : exp.clauses = [] := by simpa [sideOf] using hexp
      simp [Policy.permits, Policy.takes, hnil]
    · exact not_permits_of_isEmpty (by simp_all) v p
  · cases h
  · cases h
  · rw [← List.length_eq_zero_iff, List.length_insertionSort, List.length_eq_zero_iff] at h
    exact .inr (List.append_eq_nil_iff.1 h).1

/-- **Consistency findings are sound and complete** for policies without undecided terms: a
definite finding holds of every route in its ranges that passes its tests, no finding means that
the importer accepts whatever the exporter permits, and the definite and the undecided part
reported under one signature have no prefix in common. -/
theorem direction_exact (c : Checker) (exp imp : Policy) (afi : AFI) (he : exp.undecided = [])
    (hi : imp.undecided = []) :
    (∀ f ∈ c.direction (sideOf exp) (sideOf imp) afi, ∀ r : Route, r.Crosses exp →
      (∃ g ∈ f.ranges, g.contains r.pfx = true) →
      (f.kind = .notImported → (∀ t ∈ f.given, r.atExporter.passes t = true) →
        exp.permits r.atExporter r.pfx = true ∧ ¬ imp.permits r.atImporter r.pfx = true) ∧
      (f.kind = .notExported → (∀ t ∈ f.given, r.atImporter.passes t = true) →
        imp.permits r.atImporter r.pfx = true ∧ ¬ exp.permits r.atExporter r.pfx = true)) ∧
    (c.direction (sideOf exp) (sideOf imp) afi = [] → ∀ r : Route, r.Crosses exp →
      exp.permits r.atExporter r.pfx = true → imp.permits r.atImporter r.pfx = true) ∧
    (∀ f ∈ c.direction (sideOf exp) (sideOf imp) afi,
      ∀ g ∈ c.direction (sideOf exp) (sideOf imp) afi,
      f.kind = .notImported ∨ f.kind = .notExported → g.kind = .undecided → g.of = f.kind →
      g.given = f.given → ∀ p : Prefix, (∃ r ∈ f.ranges, r.contains p = true) →
      ¬ ∃ r ∈ g.ranges, r.contains p = true) := by
  refine ⟨?_, ?_, ?_⟩
  · intro f hf r _ ⟨g, hg, hgp⟩
    obtain ⟨himp, hexp⟩ := mem_compare_of_kind he hi hf
    exact ⟨fun hk hgiven => compare_definite (by decide) (himp (.inl hk)) hk hg hgp hgiven,
      fun hk hgiven => compare_definite (by decide) (hexp (.inl hk)) hk hg hgp hgiven⟩
  · intro hnil r hr hp
    rcases direction_nil he hi hnil with hno | hcmp
    · exact absurd hp (hno _ _)
    · exact compare_complete hcmp hr hp
  · intro f hf g hg hk hgk hof hgiven p ⟨r, hr, hrp⟩ ⟨s, hs, hsp⟩
    obtain ⟨hfi, hfe⟩ := mem_compare_of_kind he hi hf
    obtain ⟨hgi, hge⟩ := mem_compare_of_kind he hi hg
    rcases hk with hk | hk
    · exact compare_disjoint (by decide) (hfi (.inl hk)) hk (hgi (.inr ⟨hgk, hof.trans hk⟩)) hgk
        hgiven.symm hr hrp hs hsp
    · exact compare_disjoint (by decide) (hfe (.inl hk)) hk (hge (.inr ⟨hgk, hof.trans hk⟩)) hgk
        hgiven.symm hr hrp hs hsp

theorem length_bit_le (b : Bool) : [b].length ≤ Family.v4.width := Nat.le_add_left 1 31

/-- A policy for the half of IPv4 whose first bit is `b`: by the prefix of length 1, of routes that
pass a path and a community test, and by those of lengths 2 to 4 of any route, tagged with a
community. -/
def testedPolicy (b : Bool) : Policy :=
  let half := Prefix.ofPath .v4 [b] (length_bit_le b)
  let path : PathMatch := ⟨false, ⟨.seq [.start, .asn 1]⟩, []⟩
  let community : CommunityMatch := ⟨true, ⟨.contains, [lit "1:1"], [], by decide +kernel⟩⟩
  ⟨[⟨0, [⟨lit "pref", [], .assign, [], lit "10", []⟩],
      ⟨[⟨⟨(PrefixRange.new half 1 1).toList, []⟩, ⟨[], []⟩, [path], [community], false⟩], []⟩⟩,
    ⟨1, [⟨lit "community", lit "append", .method, [lit "1:2"], [], []⟩],
      ⟨[⟨⟨(PrefixRange.new half 2 4).toList, []⟩, ⟨[], []⟩, [], [], false⟩], []⟩⟩], []⟩

/-- An export of one half of IPv4 against an import of the other: of the routes that pass the tests
of a finding, its route is refused. -/
theorem direction_exact_tested :
    ∃ f ∈ (Checker.mk 0).direction (sideOf (testedPolicy false)) (sideOf (testedPolicy true)) .v4,
      f.kind = .notImported ∧ f.given = [lit "<^ AS1>", lit "NOT community(1:1)"] ∧
      ∀ r : Route, r.Crosses (testedPolicy false) →
        r.pfx = Prefix.ofPath .v4 [false] (by decide) →
        (∀ t ∈ f.given, r.atExporter.passes t = true) →
        (testedPolicy false).permits r.atExporter r.pfx = true ∧
          ¬ (testedPolicy true).permits r.atImporter r.pfx = true := by
  have hf : ∃ f ∈ (Checker.mk 0).direction (sideOf (testedPolicy false))
      (sideOf (testedPolicy true)) .v4, f.kind = .notImported ∧
        f.given = [lit "<^ AS1>", lit "NOT community(1:1)"] ∧
        ∃ g ∈ f.ranges, g.contains (Prefix.ofPath .v4 [false] (by decide)) = true := by
    decide +kernel
  obtain ⟨f, hf, hk, hgiven, hg⟩ := hf
  refine ⟨f, hf, hk, hgiven, fun r hr hp hpass => ?_⟩
  exact ((direction_exact ⟨0⟩ (testedPolicy false) (testedPolicy true) .v4 rfl rfl).1 f hf r hr
    (hp ▸ hg)).1 hk hpass

end Direction

end Rpsl.Consist
