import Rpsl.Rtconfig.Junos
import Rpsl.Types.Proof.Range

/-!
# Route-filter groups

The two sets a group keeps decide nesting exactly (`FilterGroup.nests_iff`), so the prefixes of a
group are pairwise disjoint. At most one of them covers a route, longest match then has nothing to
discard, and a term matches what its ranges denote (`termMatches_iff`).
-/

namespace Rpsl.Rtconfig

theorem FilterGroup.mem_walkUp {p q : Prefix} (hp : p.masked = p) :
    p ∈ walkUp q ↔ p.Covers q := by
  simp only [walkUp, List.mem_map, List.mem_reverse, List.mem_range]
  constructor
  · intro h
    obtain ⟨k, -, rfl⟩ := h
    exact q.up_covers k
  · intro h
    refine ⟨p.bits, Nat.lt_succ_of_le h.bits_le, Prefix.ext_path (by simp) hp h.1.symm ?_⟩
    rw [Prefix.up_path, ← Prefix.path_length p]
    exact (List.prefix_iff_eq_take.1 h.2).symm

/-- Neither prefix contains or equals the other; a zero range has no prefix. -/
def Apart (r s : PrefixRange) : Prop :=
  ∀ p q, r.pfx = some p → s.pfx = some q → ¬ p.Covers q ∧ ¬ q.Covers p

instance : Std.Symm Apart := ⟨fun _ _ h p q hp hq => (h q p hq hp).symm⟩

/-- The invariant of a group: its sets are what their comments say, and its prefixes are pairwise
disjoint. -/
structure FilterGroup.Sound (g : FilterGroup) : Prop where
  members : ∀ p, p ∈ g.members ↔ ∃ r ∈ g.ranges, r.pfx = some p
  ancestors : ∀ p : Prefix, p.masked = p →
    (p ∈ g.ancestors ↔ ∃ r ∈ g.ranges, ∃ q, r.pfx = some q ∧ p.Covers q)
  apart : g.ranges.Pairwise Apart

theorem FilterGroup.Sound.apart_of_not_nests {g : FilterGroup} (hg : g.Sound) {r : PrefixRange}
    (h : g.nests r.pfx = false) : ∀ s ∈ g.ranges, Apart s r := by
  intro s hs p q hp hq
  have hmp := (PrefixRange.pfx_wf hp).1
  simp only [hq, nests, Bool.or_eq_false_iff, List.any_eq_false, List.contains_eq_mem,
    decide_eq_true_eq, decide_eq_false_iff_not] at h
  refine ⟨fun hc => ?_, fun hc => ?_⟩
  · exact h.2 p ((mem_walkUp hmp).2 hc) ((hg.members p).2 ⟨s, hs, hp⟩)
  · exact h.1 ((hg.ancestors q (PrefixRange.pfx_wf hq).1).2 ⟨s, hs, p, hp, hc⟩)

theorem FilterGroup.Sound.empty : ({} : FilterGroup).Sound := ⟨by simp, by simp, by simp⟩

theorem FilterGroup.add_ranges (g : FilterGroup) (r : PrefixRange) :
    (g.add r).ranges = g.ranges ++ [r] := by
  unfold add
  cases r.pfx <;> rfl

theorem FilterGroup.Sound.add {g : FilterGroup} (hg : g.Sound) {r : PrefixRange}
    (h : g.nests r.pfx = false) : (g.add r).Sound where
  members p := by
    rw [add_ranges]
    unfold FilterGroup.add
    cases hr : r.pfx with
    | none => simp [or_and_right, exists_or, hr, hg.members]
    | some q => simp [or_and_right, exists_or, hr, hg.members, or_comm, eq_comm]
  ancestors p hp := by
    rw [add_ranges]
    unfold FilterGroup.add
    cases hr : r.pfx with
    | none => simp [or_and_right, exists_or, hr, hg.ancestors p hp]
    | some q =>
      simp [or_and_right, exists_or, hr, hg.ancestors p hp, mem_walkUp hp, or_comm]
  apart := by
    rw [add_ranges, List.pairwise_append]
    refine ⟨hg.apart, List.pairwise_singleton _ _, fun s hs t ht => ?_⟩
    rw [List.mem_singleton.1 ht]
    exact hg.apart_of_not_nests h s hs

theorem junosGroups_apart (rs : List PrefixRange) : ∀ g ∈ junosGroups rs, g.Pairwise Apart := by
  have hsound : ∀ g ∈ Lib.FirstFit.run (fun g r => !g.nests r.pfx) FilterGroup.add {} rs,
      g.Sound := by
    apply Lib.FirstFit.run_inv
    · intro r
      exact FilterGroup.Sound.empty.add (by cases r.pfx <;> simp [FilterGroup.nests])
    · intro g r hfit hg
      exact hg.add (by simpa using hfit)
  intro g hg
  obtain ⟨b, hb, rfl⟩ := List.mem_map.1 hg
  exact (hsound b hb).apart

theorem junosGroups_deals (rs : List PrefixRange) :
    ∃ into, Lib.FirstFit.Deals rs into (junosGroups rs) :=
  Lib.FirstFit.deals_run rfl FilterGroup.add_ranges rs

theorem accepts_matchType {bits max lo hi n : Nat} (hn : bits ≤ n) (hmax : n ≤ max) :
    (matchType bits max lo hi).Accepts bits n ↔ lo ≤ n ∧ n ≤ hi := by
  unfold matchType
  split_ifs with h1 h2 h3 h4 <;> simp only [MatchType.Accepts] <;> omega

theorem Apart.not_both {r s : PrefixRange} (h : Apart r s) {p p' q : Prefix}
    (hp : r.pfx = some p) (hp' : s.pfx = some p') (hc : p.Covers q) (hc' : p'.Covers q) :
    False := by
  obtain ⟨h1, h2⟩ := h p p' hp hp'
  rcases List.prefix_or_prefix_of_prefix hc.2 hc'.2 with hpre | hpre
  · exact h1 ⟨hc.1.trans hc'.1.symm, hpre⟩
  · exact h2 ⟨hc'.1.trans hc.1.symm, hpre⟩

theorem termMatches_iff {g : List PrefixRange} (hg : g.Pairwise Apart) (q : Prefix) :
    TermMatches g q ↔ ∃ r ∈ g, r.contains q = true := by
  have hwin : ∀ (r : PrefixRange) (p : Prefix), p.Covers q →
      ((matchType p.bits p.bitLen r.lo r.hi).Accepts p.bits q.bits ↔
        r.lo ≤ q.bits ∧ q.bits ≤ r.hi) := by
    intro r p hc
    have hwidth : p.bitLen = q.bitLen := congrArg Family.width hc.1
    exact accepts_matchType hc.bits_le (hwidth ▸ q.le)
  constructor
  · intro h
    obtain ⟨r, hr, p, hp, hc, -, hacc⟩ := h
    obtain ⟨hlo, hhi⟩ := (hwin r p hc).1 hacc
    exact ⟨r, hr, PrefixRange.contains_iff.2 ⟨p, hp, hlo, hhi, hc⟩⟩
  · intro h
    obtain ⟨r, hr, hrq⟩ := h
    obtain ⟨p, hp, hlo, hhi, hc⟩ := PrefixRange.contains_iff.1 hrq
    refine ⟨r, hr, p, hp, hc, fun s hs p' hp' hc' => ?_, (hwin r p hc).2 ⟨hlo, hhi⟩⟩
    by_cases hrs : s = r
    · rw [hrs, hp] at hp'
      exact (Option.some.inj hp') ▸ le_rfl
    · have hapart := hg.forall hs hr hrs
      exact (hapart.not_both hp' hp hc' hc).elim

/-- Route-filter groups are exact: every range of the list is in one group, groups keep the order
of the list, a group's prefixes are pairwise disjoint, and the terms written for the groups match
the routes the list denotes. -/
theorem junosGroups_exact (rs : List PrefixRange) :
    (∃ into, Lib.FirstFit.Deals rs into (junosGroups rs)) ∧
    (∀ g ∈ junosGroups rs, g.Pairwise Apart) ∧
    ∀ q, (∃ g ∈ junosGroups rs, TermMatches g q) ↔ ∃ r ∈ rs, r.contains q = true := by
  obtain ⟨into, hdeals⟩ := junosGroups_deals rs
  refine ⟨⟨into, hdeals⟩, junosGroups_apart rs, fun q => ?_⟩
  have hterm : ∀ g ∈ junosGroups rs, (TermMatches g q ↔ ∃ r ∈ g, r.contains q = true) :=
    fun g hg => termMatches_iff (junosGroups_apart rs g hg) q
  constructor
  · intro h
    obtain ⟨g, hg, hm⟩ := h
    obtain ⟨r, hr, hrq⟩ := (hterm g hg).1 hm
    exact ⟨r, (hdeals.mem_iff r).1 ⟨g, hg, hr⟩, hrq⟩
  · intro h
    obtain ⟨r, hr, hrq⟩ := h
    obtain ⟨g, hg, hrg⟩ := (hdeals.mem_iff r).2 hr
    exact ⟨g, hg, (hterm g hg).2 ⟨r, hrg, hrq⟩⟩

end Rpsl.Rtconfig
