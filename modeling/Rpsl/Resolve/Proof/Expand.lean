import Rpsl.Resolve.Proof.Walk

/-!
# Expansion computes the least solution of the set equations

A state the walk reaches is a path of the equations with its operators stacked (`Reached`), and
what the state emits is what the path's end holds, through the operators (`emits_iff`). So the
output of a finished expansion is the top set's part of the least solution, in the address family
asked for (`expandRanges_denote`).
-/

namespace Rpsl.Resolve.Expander

open Text Rpsl.Policy Object Lib

variable {E : Type} {e : Expander E} {g : SetGraph} {top : SetRef}

/-! ## States are paths -/

def Reached (e : Expander E) (top : SetRef) (x : EvalState) : Prop :=
  ∃ os, e.system.Path top os x.set ∧ x.ops = OpStack.stackOf os

theorem Reached.succ (hg : e.Explored top g) {x y : EvalState} (h : e.Reached top x)
    (hs : e.Succ g x y) : e.Reached top y := by
  obtain ⟨os, hpath, hops⟩ := h
  obtain ⟨nd, hnd, o, hl, hsome, hy⟩ := hs
  obtain ⟨nd', hnd'⟩ := Option.isSome_iff_exists.1 hsome
  refine ⟨os ++ [o], hpath.snoc ⟨⟨nd.set, (hg.node hnd).1, hl⟩, ?_⟩, ?_⟩
  · rw [(hg.node hnd').1]; rfl
  · rw [hy, hops, OpStack.stackOf_snoc]

theorem exists_node_of_path (hg : e.Explored top g) {os : List RangeOperator} {ref : SetRef}
    (h : e.system.Path top os ref) : ∃ nd, g.node ref = some nd := by
  induction h with
  | nil => exact hg.top_node
  | snoc _ he ih =>
    obtain ⟨nd, hnd⟩ := ih
    obtain ⟨⟨s, hs, hl⟩, hf⟩ := he
    rw [(hg.node hnd).1] at hs
    cases hs
    exact hg.closed hnd hl hf

/-! ## What a state emits -/

theorem adds_iff (os : List RangeOperator) (r : PrefixRange) (q : Net) :
    e.Adds (.stackOf os) r q ↔
      (∃ p ∈ r.denote, UnionSystem.through e.system.rel os p q) ∧ e.afiAllows q.1 = true :=
  and_congr_left' (OpStack.mem_apply_stackOf os r q)

theorem addsRoute_iff (os : List RangeOperator) (routes : List (Option Prefix)) (q : Net) :
    e.AddsRoute (.stackOf os) routes q ↔
      (∃ m : Net, (∃ p, some p ∈ routes ∧ m.1 = p.masked) ∧
        UnionSystem.through e.system.rel os m q) ∧ e.afiAllows q.1 = true := by
  unfold AddsRoute
  simp only [adds_iff, List.mem_filterMap]
  constructor
  · intro ⟨r, ⟨p, hp, hr⟩, ⟨m, hm, ht⟩, ha⟩
    cases p with
    | none => cases hr
    | some p => exact ⟨⟨m, ⟨p, hp, mem_denote_exactRange.1 ⟨r, hr, hm⟩⟩, ht⟩, ha⟩
  · intro ⟨⟨m, ⟨p, hp, hm⟩, ht⟩, ha⟩
    obtain ⟨r, hr, hm⟩ := mem_denote_exactRange.2 hm
    exact ⟨r, ⟨some p, hp, hr⟩, ⟨m, hm, ht⟩, ha⟩

theorem mem_claimRoutes_iff (hr : e.Routed g) {ref : SetRef} {nd : SetNode}
    (hnd : g.node ref = some nd) {c : Object} (hc : c ∈ nd.claims) (m : Net) :
    (∃ p, some p ∈ claimRoutes g c ∧ m.1 = p.masked) ↔
      (∀ a, c = .autNum a → e.excludesAS a.asn = false) ∧ m ∈ e.src.claimed e.afi c := by
  cases c with
  | autNum a =>
    have hneed : a.asn ∈ e.neededASes g ↔ e.excludesAS a.asn = false :=
      ⟨e.not_excluded_of_needed, e.needed_of_claim hnd hc⟩
    simp only [claimRoutes, Object.autNum.injEq, forall_eq', Source.claimed, ← hneed]
    exact hr a.asn m
  | route r => simp [claimRoutes, Source.claimed, eq_comm (b := r.pfx)]
  | route6 r => simp [claimRoutes, Source.claimed, eq_comm (b := r.pfx)]
  | set s => simp [claimRoutes, Source.claimed]
  | inetRtr i => simp [claimRoutes, Source.claimed]
  | other cls raw => simp [claimRoutes, Source.claimed]

theorem emits_iff (hg : e.Explored top g) (hr : e.Routed g) {ref : SetRef} {nd : SetNode}
    (hnd : g.node ref = some nd) (os : List RangeOperator) (q : Net) :
    e.Emits g ⟨ref, .stackOf os⟩ q ↔
      (∃ p ∈ e.system.base ref, UnionSystem.through e.system.rel os p q) ∧
        e.afiAllows q.1 = true := by
  have hf := (hg.node hnd).1
  have hbase : ∀ p, p ∈ e.system.base ref ↔ p ∈ e.own nd.set := fun p =>
    ⟨fun ⟨s, hs, hp⟩ => by rw [hf] at hs; cases hs; exact hp, fun hp => ⟨nd.set, hf, hp⟩⟩
  have has : ∀ {a o}, .as_ a o ∈ members nd.set →
      (a ∈ e.neededASes g ↔ e.excludesAS a = false) := fun hm =>
    ⟨e.not_excluded_of_needed, e.needed_of_member hnd hm⟩
  constructor
  · intro ⟨nd', hnd', hq⟩
    rw [hnd] at hnd'; cases hnd'
    rcases hq with ⟨r, hm, hq⟩ | ⟨a, o, hm, hq⟩ | ⟨c, hc, hq⟩
    · obtain ⟨⟨p, hp, ht⟩, ha⟩ := (adds_iff os r q).1 hq
      exact ⟨⟨p, (hbase p).2 (.inl ⟨r, hm, hp⟩), ht⟩, ha⟩
    · rw [← OpStack.stackOf_snoc] at hq
      obtain ⟨⟨p, hp, ht⟩, ha⟩ := (addsRoute_iff _ _ q).1 hq
      obtain ⟨m, hpm, ht⟩ := (UnionSystem.through_snoc _ _ _ _ _).1 ht
      obtain ⟨hn, hp⟩ := (hr a p).1 hp
      exact ⟨⟨m, (hbase m).2 (.inr (.inl ⟨a, o, hm, (has hm).1 hn, p, hp, hpm⟩)), ht⟩, ha⟩
    · obtain ⟨⟨p, hp, ht⟩, ha⟩ := (addsRoute_iff _ _ q).1 hq
      obtain ⟨hex, hp⟩ := (mem_claimRoutes_iff hr hnd hc p).1 hp
      exact ⟨⟨p, (hbase p).2 (.inr (.inr ⟨c, ((hg.node hnd).2 c).1 hc, hex, hp⟩)), ht⟩, ha⟩
  · intro ⟨⟨p, hp, ht⟩, ha⟩
    refine ⟨nd, hnd, ?_⟩
    rcases (hbase p).1 hp with ⟨r, hm, hp⟩ | ⟨a, o, hm, hex, p', hp', hpm⟩ | ⟨c, hc, hex, hp⟩
    · exact .inl ⟨r, hm, (adds_iff os r q).2 ⟨⟨p, hp, ht⟩, ha⟩⟩
    · refine .inr (.inl ⟨a, o, hm, ?_⟩)
      rw [← OpStack.stackOf_snoc]
      exact (addsRoute_iff _ _ q).2 ⟨⟨p', (hr a p').2 ⟨(has hm).2 hex, hp'⟩,
        (UnionSystem.through_snoc _ _ _ _ _).2 ⟨p, hpm, ht⟩⟩, ha⟩
    · have hc' := ((hg.node hnd).2 c).2 hc
      exact .inr (.inr ⟨c, hc', (addsRoute_iff _ _ q).2
        ⟨⟨p, (mem_claimRoutes_iff hr hnd hc' p).2 ⟨hex, hp⟩, ht⟩, ha⟩⟩)

/-! ## Whole expansions -/

/-- **The output of a finished walk** is the top set's value, in the family asked for. -/
theorem walk_denote (hg : e.Explored top g) (hr : e.Routed g) (maxRanges fuel : Nat) :
    Ends (e.walk g maxRanges fuel ⟨top, .empty⟩ ⟨.empty, [], 0⟩)
      (fun v => ∀ q, q ∈ v.out.denote ↔ q ∈ e.system.value top ∧ e.afiAllows q.1 = true)
      fun _ => True := by
  have hstart : e.Reached top ⟨top, .empty⟩ := ⟨[], .nil, rfl⟩
  refine (walk_walked maxRanges (fun hn => (e.found_spec (hg.node hn).1).1)
    (fun x y hx hs => hx.succ hg hs) _ hstart).mono (fun v h => fun q => ?_) fun _ => id
  obtain ⟨hw, htop⟩ := h
  have hfin : ∀ x ∈ v.done, e.Finished g v x := fun x hx =>
    (hw.finished x hx).resolve_left (by simp)
  -- every path's state is done: the start is marked, and what is done has its successors done
  have hdone : ∀ {os ref}, e.system.Path top os ref → ⟨ref, .stackOf os⟩ ∈ v.done := by
    intro os ref hp
    induction hp with
    | nil => exact htop
    | snoc hp he ih =>
      obtain ⟨nd, hnd⟩ := exists_node_of_path hg hp
      obtain ⟨⟨s, hs, hl⟩, hf⟩ := he
      rw [(hg.node hnd).1] at hs
      cases hs
      obtain ⟨nd', hnd'⟩ := hg.closed hnd hl hf
      refine (hfin _ ih).2 _ ⟨nd, hnd, _, hl, ?_, OpStack.stackOf_snoc _ _⟩
      rw [hnd']; rfl
  rw [e.system.mem_value_iff]
  constructor
  · intro hq
    obtain ⟨⟨ref, ops⟩, ⟨os, hp, hops⟩, hq⟩ := (hw.sound q hq).resolve_left
      (fun ⟨r, hr, _⟩ => by cases hr)
    simp only at hops hp
    subst hops
    obtain ⟨nd, hnd⟩ := exists_node_of_path hg hp
    obtain ⟨⟨p, hb, ht⟩, ha⟩ := (emits_iff hg hr hnd os q).1 hq
    exact ⟨⟨os, ref, hp, p, hb, ht⟩, ha⟩
  · intro ⟨⟨os, ref, hp, p, hb, ht⟩, ha⟩
    obtain ⟨nd, hnd⟩ := exists_node_of_path hg hp
    exact (hfin _ (hdone hp)).1 q ((emits_iff hg hr hnd os q).2 ⟨⟨p, hb, ht⟩, ha⟩)

/-- **An expansion that returns, returns the top set's value.** -/
theorem expandRanges_denote (e : Expander E) (ref : SetRef) (maxRanges : Nat) :
    Ends (e.expandRanges ref maxRanges)
      (fun r => ∀ q, q ∈ r.1.denote ↔ q ∈ e.system.value ref ∧ e.afiAllows q.1 = true)
      fun _ => True := by
  unfold expandRanges
  split
  · trivial
  refine (e.discover_explored ref false).bind fun g hg => ?_
  refine (e.fetchRoutes_spec g).bind fun g' ⟨⟨rs, hg'⟩, hr⟩ => ?_
  have hx := hg (by simp)
  have hx' : e.Explored ref g' := by
    subst hg'
    exact ⟨hx.top_eq, hx.top_node, hx.node, hx.closed⟩
  exact (walk_denote hx' hr maxRanges _).bind fun v hv => hv

end Rpsl.Resolve.Expander
