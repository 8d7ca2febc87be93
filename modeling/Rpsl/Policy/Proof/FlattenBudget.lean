import Rpsl.Policy.Proof.FlattenRun
import Rpsl.Types.AddrText

/-!
# The budget of flattening

Flatten charges for the terms it builds, with the size of their filters as `filterSize` counts it:
so what it returns is within the budget where no filter nests deeper than that counts
(`Expr.Shallow`). An EXCEPT asks for the slice of its terms before they are charged for, so that
slice may be larger than the budget (`thousandPeers_not_budgeted`).
-/

namespace Rpsl.Policy

open Text

/-! ## The size of filters -/

mutual

/-- The nodes of a filter. -/
def Filter.nodes : Filter → Nat
  | .nil => 0
  | .and terms => 1 + Filter.nodesAll terms
  | .or terms => 1 + Filter.nodesAll terms
  | .not inner => 1 + inner.nodes
  | _ => 1

def Filter.nodesAll : List Filter → Nat
  | [] => 0
  | f :: fs => f.nodes + Filter.nodesAll fs

end

mutual

/-- How many connectives lie one in another. -/
def Filter.nesting : Filter → Nat
  | .and terms => 1 + Filter.nestingAll terms
  | .or terms => 1 + Filter.nestingAll terms
  | .not inner => 1 + inner.nesting
  | _ => 0

def Filter.nestingAll : List Filter → Nat
  | [] => 0
  | f :: fs => max f.nesting (Filter.nestingAll fs)

end

mutual

theorem nodes_le_filterSize : ∀ (f : Filter) (depth : Nat),
    depth + f.nesting ≤ maxFlattenDepth + 1 → f.nodes ≤ filterSize f depth
  | .nil, _, _ => Nat.zero_le _
  | .and terms, depth, h => by
    simp only [Filter.nesting] at h
    rw [filterSize, if_neg (by omega), Filter.nodes]
    exact Nat.add_le_add_left (nodesAll_le_filterSizes terms (depth + 1) (by omega)) 1
  | .or terms, depth, h => by
    simp only [Filter.nesting] at h
    rw [filterSize, if_neg (by omega), Filter.nodes]
    exact Nat.add_le_add_left (nodesAll_le_filterSizes terms (depth + 1) (by omega)) 1
  | .not inner, depth, h => by
    simp only [Filter.nesting] at h
    rw [filterSize, if_neg (by omega), Filter.nodes]
    exact Nat.add_le_add_left (nodes_le_filterSize inner (depth + 1) (by omega)) 1
  | .any, _, _ | .peerAS _, _, _ | .prefixList _, _, _ | .asExpr _ _, _, _ | .setRef _ _, _, _
  | .setTemplate _ _, _, _ | .pathRE _ _, _, _ | .community _, _, _ => by
    simp [Filter.nodes, filterSize]

theorem nodesAll_le_filterSizes : ∀ (fs : List Filter) (depth : Nat),
    depth + Filter.nestingAll fs ≤ maxFlattenDepth + 1 →
      Filter.nodesAll fs ≤ filterSizes fs depth
  | [], _, _ => le_rfl
  | f :: fs, depth, h => by
    simp only [Filter.nestingAll] at h
    rw [Filter.nodesAll, filterSizes]
    exact Nat.add_le_add (nodes_le_filterSize f depth (by omega))
      (nodesAll_le_filterSizes fs depth (by omega))

end

theorem nodesAll_append (fs gs : List Filter) :
    Filter.nodesAll (fs ++ gs) = Filter.nodesAll fs + Filter.nodesAll gs := by
  induction fs with
  | nil => simp [Filter.nodesAll]
  | cons f fs ih =>
    rw [List.cons_append, Filter.nodesAll, Filter.nodesAll, ih]
    omega

theorem nodesAll_conjuncts (f : Filter) : Filter.nodesAll f.conjuncts ≤ f.nodes := by
  cases f <;> simp [Filter.conjuncts, Filter.nodesAll, Filter.nodes]

theorem nodesAll_disjuncts (f : Filter) : Filter.nodesAll f.disjuncts ≤ f.nodes := by
  cases f <;> simp [Filter.disjuncts, Filter.nodesAll, Filter.nodes]

theorem nodes_andFilters (a b : Filter) : (andFilters a b).nodes ≤ a.nodes + b.nodes + 1 := by
  unfold andFilters
  split
  · omega
  · omega
  · have ha := nodesAll_conjuncts a
    have hb := nodesAll_conjuncts b
    rw [Filter.nodes, nodesAll_append]
    omega

theorem nodes_orFilters (fs : List Filter) : (orFilters fs).nodes ≤ 1 + Filter.nodesAll fs := by
  have hflat : ∀ gs : List Filter, Filter.nodesAll (gs.flatMap Filter.disjuncts) ≤
      Filter.nodesAll gs := by
    intro gs
    induction gs with
    | nil => exact le_rfl
    | cons g gs ih =>
      have hg := nodesAll_disjuncts g
      rw [List.flatMap_cons, nodesAll_append, Filter.nodesAll]
      omega
  unfold orFilters
  split
  · simp [Filter.nodes]
  · simp [Filter.nodesAll]
  · rw [Filter.nodes]
    exact Nat.add_le_add_left (hflat _) 1

/-! ## What terms weigh -/

section

variable {addrText : Addr → Text} {af : AddrFamily}

def Weighs (ts : List WTerm) : Prop := ∀ t ∈ ts, t.filter.nodes ≤ t.w

theorem weighs_refined {L R : List WTerm} (hL : Weighs L) (hR : Weighs R) :
    Weighs (refinedTerms addrText L R) := by
  intro t ht
  obtain ⟨l, hl, ht⟩ := List.mem_flatMap.1 ht
  obtain ⟨r, hr, ht⟩ := List.mem_filterMap.1 ht
  unfold refineTerm at ht
  split at ht
  · cases ht
  · obtain ⟨via, -, rfl⟩ := Option.map_eq_some_iff.1 ht
    have hnodes := nodes_andFilters l.filter r.filter
    have hl := hL l hl
    have hr := hR r hr
    dsimp only
    omega

theorem nodesAll_covered {R : List WTerm} (hR : Weighs R) (w : Nat) :
    w + Filter.nodesAll ((R.filter fun r => !r.filter.isNil).map (·.filter)) ≤
      (R.filter fun r => !r.filter.isNil).foldl (fun n r => n + r.w) w := by
  have hsub : Weighs (R.filter fun r => !r.filter.isNil) := fun t ht =>
    hR t (List.mem_of_mem_filter ht)
  generalize R.filter (fun r => !r.filter.isNil) = ts at hsub
  induction ts generalizing w with
  | nil => simp [Filter.nodesAll]
  | cons t ts ih =>
    have ht := hsub t List.mem_cons_self
    have hrest := ih (w + t.w) fun u hu => hsub u (List.mem_cons_of_mem _ hu)
    rw [List.map_cons, Filter.nodesAll, List.foldl_cons]
    omega

theorem weighs_excepted {L R : List WTerm} (hL : Weighs L) (hR : Weighs R) :
    Weighs (excepted L R) := by
  unfold excepted
  split_ifs
  · exact hL
  · intro t ht
    rcases List.mem_append.1 ht with ht | ht
    · obtain ⟨l, hl, ht⟩ := List.mem_flatMap.1 ht
      obtain ⟨r, hr, rfl⟩ := List.mem_map.1 ht
      have hnodes := nodes_andFilters l.filter r.filter
      have hl := hL l hl
      have hr := hR r hr
      unfold exceptTerm
      dsimp only
      omega
    · obtain ⟨l, hl, rfl⟩ := List.mem_map.1 ht
      have hl := hL l hl
      have hcov := nodesAll_covered hR 2
      unfold restTerm
      dsimp only
      split_ifs
      · exact hl
      · set rest := orFilters ((R.filter fun r => !r.filter.isNil).map (·.filter)) with hrest
        have hor := nodes_orFilters ((R.filter fun r => !r.filter.isNil).map (·.filter))
        rw [← hrest] at hor
        have hnodes := nodes_andFilters l.filter (.not rest)
        have hnot : (Filter.not rest).nodes = 1 + rest.nodes := by rw [Filter.nodes]
        dsimp only
        omega

/-- No filter of it nests deeper than `filterSize` counts. -/
def Expr.Shallow : Expr → Prop
  | .nil => True
  | .factor _ f => f.nesting ≤ maxFlattenDepth + 1
  | .list es => ∀ e ∈ es, e.Shallow
  | .refine l r _ _ => l.Shallow ∧ r.Shallow
  | .except l r _ _ => l.Shallow ∧ r.Shallow

theorem weighs_denotedAll {es : List Expr} (h : ∀ e ∈ es, Weighs (e.denoted addrText af).terms) :
    Weighs (Expr.denotedAll addrText af es).terms := by
  induction es with
  | nil => exact fun t ht => absurd ht List.not_mem_nil
  | cons e es ih =>
    rw [List.forall_mem_cons] at h
    rw [Expr.denotedAll]
    exact List.forall_mem_append.2 ⟨h.1, ih h.2⟩

theorem weighs_denoted (e : Expr) : e.Shallow → Weighs (e.denoted addrText af).terms := by
  induction e using Expr.induct with
  | nil =>
    rw [Expr.denoted]
    exact fun _ t ht => absurd ht List.not_mem_nil
  | factor peers filter =>
    rw [Expr.Shallow, Expr.denoted]
    intro hs t ht
    obtain ⟨p, -, rfl⟩ := List.mem_map.1 ht
    exact nodes_le_filterSize filter 0 (by omega)
  | list es ih =>
    rw [Expr.Shallow, Expr.denoted]
    exact fun hs => weighs_denotedAll fun e he => ih e he (hs e he)
  | refine_ l r afis mp ihl ihr =>
    rw [Expr.Shallow, Expr.denoted]
    intro hs
    split_ifs
    · exact weighs_refined (ihl hs.1) (ihr hs.2)
    · exact ihl hs.1
  | except_ l r afis mp ihl ihr =>
    rw [Expr.Shallow, Expr.denoted]
    intro hs
    split_ifs
    · exact weighs_excepted (ihl hs.1) (ihr hs.2)
    · exact ihl hs.1

theorem nodes_le_cost {ts : List WTerm} (h : Weighs ts) :
    (ts.map fun t => t.filter.nodes + 1).sum ≤ cost ts := by
  induction ts with
  | nil => exact le_rfl
  | cons t ts ih =>
    have ht := h t List.mem_cons_self
    have hrest := ih fun u hu => h u (List.mem_cons_of_mem _ hu)
    rw [List.map_cons, List.sum_cons, cost_cons]
    omega

theorem length_le_cost (ts : List WTerm) : ts.length ≤ cost ts := by
  induction ts with
  | nil => exact le_rfl
  | cons t ts ih =>
    rw [List.length_cons, cost_cons]
    omega

end

/-! ## The budget -/

/-- Flatten stays within its budget: in the slices of terms it asks for, and in the terms it
returns. -/
structure Budgeted (addrText : Addr → Text) (af : AddrFamily) (e : Expr) : Prop where
  slices : ∀ c ∈ (flattenAlloc addrText af e).2, c ≤ maxFlattenNodes
  terms : ∀ ts, (flattenAlloc addrText af e).1 = .ok ts →
    (ts.map fun t => t.filter.nodes + 1).sum ≤ maxFlattenNodes

/-- The filters of the terms an expression denotes, and the terms. -/
def Expr.nodes (addrText : Addr → Text) (af : AddrFamily) (e : Expr) : Nat :=
  ((e.denoted addrText af).terms.map fun t => t.filter.nodes + 1).sum

section

variable (addrText : Addr → Text) (af : AddrFamily) (e : Expr)

theorem cost_le_of_paid (hp : (e.denoted addrText af).Paid 0 0) :
    cost (e.denoted addrText af).terms ≤ maxFlattenNodes := by
  have := (e.denoted addrText af).covers
  have := hp.1
  omega

theorem slices_iff : (∀ c ∈ (flattenAlloc addrText af e).2, c ≤ maxFlattenNodes) ↔
    e.Fits addrText af 0 0 := by
  obtain ⟨f, hwithin, ⟨-, err, heq⟩ | ⟨hp, heq⟩⟩ := flattenAlloc_cases addrText af e
  · rw [heq]
    exact hwithin
  · rw [heq, ← hwithin]
    split_ifs
    · rfl
    · -- the slice returned is paid for
      have hlen := (length_le_cost _).trans (cost_le_of_paid addrText af e hp)
      exact Flattener.within_request.trans (and_iff_left hlen)

/-- **When Flatten stays within its budget**: exactly if every slice it comes to ask for does, and
the terms, if they are paid for, have few enough nodes, which they have wherever no filter nests
deeper than Flatten counts. -/
theorem flatten_budgeted : Budgeted addrText af e ↔
    e.Fits addrText af 0 0 ∧ ((e.denoted addrText af).Paid 0 0 → ¬ e.Shallow →
      e.nodes addrText af ≤ maxFlattenNodes) := by
  have hterms : (∀ ts, (flattenAlloc addrText af e).1 = .ok ts →
      (ts.map fun t => t.filter.nodes + 1).sum ≤ maxFlattenNodes) ↔
        ((e.denoted addrText af).Paid 0 0 → e.nodes addrText af ≤ maxFlattenNodes) := by
    constructor
    · intro h hp
      simpa [Expr.nodes, Function.comp_def] using h _ (flatten_eq_ok_iff.2 ⟨hp, rfl⟩)
    · intro h ts hts
      obtain ⟨hp, rfl⟩ := flatten_eq_ok_iff.1 hts
      simpa [Expr.nodes, Function.comp_def] using h hp
  rw [← slices_iff]
  constructor
  · exact fun h => ⟨h.slices, fun hp _ => hterms.1 h.terms hp⟩
  · rintro ⟨hslices, hdeep⟩
    refine ⟨hslices, hterms.2 fun hp => ?_⟩
    by_cases hs : e.Shallow
    · exact (nodes_le_cost (weighs_denoted e hs)).trans (cost_le_of_paid addrText af e hp)
    · exact hdeep hp hs

end

/-! ## A product too large -/

/-- `from AS1`, so many times. -/
def peersOf (n : Nat) : List PeerAction :=
  List.replicate n ⟨none, some (.as_ (.num 1) none none), []⟩

/-- `from AS1 from AS1 … accept ANY`. -/
def manyPeers (n : Nat) : Expr := .factor (peersOf n) .any

theorem charged_manyPeers (n : Nat) : (Denoted.factor (peersOf n) .any).charged = 2 * n := by
  simp [Denoted.factor, cost, factorTerm, filterSize, peersOf]
  omega

theorem length_manyPeers (n : Nat) : (Denoted.factor (peersOf n) .any).terms.length = n := by
  simp [Denoted.factor, peersOf]

theorem paid_manyPeers {n s : Nat} (h : s + 2 * n ≤ maxFlattenNodes) :
    (Denoted.factor (peersOf n) .any).Paid s 1 :=
  ⟨by rwa [charged_manyPeers], show 1 + 1 ≤ maxFlattenDepth + 1 by decide⟩

/-- A factor of 1024 peers EXCEPT another asks for a slice of more terms than the budget, of which
the two spend little. -/
theorem thousandPeers_not_budgeted :
    ¬ Budgeted Addr.text ipv4Unicast (.except (manyPeers 1024) (manyPeers 1024) [] true) := by
  intro hb
  have hfits := (slices_iff _ _ _).1 hb.slices
  have hkept : (manyPeers 1024).kept Addr.text ipv4Unicast (0 + 2 * 1024) (0 + 1) = 1024 := by
    rw [manyPeers, Expr.kept, if_pos (paid_manyPeers (by decide)), peersOf, List.length_replicate]
  rw [Expr.Fits] at hfits
  have hprod := ((hfits (Nat.zero_le _)).2 rfl ?_).2
  · rw [manyPeers, Expr.denoted, charged_manyPeers, length_manyPeers, ← manyPeers, hkept] at hprod
    exact absurd (hprod (by decide)) (by decide)
  · rw [manyPeers, Expr.denoted]
    exact paid_manyPeers (by decide)

end Rpsl.Policy
