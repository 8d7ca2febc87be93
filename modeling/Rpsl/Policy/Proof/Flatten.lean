import Rpsl.Policy.Proof.FlattenRun

/-!
# Flattening keeps what EXCEPT and REFINE mean

A filter is read over arbitrary sets of routes for its atomic terms (`Filter.routes`). Splicing AND
and OR chains does not change what they match (`routes_andFilters`, `routes_orFilters`), and the
budget only decides whether terms are returned, not which (`flatten_eq_ok_iff`). So the terms of an
EXCEPT or a REFINE are made of those of its sides as RFC 2622 has it (`flatten_meaning`).
-/

namespace Rpsl.Policy

open Text

/-! ## What filters match -/

section

variable {Route : Type} (I : Filter → Set Route)

mutual

/-- The routes a filter matches, given those of the atomic ones. -/
def Filter.routes : Filter → Set Route
  | .and terms => allRoutes terms
  | .or terms => anyRoutes terms
  | .not inner => (Filter.routes inner)ᶜ
  | f => I f

def allRoutes : List Filter → Set Route
  | [] => Set.univ
  | f :: fs => Filter.routes f ∩ allRoutes fs

def anyRoutes : List Filter → Set Route
  | [] => ∅
  | f :: fs => Filter.routes f ∪ anyRoutes fs

end

theorem mem_allRoutes {fs : List Filter} {x : Route} :
    x ∈ allRoutes I fs ↔ ∀ f ∈ fs, x ∈ f.routes I := by
  induction fs with
  | nil => simp [allRoutes]
  | cons f fs ih => simp [allRoutes, ih]

theorem mem_anyRoutes {fs : List Filter} {x : Route} :
    x ∈ anyRoutes I fs ↔ ∃ f ∈ fs, x ∈ f.routes I := by
  induction fs with
  | nil => simp [anyRoutes]
  | cons f fs ih => simp [anyRoutes, ih]

theorem allRoutes_conjuncts (f : Filter) : allRoutes I f.conjuncts = f.routes I := by
  cases f <;> simp [Filter.conjuncts, allRoutes, Filter.routes]

theorem anyRoutes_disjuncts (f : Filter) : anyRoutes I f.disjuncts = f.routes I := by
  cases f <;> simp [Filter.disjuncts, anyRoutes, Filter.routes]

theorem andFilters_eq {a b : Filter} (ha : a ≠ .nil) (hb : b ≠ .nil) :
    andFilters a b = .and (a.conjuncts ++ b.conjuncts) := by
  unfold andFilters
  split
  · exact absurd rfl ha
  · exact absurd rfl hb
  · rfl

/-- **Splicing AND chains keeps their meaning.** -/
theorem routes_andFilters {a b : Filter} (ha : a ≠ .nil) (hb : b ≠ .nil) :
    (andFilters a b).routes I = a.routes I ∩ b.routes I := by
  rw [andFilters_eq ha hb, ← allRoutes_conjuncts I a, ← allRoutes_conjuncts I b]
  ext x
  simp only [Filter.routes, Set.mem_inter_iff, mem_allRoutes, List.mem_append, or_imp, forall_and]

/-- **Splicing OR chains keeps their meaning.** -/
theorem routes_orFilters {fs : List Filter} (h : fs ≠ []) :
    (orFilters fs).routes I = anyRoutes I fs := by
  unfold orFilters
  split
  · exact absurd rfl h
  · simp [anyRoutes]
  · ext x
    simp only [Filter.routes, mem_anyRoutes, List.mem_flatMap]
    refine ⟨fun ⟨f, ⟨g, hg, hf⟩, hx⟩ => ⟨g, hg, ?_⟩, fun ⟨g, hg, hx⟩ => ?_⟩
    · rw [← anyRoutes_disjuncts]
      exact (mem_anyRoutes I).2 ⟨f, hf, hx⟩
    · rw [← anyRoutes_disjuncts] at hx
      obtain ⟨f, hf, hx⟩ := (mem_anyRoutes I).1 hx
      exact ⟨f, ⟨g, hg, hf⟩, hx⟩

/-- The routes of the terms' filters. -/
def matched (ts : List Term) : Set Route := {x | ∃ t ∈ ts, x ∈ t.filter.routes I}

end

/-! ## Terms of two sides -/

section

variable (addrText : Addr → Text) (af : AddrFamily)

/-- Do two terms' peerings, and their vias, intersect? -/
def meets (l r : Term) : Bool :=
  (intersectPeerings addrText l.peering r.peering).isSome &&
    (intersectVias addrText l.via r.via).isSome

def refined (l r : Term) : Term :=
  ⟨(intersectVias addrText l.via r.via).getD none,
    intersectPeerings addrText l.peering r.peering, l.actions ++ r.actions,
    andFilters l.filter r.filter⟩

def refinement (left right : List Term) : List Term :=
  ((left ×ˢ right).filter fun p => meets addrText p.1 p.2).map fun p => refined addrText p.1 p.2

theorem refinedTerms_toTerm (left right : List WTerm) :
    (refinedTerms addrText left right).map WTerm.toTerm =
      refinement addrText (left.map WTerm.toTerm) (right.map WTerm.toTerm) := by
  have hrow : ∀ l : WTerm, (right.filterMap (refineTerm addrText l)).map WTerm.toTerm =
      (((right.map WTerm.toTerm).map (Prod.mk l.toTerm)).filter fun p =>
        meets addrText p.1 p.2).map fun p => refined addrText p.1 p.2 := by
    intro l
    induction right with
    | nil => rfl
    | cons r right ih =>
      cases hp : intersectPeerings addrText l.peering r.peering with
      | none => simpa [refineTerm, meets, hp] using ih
      | some pe =>
        cases hv : intersectVias addrText l.via r.via with
        | none => simpa [refineTerm, meets, hp, hv] using ih
        | some via => simpa [refineTerm, meets, refined, hp, hv] using ih
  unfold refinedTerms refinement
  induction left with
  | nil => rfl
  | cons l left ih =>
    rw [List.flatMap_cons, List.map_append, ih, hrow, List.map_cons, List.product_cons,
      List.filter_append, List.map_append]

def overridden (l r : Term) : Term := { r with filter := andFilters l.filter r.filter }

def remainder (covered : List Filter) (l : Term) : Term :=
  { l with filter := if (orFilters covered).isNil then l.filter
      else andFilters l.filter (.not (orFilters covered)) }

/-- The terms of an exception: right's over each of left's, then what is left of left's. -/
def exception (left right : List Term) : List Term :=
  if right.isEmpty then left
  else (left ×ˢ right).map (fun p => overridden p.1 p.2) ++
    left.map (remainder ((right.map (·.filter)).filter fun f => !f.isNil))

theorem excepted_toTerm (left right : List WTerm) :
    (excepted left right).map WTerm.toTerm =
      exception (left.map WTerm.toTerm) (right.map WTerm.toTerm) := by
  unfold excepted exception
  rw [List.isEmpty_map]
  split_ifs
  · rfl
  · have hcov : ((right.filter fun r => !r.filter.isNil).map (·.filter)) =
        ((right.map WTerm.toTerm).map (·.filter)).filter fun f => !f.isNil := by
      rw [List.map_map, List.filter_map]
      rfl
    rw [List.map_append]
    congr 1
    · simp [SProd.sprod, List.product, List.map_flatMap, List.flatMap_map, Function.comp_def,
        exceptTerm, overridden]
    · rw [List.map_map, List.map_map]
      refine List.map_congr_left fun l _ => ?_
      simp only [Function.comp_apply, restTerm, remainder, ← hcov]
      split_ifs <;> rfl

/-! ## Expressions -/

/-- Every factor has a filter. -/
def Expr.Filtered : Expr → Prop
  | .nil => True
  | .factor _ f => f ≠ .nil
  | .list es => ∀ e ∈ es, e.Filtered
  | .except l r _ _ => l.Filtered ∧ r.Filtered
  | .refine l r _ _ => l.Filtered ∧ r.Filtered

variable {addrText af}

/-! ## Every term has a filter -/

theorem andFilters_ne_nil {a b : Filter} (ha : a ≠ .nil) (hb : b ≠ .nil) :
    andFilters a b ≠ .nil := by
  rw [andFilters_eq ha hb]
  simp

theorem isNil_eq_false {f : Filter} (h : f ≠ .nil) : f.isNil = false := by
  cases f <;> simp_all [Filter.isNil]

theorem orFilters_ne_nil {fs : List Filter} (hne : fs ≠ []) (h : ∀ f ∈ fs, f ≠ .nil) :
    orFilters fs ≠ .nil := by
  unfold orFilters
  split
  · exact absurd rfl hne
  · exact h _ (by simp)
  · simp

theorem filter_refinement {left right : List Term} (hl : ∀ t ∈ left, t.filter ≠ .nil)
    (hr : ∀ t ∈ right, t.filter ≠ .nil) :
    ∀ t ∈ refinement addrText left right, t.filter ≠ .nil := by
  intro t ht
  obtain ⟨p, hp, rfl⟩ := List.mem_map.1 ht
  obtain ⟨h1, h2⟩ := List.mem_product.1 (List.mem_filter.1 hp).1
  exact andFilters_ne_nil (hl _ h1) (hr _ h2)

theorem covered_eq {right : List Term} (h : ∀ t ∈ right, t.filter ≠ .nil) :
    (right.map (·.filter)).filter (fun f => !f.isNil) = right.map (·.filter) := by
  rw [List.filter_eq_self]
  intro f hf
  obtain ⟨t, ht, rfl⟩ := List.mem_map.1 hf
  rw [isNil_eq_false (h t ht), Bool.not_false]

theorem remainder_filter {right : List Term} (hne : right ≠ []) (l : Term)
    (hr : ∀ t ∈ right, t.filter ≠ .nil) :
    (remainder ((right.map (·.filter)).filter fun f => !f.isNil) l).filter =
      andFilters l.filter (.not (orFilters (right.map (·.filter)))) := by
  have hnil := orFilters_ne_nil (show right.map (·.filter) ≠ [] by simpa using hne)
    (by simpa using hr)
  unfold remainder
  rw [covered_eq hr, isNil_eq_false hnil]
  rfl

theorem filter_exception {left right : List Term} (hl : ∀ t ∈ left, t.filter ≠ .nil)
    (hr : ∀ t ∈ right, t.filter ≠ .nil) : ∀ t ∈ exception left right, t.filter ≠ .nil := by
  unfold exception
  split
  · exact hl
  · rename_i hne
    intro t ht
    rcases List.mem_append.1 ht with ht | ht
    · obtain ⟨p, hp, rfl⟩ := List.mem_map.1 ht
      obtain ⟨h1, h2⟩ := List.mem_product.1 hp
      exact andFilters_ne_nil (hl _ h1) (hr _ h2)
    · obtain ⟨l, hmem, rfl⟩ := List.mem_map.1 ht
      rw [remainder_filter (by simpa using hne) l hr]
      exact andFilters_ne_nil (hl l hmem) (by simp)

theorem denotedAll_terms (es : List Expr) : (Expr.denotedAll addrText af es).terms =
    es.flatMap fun e => (e.denoted addrText af).terms := by
  induction es with
  | nil => rfl
  | cons e es ih =>
    rw [Expr.denotedAll, List.flatMap_cons, ← ih]
    rfl

theorem filter_denoted (e : Expr) : e.Filtered →
    ∀ t ∈ (e.denoted addrText af).terms.map WTerm.toTerm, t.filter ≠ .nil := by
  induction e using Expr.induct with
  | nil =>
    rw [Expr.denoted]
    exact fun _ t ht => absurd ht List.not_mem_nil
  | factor peers f =>
    rw [Expr.Filtered, Expr.denoted]
    simpa [Denoted.factor, factorTerm] using fun he _ _ => he
  | list es ih =>
    rw [Expr.Filtered, Expr.denoted]
    intro he t ht
    rw [Denoted.nest, denotedAll_terms, List.map_flatMap, List.mem_flatMap] at ht
    obtain ⟨e, hmem, ht⟩ := ht
    exact ih e hmem (he e hmem) t ht
  | refine_ l r afis mp ihl ihr =>
    rw [Expr.Filtered, Expr.denoted]
    intro he
    split_ifs
    · rw [Denoted.refine, refinedTerms_toTerm]
      exact filter_refinement (ihl he.1) (ihr he.2)
    · exact ihl he.1
  | except_ l r afis mp ihl ihr =>
    rw [Expr.Filtered, Expr.denoted]
    intro he
    split_ifs
    · rw [Denoted.except, excepted_toTerm]
      exact filter_exception (ihl he.1) (ihr he.2)
    · exact ihl he.1

/-! ## What the terms mean -/

variable {Route : Type} (I : Filter → Set Route)

variable (addrText) in
/-- The terms of L REFINE R: one for each pair whose peerings and vias intersect, in order, matching
what both match, with left's actions before right's. -/
def Refined (left right ts : List Term) : Prop :=
  List.Forall₂ (fun p t => t.peering = intersectPeerings addrText p.1.peering p.2.peering ∧
      some t.via = intersectVias addrText p.1.via p.2.via ∧
      t.actions = p.1.actions ++ p.2.actions ∧
      t.filter.routes I = p.1.filter.routes I ∩ p.2.filter.routes I)
    ((left ×ˢ right).filter fun p => meets addrText p.1 p.2) ts

/-- The terms of L EXCEPT R: right's peerings and actions for what both match, then left's for what
no right-hand term matches; together they match what left does. With no right-hand terms, left's. -/
structure Excepted (left right ts : List Term) : Prop where
  empty : right = [] → ts = left
  matched : matched I ts = matched I left
  terms : right ≠ [] → ∃ overs rest, ts = overs ++ rest ∧
    List.Forall₂ (fun p t => t.via = p.2.via ∧ t.peering = p.2.peering ∧
        t.actions = p.2.actions ∧ t.filter.routes I ⊆ Policy.matched I right ∧
        t.filter.routes I = p.1.filter.routes I ∩ p.2.filter.routes I) (left ×ˢ right) overs ∧
    List.Forall₂ (fun l t => t.via = l.via ∧ t.peering = l.peering ∧ t.actions = l.actions ∧
        Disjoint (t.filter.routes I) (Policy.matched I right) ∧
        t.filter.routes I = l.filter.routes I \ Policy.matched I right) left rest

theorem refinement_refined {left right : List Term} (hl : ∀ t ∈ left, t.filter ≠ .nil)
    (hr : ∀ t ∈ right, t.filter ≠ .nil) :
    Refined addrText I left right (refinement addrText left right) := by
  unfold Refined refinement
  rw [List.forall₂_map_right_iff, List.forall₂_same]
  intro p hp
  obtain ⟨hmem, hmeet⟩ := List.mem_filter.1 hp
  obtain ⟨h1, h2⟩ := List.mem_product.1 hmem
  obtain ⟨via, hvia⟩ := Option.isSome_iff_exists.1 (Bool.and_eq_true_iff.1 hmeet).2
  exact ⟨rfl, by simp [refined, hvia], rfl, routes_andFilters I (hl _ h1) (hr _ h2)⟩

theorem anyRoutes_filters (ts : List Term) : anyRoutes I (ts.map (·.filter)) = matched I ts := by
  ext x
  simp [mem_anyRoutes, matched]

theorem exception_excepted {left right : List Term} (hl : ∀ t ∈ left, t.filter ≠ .nil)
    (hr : ∀ t ∈ right, t.filter ≠ .nil) :
    Excepted I left right (exception left right) := by
  by_cases hne : right = []
  · subst hne
    exact ⟨fun _ => rfl, rfl, fun h => absurd rfl h⟩
  have hexc : exception left right = (left ×ˢ right).map (fun p => overridden p.1 p.2) ++
      left.map (remainder ((right.map (·.filter)).filter fun f => !f.isNil)) := by
    unfold exception
    rw [if_neg (by simpa using hne)]
  have hover : ∀ l ∈ left, ∀ r ∈ right, (overridden l r).filter.routes I =
      l.filter.routes I ∩ r.filter.routes I := fun l h1 r h2 =>
    routes_andFilters I (hl l h1) (hr r h2)
  have hrest : ∀ l ∈ left,
      (remainder ((right.map (·.filter)).filter fun f => !f.isNil) l).filter.routes I =
        l.filter.routes I \ matched I right := by
    intro l h1
    rw [remainder_filter hne l hr, routes_andFilters I (hl l h1) (by simp), Filter.routes,
      routes_orFilters I (by simpa using hne), anyRoutes_filters]
    rfl
  refine ⟨fun h => absurd h hne, ?_, fun _ => ⟨_, _, hexc, ?_, ?_⟩⟩
  · -- a left-hand route is a right-hand one's, or left over
    ext x
    rw [hexc]
    constructor
    · intro ⟨t, ht, hx⟩
      rcases List.mem_append.1 ht with ht | ht
      · obtain ⟨p, hp, rfl⟩ := List.mem_map.1 ht
        obtain ⟨h1, h2⟩ := List.mem_product.1 hp
        rw [hover _ h1 _ h2] at hx
        exact ⟨p.1, h1, hx.1⟩
      · obtain ⟨l, h1, rfl⟩ := List.mem_map.1 ht
        rw [hrest l h1] at hx
        exact ⟨l, h1, hx.1⟩
    · intro ⟨l, h1, hx⟩
      by_cases hm : x ∈ matched I right
      · obtain ⟨r, h2, hr'⟩ := hm
        refine ⟨overridden l r, List.mem_append_left _ (List.mem_map.2
          ⟨(l, r), List.mem_product.2 ⟨h1, h2⟩, rfl⟩), ?_⟩
        rw [hover l h1 r h2]
        exact ⟨hx, hr'⟩
      · refine ⟨_, List.mem_append_right _ (List.mem_map.2 ⟨l, h1, rfl⟩), ?_⟩
        rw [hrest l h1]
        exact ⟨hx, hm⟩
  · rw [List.forall₂_map_right_iff, List.forall₂_same]
    intro p hp
    obtain ⟨h1, h2⟩ := List.mem_product.1 hp
    have h := hover _ h1 _ h2
    refine ⟨rfl, rfl, rfl, ?_, h⟩
    rw [h]
    exact fun x hx => ⟨p.2, h2, hx.2⟩
  · rw [List.forall₂_map_right_iff, List.forall₂_same]
    intro l h1
    have h := hrest l h1
    refine ⟨rfl, rfl, rfl, ?_, h⟩
    rw [h]
    exact disjoint_sdiff_self_left

variable (addrText af) in
/-- What the terms of an expression are, given those of its parts. -/
def Expr.Meaning (T : Expr → List Term → Prop) : Expr → List Term → Prop
  | .nil, ts => ts = []
  | .factor peers f, ts => ts = peers.map fun p => ⟨p.via, p.peering, p.actions, f⟩
  | .list es, ts => ∃ tss, List.Forall₂ T es tss ∧ ts = tss.flatten
  | .refine l r afis _, ts =>
    if scopeCovers af afis then
      ∃ left right, T l left ∧ T r right ∧ Refined addrText I left right ts
    else T l ts
  | .except l r afis _, ts =>
    if scopeCovers af afis then
      ∃ left right, T l left ∧ T r right ∧ Excepted I left right ts
    else T l ts

theorem flatten_of_paid {e : Expr} {s d : Nat} (h : (e.denoted addrText af).Paid s d) :
    flatten addrText af e = .ok ((e.denoted addrText af).terms.map WTerm.toTerm) :=
  flatten_eq_ok_iff.2 ⟨h.mono (Nat.zero_le _) (Nat.zero_le _), rfl⟩

theorem flatten_of_paid_all {es : List Expr} {s d : Nat}
    (h : (Expr.denotedAll addrText af es).Paid s d) :
    ∀ e ∈ es, flatten addrText af e = .ok ((e.denoted addrText af).terms.map WTerm.toTerm) := by
  induction es generalizing s with
  | nil => exact fun e he => absurd he List.not_mem_nil
  | cons e es ih =>
    rw [Expr.denotedAll, Denoted.paid_append] at h
    exact List.forall_mem_cons.2 ⟨flatten_of_paid h.1, ih h.2⟩

/-- **EXCEPT and REFINE are flattened to their RFC 2622 meaning.** -/
theorem flatten_meaning (addrText : Addr → Text) (af : AddrFamily) (e : Expr) (he : e.Filtered)
    (ts : List Term) (h : flatten addrText af e = .ok ts) :
    e.Meaning addrText af I (fun e ts => flatten addrText af e = .ok ts) ts := by
  obtain ⟨hp, rfl⟩ := flatten_eq_ok_iff.1 h
  cases e with
  | nil =>
    rw [Expr.Meaning, Expr.denoted]
    rfl
  | factor peers f =>
    rw [Expr.Meaning, Expr.denoted, Denoted.factor, List.map_map]
    rfl
  | list es =>
    rw [Expr.denoted] at hp ⊢
    rw [Expr.Meaning, Denoted.nest, denotedAll_terms, List.map_flatMap, List.flatMap_def]
    refine ⟨_, List.forall₂_map_right_iff.2 (List.forall₂_same.2 ?_), rfl⟩
    exact flatten_of_paid_all (Denoted.paid_nest.1 hp)
  | refine l r afis mp =>
    rw [Expr.Filtered] at he
    rw [Expr.denoted] at hp ⊢
    rw [Expr.Meaning]
    split_ifs at hp ⊢ with hc
    · obtain ⟨hl, hr, -⟩ := Denoted.paid_refine.1 hp
      refine ⟨_, _, flatten_of_paid hl, flatten_of_paid hr, ?_⟩
      rw [Denoted.refine, refinedTerms_toTerm]
      exact refinement_refined I (filter_denoted l he.1) (filter_denoted r he.2)
    · exact flatten_of_paid (Denoted.paid_nest.1 hp)
  | except l r afis mp =>
    rw [Expr.Filtered] at he
    rw [Expr.denoted] at hp ⊢
    rw [Expr.Meaning]
    split_ifs at hp ⊢ with hc
    · obtain ⟨hl, hr, -⟩ := Denoted.paid_except.1 hp
      refine ⟨_, _, flatten_of_paid hl, flatten_of_paid hr, ?_⟩
      rw [Denoted.except, excepted_toTerm]
      exact exception_excepted I (filter_denoted l he.1) (filter_denoted r he.2)
    · exact flatten_of_paid (Denoted.paid_nest.1 hp)

/-- "from AS1 accept ANY EXCEPT from AS2 accept PeerAS". -/
theorem flatten_meaning_anyExceptPeer :
    let pa : ASN → PeerAction := fun a => ⟨none, some (.as_ (.num a) none none), []⟩
    let e : Expr := .except (.factor [pa 1] .any) (.factor [pa 2] (.peerAS .none)) [] false
    let ts : List Term := [⟨none, some (.as_ (.num 2) none none), [], .and [.any, .peerAS .none]⟩,
      ⟨none, some (.as_ (.num 1) none none), [], .and [.any, .not (.peerAS .none)]⟩]
    flatten (fun _ => []) ipv4Unicast e = .ok ts ∧
      e.Meaning (fun _ => []) ipv4Unicast (fun _ => (Set.univ : Set Unit))
        (fun e ts => flatten (fun _ => []) ipv4Unicast e = .ok ts) ts := by
  intro pa e ts
  have h : flatten (fun _ => []) ipv4Unicast e = .ok ts := rfl
  exact ⟨h, flatten_meaning _ _ _ e (by simp [e, Expr.Filtered]) ts h⟩

end

end Rpsl.Policy
