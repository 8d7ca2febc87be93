import Rpsl.Irrdq.Registry

/-!
# What a registry holds

Routes are sorted by a linear order, so neither the order in which the corpus yields them nor the
sort shows in a registry.
-/

namespace Rpsl.Irrdq

theorem sorted_unique {l l' : List Route} (h : l.Pairwise fun a b => routeCmp a b ≠ .gt)
    (h' : l'.Pairwise fun a b => routeCmp a b ≠ .gt) (hperm : l.Perm l') : l = l' :=
  hperm.eq_of_pairwise
    (fun _ _ _ _ hab hba =>
      routeKey_injective (le_antisymm (routeCmp_ne_gt.1 hab) (routeCmp_ne_gt.1 hba))) h h'

theorem sortRoutes_perm (name : Text) (crs : List CorpusRoute) :
    (sortRoutes name crs).Perm ((crs.filter (·.source = name)).map CorpusRoute.route) :=
  List.mergeSort_perm _ _

theorem sortRoutes_eq_of_perm {name : Text} {crs crs' : List CorpusRoute} (h : crs.Perm crs') :
    sortRoutes name crs = sortRoutes name crs' :=
  sorted_unique (sortRoutes_sorted name crs) (sortRoutes_sorted name crs')
    ((sortRoutes_perm name crs).trans (((h.filter _).map _).trans (sortRoutes_perm name crs').symm))

theorem newRegistry_eq_ok_iff {σ : Type} {name : Text} {c : Corpus σ} {r : Registry σ} :
    newRegistry name (some c) = .ok r ↔
      parseSourceName name = some r.name ∧ (c.keepPolicy = true ∨ c.indexPeers = true) ∧
        r.src = c.sourceOf r.name ∧ r.routes = sortRoutes r.name c.routes ∧
        r.byPrefix = indexRoutes r.routes := by
  unfold newRegistry
  cases hname : parseSourceName name with
  | none => simp
  | some n =>
    dsimp only
    split_ifs with hpol
    · simp at hpol
      simp [hpol]
    · obtain ⟨rname, rsrc, rroutes, rby, rsorted, rindexed⟩ := r
      simp only [Except.ok.injEq, Registry.mk.injEq, Option.some.injEq]
      have : c.keepPolicy = true ∨ c.indexPeers = true := by
        cases hk : c.keepPolicy <;> cases hi : c.indexPeers <;> simp_all
      constructor
      · rintro ⟨rfl, rfl, rfl, rfl⟩
        exact ⟨rfl, this, rfl, rfl, rfl⟩
      · rintro ⟨rfl, -, rfl, rfl, rfl⟩
        exact ⟨rfl, rfl, rfl, rfl⟩

theorem Registry.mem_places {σ : Type} (r : Registry σ) {q : Prefix} {i : Nat} :
    i ∈ r.places q ↔ ∃ rt, r.routes[i]? = some rt ∧ rt.pfx = q := by
  rw [Registry.places, Registry.indexed, placesOf, List.mem_map]
  simp only [List.mem_filter, List.mem_zipIdx_iff_getElem?, decide_eq_true_eq, Prod.exists]
  exact ⟨fun ⟨rt, _, ⟨hi, hq⟩, h⟩ => ⟨rt, h ▸ hi, hq⟩, fun ⟨rt, hi, hq⟩ => ⟨rt, i, ⟨hi, hq⟩, rfl⟩⟩

/-- **What `NewRegistry` builds.** It builds a registry of every corpus that keeps policy, under any
source name, in capitals. The routes of its source are all there, once for each time the corpus
yields them, and any order of them that is sorted is theirs: the sort, which need not be stable,
does not show. `byPrefix` finds each under its masked prefix, and nothing else. Nor does the order
show in which the corpus yields them. -/
theorem newRegistry_exact {σ : Type} (name : Text) (c : Corpus σ) :
    ((∃ r, newRegistry name (some c) = .ok r) ↔
      (parseSourceName name).isSome = true ∧ (c.keepPolicy = true ∨ c.indexPeers = true)) ∧
    ∀ r, newRegistry name (some c) = .ok r →
      parseSourceName name = some r.name ∧
      (∀ l : List Route, l = r.routes ↔
        l.Perm ((c.routes.filter (·.source = r.name)).map CorpusRoute.route) ∧
        l.Pairwise fun a b => routeCmp a b ≠ .gt) ∧
      (∀ q i, i ∈ r.places q ↔ ∃ rt, r.routes[i]? = some rt ∧ rt.pfx = q) ∧
      ∀ rs, c.routes.Perm rs → newRegistry name (some { c with routes := rs }) = .ok r := by
  refine ⟨⟨fun ⟨r, h⟩ => ?_, fun ⟨hname, hpol⟩ => ?_⟩, fun r h => ?_⟩
  · obtain ⟨hname, hpol, -⟩ := newRegistry_eq_ok_iff.1 h
    exact ⟨hname ▸ rfl, hpol⟩
  · obtain ⟨n, hn⟩ := Option.isSome_iff_exists.1 hname
    exact ⟨⟨n, c.sourceOf n, _, _, sortRoutes_sorted n c.routes, indexRoutes_indexed _⟩,
      newRegistry_eq_ok_iff.2 ⟨hn, hpol, rfl, rfl, rfl⟩⟩
  · obtain ⟨hname, hpol, hsrc, hroutes, hby⟩ := newRegistry_eq_ok_iff.1 h
    have hperm := hroutes ▸ sortRoutes_perm r.name c.routes
    refine ⟨hname, fun l => ⟨?_, fun ⟨hl, hs⟩ => ?_⟩, fun _ _ => r.mem_places, fun rs hrs => ?_⟩
    · rintro rfl
      exact ⟨hperm, r.sorted⟩
    · exact sorted_unique hs r.sorted (hl.trans hperm.symm)
    · exact newRegistry_eq_ok_iff.2
        ⟨hname, hpol, hsrc, hroutes.trans (sortRoutes_eq_of_perm hrs), hby⟩

end Rpsl.Irrdq
