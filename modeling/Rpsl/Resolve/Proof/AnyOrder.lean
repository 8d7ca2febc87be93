import Rpsl.Resolve.Proof.Order

/-!
# Expansion in any order

Over two graphs that are the same up to order, a state of the evaluation acts in the same ways, in
some order (`mem_acts_same`), and `Lib.Walk` says that the order does not matter. So what
`ExpandAS`, `ExpandPrefixRanges` and `ExpandPrefixes` return depends neither on the order in which
sets list their members nor on the order in which fetches complete.
-/

namespace Rpsl.Resolve

open Text Rpsl.Policy Object Lib

namespace Expander

variable {E : Type} {e : Expander E} {src' : Source E} {g g' : SetGraph}

/-! ## Routes -/

theorem mem_ordered_iff (hg : e.Loaded g) (nd : SetNode) :
    nd ∈ g.ordered ↔ ∃ ref, g.node ref = some nd := by
  constructor
  · intro h
    unfold SetGraph.ordered at h
    simp only [List.mem_append, Option.mem_toList, List.mem_map, List.mem_insertionSort,
      List.mem_filter] at h
    rcases h with h | ⟨p, ⟨hp, -⟩, rfl⟩
    · exact ⟨g.top, h⟩
    · exact ⟨p.1, hg.node_of_mem hp⟩
  · intro hyp
    obtain ⟨ref, h⟩ := hyp
    exact mem_ordered h

theorem mem_neededASes (hg : e.Loaded g) (a : ASN) :
    a ∈ e.neededASes g ↔ e.excludesAS a = false ∧ ∃ ref nd, g.node ref = some nd ∧
      ((∃ op, .as_ a op ∈ members nd.set) ∨ ∃ n : AutNum, .autNum n ∈ nd.claims ∧ n.asn = a) := by
  constructor
  · intro h
    refine ⟨e.not_excluded_of_needed h, ?_⟩
    unfold neededASes at h
    simp only [List.mem_eraseDups, List.mem_flatMap, List.mem_append, List.mem_filterMap] at h
    obtain ⟨nd, hnd, hm⟩ := h
    obtain ⟨ref, href⟩ := (mem_ordered_iff hg nd).1 hnd
    refine ⟨ref, nd, href, ?_⟩
    rcases hm with ⟨m, hm, hma⟩ | ⟨o, ho, hoa⟩
    · cases m with
      | as_ b op =>
        simp only [Option.ite_none_left_eq_some, Option.some.injEq] at hma
        exact .inl ⟨op, hma.2 ▸ hm⟩
      | _ => cases hma
    · cases o with
      | autNum n =>
        simp only [Option.ite_none_left_eq_some, Option.some.injEq] at hoa
        exact .inr ⟨n, ho, hoa.2⟩
      | _ => cases hoa
  · intro hyp
    obtain ⟨hex, ref, nd, hnd, hm⟩ := hyp
    rcases hm with ⟨op, hm⟩ | ⟨n, hn, rfl⟩
    · exact e.needed_of_member hnd hm hex
    · exact e.needed_of_claim hnd hn hex

theorem needed_of_sameGraph (hs : SameGraph g g') (hg : e.Loaded g)
    (hg' : { e with src := src' }.Loaded g') {a : ASN} (h : a ∈ e.neededASes g) :
    a ∈ { e with src := src' }.neededASes g' := by
  obtain ⟨hex, ref, nd, hnd, hm⟩ := (mem_neededASes hg a).1 h
  obtain ⟨nd', hnd', hperm, hclaims⟩ := hs.node_some hnd
  refine (mem_neededASes hg' a).2 ⟨hex, ref, nd', hnd', ?_⟩
  rcases hm with ⟨op, hm⟩ | hn
  · exact .inl ⟨op, (hperm.members _).1 hm⟩
  · rw [hclaims]
    exact .inr hn

theorem mem_needed_same (hs : SameGraph g g') (hg : e.Loaded g)
    (hg' : { e with src := src' }.Loaded g') (a : ASN) :
    a ∈ e.neededASes g ↔ a ∈ { e with src := src' }.neededASes g' :=
  ⟨needed_of_sameGraph hs hg hg', needed_of_sameGraph hs.symm hg' hg⟩

variable (e) in
structure RoutesFetched (g g₁ : SetGraph) : Prop where
  graph : g₁ = { g with routes := g₁.routes }
  needed : ∀ a ∈ e.neededASes g, e.src.originatedRoutes a e.afi = .ok (g₁.routesOf a)
  other : ∀ a, a ∉ e.neededASes g → g₁.routesOf a = []

theorem fetchRoutes_fetched (g : SetGraph) :
    Ends (e.fetchRoutes g) (e.RoutesFetched g)
      fun _ => ∃ a ∈ e.neededASes g, ∃ err, e.src.originatedRoutes a e.afi = .error err := by
  unfold fetchRoutes
  refine Ends.bind (Q := List.Forall₂ (fun a p => p.1 = a ∧
    e.src.originatedRoutes a e.afi = .ok p.2) (e.neededASes g)) (.mapM fun a ha => ?_)
    fun routes hr => ?_
  · cases hps : e.src.originatedRoutes a e.afi with
    | error err => exact ⟨a, ha, err, hps⟩
    | ok ps => exact ⟨rfl, rfl⟩
  obtain ⟨hto, hfrom⟩ := forall₂_mem hr
  refine ⟨rfl, fun a ha => ?_, fun a ha => ?_⟩
  · change _ = Except.ok (((routes.find? (·.1 = a)).map Prod.snd).getD [])
    cases hf : routes.find? (·.1 = a) with
    | none =>
      obtain ⟨r, hr, hra, -⟩ := hto a ha
      have := List.find?_eq_none.1 hf r hr
      simp [hra] at this
    | some r =>
      obtain ⟨b, -, hrb, hps⟩ := hfrom r (List.mem_of_find?_eq_some hf)
      have hra : r.1 = a := by simpa using List.find?_some hf
      rw [← hra, hrb]
      exact hps
  · change ((routes.find? (·.1 = a)).map Prod.snd).getD [] = []
    cases hf : routes.find? (·.1 = a) with
    | none => rfl
    | some r =>
      obtain ⟨b, hb, hrb, -⟩ := hfrom r (List.mem_of_find?_eq_some hf)
      have hra : r.1 = a := by simpa using List.find?_some hf
      rw [hra] at hrb
      exact absurd (hrb ▸ hb) ha

/-- **The same routes are fetched.** -/
theorem fetchRoutes_same (h : e.src.Alike src') (hs : SameGraph g g') (hg : e.Loaded g)
    (hg' : { e with src := src' }.Loaded g') {g₁ : SetGraph} (hrun : e.fetchRoutes g = .ok g₁) :
    ∃ g₁', { e with src := src' }.fetchRoutes g' = .ok g₁' ∧ SameGraph g₁ g₁' ∧
      ∀ a, g₁'.routesOf a = g₁.routesOf a := by
  have hf := (fetchRoutes_fetched g).of_ok hrun
  have hends := fetchRoutes_fetched (e := { e with src := src' }) g'
  cases hrun' : { e with src := src' }.fetchRoutes g' with
  | error err =>
    obtain ⟨a, ha, err, herr⟩ := hends.of_error hrun'
    have hok := hf.needed a ((mem_needed_same hs hg hg' a).2 ha)
    change src'.originatedRoutes a e.afi = .error err at herr
    rw [h.originatedRoutes, hok] at herr
    cases herr
  | ok g₁' =>
    have hf' := hends.of_ok hrun'
    refine ⟨g₁', rfl, ?_, fun a => ?_⟩
    · rw [hf.graph, hf'.graph]
      exact ⟨hs.top, hs.missing, hs.any, hs.any', hs.node⟩
    · by_cases ha : a ∈ e.neededASes g
      · have hok := hf'.needed a ((mem_needed_same hs hg hg' a).1 ha)
        change src'.originatedRoutes a e.afi = _ at hok
        rw [h.originatedRoutes, hf.needed a ha] at hok
        injection hok with hok
        exact hok.symm
      · rw [hf.other a ha, hf'.other a fun ha' => ha ((mem_needed_same hs hg hg' a).2 ha')]

/-! ## The walk -/

variable (e g) in
def kept (ops : OpStack) (r : PrefixRange) : Option PrefixRange :=
  (ops.apply r).filter fun r => r.pfx.all e.afiAllows

variable (e) in
def emits (ops : OpStack) (routes : List (Option Prefix)) : List (PrefixRange ⊕ EvalState) :=
  (routes.filterMap exactRange).flatMap fun r => ((e.kept ops r).map Sum.inl).toList

variable (e g) in
def memberActs (x : EvalState) : SetMember → List (PrefixRange ⊕ EvalState)
  | .range r => ((e.kept x.ops r).map Sum.inl).toList
  | .as_ a op => e.emits (x.ops.push op) (g.routesOf a)
  | .set name source op =>
    if !nestable x.set.name.cls name.cls || e.excludesSet name then []
    else
      match SetRef.new source name with
      | none => []
      | some child => if (g.node child).isNone then [] else [.inr ⟨child, x.ops.push op⟩]
  | .invalid => []

variable (e g) in
def acts (x : EvalState) : List (PrefixRange ⊕ EvalState) :=
  match g.node x.set with
  | none => []
  | some nd => (members nd.set).flatMap (e.memberActs g x) ++
      nd.claims.flatMap fun o => e.emits x.ops (claimRoutes g o)

def walkOf (v : Eval) : Walk EvalState PrefixRange := ⟨v.done, v.out.ranges, v.visits⟩

theorem foldlM_acts {ε α σ τ β : Type} {f : σ → α → Except ε σ} {view : σ → τ}
    {step : τ → β → Option τ} {φ : α → List β}
    (hf : ∀ s a, (f s a).toOption.map view = (φ a).foldlM step (view s)) (l : List α) (s : σ) :
    (l.foldlM f s).toOption.map view = (l.flatMap φ).foldlM step (view s) := by
  induction l generalizing s with
  | nil => rfl
  | cons a l ih =>
    rw [List.foldlM_cons, List.flatMap_cons, List.foldlM_append, ← hf s a]
    cases f s a with
    | error err => rfl
    | ok t => exact ih t

variable {m : Nat} {enter : EvalState → Walk EvalState PrefixRange →
  Option (Walk EvalState PrefixRange)}

theorem addRange_acts (ops : OpStack) (v : Eval) (r : PrefixRange) :
    (e.addRange g m ops v r).toOption.map walkOf =
      (((e.kept ops r).map Sum.inl).toList).foldlM (Walk.act m enter) (walkOf v) := by
  unfold addRange kept
  cases ops.apply r with
  | none => rfl
  | some r =>
    dsimp only
    cases hafi : r.pfx.all e.afiAllows with
    | false =>
      rw [if_neg (by simp), Option.filter_some_neg (by simp [hafi])]
      rfl
    | true =>
      rw [if_pos rfl, show (some r).filter (fun r => r.pfx.all e.afiAllows) = some r from
        Option.filter_some_pos hafi]
      change _ = (if m < (v.out.ranges.insert r).length then none else
        some (⟨v.done, v.out.ranges.insert r, v.visits⟩ : Walk EvalState PrefixRange)) >>= pure
      by_cases hm : m < (v.out.ranges.insert r).length
      · rw [if_pos hm, if_pos (show m < (v.out.add r).len from hm)]
        rfl
      · rw [if_neg hm, if_neg (show ¬ m < (v.out.add r).len from hm)]
        rfl

theorem addRoutes_acts (ops : OpStack) (v : Eval) (routes : List (Option Prefix)) :
    (e.addRoutes g m ops v routes).toOption.map walkOf =
      (e.emits ops routes).foldlM (Walk.act m enter) (walkOf v) :=
  foldlM_acts (addRange_acts ops) _ v

theorem walkMember_acts {walkChild : EvalState → Eval → Except (ExpandError E) Eval}
    (hchild : ∀ y v, (walkChild y v).toOption.map walkOf = enter y (walkOf v)) (x : EvalState)
    (v : Eval) (mem : SetMember) :
    (e.walkMember g m walkChild x v mem).toOption.map walkOf =
      (e.memberActs g x mem).foldlM (Walk.act m enter) (walkOf v) := by
  cases mem with
  | range r => exact addRange_acts x.ops v r
  | as_ a op => exact addRoutes_acts (x.ops.push op) v (g.routesOf a)
  | invalid => rfl
  | set name source op =>
    unfold walkMember memberActs
    dsimp only
    split_ifs with hskip
    · rfl
    · cases SetRef.new source name with
      | none => rfl
      | some child =>
        dsimp only
        cases hnode : (g.node child).isNone with
        | true => rfl
        | false =>
          simp only [Bool.false_or, Bool.false_eq_true, if_false, List.contains_iff_mem]
          change _ = (if _ ∈ v.done then some (walkOf v) else enter _ (walkOf v)) >>= pure
          rw [bind_pure]
          split_ifs with hdone
          · rfl
          · exact hchild ⟨child, x.ops.push op⟩ v

/-- **The evaluation is a walk.** -/
theorem walk_acts (fuel : Nat) (x : EvalState) (v : Eval) :
    (e.walk g m fuel x v).toOption.map walkOf =
      Walk.walk m (e.acts g) e.visitLimit fuel x (walkOf v) := by
  induction fuel generalizing x v with
  | zero => rfl
  | succ fuel ih =>
    unfold walk Walk.walk
    dsimp only
    change _ = if e.visitLimit < v.visits + 1 then none else _
    split_ifs with hlimit
    · rfl
    · unfold acts
      cases g.node x.set with
      | none => rfl
      | some nd =>
        dsimp only
        rw [List.foldlM_append]
        have hmem := foldlM_acts (walkMember_acts (e := e) (g := g) (m := m) ih x)
          (members nd.set) { v with done := x :: v.done, visits := v.visits + 1 }
        refine Eq.trans ?_ (congrArg (· >>= _) hmem)
        cases (members nd.set).foldlM (e.walkMember g m (e.walk g m fuel) x)
            { v with done := x :: v.done, visits := v.visits + 1 } with
        | error err => rfl
        | ok w =>
          exact foldlM_acts (fun w o => addRoutes_acts x.ops w (claimRoutes g o)) nd.claims w

/-- **A state acts in the same ways.** -/
theorem acts_of_sameGraph (hs : SameGraph g g') (hr : ∀ a, g'.routesOf a = g.routesOf a)
    (x : EvalState) {a : PrefixRange ⊕ EvalState} (ha : a ∈ e.acts g x) :
    a ∈ { e with src := src' }.acts g' x := by
  unfold acts at ha ⊢
  cases hnd : g.node x.set with
  | none =>
    rw [hnd] at ha
    cases ha
  | some nd =>
    obtain ⟨nd', hnd', hperm, hclaims⟩ := hs.node_some hnd
    have hmember : { e with src := src' }.memberActs g' x = e.memberActs g x := by
      funext mem
      unfold memberActs
      cases mem with
      | set name source op =>
        cases hm : SetRef.new source name with
        | none => simp [hm, excludesSet]
        | some child =>
          simp only [hm, hs.isNone]
          rfl
      | as_ b op =>
        dsimp only
        rw [hr b]
        rfl
      | _ => rfl
    have hclaim : claimRoutes g' = claimRoutes g := by
      funext o
      unfold claimRoutes
      cases o <;> simp [hr]
    rw [hnd] at ha
    rw [hnd', hmember, hclaim]
    dsimp only at ha ⊢
    rw [hclaims]
    refine List.mem_append.2 ((List.mem_append.1 ha).imp_left fun ha => ?_)
    obtain ⟨mem, hmem, ha⟩ := List.mem_flatMap.1 ha
    exact List.mem_flatMap.2 ⟨mem, (hperm.members mem).1 hmem, ha⟩

theorem mem_acts_same (hs : SameGraph g g') (hr : ∀ a, g'.routesOf a = g.routesOf a)
    (x : EvalState) (a : PrefixRange ⊕ EvalState) :
    a ∈ e.acts g x ↔ a ∈ { e with src := src' }.acts g' x :=
  ⟨acts_of_sameGraph hs hr x, acts_of_sameGraph hs.symm (fun b => (hr b).symm) x⟩

/-- **Two evaluations of the same graph.** -/
theorem walk_same (hs : SameGraph g g') (hr : ∀ a, g'.routesOf a = g.routesOf a) {x : EvalState}
    {v : Eval} (h : e.walk g m (e.visitLimit + 1) x ⟨.empty, [], 0⟩ = .ok v) :
    ∃ v', { e with src := src' }.walk g' m (e.visitLimit + 1) x ⟨.empty, [], 0⟩ = .ok v' ∧
      ∀ r, r ∈ v.out.ranges ↔ r ∈ v'.out.ranges := by
  have hrun := walk_acts (e := e) (g := g) (m := m) (e.visitLimit + 1) x ⟨.empty, [], 0⟩
  rw [h] at hrun
  obtain ⟨w', hw', -, hout⟩ := Walk.walk_congr (fun x a => mem_acts_same hs hr x a) hrun.symm
  have hrun' := (walk_acts (e := { e with src := src' }) (g := g') (m := m) (e.visitLimit + 1) x
    ⟨.empty, [], 0⟩).trans hw'
  obtain ⟨v', hv', rfl⟩ := Option.map_eq_some_iff.1 hrun'
  cases hwalk : { e with src := src' }.walk g' m (e.visitLimit + 1) x ⟨.empty, [], 0⟩ with
  | error err =>
    rw [hwalk] at hv'
    cases hv'
  | ok u =>
    rw [hwalk] at hv'
    cases hv'
    exact ⟨v', rfl, hout⟩

end Expander

/-! ## The results -/

/-- The same ASes, and the same sets missing. -/
structure ASNSet.Same (s s' : ASNSet) : Prop where
  asns : ∀ a, a ∈ s.asns ↔ a ∈ s'.asns
  any : s'.any = s.any
  missing : s.missing.Perm s'.missing

/-- The same ranges, and the same sets missing. -/
structure RangeSet.Same (s s' : RangeSet) : Prop where
  ranges : ∀ r, r ∈ s.ranges ↔ r ∈ s'.ranges
  missing : s.missing.Perm s'.missing

/-- The same prefixes, and the same sets missing. -/
structure PrefixSet.Same (s s' : PrefixSet) : Prop where
  prefixes : ∀ p, p ∈ s.prefixes ↔ p ∈ s'.prefixes
  missing : s.missing.Perm s'.missing

theorem sameResult_of_ok {ε α : Type} {R : α → α → Prop} {x y : Except ε α}
    (hxy : ∀ a, x = .ok a → ∃ b, y = .ok b ∧ R a b) (hyx : ∀ b, y = .ok b → ∃ a, x = .ok a) :
    SameResult R x y := by
  cases x with
  | ok a =>
    obtain ⟨b, rfl, hab⟩ := hxy a rfl
    exact hab
  | error err =>
    cases y with
    | ok b =>
      obtain ⟨a, ha⟩ := hyx b rfl
      cases ha
    | error err' => trivial

namespace Expander

variable {E : Type} {e : Expander E} {src' : Source E} {o o' : Orders} {ref : SetRef}

theorem expandASIn_same (h : e.src.Alike src') (ho : o.Complete) (ho' : o'.Complete)
    {s : ASNSet} (hrun : e.expandASIn o ref = .ok s) :
    ∃ s', { e with src := src' }.expandASIn o' ref = .ok s' ∧ s.Same s' := by
  rw [e.expandASIn_eq ho] at hrun
  rw [expandASIn_eq _ ho']
  obtain ⟨p, hp, rfl⟩ := map_eq_ok.1 hrun
  unfold expandAS at hp ⊢
  split_ifs at hp ⊢ with hcls
  obtain ⟨g, hg, hrest⟩ := bind_eq_ok.1 hp
  obtain ⟨g', hg', hs, hload, hload'⟩ := discover_same h hg
  rw [hs.any] at hrest
  injection hrest with hrest
  rw [hg', ← hrest]
  refine ⟨⟨{ e with src := src' }.neededASes g', g'.missing, false⟩, ?_, ?_⟩
  · change ((if (!g'.any.isEmpty) = true then _ else _ : Except (ExpandError E) (ASNSet × Nat))).map
      Prod.fst = _
    rw [hs.any']
    rfl
  · exact ⟨mem_needed_same hs hload hload', rfl, hs.missing⟩

theorem expandRangesIn_same (h : e.src.Alike src') (ho : o.Complete) (ho' : o'.Complete)
    {m : Nat} {s : RangeSet} (hrun : e.expandRangesIn o ref m = .ok s) :
    ∃ s', { e with src := src' }.expandRangesIn o' ref m = .ok s' ∧ s.Same s' := by
  rw [e.expandRangesIn_eq ho] at hrun
  rw [expandRangesIn_eq _ ho']
  obtain ⟨p, hp, rfl⟩ := map_eq_ok.1 hrun
  unfold expandRanges at hp ⊢
  split_ifs at hp ⊢ with hcls
  obtain ⟨g, hg, hrest⟩ := bind_eq_ok.1 hp
  obtain ⟨g₁, hg₁, hrest⟩ := bind_eq_ok.1 hrest
  obtain ⟨v, hv, hrest⟩ := bind_eq_ok.1 hrest
  obtain ⟨g', hg', hs, hload, hload'⟩ := discover_same h hg
  obtain ⟨g₁', hg₁', hs₁, hroutes⟩ := fetchRoutes_same h hs hload hload' hg₁
  obtain ⟨v', hv', hout⟩ := walk_same hs₁ hroutes hv
  injection hrest with hrest
  refine ⟨{ v'.out with missing := g₁'.missing }, map_eq_ok.2 ⟨(_, g₁'.reached), ?_, rfl⟩, ?_⟩
  · exact bind_eq_ok.2 ⟨g', hg', bind_eq_ok.2 ⟨g₁', hg₁', bind_eq_ok.2 ⟨v', hv', rfl⟩⟩⟩
  · rw [← hrest]
    exact ⟨hout, hs₁.missing⟩

def prefixesOf (out : List (Option Prefix)) : Walk Unit (Option Prefix) := ⟨[()], out, 1⟩

theorem addPrefix_act {enter : Unit → Walk Unit (Option Prefix) →
    Option (Walk Unit (Option Prefix))} (out : List (Option Prefix)) (p : Option Prefix) :
    (e.addPrefix ref out p).toOption.map prefixesOf =
      [Sum.inl p].foldlM (Walk.act e.prefixLimit enter) (prefixesOf out) := by
  change _ = Walk.emit e.prefixLimit (prefixesOf out) p >>= pure
  rw [bind_pure]
  unfold addPrefix Walk.emit prefixesOf
  dsimp only
  -- the two sides compare prefixes by different instances
  have hins : @List.insert _ instBEqOfDecidableEq p out = out.insert p := by
    by_cases hp : p ∈ out <;> simp [List.insert, hp]
  rw [hins]
  split_ifs <;> rfl

def prefixActs (ps : List (Option Prefix)) (_ : Unit) : List (Option Prefix ⊕ Unit) :=
  ps.flatMap fun p => [Sum.inl p]

variable (e ref) in
theorem addPrefixes_acts (ps : List (Option Prefix)) :
    (ps.foldlM (e.addPrefix ref) []).toOption.map prefixesOf =
      Walk.walk e.prefixLimit (prefixActs ps) 1 2 () .start :=
  foldlM_acts addPrefix_act ps []

variable (src') in
theorem addPrefixes_same {ps ps' : List (Option Prefix)} (hps : ∀ p, p ∈ ps ↔ p ∈ ps')
    {out : List (Option Prefix)} (hrun : ps.foldlM (e.addPrefix ref) [] = .ok out) :
    ∃ out', ps'.foldlM ({ e with src := src' }.addPrefix ref) [] = .ok out' ∧
      ∀ p, p ∈ out ↔ p ∈ out' := by
  have hwalk := addPrefixes_acts e ref ps
  rw [hrun] at hwalk
  have hacts : ∀ x a, a ∈ prefixActs ps x ↔ a ∈ prefixActs ps' x := by
    intro x a
    simp [prefixActs, hps]
  obtain ⟨w', hw', -, hout⟩ := Walk.walk_congr hacts hwalk.symm
  have hwalk' := (addPrefixes_acts { e with src := src' } ref ps').trans hw'
  obtain ⟨out', hout', rfl⟩ := Option.map_eq_some_iff.1 hwalk'
  cases hadd : ps'.foldlM ({ e with src := src' }.addPrefix ref) [] with
  | error err =>
    rw [hadd] at hout'
    cases hout'
  | ok u =>
    rw [hadd] at hout'
    cases hout'
    exact ⟨out', rfl, hout⟩

theorem expandPrefixesIn_same (h : e.src.Alike src') (ho : o.Complete) (ho' : o'.Complete)
    {s : PrefixSet} (hrun : e.expandPrefixesIn o ref = .ok s) :
    ∃ s', { e with src := src' }.expandPrefixesIn o' ref = .ok s' ∧ s.Same s' := by
  unfold expandPrefixesIn at hrun ⊢
  obtain ⟨rs, hrs, hrest⟩ := bind_eq_ok.1 hrun
  obtain ⟨out, hout, hrest⟩ := bind_eq_ok.1 hrest
  obtain ⟨rs', hrs', hs⟩ := expandRangesIn_same h ho ho' hrs
  have hps : ∀ p, p ∈ (rs.list.flatMap fun r => (r.all (2 ^ 128)).getD []) ↔
      p ∈ rs'.list.flatMap fun r => (r.all (2 ^ 128)).getD [] := by
    intro p
    unfold RangeSet.list
    simp only [List.mem_flatMap, List.mem_insertionSort, hs.ranges]
  obtain ⟨out', hout', hsame⟩ := addPrefixes_same src' hps hout
  injection hrest with hrest
  refine ⟨⟨out', rs'.missing⟩, bind_eq_ok.2 ⟨rs', hrs', bind_eq_ok.2 ⟨out', hout', rfl⟩⟩, ?_⟩
  rw [← hrest]
  exact ⟨hsame, hs.missing⟩

theorem expand_alike (h : e.src.Alike src') (ho : o.Complete) (ho' : o'.Complete)
    (ref : SetRef) :
    SameResult ASNSet.Same (e.expandASIn o ref) ({ e with src := src' }.expandASIn o' ref) ∧
    SameResult RangeSet.Same (e.expandPrefixRangesIn o ref)
      ({ e with src := src' }.expandPrefixRangesIn o' ref) ∧
    SameResult PrefixSet.Same (e.expandPrefixesIn o ref)
      ({ e with src := src' }.expandPrefixesIn o' ref) := by
  have hback : ({ e with src := src' } : Expander E).src.Alike e.src := h.symm
  refine ⟨sameResult_of_ok (fun s hs => expandASIn_same h ho ho' hs) fun s hs => ?_,
    sameResult_of_ok (fun s hs => expandRangesIn_same h ho ho' hs) fun s hs => ?_,
    sameResult_of_ok (fun s hs => expandPrefixesIn_same h ho ho' hs) fun s hs => ?_⟩
  · obtain ⟨s', hs', -⟩ := expandASIn_same hback ho' ho hs
    exact ⟨s', hs'⟩
  · obtain ⟨s', hs', -⟩ := expandRangesIn_same hback ho' ho hs
    exact ⟨s', hs'⟩
  · obtain ⟨s', hs', -⟩ := expandPrefixesIn_same hback ho' ho hs
    exact ⟨s', hs'⟩

/-- **Expansion in any order.** Whatever the limits, neither the order in which sets list their
members nor the order in which the fetches of a batch complete changes whether `ExpandAS`,
`ExpandPrefixRanges` and `ExpandPrefixes` succeed, the set they return or the sets they miss. -/
theorem expand_anyOrder (h : e.src.Permuted src') (ho : o.Complete) (ho' : o'.Complete)
    (ref : SetRef) :
    SameResult ASNSet.Same (e.expandASIn o ref) ({ e with src := src' }.expandASIn o' ref) ∧
    SameResult RangeSet.Same (e.expandPrefixRangesIn o ref)
      ({ e with src := src' }.expandPrefixRangesIn o' ref) ∧
    SameResult PrefixSet.Same (e.expandPrefixesIn o ref)
      ({ e with src := src' }.expandPrefixesIn o' ref) :=
  expand_alike h.alike ho ho' ref

end Expander

/-! ## Two sets that list each other, the other way round -/

/-- RS-LOOP with its members the other way round. -/
def swappedSet : NamedSet :=
  { loopSet with body := .members (members loopSet).reverse [], fits := rfl }

def swappedSource : Source Empty :=
  { loopSource with
    getSet := fun ref => if ref = loopRef then .ok (some swappedSet)
      else if ref = backRef then .ok (some backSet) else .error .notFound }

theorem loopSource_permuted : loopSource.Permuted swappedSource where
  getSet ref := by
    simp only [loopSource, swappedSource]
    split_ifs with hloop hback
    · exact .inr ⟨_, _, rfl, rfl, .some ⟨rfl, rfl, rfl, rfl, .members (List.reverse_perm _).symm⟩⟩
    · exact .inr ⟨_, _, rfl, rfl, .some ⟨rfl, rfl, rfl, rfl, .members (.refl _)⟩⟩
    · exact .inl ⟨_, rfl, rfl⟩
  originatedRoutes _ _ := rfl
  membersByRef _ _ _ := rfl

/-- Each batch completes from its first call to its last. -/
def inTurn : Orders where
  level xs := List.range xs.length
  claims xs := List.range xs.length
  routes xs := List.range xs.length

/-- Each batch completes from its last call to its first. -/
def lastFirst : Orders where
  level xs := (List.range xs.length).reverse
  claims xs := (List.range xs.length).reverse
  routes xs := (List.range xs.length).reverse

theorem inTurn_complete : inTurn.Complete :=
  ⟨fun _ => .refl _, fun _ => .refl _, fun _ => .refl _⟩

theorem lastFirst_complete : lastFirst.Complete :=
  ⟨fun _ => List.reverse_perm _, fun _ => List.reverse_perm _, fun _ => List.reverse_perm _⟩

/-- An Expander of the Source, with the default limits. -/
def loopExpander : Expander Empty := ⟨loopSource, 0, 0, 0, 0, .any, ⟨[], []⟩, 0⟩

theorem loop_anyOrder :
    (loopExpander.expandPrefixRangesIn inTurn loopRef).toOption.isSome = true ∧
    SameResult ASNSet.Same (loopExpander.expandASIn inTurn loopRef)
      ({ loopExpander with src := swappedSource }.expandASIn lastFirst loopRef) ∧
    SameResult RangeSet.Same (loopExpander.expandPrefixRangesIn inTurn loopRef)
      ({ loopExpander with src := swappedSource }.expandPrefixRangesIn lastFirst loopRef) ∧
    SameResult PrefixSet.Same (loopExpander.expandPrefixesIn inTurn loopRef)
      ({ loopExpander with src := swappedSource }.expandPrefixesIn lastFirst loopRef) :=
  ⟨by decide +kernel, Expander.expand_anyOrder (e := loopExpander) loopSource_permuted
    inTurn_complete lastFirst_complete loopRef⟩

end Rpsl.Resolve
