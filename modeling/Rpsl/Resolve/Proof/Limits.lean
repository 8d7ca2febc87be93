import Rpsl.Resolve.Proof.Expand

/-!
# Expansion of a finite registry stops only at a limit

Over a registry that answers every query there are finitely many references, (set, operator stack)
states and ranges to meet, each counted once. So whatever the limits are, an expansion fails only
where it passes one (`TooLarge`), with a count that the registry bounds; with limits above that
bound it returns.
-/

namespace Rpsl.Resolve

open Text Rpsl.Policy Object Lib

/-- A Source that answers every query from finitely many sets, none of which lists AS-ANY or
RS-ANY. -/
structure Source.Registry {E : Type} (src : Source E) : Prop where
  getSet_error : ∀ {ref err}, src.getSet ref = .error err → err = .notFound
  getSet_named : ∀ {ref s}, src.getSet ref = .ok (some s) → s.name = ref.name ∧
    (ref.isScoped = true → equalFoldASCII (trimSpace s.source) ref.source = true)
  finite : {ref | (src.found ref).isSome = true}.Finite
  membersByRef_ok : ∀ {ref s}, src.found ref = some s → ∃ objs, src.membersByRef s = .ok objs
  routes_ok : ∀ a afi, ∃ ps, src.originatedRoutes a afi = .ok ps
  noAny : ∀ {ref s}, src.found ref = some s → ∀ {name source o},
    .set name source o ∈ members s → name.isAny = false

/-! ## What a finite registry holds -/

namespace Source

variable {E : Type} (src : Source E)

variable {src} in
theorem getSet_of_found {ref : SetRef} {s : NamedSet} (h : src.found ref = some s) :
    src.getSet ref = .ok (some s) := by
  unfold found Expander.checkSet at h
  grind [Except.toOption]

theorem originated_finite (afi : AFI) (a : ASN) : (src.originated afi a).Finite := by
  unfold originated
  cases src.originatedRoutes a afi with
  | error err => simp
  | ok ps =>
    refine ((ps.filterMap fun p => p.map fun p =>
      (⟨p.masked, p.masked_masked⟩ : Net)).finite_toSet).subset fun q ⟨ps', h, p, hp, hq⟩ => ?_
    cases h
    exact List.mem_filterMap.2 ⟨some p, hp, congrArg some (Subtype.ext hq.symm)⟩

theorem claimed_finite (afi : AFI) (c : Object) : (src.claimed afi c).Finite := by
  have hroute : ∀ r : Route, {q : Net | ∃ p, r.pfx = some p ∧ q.1 = p.masked}.Finite := by
    intro r
    refine Set.Subsingleton.finite fun q ⟨p, hp, hq⟩ q' ⟨p', hp', hq'⟩ => ?_
    rw [hp] at hp'; cases hp'
    exact Subtype.ext (hq.trans hq'.symm)
  cases c with
  | route r => exact hroute r
  | route6 r => exact hroute r
  | autNum a => exact src.originated_finite afi a.asn
  | set s => exact Set.finite_empty
  | inetRtr i => exact Set.finite_empty
  | other cls raw => exact Set.finite_empty

theorem honours_finite (s : NamedSet) : (src.honours s).Finite := by
  unfold honours
  cases src.membersByRef s with
  | error err => simp
  | ok objs => exact objs.finite_toSet.subset fun o ⟨objs', h, ho, _⟩ => by cases h; exact ho

def inputs (afi : AFI) (s : NamedSet) : Set PrefixRange :=
  {r | .range r ∈ members s ∨ ∃ q : Net, ((∃ a o, .as_ a o ∈ members s ∧
    q ∈ src.originated afi a) ∨ ∃ c ∈ src.honours s, q ∈ src.claimed afi c) ∧
      Expander.exactRange (some q.1) = some r}

theorem inputs_finite (afi : AFI) (s : NamedSet) : (src.inputs afi s).Finite := by
  have hr : {r | SetMember.range r ∈ members s}.Finite := by
    refine (members s).finite_toSet.preimage (f := SetMember.range) ?_
    intro r _ r' _ hr
    exact SetMember.range.inj hr
  have ha : {q : Net | ∃ a o, .as_ a o ∈ members s ∧ q ∈ src.originated afi a}.Finite := by
    have hone : ∀ m ∈ {m | m ∈ members s},
        {q : Net | ∃ a o, m = .as_ a o ∧ q ∈ src.originated afi a}.Finite := by
      intro m _
      cases m with
      | as_ a o =>
        refine (src.originated_finite afi a).subset fun q hq => ?_
        obtain ⟨a', o', hm, hq⟩ := hq
        cases hm
        exact hq
      | _ => simp
    refine ((members s).finite_toSet.biUnion hone).subset fun q hq => ?_
    obtain ⟨a, o, hm, hq⟩ := hq
    exact Set.mem_biUnion hm ⟨a, o, rfl, hq⟩
  have hc : {q : Net | ∃ c ∈ src.honours s, q ∈ src.claimed afi c}.Finite := by
    refine ((src.honours_finite s).biUnion fun c _ => src.claimed_finite afi c).subset
      fun q hq => ?_
    obtain ⟨c, hc, hq⟩ := hq
    exact Set.mem_biUnion hc hq
  refine (hr.union (((ha.union hc).image fun q =>
    Expander.exactRange (some q.1)).preimage (f := some) (Option.some_injective _).injOn)).subset
    fun r hr => ?_
  rcases hr with hr | ⟨q, hq, hx⟩
  · exact .inl hr
  · exact .inr ⟨q, hq, hx⟩

end Source

/-! ## Counts -/

theorem length_le_card {α : Type*} {l : List α} (hl : l.Nodup) {S : Finset α}
    (hS : ∀ x ∈ l, x ∈ S) : l.length ≤ S.card := by
  classical
  rw [← List.toFinset_card_of_nodup hl]
  exact Finset.card_le_card fun x hx => hS x (List.mem_toFinset.1 hx)

namespace Expander

variable {E : Type} (e : Expander E)

def limitOf : Limit → Nat
  | .prefixes => e.prefixLimit
  | .visited => e.visitLimit
  | .depth => e.depthLimit
  | .conjuncts => e.conjunctLimit

/-- The expansion of `top` passed a limit, with a count of at most `N`. -/
def TooLarge (top : SetRef) (N : Nat) (err : ExpandError E) : Prop :=
  ∃ lim count, lim ≠ .conjuncts ∧ err = .tooLarge top lim (e.limitOf lim) count ∧
    e.limitOf lim < count ∧ count ≤ N

/-! ## The walk -/

section Walk

variable (g : SetGraph) {N : Nat} (S : Finset EvalState) (T : Finset PrefixRange)

def OutIn (v : Eval) : Prop := v.out.ranges.Nodup ∧ ∀ t ∈ v.out.ranges, t ∈ T

def SameWalk (v v' : Eval) : Prop := v'.done = v.done ∧ v'.visits = v.visits

variable {T}

variable {v : Eval}

theorem addRange_outIn (hN : T.card ≤ N) {ops : OpStack} {r : PrefixRange}
    (hr : ∀ t, ops.apply r = some t → t ∈ T) (hv : OutIn T v) :
    Ends (e.addRange g e.prefixLimit ops v r) (fun v' => OutIn T v' ∧ SameWalk v v')
      (e.TooLarge g.top N) := by
  unfold addRange
  split
  · exact ⟨hv, rfl, rfl⟩
  · rename_i t ht
    have hadd : OutIn T { v with out := v.out.add t } := by
      refine ⟨hv.1.insert, fun u hu => ?_⟩
      rcases List.mem_insert_iff.1 hu with rfl | hu
      · exact hr _ ht
      · exact hv.2 u hu
    split
    · dsimp only
      split
      · rename_i hlim
        exact ⟨.prefixes, _, by decide, rfl, hlim, (length_le_card hadd.1 hadd.2).trans hN⟩
      · exact ⟨hadd, rfl, rfl⟩
    · exact ⟨hv, rfl, rfl⟩

theorem addRoutes_outIn (hN : T.card ≤ N) {ops : OpStack} {routes : List (Option Prefix)}
    (hr : ∀ p ∈ routes, ∀ r, exactRange p = some r → ∀ t, ops.apply r = some t → t ∈ T)
    (hv : OutIn T v) :
    Ends (e.addRoutes g e.prefixLimit ops v routes) (fun v' => OutIn T v' ∧ SameWalk v v')
      (e.TooLarge g.top N) := by
  refine Ends.foldlM (fun r hmem w hw => ?_) ⟨hv, rfl, rfl⟩
  obtain ⟨p, hp, hpr⟩ := List.mem_filterMap.1 hmem
  refine (e.addRange_outIn g hN (hr p hp r hpr) hw.1).mono (fun w' h => ⟨h.1, ?_⟩) fun _ => id
  exact ⟨h.2.1.trans hw.2.1, h.2.2.trans hw.2.2⟩

variable (T)

structure WalkIn (v : Eval) : Prop where
  out : OutIn T v
  nodup : v.done.Nodup
  done : ∀ x ∈ v.done, x ∈ S
  visits : v.visits = v.done.length

variable {S T}

theorem WalkIn.of_same {v' : Eval} (h : WalkIn S T v) (ho : OutIn T v') (hs : SameWalk v v') :
    WalkIn S T v' :=
  ⟨ho, by rw [hs.1]; exact h.nodup, by rw [hs.1]; exact h.done, by rw [hs.1, hs.2]; exact h.visits⟩

variable {x : EvalState}

theorem WalkIn.mark (h : WalkIn S T v) (hx : x ∈ S)
    (hnew : x ∉ v.done) :
    WalkIn S T { v with done := x :: v.done, visits := v.visits + 1 } ∧
      v.visits + 1 ≤ S.card := by
  have hnd : (x :: v.done).Nodup := List.nodup_cons.2 ⟨hnew, h.nodup⟩
  have hin : ∀ y ∈ x :: v.done, y ∈ S := by
    intro y hy
    rcases List.mem_cons.1 hy with rfl | hy
    · exact hx
    · exact h.done y hy
  have hlen := length_le_card hnd hin
  rw [List.length_cons, ← h.visits] at hlen
  exact ⟨⟨h.out, hnd, hin, by simp [h.visits]⟩, hlen⟩

/-- What the walk needs of a graph: states lead to states of `S`, and ranges to ranges of `T`. -/
structure Confined (S : Finset EvalState) (T : Finset PrefixRange) : Prop where
  name : ∀ {ref nd}, g.node ref = some nd → nd.set.name = ref.name
  succ : ∀ {x y}, x ∈ S → e.Succ g x y → y ∈ S
  range : ∀ {ref nd}, g.node ref = some nd → ∀ {r}, .range r ∈ members nd.set →
    ∀ (ops : OpStack) t, ops.apply r = some t → t ∈ T
  as_ : ∀ {ref nd}, g.node ref = some nd → ∀ {a o}, .as_ a o ∈ members nd.set →
    ∀ p ∈ g.routesOf a, ∀ r, exactRange p = some r →
      ∀ (ops : OpStack) t, ops.apply r = some t → t ∈ T
  claim : ∀ {ref nd}, g.node ref = some nd → ∀ {c}, c ∈ nd.claims →
    ∀ p ∈ claimRoutes g c, ∀ r, exactRange p = some r →
      ∀ (ops : OpStack) t, ops.apply r = some t → t ∈ T

variable {e g}

theorem walkMember_in (hc : e.Confined g S T) (hT : T.card ≤ N) {nd : SetNode}
    (hnd : g.node x.set = some nd) (hx : x ∈ S) {k : Nat}
    {walkChild : EvalState → Eval → Except (ExpandError E) Eval}
    (ih : ∀ y v, y ∈ S → y ∉ v.done → WalkIn S T v → k ≤ v.visits →
      Ends (walkChild y v) (fun v' => WalkIn S T v' ∧ v.visits ≤ v'.visits) (e.TooLarge g.top N))
    {m : SetMember} (hm : m ∈ members nd.set) (hv : WalkIn S T v ∧ k ≤ v.visits) :
    Ends (e.walkMember g e.prefixLimit walkChild x v m)
      (fun v' => WalkIn S T v' ∧ k ≤ v'.visits) (e.TooLarge g.top N) := by
  cases m with
  | range r =>
    refine (e.addRange_outIn g hT (fun t ht => hc.range hnd hm _ t ht) hv.1.out).mono
      (fun v' h => ⟨hv.1.of_same h.1 h.2, h.2.2.symm ▸ hv.2⟩) fun _ => id
  | as_ a o =>
    refine (e.addRoutes_outIn g hT (fun p hp r hr t ht => hc.as_ hnd hm p hp r hr _ t ht)
      hv.1.out).mono (fun v' h => ⟨hv.1.of_same h.1 h.2, h.2.2.symm ▸ hv.2⟩) fun _ => id
  | set name source o =>
    unfold walkMember
    dsimp only
    split
    · exact hv
    · rename_i hfollow
      simp only [Bool.or_eq_true, Bool.not_eq_true', not_or, Bool.not_eq_false,
        Bool.not_eq_true] at hfollow
      split
      · exact hv
      · rename_i child hr
        split
        · exact hv
        · rename_i hdone
          rw [Bool.or_eq_true, not_or, Option.isNone_iff_eq_none, ← ne_eq,
            ← Option.isSome_iff_ne_none, List.contains_iff_mem] at hdone
          refine (ih ⟨child, x.ops.push o⟩ v (hc.succ hx ?_) hdone.2 hv.1 hv.2).mono
            (fun v' h => ⟨h.1, hv.2.trans h.2⟩) fun _ => id
          exact ⟨nd, hnd, o, ⟨name, source, hm, by rw [hc.name hnd]; exact hfollow.1,
            hfollow.2, hr⟩, hdone.1, rfl⟩
  | invalid => exact hv

/-- **The walk stops only at a limit**, at a count within the states and ranges there are. -/
theorem walk_in (hc : e.Confined g S T) (hT : T.card ≤ N) (hS : S.card ≤ N) {fuel : Nat}
    (hx : x ∈ S) (hnew : x ∉ v.done) (hv : WalkIn S T v)
    (hfuel : e.visitLimit + 1 ≤ fuel + v.visits) :
    Ends (e.walk g e.prefixLimit fuel x v)
      (fun v' => WalkIn S T v' ∧ v.visits ≤ v'.visits) (e.TooLarge g.top N) := by
  induction fuel generalizing x v with
  | zero =>
    obtain ⟨-, hcard⟩ := hv.mark hx hnew
    exact ⟨.visited, _, by decide, rfl, by simp only [limitOf]; omega, hcard.trans hS⟩
  | succ fuel ih =>
    obtain ⟨hmark, hcard⟩ := hv.mark hx hnew
    unfold walk
    dsimp only
    split
    · rename_i hlim
      exact ⟨.visited, _, by decide, rfl, hlim, hcard.trans hS⟩
    split
    · exact ⟨hmark, Nat.le_succ _⟩
    · rename_i nd hnd
      refine (Ends.foldlM (I := fun w => WalkIn S T w ∧ v.visits + 1 ≤ w.visits)
        (fun m hm w hw => walkMember_in hc hT hnd hx (fun y w hy hyn hw hk =>
          ih hy hyn hw (by omega)) hm hw) ⟨hmark, le_rfl⟩).bind fun v1 h1 => ?_
      refine (Ends.foldlM (I := fun w => WalkIn S T w ∧ v.visits + 1 ≤ w.visits)
        (fun c hcl w hw => ?_) h1).mono (fun v2 h2 => ⟨h2.1, by omega⟩) fun _ => id
      exact (e.addRoutes_outIn g hT (fun p hp r hr t ht => hc.claim hnd hcl p hp r hr _ t ht)
        hw.1.out).mono (fun v' h => ⟨hw.1.of_same h.1 h.2, h.2.2.symm ▸ hw.2⟩) fun _ => id

end Walk

/-! ## Discovery -/

section Discovery

variable {N : Nat} {U : Finset SetRef} {top : SetRef}

theorem fetchOne_error (hreg : e.src.Registry) {ref : SetRef} {err : ExpandError E}
    (h : e.fetchOne ref = .error err) : err = .source .notFound := by
  unfold fetchOne at h
  split at h
  · rename_i err' herr
    cases h
    rw [hreg.getSet_error herr]
  · rename_i s hs
    unfold checkSet at h
    split at h
    · cases h; rfl
    · obtain ⟨hname, hsource⟩ := hreg.getSet_named hs
      split at h
      · contradiction
      split at h
      · rename_i hscope
        rw [Bool.and_eq_true, Bool.not_eq_true'] at hscope
        rw [hsource hscope.1] at hscope
        cases hscope.2
      split at h
      · cases h; rfl
      · cases h

def Ranged (ref : SetRef) : Prop := ref.name.cls = .asSet ∨ ref.name.cls = .routeSet

theorem ranged_of_nested {ref c : SetRef} {s : NamedSet} (hf : e.src.found ref = some s)
    (href : Ranged ref) (hc : c ∈ nestedRefs s) :
    Ranged c ∧ ∃ source o, .set c.name source o ∈ members s := by
  obtain ⟨hname, hcls⟩ := e.found_spec hf
  have hfits := s.fits
  unfold nestedRefs at hc
  unfold members
  split at hc
  · rename_i listed src hbody
    obtain ⟨m, hm, hr⟩ := List.mem_filterMap.1 hc
    rw [hbody]
    split at hr
    · rename_i name source o
      split at hr
      · rename_i hnest
        rw [name_of_new hr]
        refine ⟨?_, source, o, hm⟩
        rw [hname] at hnest
        rw [Ranged, name_of_new hr]
        rcases href with h | h <;> rw [h] at hnest <;> simp [nestable] at hnest
        · exact .inl hnest
        · exact hnest.symm
      · cases hr
    · cases hr
  · rename_i hbody
    rw [hbody, hcls] at hfits
    rcases href with h | h <;> rw [h] at hfits <;> cases hfits
  · rename_i hbody
    rw [hbody, hcls] at hfits
    rcases href with h | h <;> rw [h] at hfits <;> cases hfits
  · cases hc

/-- The references seen are of `U`, each once; `k` of them were seen when the level began. -/
structure SeenIn (U : Finset SetRef) (depth k : Nat) (st : Discovery) : Prop where
  nodup : st.seen.Nodup
  seen : ∀ c ∈ st.seen, c ∈ U
  count : st.seen.length = k + st.next.length
  deep : st.next ≠ [] → depth + 1 ≤ e.depthLimit
  ranged : ∀ c ∈ st.next, Ranged c
  anyRef : st.anyRef = none
  nodes : ∀ p ∈ st.nodes, e.src.found p.1 = some p.2

variable {e}

variable {depth : Nat} {st : Discovery}

theorem noteRef_in (hN : U.card ≤ N) {k : Nat} (hk : depth + 1 ≤ k) {ref : SetRef}
    (href : ref ∈ U) (hranged : Ranged ref) (hany : ref.name.isAny = false)
    (h : e.SeenIn U depth k st) :
    Ends (e.noteRef top false depth st ref) (e.SeenIn U depth k) (e.TooLarge top N) := by
  have hcount := h.count
  unfold noteRef
  split
  · exact h
  rename_i hnew
  rw [Bool.or_eq_true, not_or, List.contains_iff_mem] at hnew
  have hnd : (ref :: st.seen).Nodup := List.nodup_cons.2 ⟨hnew.1, h.nodup⟩
  have hin : ∀ c ∈ ref :: st.seen, c ∈ U := by
    intro c hc
    rcases List.mem_cons.1 hc with rfl | hc
    · exact href
    · exact h.seen c hc
  have hlen := (length_le_card hnd hin).trans hN
  rw [List.length_cons] at hlen
  split
  · rename_i hlim
    exact ⟨.depth, _, by decide, rfl, hlim, by omega⟩
  rename_i hdepth
  split
  · rename_i hlim
    exact ⟨.visited, _, by decide, rfl, Nat.lt_succ_of_le hlim, hlen⟩
  rw [if_neg (by simp [hany])]
  refine ⟨hnd, hin, by simp [hcount]; omega, fun _ => by omega, fun c hc => ?_, h.anyRef, h.nodes⟩
  rcases List.mem_append.1 hc with hc | hc
  · exact h.ranged c hc
  · rw [List.mem_singleton.1 hc]
    exact hranged

theorem visitRef_in (hreg : e.src.Registry)
    (hU : ∀ {ref s}, e.src.found ref = some s → ∀ c ∈ nestedRefs s, c ∈ U) (hN : U.card ≤ N)
    {k : Nat} (hk : depth + 1 ≤ k) {ref : SetRef} (hranged : Ranged ref)
    (hfound : depth = 0 → (e.src.found ref).isSome = true)
    (h : e.SeenIn U depth k st) :
    Ends (e.visitRef top false depth st ref) (e.SeenIn U depth k) (e.TooLarge top N) := by
  unfold visitRef
  split
  · rename_i herr
    split
    · rename_i hzero
      have := hfound hzero
      rw [e.found_eq_none herr] at this
      cases this
    · exact ⟨h.nodup, h.seen, h.count, h.deep, h.ranged, h.anyRef, h.nodes⟩
  · rename_i err hne herr
    exact absurd (e.fetchOne_error hreg herr) hne
  · rename_i s hs
    have hf := (e.fetchOne_eq_ok).1 hs
    refine Ends.foldlM (fun c hc st hst => ?_) ?_
    · obtain ⟨hc', source, o, hm⟩ := e.ranged_of_nested hf hranged hc
      exact noteRef_in hN hk (hU hf c hc) hc' (hreg.noAny hf hm) hst
    · refine ⟨h.nodup, h.seen, h.count, h.deep, h.ranged, h.anyRef, fun p hp => ?_⟩
      rcases List.mem_append.1 hp with hp | hp
      · exact h.nodes p hp
      · rw [List.mem_singleton.1 hp]; exact hf

/-- **Discovery stops only at a limit**, at a count within the references there are. -/
theorem discoverLoop_in (hreg : e.src.Registry)
    (hU : ∀ {ref s}, e.src.found ref = some s → ∀ c ∈ nestedRefs s, c ∈ U) (hN : U.card ≤ N)
    {fuel : Nat} {level : List SetRef} (hnd : st.seen.Nodup)
    (hseen : ∀ c ∈ st.seen, c ∈ U) (hnodes : ∀ p ∈ st.nodes, e.src.found p.1 = some p.2)
    (hlevel : level ≠ [] → depth ≤ e.depthLimit ∧ depth + 1 ≤ st.seen.length)
    (hranged : ∀ ref ∈ level, Ranged ref)
    (hfound : depth = 0 → ∀ ref ∈ level, (e.src.found ref).isSome = true)
    (hfuel : fuel + depth = e.depthLimit + 2) :
    Ends (e.discoverLoop top false fuel depth level st)
      (fun st' => ∀ p ∈ st'.nodes, e.src.found p.1 = some p.2) (e.TooLarge top N) := by
  induction fuel generalizing depth level st with
  | zero =>
    cases level with
    | nil => exact hnodes
    | cons ref level =>
      have := (hlevel (by simp)).1
      omega
  | succ fuel ih =>
    cases level with
    | nil => exact hnodes
    | cons ref level =>
      unfold discoverLoop
      obtain ⟨hd, hlen⟩ := hlevel (by simp)
      refine (Ends.foldlM (I := e.SeenIn U depth st.seen.length)
        (fun c hc w hw => visitRef_in hreg hU hN hlen (hranged c hc) (fun h0 => hfound h0 c hc) hw)
        (s := { st with next := [], anyRef := none })
        ⟨hnd, hseen, rfl, fun h => absurd rfl h, by simp, rfl, hnodes⟩).bind fun st1 h1 => ?_
      simp only [h1.anyRef]
      refine ih h1.nodup h1.seen h1.nodes (fun hne => ⟨h1.deep hne, ?_⟩) h1.ranged (by omega)
        (by omega)
      have := List.length_pos_iff.2 hne
      have := h1.count
      omega

theorem claimsOf_ok (hreg : e.src.Registry) {ref : SetRef} {s : NamedSet}
    (h : e.src.found ref = some s) :
    Ends (e.claimsOf s) (fun _ => True) (e.TooLarge top N) := by
  unfold claimsOf
  split
  · trivial
  · obtain ⟨objs, hobjs⟩ := hreg.membersByRef_ok h
    rw [hobjs]
    trivial

theorem discover_in (hreg : e.src.Registry)
    (hU : ∀ {ref s}, e.src.found ref = some s → ∀ c ∈ nestedRefs s, c ∈ U) (hN : U.card ≤ N)
    (htop : top ∈ U) (hcls : Ranged top) (hfound : (e.src.found top).isSome = true)
    (hany : top.name.isAny = false) :
    Ends (e.discover top false) (fun _ => True) (e.TooLarge top N) := by
  unfold discover
  rw [if_neg (by simp [hany])]
  refine (discoverLoop_in hreg hU hN (by simp) (by simpa using htop) (by simp)
    (fun _ => ⟨Nat.zero_le _, by simp⟩) (by simpa using hcls) (by simpa using hfound) rfl).bind
    fun st hst => ?_
  split
  · refine Ends.bind (Q := fun _ => True) (.mono (.mapM (P := fun _ _ => True) fun p hp => ?_)
      (fun _ _ => trivial) fun _ => id) fun _ _ => trivial
    exact (claimsOf_ok hreg (hst p hp)).bind fun _ _ => trivial
  · trivial

theorem fetchRoutes_ok (hreg : e.src.Registry) (g : SetGraph) :
    Ends (e.fetchRoutes g) (fun _ => True) (e.TooLarge top N) := by
  unfold fetchRoutes
  refine Ends.bind (Q := fun _ => True) (.mono (.mapM (P := fun _ _ => True) fun a _ => ?_)
    (fun _ _ => trivial) fun _ => id) fun _ _ => trivial
  obtain ⟨ps, hps⟩ := hreg.routes_ok a e.afi
  rw [hps]
  trivial

end Discovery

/-! ## Whole expansions -/

variable {e}

theorem exactRange_masked (p : Prefix) : exactRange (some p.masked) = exactRange (some p) := by
  simp [exactRange]

theorem Explored.confined {top : SetRef} {g : SetGraph} (hg : e.Explored top g) (hr : e.Routed g)
    {S : Finset EvalState} {T : Finset PrefixRange}
    (hS : ∀ x : EvalState, (e.src.found x.set).isSome = true → x ∈ S)
    (hT : ∀ {ref s}, e.src.found ref = some s → ∀ r ∈ e.src.inputs e.afi s,
      ∀ (ops : OpStack) t, ops.apply r = some t → t ∈ T) : e.Confined g S T where
  name hn := (e.found_spec (hg.node hn).1).1
  succ := by
    intro x y _ ⟨nd, _, o, _, hsome, _⟩
    obtain ⟨nd', hnd'⟩ := Option.isSome_iff_exists.1 hsome
    exact hS y (by rw [(hg.node hnd').1]; rfl)
  range hn r hm := hT (hg.node hn).1 r (.inl hm)
  as_ := by
    intro ref nd hn a o hm p hp r hx
    cases p with
    | none => cases hx
    | some p =>
      obtain ⟨-, hq⟩ := (hr a ⟨p.masked, p.masked_masked⟩).1 ⟨p, hp, rfl⟩
      exact hT (hg.node hn).1 r (.inr ⟨_, .inl ⟨a, o, hm, hq⟩, (exactRange_masked p).trans hx⟩)
  claim := by
    intro ref nd hn c hc p hp r hx
    cases p with
    | none => cases hx
    | some p =>
      obtain ⟨-, hq⟩ := (mem_claimRoutes_iff hr hn hc ⟨p.masked, p.masked_masked⟩).1 ⟨p, hp, rfl⟩
      exact hT (hg.node hn).1 r
        (.inr ⟨_, .inr ⟨c, ((hg.node hn).2 c).1 hc, hq⟩, (exactRange_masked p).trans hx⟩)

theorem expandRanges_in (hreg : e.src.Registry) {top : SetRef}
    (hcls : top.name.cls = .asSet ∨ top.name.cls = .routeSet)
    (hfound : (e.src.found top).isSome = true) (hany : top.name.isAny = false) {N : Nat}
    {U : Finset SetRef} {S : Finset EvalState} {T : Finset PrefixRange}
    (htop : top ∈ U)
    (hU : ∀ {ref s}, e.src.found ref = some s → ∀ c ∈ nestedRefs s, c ∈ U)
    (hS : ∀ x : EvalState, (e.src.found x.set).isSome = true → x ∈ S)
    (hT : ∀ {ref s}, e.src.found ref = some s → ∀ r ∈ e.src.inputs e.afi s,
      ∀ (ops : OpStack) t, ops.apply r = some t → t ∈ T)
    (hUN : U.card ≤ N) (hSN : S.card ≤ N) (hTN : T.card ≤ N) :
    Ends (e.expandRanges top e.prefixLimit) (fun _ => True) (e.TooLarge top N) := by
  unfold expandRanges
  rw [if_neg (by rcases hcls with h | h <;> simp [h])]
  refine ((e.discover_explored top false).and (discover_in hreg hU hUN htop hcls hfound hany)).mono
    (fun _ h => h.1) (fun _ h => h.2) |>.bind fun g hg => ?_
  refine ((e.fetchRoutes_spec g).and (fetchRoutes_ok hreg g)).mono
    (fun _ h => h.1) (fun _ h => h.2) |>.bind fun g' ⟨⟨rs, hg'⟩, hr⟩ => ?_
  have hx : e.Explored top g' := by
    subst hg'
    have hx := hg (by simp)
    exact ⟨hx.top_eq, hx.top_node, hx.node, hx.closed⟩
  rw [← hx.top_eq]
  exact (walk_in (hx.confined hr hS hT) hTN hSN (hS _ (by rw [hx.top_eq]; exact hfound))
    (by simp) ⟨⟨by simp [RangeSet.empty], by simp [RangeSet.empty]⟩, by simp, by simp, rfl⟩
    (by simp)).bind fun _ _ => trivial

end Expander

theorem Source.Registry.exists_universe {E : Type} {src : Source E} (hreg : src.Registry)
    (top : SetRef) (afi : AFI) :
    ∃ (U : Finset SetRef) (S : Finset EvalState) (T : Finset PrefixRange), top ∈ U ∧
      (∀ {ref s}, src.found ref = some s → ∀ c ∈ nestedRefs s, c ∈ U) ∧
      (∀ x : EvalState, (src.found x.set).isSome = true → x ∈ S) ∧
      ∀ {ref s}, src.found ref = some s → ∀ r ∈ src.inputs afi s,
        ∀ (ops : OpStack) t, ops.apply r = some t → t ∈ T := by
  have hU : (insert top (⋃ ref ∈ {ref | (src.found ref).isSome = true},
      {c | ∃ s, src.found ref = some s ∧ c ∈ nestedRefs s})).Finite := by
    refine (hreg.finite.biUnion fun ref _ => ?_).insert top
    cases src.found ref with
    | none => simp
    | some s =>
      exact (nestedRefs s).finite_toSet.subset fun c ⟨s', hs, hc⟩ => by cases hs; exact hc
  have hS : {x : EvalState | (src.found x.set).isSome = true}.Finite := by
    refine ((hreg.finite.prod (Set.finite_univ (α := OpStack))).preimage
      (f := fun x : EvalState => (x.set, x.ops)) ?_).subset fun x hx => ⟨hx, trivial⟩
    intro x _ y _ h
    obtain ⟨a, b⟩ := x
    obtain ⟨c, d⟩ := y
    cases h
    rfl
  have hT : (⋃ ref ∈ {ref | (src.found ref).isSome = true},
      {t | ∃ s, src.found ref = some s ∧ ∃ r ∈ src.inputs afi s,
        ∃ ops : OpStack, ops.apply r = some t}).Finite := by
    refine hreg.finite.biUnion fun ref _ => ?_
    cases src.found ref with
    | none => simp
    | some s =>
      refine ((((src.inputs_finite afi s).prod (Set.finite_univ (α := OpStack))).image
        fun p => p.2.apply p.1).preimage (f := some) (Option.some_injective _).injOn).subset
        fun t ⟨s', hs, r, hr, ops, ht⟩ => ?_
      cases hs
      exact ⟨(r, ops), ⟨hr, trivial⟩, ht⟩
  refine ⟨hU.toFinset, hS.toFinset, hT.toFinset, by simp, fun hf c hc => ?_, fun x hx => ?_,
    fun hf r hr ops t ht => ?_⟩
  · rw [Set.Finite.mem_toFinset]
    exact .inr (Set.mem_biUnion (by rw [Set.mem_ofPred_eq, hf]; rfl) ⟨_, hf, hc⟩)
  · rwa [Set.Finite.mem_toFinset]
  · rw [Set.Finite.mem_toFinset]
    exact Set.mem_biUnion (by rw [Set.mem_ofPred_eq, hf]; rfl) ⟨_, hf, r, hr, ops, ht⟩

namespace Expander

variable {E : Type}

/-- **Expansion computes the least solution of the set equations.** Over a finite registry it fails
only by passing a limit, at a count the registry bounds; where it returns, the ranges denote the
value of the set expanded. -/
theorem expandPrefixRanges_eq_lfp {src : Source E} (hreg : src.Registry) {top : SetRef}
    (hcls : top.name.cls = .asSet ∨ top.name.cls = .routeSet)
    (hfound : (src.found top).isSome = true) (hany : top.name.isAny = false) :
    ∃ N, ∀ e : Expander E, e.src = src → e.exclude = ⟨[], []⟩ → e.afi = .any →
      (∀ err, e.expandPrefixRanges top = .error err → e.TooLarge top N err) ∧
      (N ≤ e.depthLimit → N ≤ e.visitLimit → N ≤ e.prefixLimit →
        ∃ rs, e.expandPrefixRanges top = .ok rs) ∧
      ∀ rs, e.expandPrefixRanges top = .ok rs →
        rs.denote = OrderHom.lfp (src.equations .any) top := by
  obtain ⟨U, S, T, htop, hU, hS, hT⟩ := hreg.exists_universe top .any
  refine ⟨U.card + S.card + T.card, fun e hsrc hex hafi => ?_⟩
  subst hsrc
  have hends := (e.expandRanges_denote top e.prefixLimit).and
    (expandRanges_in hreg hcls hfound hany htop hU hS (by rw [hafi]; exact hT)
      (show U.card ≤ U.card + S.card + T.card by omega)
      (show S.card ≤ U.card + S.card + T.card by omega)
      (show T.card ≤ U.card + S.card + T.card by omega))
  unfold expandPrefixRanges
  cases hres : e.expandRanges top e.prefixLimit with
  | error err =>
    obtain ⟨-, hlarge⟩ := hends.of_error hres
    refine ⟨fun err' h => ?_, fun hd hv hp => ?_, fun rs h => ?_⟩
    · cases h; exact hlarge
    · obtain ⟨lim, count, hlim, -, hlt, hle⟩ := hlarge
      cases lim with
      | conjuncts => contradiction
      | _ => simp only [limitOf] at hlt; omega
    · cases h
  | ok r =>
    obtain ⟨hden, -⟩ := hends.of_ok hres
    refine ⟨fun err h => ?_, fun _ _ _ => ⟨_, rfl⟩, fun rs h => ?_⟩
    · cases h
    · cases h
      rw [← hafi, ← e.value_system hex]
      ext q
      rw [hden q]
      simp [afiAllows, hafi]

end Expander

/-! ## Two sets that list each other -/

/-- RS-LOOP and RS-BACK list each other under operators; RS-BACK also lists an AS and a set that
is not there, and a route claims membership of RS-LOOP. -/
def loopRef : SetRef :=
  ⟨[], ⟨lit "RS-LOOP", .routeSet, List.all_eq_true.1 (by decide +kernel), by decide +kernel⟩⟩

def backRef : SetRef :=
  ⟨[], ⟨lit "RS-BACK", .routeSet, List.all_eq_true.1 (by decide +kernel), by decide +kernel⟩⟩

def goneRef : SetRef :=
  ⟨[], ⟨lit "RS-GONE", .routeSet, List.all_eq_true.1 (by decide +kernel), by decide +kernel⟩⟩

def loopSet : NamedSet where
  cls := .routeSet
  name := loopRef.name
  source := lit "TEST"
  refMntners := [lit "ANY"]
  body := .members [.range ((PrefixRange.new ⟨⟨.v4, 0x0A000000#32⟩, 8, by decide⟩ 8 8).getD .zero),
    .set backRef.name [] ⟨.range, 16, 24⟩] []
  raw := none

def backSet : NamedSet where
  cls := .routeSet
  name := backRef.name
  source := lit "TEST"
  refMntners := []
  body := .members [.set loopRef.name [] ⟨.plus, 0, 0⟩, .as_ 64500 .none,
    .set goneRef.name [] .none] []
  raw := none

def loopSource : Source Empty where
  getSet ref := if ref = loopRef then .ok (some loopSet)
    else if ref = backRef then .ok (some backSet) else .error .notFound
  originatedRoutes a _ :=
    .ok (if a = 64500 then [some ⟨⟨.v4, 0xC6336400#32⟩, 24, by decide⟩] else [])
  membersByRef _ := .ok [.route
    { pfx := some ⟨⟨.v4, 0xC0000200#32⟩, 24, by decide⟩, origin := 64500,
      memberOf := [loopRef.name], mntBy := [], source := lit "TEST", raw := none }]

theorem loopSource_getSet {ref : SetRef} {s : NamedSet}
    (h : loopSource.getSet ref = .ok (some s)) : ref = loopRef ∧ s = loopSet ∨
      ref = backRef ∧ s = backSet := by
  simp only [loopSource] at h
  split at h
  · rename_i hr
    cases h
    exact .inl ⟨hr, rfl⟩
  · split at h
    · rename_i hr
      cases h
      exact .inr ⟨hr, rfl⟩
    · cases h

def namesAny : SetMember → Bool
  | .set name _ _ => name.isAny
  | _ => false

theorem loopSource_registry : loopSource.Registry where
  getSet_error := by
    intro ref err h
    simp only [loopSource] at h
    split at h
    · cases h
    · split at h
      · cases h
      · cases h; rfl
  getSet_named := by
    intro ref s h
    rcases loopSource_getSet h with ⟨rfl, rfl⟩ | ⟨rfl, rfl⟩ <;> exact ⟨rfl, by decide⟩
  finite := by
    refine (Set.toFinite {loopRef, backRef}).subset fun ref h => ?_
    obtain ⟨s, hs⟩ := Option.isSome_iff_exists.1 h
    rcases loopSource_getSet (Source.getSet_of_found hs) with ⟨rfl, -⟩ | ⟨rfl, -⟩
    · exact .inl rfl
    · exact .inr rfl
  membersByRef_ok _ := ⟨_, rfl⟩
  routes_ok _ _ := ⟨_, rfl⟩
  noAny := by
    intro ref s h name source o hm
    have hall : ∀ s ∈ [loopSet, backSet], ∀ m ∈ members s, namesAny m = false := by
      decide +kernel
    rcases loopSource_getSet (Source.getSet_of_found h) with ⟨-, rfl⟩ | ⟨-, rfl⟩
    · exact hall loopSet (by simp) _ hm
    · exact hall backSet (by simp) _ hm

theorem expandPrefixRanges_eq_lfp_loop : (loopSource.found loopRef).isSome = true ∧
    ∃ N, ∀ e : Expander Empty, e.src = loopSource → e.exclude = ⟨[], []⟩ → e.afi = .any →
      (∀ err, e.expandPrefixRanges loopRef = .error err → e.TooLarge loopRef N err) ∧
      (N ≤ e.depthLimit → N ≤ e.visitLimit → N ≤ e.prefixLimit →
        ∃ rs, e.expandPrefixRanges loopRef = .ok rs) ∧
      ∀ rs, e.expandPrefixRanges loopRef = .ok rs →
        rs.denote = OrderHom.lfp (loopSource.equations .any) loopRef :=
  ⟨by decide +kernel, Expander.expandPrefixRanges_eq_lfp loopSource_registry (.inr rfl)
    (by decide +kernel) (by decide +kernel)⟩

end Rpsl.Resolve
