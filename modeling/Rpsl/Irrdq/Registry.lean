import Rpsl.Types.Proof.Order
import Rpsl.Types.SetRef

/-!
# Registries

`resolve/irrdq`: a `Registry` is one source's data. It keeps its routes sorted by family, address,
length and origin (`routeCmp`, a linear order), and the places of each prefix in that order
(`byPrefix`).

What `Corpus.Routes` yields is a list, whose order is the caller's; `src` is whatever answers for
the rest of the source's objects. A registry's serial, and what it keeps of route texts and inverse
indexes, no modelled query reads.
-/

namespace Rpsl.Irrdq

open Text

/-! ## Routes and their order -/

/-- `route`: one route or route6 object. Its prefix is its network, without host bits. -/
structure Route where
  pfx : Prefix
  origin : ASN
  text : Text
  masked : pfx.masked = pfx
deriving DecidableEq

/-- `netip.Addr.Compare`. -/
def addrCmp (a b : Addr) : Ordering := if a.lt b then .lt else if b.lt a then .gt else .eq

/-- `prefixCmp`: IPv4 first, then by address, then by length. -/
def prefixCmp (a b : Prefix) : Ordering :=
  if a.is4 ≠ b.is4 then if a.is4 then .lt else .gt
  else
    match addrCmp a.addr b.addr with
    | .eq => compare a.bits b.bits
    | c => c

/-- `strings.Compare`. -/
def textCmp (s t : Text) : Ordering := if s < t then .lt else if t < s then .gt else .eq

def routeCmp (a b : Route) : Ordering :=
  match prefixCmp a.pfx b.pfx with
  | .eq =>
    if a.origin < b.origin then .lt
    else if b.origin < a.origin then .gt
    else textCmp a.text b.text
  | c => c

theorem cmp_toLex {α β : Type} [LinearOrder α] [LinearOrder β] (a c : α) (b d : β) :
    cmp (toLex (a, b)) (toLex (c, d)) =
      match cmp a c with
      | .eq => cmp b d
      | o => o := by
  rcases lt_trichotomy a c with h | rfl | h
  · rw [(cmp_eq_lt_iff a c).2 h, cmp_eq_lt_iff]
    exact Prod.Lex.toLex_lt_toLex.2 (.inl h)
  · rw [cmp_self_eq_eq]
    rcases lt_trichotomy b d with h | rfl | h
    · rw [(cmp_eq_lt_iff b d).2 h, cmp_eq_lt_iff]
      exact Prod.Lex.toLex_lt_toLex.2 (.inr ⟨rfl, h⟩)
    · rw [cmp_self_eq_eq, cmp_self_eq_eq]
    · rw [(cmp_eq_gt_iff b d).2 h, cmp_eq_gt_iff]
      exact Prod.Lex.toLex_lt_toLex.2 (.inr ⟨rfl, h⟩)
  · rw [(cmp_eq_gt_iff a c).2 h, cmp_eq_gt_iff]
    exact Prod.Lex.toLex_lt_toLex.2 (.inl h)

def prefixKey (p : Prefix) : ℕ ×ₗ ℕ ×ₗ ℕ := toLex (p.bitLen, toLex (p.addr.val.toNat, p.bits))

def routeKey (r : Route) : (ℕ ×ₗ ℕ ×ₗ ℕ) ×ₗ ℕ ×ₗ List Char :=
  toLex (prefixKey r.pfx, toLex (r.origin.toNat, r.text))

theorem cmp_nat (m n : Nat) : compare m n = cmp m n := by
  rw [Nat.compare_eq_ite_lt]
  rfl

theorem addrCmp_eq {a b : Addr} (h : a.fam = b.fam) :
    addrCmp a b = cmp a.val.toNat b.val.toNat := by
  unfold addrCmp
  simp only [Addr.lt_iff h, Addr.lt_iff h.symm]
  rfl

theorem ite_eq_cmp {α : Type} [LinearOrder α] (a b : α) [Decidable (a < b)] [Decidable (b < a)] :
    (if a < b then Ordering.lt else if b < a then .gt else .eq) = cmp a b := by
  rcases lt_trichotomy a b with h | rfl | h
  · rw [if_pos h, (cmp_eq_lt_iff a b).2 h]
  · rw [if_neg (lt_irrefl a), if_neg (lt_irrefl a), cmp_self_eq_eq]
  · rw [if_neg (lt_asymm h), if_pos h, (cmp_eq_gt_iff a b).2 h]

theorem textCmp_eq (s t : List Char) :
    textCmp s t = @cmp (List Char) _ LinearOrder.toDecidableLT s t :=
  ite_eq_cmp s t

theorem bitLen_eq (p : Prefix) : p.bitLen = if p.is4 then 32 else 128 := by
  unfold Prefix.bitLen Addr.bitLen Prefix.is4 Prefix.fam
  cases p.addr.fam <;> rfl

theorem prefixCmp_eq (a b : Prefix) : prefixCmp a b = cmp (prefixKey a) (prefixKey b) := by
  rw [prefixKey, prefixKey, cmp_toLex, bitLen_eq, bitLen_eq]
  unfold prefixCmp
  by_cases hfam : a.fam = b.fam
  · have h4 : a.is4 = b.is4 := by unfold Prefix.is4; rw [hfam]
    rw [if_neg (not_not.2 h4), h4, cmp_self_eq_eq, addrCmp_eq hfam, cmp_nat]
    exact (cmp_toLex ..).symm
  · have h4 : a.is4 ≠ b.is4 := by
      unfold Prefix.is4
      cases ha : a.fam <;> cases hb : b.fam <;> simp_all
    rw [if_pos h4]
    cases ha : a.is4 <;> cases hb : b.is4
    · exact absurd (ha.trans hb.symm) h4
    · rfl
    · rfl
    · exact absurd (ha.trans hb.symm) h4

theorem routeCmp_eq (a b : Route) : routeCmp a b = cmp (routeKey a) (routeKey b) := by
  unfold routeCmp
  rw [routeKey, routeKey, cmp_toLex, ← prefixCmp_eq, cmp_toLex]
  cases prefixCmp a.pfx b.pfx with
  | lt => rfl
  | gt => rfl
  | eq =>
    dsimp only
    simp only [UInt32.lt_iff_toNat_lt]
    rcases lt_trichotomy a.origin.toNat b.origin.toNat with h | h | h
    · rw [if_pos h, (cmp_eq_lt_iff _ _).2 h]
    · rw [h, if_neg (lt_irrefl _), if_neg (lt_irrefl _), cmp_self_eq_eq]
      exact textCmp_eq a.text b.text
    · rw [if_neg (lt_asymm h), if_pos h, (cmp_eq_gt_iff _ _).2 h]

theorem routeCmp_ne_gt {a b : Route} : routeCmp a b ≠ .gt ↔ routeKey a ≤ routeKey b := by
  rw [routeCmp_eq, ne_eq, cmp_eq_gt_iff, not_lt]

theorem prefixKey_injective : Function.Injective prefixKey := by
  intro p q h
  have hlen : p.bitLen = q.bitLen := congrArg (fun k => (ofLex k).1) h
  have hval : p.addr.val.toNat = q.addr.val.toNat := congrArg (fun k => (ofLex (ofLex k).2).1) h
  have hbits : p.bits = q.bits := congrArg (fun k => (ofLex (ofLex k).2).2) h
  have hfam : p.addr.fam = q.addr.fam := by
    unfold Prefix.bitLen Addr.bitLen at hlen
    cases hp : p.addr.fam <;> cases hq : q.addr.fam <;> simp_all [Family.width]
  obtain ⟨a, n, hn⟩ := p
  obtain ⟨b, m, hm⟩ := q
  cases Addr.ext_toNat hfam hval
  cases hbits
  rfl

theorem routeKey_injective : Function.Injective routeKey := by
  intro a b h
  have hpfx : a.pfx = b.pfx := prefixKey_injective (congrArg (fun k => (ofLex k).1) h)
  have horigin : a.origin = b.origin :=
    UInt32.toNat_inj.1 (congrArg (fun k => (ofLex (ofLex k).2).1) h)
  have htext : a.text = b.text := congrArg (fun k => (ofLex (ofLex k).2).2) h
  obtain ⟨p, o, t, hp⟩ := a
  obtain ⟨q, o', t', hq⟩ := b
  cases hpfx
  cases horigin
  cases htext
  rfl

/-! ## Building a registry -/

structure CorpusRoute where
  pfx : Prefix
  origin : ASN
  source : Text
  text : Text

/-- `resolve.Corpus`, as far as `NewRegistry` reads it. -/
structure Corpus (σ : Type) where
  keepPolicy : Bool
  indexPeers : Bool
  sourceOf : Text → σ
  routes : List CorpusRoute

/-- The places of a prefix's routes, in order. -/
def placesOf (routes : List Route) (q : Prefix) : List Nat :=
  (routes.zipIdx.filter (·.1.pfx = q)).map (·.2)

/-- `Registry`: the routes are sorted, and the index gives the places of each prefix. -/
structure Registry (σ : Type) where
  name : Text
  src : σ
  routes : List Route
  byPrefix : AList (fun _ : Prefix => List Nat)
  sorted : routes.Pairwise fun a b => routeCmp a b ≠ .gt
  indexed : ∀ q, (byPrefix.lookup q).getD [] = placesOf routes q

/-- `r.byPrefix[q]`. -/
def Registry.places {σ : Type} (r : Registry σ) (q : Prefix) : List Nat :=
  (r.byPrefix.lookup q).getD []

/-- The loop of `NewRegistry` that fills `byPrefix`. -/
def indexRoutes (routes : List Route) : AList (fun _ : Prefix => List Nat) :=
  routes.zipIdx.foldl
    (fun m e => m.insert e.1.pfx ((m.lookup e.1.pfx).getD [] ++ [e.2])) ∅

/-- A route of the corpus as the registry keeps it: the last object of a dump with no final newline
gets one. -/
def CorpusRoute.route (cr : CorpusRoute) : Route where
  pfx := cr.pfx.masked
  origin := cr.origin
  text := if cr.text ≠ [] ∧ cr.text.getLast? ≠ some '\n' then cr.text ++ ['\n'] else cr.text
  masked := Prefix.masked_masked cr.pfx

/-- The routes of `NewRegistry`, from what the corpus yields. -/
def sortRoutes (name : Text) (crs : List CorpusRoute) : List Route :=
  ((crs.filter (·.source = name)).map CorpusRoute.route).mergeSort fun a b => routeCmp a b != .gt

theorem sortRoutes_sorted (name : Text) (crs : List CorpusRoute) :
    (sortRoutes name crs).Pairwise fun a b => routeCmp a b ≠ .gt := by
  have hle : ∀ a b : Route, (routeCmp a b != .gt) = true ↔ routeKey a ≤ routeKey b := by
    intro a b
    rw [bne_iff_ne, routeCmp_ne_gt]
  have hsorted := @List.pairwise_mergeSort Route (fun a b => routeCmp a b != .gt)
    (fun a b c hab hbc => (hle a c).2 (((hle a b).1 hab).trans ((hle b c).1 hbc)))
    (fun a b => by
      rw [Bool.or_eq_true, hle, hle]
      exact le_total _ _)
    ((crs.filter (·.source = name)).map CorpusRoute.route)
  exact hsorted.imp fun h => bne_iff_ne.1 h

theorem lookup_indexRoutes (es : List (Route × Nat)) (m : AList (fun _ : Prefix => List Nat))
    (q : Prefix) :
    ((es.foldl (fun m e => m.insert e.1.pfx ((m.lookup e.1.pfx).getD [] ++ [e.2])) m).lookup
      q).getD [] = (m.lookup q).getD [] ++ (es.filter (·.1.pfx = q)).map (·.2) := by
  induction es generalizing m with
  | nil => simp
  | cons e es ih =>
    rw [List.foldl_cons, ih, List.filter_cons]
    by_cases hq : e.1.pfx = q
    · subst hq
      simp [AList.lookup_insert]
    · rw [AList.lookup_insert_ne (Ne.symm hq)]
      simp [hq]

theorem indexRoutes_indexed (routes : List Route) (q : Prefix) :
    ((indexRoutes routes).lookup q).getD [] = placesOf routes q := by
  rw [indexRoutes, lookup_indexRoutes]
  rfl

/-- The ways `NewRegistry` refuses. -/
inductive RegistryError
  | sourceName
  | noCorpus
  | policyDropped
deriving DecidableEq, Repr

def newRegistry {σ : Type} (name : Text) (c : Option (Corpus σ)) :
    Except RegistryError (Registry σ) :=
  match parseSourceName name with
  | none => .error .sourceName
  | some n =>
    match c with
    | none => .error .noCorpus
    | some c =>
      if !c.keepPolicy && !c.indexPeers then .error .policyDropped
      else
        .ok {
          name := n
          src := c.sourceOf n
          routes := sortRoutes n c.routes
          byPrefix := indexRoutes (sortRoutes n c.routes)
          sorted := sortRoutes_sorted n c.routes
          indexed := indexRoutes_indexed _ }

end Rpsl.Irrdq
