import Rpsl.Irrdq.Search
import Rpsl.Types.Proof.AddrRange

/-!
# Route searches are exact

`Selects` says which prefixes a mode selects, in terms of what covers what. A search offers its
consumer, registry by registry, the visible routes with such a prefix, in the registry's order and
each once (`search_eq`): the index finds those of a prefix, and the routes more specific than a
prefix stand together in the sorted routes, from the first that is not before it.
-/

namespace Rpsl.Irrdq

open Lib

variable {σ τ : Type}

/-! ## The meaning -/

/-- `q` lies strictly under `p`. -/
def StrictlyCovers (p q : Prefix) : Prop := p.Covers q ∧ p.bits < q.bits

namespace Snapshot

variable (snap : Snapshot)

/-- Some registry has a visible route for the prefix. -/
def Holds (regs : List (Registry σ)) (q : Prefix) : Prop :=
  ∃ r ∈ regs, ∃ rt ∈ r.routes, snap.visible r rt = true ∧ rt.pfx = q

/-- The prefixes a mode selects for `p`. -/
def Selects (regs : List (Registry σ)) (p : Prefix) : Mode → Prefix → Prop
  | .exact, q => q = p
  | .allLess, q => q.Covers p
  | .oneLess, q => StrictlyCovers q p ∧ snap.Holds regs q ∧
      ∀ q', StrictlyCovers q' p → snap.Holds regs q' → q'.bits ≤ q.bits
  | .more, q => StrictlyCovers p q

open Classical in
/-- A registry's visible routes with a selected prefix, in its order. -/
noncomputable def selected (regs : List (Registry σ)) (p : Prefix) (mode : Mode) (r : Registry σ) :
    List Route :=
  r.routes.filter fun rt => snap.visible r rt = true ∧ snap.Selects regs p mode rt.pfx

end Snapshot

/-! ## Places -/

def placesWhere (routes : List Route) (P : Route → Bool) : List Nat :=
  (routes.zipIdx.filter (P ·.1)).map (·.2)

theorem Registry.places_eq (r : Registry σ) (q : Prefix) :
    r.places q = placesWhere r.routes (·.pfx = q) := r.indexed q

theorem mem_placesWhere {routes : List Route} {P : Route → Bool} {i : Nat} :
    i ∈ placesWhere routes P ↔ ∃ rt, routes[i]? = some rt ∧ P rt = true := by
  unfold placesWhere
  simp only [List.mem_map, List.mem_filter, Prod.exists, List.mem_zipIdx_iff_getElem?]
  constructor
  · intro h
    obtain ⟨rt, j, ⟨hj, hP⟩, rfl⟩ := h
    exact ⟨rt, hj, hP⟩
  · intro h
    obtain ⟨rt, hi, hP⟩ := h
    exact ⟨rt, i, ⟨hi, hP⟩, rfl⟩

theorem placesWhere_pairwise (routes : List Route) (P : Route → Bool) :
    (placesWhere routes P).Pairwise (· < ·) := by
  have hidx : (routes.zipIdx.map (·.2)).Pairwise (· < ·) := by
    rw [List.zipIdx_map_snd]
    exact List.pairwise_lt_range'
  exact hidx.sublist (List.filter_sublist.map _)

theorem entriesAt_placesWhere (r : Registry σ) (P : Route → Bool) :
    Snapshot.entriesAt r (placesWhere r.routes P) = (r.routes.filter P).map (Entry.mk r) := by
  have hmap : ∀ es : List (Route × Nat), (∀ e ∈ es, r.routes[e.2]? = some e.1) →
      Snapshot.entriesAt r (es.map (·.2)) = (es.map (·.1)).map (Entry.mk r) := by
    intro es hes
    unfold Snapshot.entriesAt
    induction es with
    | nil => rfl
    | cons e es ih =>
      rw [List.map_cons, List.filterMap_cons, hes e List.mem_cons_self]
      exact congrArg _ (ih fun e' he' => hes e' (List.mem_cons_of_mem _ he'))
  have hfst : (r.routes.zipIdx.filter (P ·.1)).map (·.1) = r.routes.filter P := by
    conv_rhs => rw [← List.zipIdx_map_fst 0 r.routes, List.filter_map]
    rfl
  rw [placesWhere, hmap, hfst]
  intro e he
  exact List.mem_zipIdx_iff_getElem?.1 (List.mem_filter.1 he).1

/-! ## Less specific prefixes -/

theorem covers_iff_up {p q : Prefix} (hq : q.masked = q) :
    q.Covers p ↔ ∃ k ≤ p.bits, q = p.up k := by
  constructor
  · intro h
    have hbits := h.bits_le
    refine ⟨q.bits, hbits, Prefix.ext_path hq (Prefix.up_masked p _) h.1 ?_⟩
    rw [Prefix.up_path, ← Prefix.path_length q]
    exact List.prefix_iff_eq_take.1 h.2
  · intro h
    obtain ⟨k, -, rfl⟩ := h
    exact Prefix.up_covers p k

theorem strictlyCovers_iff_up {p q : Prefix} (hq : q.masked = q) :
    StrictlyCovers q p ↔ ∃ k < p.bits, q = p.up k := by
  constructor
  · intro h
    obtain ⟨k, hk, rfl⟩ := (covers_iff_up hq).1 h.1
    have hlt := h.2
    rw [Prefix.up_bits p hk] at hlt
    exact ⟨k, hlt, rfl⟩
  · intro h
    obtain ⟨k, hk, rfl⟩ := h
    refine ⟨Prefix.up_covers p k, ?_⟩
    rw [Prefix.up_bits p hk.le]
    exact hk

namespace Snapshot

variable (snap : Snapshot)

theorem visibleAt_iff {r : Registry σ} {i : Nat} {rt : Route} (h : r.routes[i]? = some rt) :
    snap.visibleAt r i = snap.visible r rt := by
  rw [visibleAt, h]
  rfl

theorem mem_placesLess {r : Registry σ} {p : Prefix} {i : Nat} :
    i ∈ snap.placesLess r p ↔
      ∃ rt, r.routes[i]? = some rt ∧ snap.visible r rt = true ∧ rt.pfx.Covers p := by
  unfold placesLess
  simp only [List.mem_flatMap, List.mem_range, List.mem_filter, Registry.places_eq,
    mem_placesWhere, decide_eq_true_eq]
  constructor
  · intro h
    obtain ⟨k, -, ⟨rt, hi, hq⟩, hv⟩ := h
    rw [snap.visibleAt_iff hi] at hv
    exact ⟨rt, hi, hv, hq ▸ Prefix.up_covers p k⟩
  · intro h
    obtain ⟨rt, hi, hv, hc⟩ := h
    obtain ⟨k, hk, hq⟩ := (covers_iff_up rt.masked).1 hc
    exact ⟨k, by omega, ⟨rt, hi, hq⟩, by rw [snap.visibleAt_iff hi, hv]⟩

theorem placesLess_nodup (r : Registry σ) (p : Prefix) : (snap.placesLess r p).Nodup := by
  unfold placesLess
  rw [List.nodup_flatMap]
  constructor
  · intro k _
    rw [r.places_eq]
    exact ((placesWhere_pairwise _ _).imp fun h => h.ne).filter _
  · apply List.Pairwise.imp_of_mem _ List.nodup_range
    intro k l hk hl hne i hik hil
    -- one place has one prefix, and two lengths have two
    dsimp only at hik hil
    rw [r.places_eq, List.mem_filter, mem_placesWhere] at hik hil
    obtain ⟨⟨rt, hi, hqk⟩, -⟩ := hik
    obtain ⟨⟨rt', hi', hql⟩, -⟩ := hil
    cases hi.symm.trans hi'
    rw [List.mem_range] at hk hl
    apply hne
    have heq := congrArg Prefix.bits ((of_decide_eq_true hqk).symm.trans (of_decide_eq_true hql))
    rwa [Prefix.up_bits p (by omega), Prefix.up_bits p (by omega)] at heq

theorem sort_placesLess (r : Registry σ) (p : Prefix) (P : Route → Bool)
    (hP : ∀ rt ∈ r.routes, P rt = true ↔ snap.visible r rt = true ∧ rt.pfx.Covers p) :
    (snap.placesLess r p).mergeSort (· ≤ ·) = placesWhere r.routes P := by
  have hperm := List.mergeSort_perm (snap.placesLess r p) (· ≤ ·)
  have hle : ((snap.placesLess r p).mergeSort (· ≤ ·)).Pairwise (· ≤ ·) := by
    have h := @List.pairwise_mergeSort Nat (fun a b => decide (a ≤ b))
      (by intro a b c; simp; omega) (by intro a b; simp; omega) (snap.placesLess r p)
    exact h.imp fun h => of_decide_eq_true h
  have hlt : ((snap.placesLess r p).mergeSort (· ≤ ·)).Pairwise (· < ·) := by
    have hne : ((snap.placesLess r p).mergeSort (· ≤ ·)).Nodup :=
      hperm.nodup_iff.2 (snap.placesLess_nodup r p)
    exact (hle.and hne).imp fun h => lt_of_le_of_ne h.1 h.2
  apply hlt.eq_of_mem_iff (placesWhere_pairwise _ _)
  intro i
  rw [hperm.mem_iff, mem_placesLess, mem_placesWhere]
  constructor
  · intro h
    obtain ⟨rt, hi, h⟩ := h
    exact ⟨rt, hi, (hP rt (List.mem_of_getElem? hi)).2 h⟩
  · intro h
    obtain ⟨rt, hi, h⟩ := h
    exact ⟨rt, hi, (hP rt (List.mem_of_getElem? hi)).1 h⟩

def HasUp (r : Registry σ) (p : Prefix) (k : Nat) : Prop :=
  ∃ rt ∈ r.routes, snap.visible r rt = true ∧ rt.pfx = p.up k

theorem any_visibleAt (r : Registry σ) (p : Prefix) (k : Nat) :
    (r.places (p.up k)).any (snap.visibleAt r) = true ↔ snap.HasUp r p k := by
  rw [List.any_eq_true, r.places_eq]
  simp only [mem_placesWhere, decide_eq_true_eq]
  constructor
  · intro h
    obtain ⟨i, ⟨rt, hi, hq⟩, hv⟩ := h
    rw [snap.visibleAt_iff hi] at hv
    exact ⟨rt, List.mem_of_getElem? hi, hv, hq⟩
  · intro h
    obtain ⟨rt, hrt, hv, hq⟩ := h
    obtain ⟨i, hi⟩ := List.mem_iff_getElem?.1 hrt
    exact ⟨i, ⟨rt, hi, hq⟩, by rw [snap.visibleAt_iff hi, hv]⟩

theorem bestBelow_spec (r : Registry σ) (p : Prefix) (best : Int) (n : Nat) :
    best ≤ snap.bestBelow r p best n ∧
      (∀ k < n, snap.HasUp r p k → (k : Int) ≤ snap.bestBelow r p best n) ∧
      (snap.bestBelow r p best n = best ∨
        ∃ k < n, snap.bestBelow r p best n = k ∧ snap.HasUp r p k) := by
  induction n with
  | zero => exact ⟨le_rfl, fun k hk => absurd hk (Nat.not_lt_zero k), .inl rfl⟩
  | succ n ih =>
    unfold bestBelow
    split
    · rename_i hle
      exact ⟨le_rfl, fun k hk _ => by omega, .inl rfl⟩
    · rename_i hlt
      split
      · rename_i hany
        refine ⟨by omega, fun k hk _ => by omega, .inr ⟨n, by omega, rfl, ?_⟩⟩
        exact (snap.any_visibleAt r p n).1 hany
      · rename_i hnone
        obtain ⟨hge, hmax, hor⟩ := ih
        refine ⟨hge, ?_, ?_⟩
        · intro k hk hhas
          have hne : k ≠ n := by
            intro h
            subst h
            exact hnone ((snap.any_visibleAt r p k).2 hhas)
          exact hmax k (by omega) hhas
        · rcases hor with hor | hor
          · exact .inl hor
          · obtain ⟨k, hk, hor⟩ := hor
            exact .inr ⟨k, by omega, hor⟩

theorem foldl_best_spec (regs : List (Registry σ)) (p : Prefix) (best : Int) :
    let b := regs.foldl (fun best r => snap.bestBelow r p best p.bits) best
    best ≤ b ∧ (∀ r ∈ regs, ∀ k < p.bits, snap.HasUp r p k → (k : Int) ≤ b) ∧
      (b = best ∨ ∃ r ∈ regs, ∃ k < p.bits, b = k ∧ snap.HasUp r p k) := by
  induction regs generalizing best with
  | nil => exact ⟨le_rfl, fun r hr => absurd hr List.not_mem_nil, .inl rfl⟩
  | cons r regs ih =>
    obtain ⟨hge, hmax, hor⟩ := snap.bestBelow_spec r p best p.bits
    obtain ⟨hge', hmax', hor'⟩ := ih (snap.bestBelow r p best p.bits)
    refine ⟨hge.trans hge', ?_, ?_⟩
    · intro r' hr' k hk hhas
      rcases List.mem_cons.1 hr' with rfl | hr'
      · exact (hmax k hk hhas).trans hge'
      · exact hmax' r' hr' k hk hhas
    · rcases hor' with hor' | hor'
      · rcases hor with hor | hor
        · exact .inl (hor'.trans hor)
        · obtain ⟨k, hk, heq, hhas⟩ := hor
          exact .inr ⟨r, List.mem_cons_self, k, hk, hor'.trans heq, hhas⟩
      · obtain ⟨r', hr', hor'⟩ := hor'
        exact .inr ⟨r', List.mem_cons_of_mem _ hr', hor'⟩

theorem best_spec (regs : List (Registry σ)) (p : Prefix) :
    (∀ r ∈ regs, ∀ k < p.bits, snap.HasUp r p k → (k : Int) ≤ snap.best regs p) ∧
      (snap.best regs p = -1 ∨
        ∃ r ∈ regs, ∃ k < p.bits, snap.best regs p = k ∧ snap.HasUp r p k) :=
  (snap.foldl_best_spec regs p (-1)).2

theorem holds_up_iff {regs : List (Registry σ)} {p : Prefix} {k : Nat} :
    snap.Holds regs (p.up k) ↔ ∃ r ∈ regs, snap.HasUp r p k := Iff.rfl

theorem Holds.masked {snap : Snapshot} {regs : List (Registry σ)} {q : Prefix}
    (h : snap.Holds regs q) : q.masked = q := by
  obtain ⟨r, -, rt, -, -, rfl⟩ := h
  exact rt.masked

theorem selects_oneLess_iff (regs : List (Registry σ)) (p q : Prefix) :
    snap.Selects regs p .oneLess q ↔
      0 ≤ snap.best regs p ∧ q = p.up (snap.best regs p).toNat := by
  obtain ⟨hmax, hor⟩ := snap.best_spec regs p
  constructor
  · intro h
    obtain ⟨hcov, hholds, hlongest⟩ := h
    obtain ⟨k, hk, rfl⟩ := (strictlyCovers_iff_up hholds.masked).1 hcov
    obtain ⟨r, hr, hhas⟩ := snap.holds_up_iff.1 hholds
    have hle := hmax r hr k hk hhas
    rcases hor with hor | hor
    · omega
    · obtain ⟨r', hr', l, hl, heq, hhas'⟩ := hor
      have hcov' := (strictlyCovers_iff_up (Prefix.up_masked p l)).2 ⟨l, hl, rfl⟩
      have hlk := hlongest (p.up l) hcov' (snap.holds_up_iff.2 ⟨r', hr', hhas'⟩)
      rw [Prefix.up_bits p hl.le, Prefix.up_bits p hk.le] at hlk
      have hkl : k = l := by omega
      rw [heq, hkl]
      exact ⟨by omega, rfl⟩
  · intro h
    obtain ⟨hpos, rfl⟩ := h
    rcases hor with hor | hor
    · omega
    · obtain ⟨r, hr, k, hk, heq, hhas⟩ := hor
      rw [heq, Int.toNat_natCast]
      refine ⟨(strictlyCovers_iff_up (Prefix.up_masked p k)).2 ⟨k, hk, rfl⟩,
        snap.holds_up_iff.2 ⟨r, hr, hhas⟩, ?_⟩
      intro q' hcov' hholds'
      obtain ⟨l, hl, rfl⟩ := (strictlyCovers_iff_up hholds'.masked).1 hcov'
      obtain ⟨r', hr', hhas'⟩ := snap.holds_up_iff.1 hholds'
      have hle := hmax r' hr' l hl hhas'
      rw [Prefix.up_bits p hl.le, Prefix.up_bits p hk.le]
      omega

end Snapshot

/-! ## More specific prefixes -/

theorem prefixKey_le_iff {p q : Prefix} : prefixKey p ≤ prefixKey q ↔
    p.bitLen < q.bitLen ∨ p.bitLen = q.bitLen ∧ (p.addr.val.toNat < q.addr.val.toNat ∨
      p.addr.val.toNat = q.addr.val.toNat ∧ p.bits ≤ q.bits) := by
  rw [prefixKey, prefixKey, Prod.Lex.toLex_le_toLex, Prod.Lex.toLex_le_toLex]

theorem prefixCmp_bne_lt {p q : Prefix} :
    (prefixCmp q p != .lt) = true ↔ prefixKey p ≤ prefixKey q := by
  rw [bne_iff_ne, ne_eq, prefixCmp_eq, cmp_eq_lt_iff, not_lt]

theorem prefixKey_le_of_routeCmp {a b : Route} (h : routeCmp a b ≠ .gt) :
    prefixKey a.pfx ≤ prefixKey b.pfx := by
  have hle := routeCmp_ne_gt.1 h
  rw [routeKey, routeKey, Prod.Lex.toLex_le_toLex] at hle
  rcases hle with hlt | heq
  · exact hlt.le
  · exact heq.1.le

theorem bitLen_inj {p q : Prefix} : p.bitLen = q.bitLen ↔ p.fam = q.fam := by
  unfold Prefix.bitLen Addr.bitLen Prefix.fam
  cases p.addr.fam <;> cases q.addr.fam <;> decide

def Inside (p : Prefix) (rt : Route) : Prop :=
  rt.pfx.is4 = p.is4 ∧ p.contains rt.pfx.addr = true

instance (p : Prefix) : DecidablePred (Inside p) := fun rt => by
  unfold Inside
  infer_instance

section More

variable {p : Prefix} {rt rt' : Route}

theorem strictlyCovers_iff_inside :
    StrictlyCovers p rt.pfx ↔ Inside p rt ∧ p.bits < rt.pfx.bits := by
  unfold StrictlyCovers Inside
  constructor
  · intro h
    have hin := (Prefix.contains_masked_iff h.2.le).2 h.1
    rw [rt.masked] at hin
    exact ⟨⟨by unfold Prefix.is4; rw [h.1.1], hin⟩, h.2⟩
  · intro h
    have hin := h.1.2
    rw [← rt.masked] at hin
    exact ⟨(Prefix.contains_masked_iff h.2.le).1 hin, h.2⟩

variable (hp : p.masked = p)
include hp

theorem inside_iff : Inside p rt ↔ rt.pfx.fam = p.fam ∧
    p.addr.val.toNat ≤ rt.pfx.addr.val.toNat ∧
    rt.pfx.addr.val.toNat < (AddrRange.blockOf p).stop := by
  have hstart := AddrRange.masked_toNat p
  rw [hp] at hstart
  unfold Inside
  rw [AddrRange.contains_iff, Block.Has, ← hstart]
  constructor
  · intro h
    exact ⟨h.2.1, h.2.2⟩
  · intro h
    have hfam : rt.pfx.fam = p.fam := h.1
    exact ⟨by unfold Prefix.is4; rw [hfam], h⟩

theorem inside_of_le (hge : prefixKey p ≤ prefixKey rt.pfx)
    (hle : prefixKey rt.pfx ≤ prefixKey rt'.pfx) (h : Inside p rt') : Inside p rt := by
  rw [inside_iff hp] at h ⊢
  obtain ⟨hfam, -, hlt⟩ := h
  have hlen := bitLen_inj.2 hfam
  rw [prefixKey_le_iff] at hge hle
  have hfam' : rt.pfx.fam = p.fam := bitLen_inj.1 (by omega)
  exact ⟨hfam', by omega, by omega⟩

theorem prefixKey_le_of_strictlyCovers (h : StrictlyCovers p rt.pfx) :
    prefixKey p ≤ prefixKey rt.pfx := by
  obtain ⟨hin, hbits⟩ := strictlyCovers_iff_inside.1 h
  obtain ⟨hfam, hle, -⟩ := (inside_iff hp).1 hin
  rw [prefixKey_le_iff]
  have hlen := bitLen_inj.2 hfam
  omega

end More

theorem takeWhile_eq_filter {α : Type} {P : α → Bool} {l : List α}
    (h : l.Pairwise fun a b => P b = true → P a = true) : l.takeWhile P = l.filter P := by
  induction l with
  | nil => rfl
  | cons a l ih =>
    obtain ⟨ha, hl⟩ := List.pairwise_cons.1 h
    rw [List.takeWhile_cons, List.filter_cons]
    cases hPa : P a with
    | true => rw [if_pos rfl, if_pos rfl, ih hl]
    | false =>
      rw [if_neg Bool.false_ne_true, if_neg Bool.false_ne_true, eq_comm, List.filter_eq_nil_iff]
      intro b hb hPb
      rw [ha b hb hPb] at hPa
      cases hPa

namespace Registry

theorem prefixKey_le (r : Registry σ) {i j : Nat} {a b : Route} (hij : i ≤ j)
    (ha : r.routes[i]? = some a) (hb : r.routes[j]? = some b) :
    prefixKey a.pfx ≤ prefixKey b.pfx := by
  rcases Nat.lt_or_eq_of_le hij with hlt | rfl
  · obtain ⟨hi, rfl⟩ := List.getElem?_eq_some_iff.1 ha
    obtain ⟨hj, rfl⟩ := List.getElem?_eq_some_iff.1 hb
    exact prefixKey_le_of_routeCmp (List.pairwise_iff_getElem.1 r.sorted i j hi hj hlt)
  · cases ha.symm.trans hb
    exact le_rfl

theorem notBefore_spec (r : Registry σ) (p : Prefix) :
    (∀ rt ∈ r.routes.take (r.notBefore p), ¬ prefixKey p ≤ prefixKey rt.pfx) ∧
      ∀ rt ∈ r.routes.drop (r.notBefore p), prefixKey p ≤ prefixKey rt.pfx := by
  have hat : ∀ {i : Nat} {rt : Route}, r.routes[i]? = some rt →
      ((r.routes[i]?.any fun rt => prefixCmp rt.pfx p != .lt) = true ↔
        prefixKey p ≤ prefixKey rt.pfx) := by
    intro i rt hi
    rw [hi]
    exact prefixCmp_bne_lt
  obtain ⟨-, hlow, hhigh⟩ := search_spec (n := r.routes.length)
    (f := fun i => r.routes[i]?.any fun rt => prefixCmp rt.pfx p != .lt) (by
      intro i j hij hj hi
      have hgi := List.getElem?_eq_getElem (hij.trans_lt hj)
      have hgj := List.getElem?_eq_getElem hj
      exact (hat hgj).2 (((hat hgi).1 hi).trans (r.prefixKey_le hij hgi hgj)))
  constructor
  · intro rt hrt hle
    obtain ⟨i, hi⟩ := List.mem_iff_getElem?.1 hrt
    rw [List.getElem?_take] at hi
    split at hi
    · rename_i hlt
      exact Bool.eq_false_iff.1 (hlow i hlt) ((hat hi).2 hle)
    · cases hi
  · intro rt hrt
    obtain ⟨i, hi⟩ := List.mem_iff_getElem?.1 hrt
    rw [List.getElem?_drop] at hi
    obtain ⟨hlt, -⟩ := List.getElem?_eq_some_iff.1 hi
    exact (hat hi).1 (hhigh _ (Nat.le_add_right _ i) hlt)

theorem takeWhile_inside (r : Registry σ) {p : Prefix} (hp : p.masked = p) :
    (r.routes.drop (r.notBefore p)).takeWhile (Inside p ·) =
      (r.routes.drop (r.notBefore p)).filter (Inside p ·) := by
  apply takeWhile_eq_filter
  refine (r.sorted.sublist (List.drop_sublist _ _)).imp_of_mem ?_
  intro a b ha _ hab hb
  apply decide_eq_true
  exact inside_of_le hp ((r.notBefore_spec p).2 a ha) (prefixKey_le_of_routeCmp hab)
    (of_decide_eq_true hb)

end Registry

namespace Snapshot

variable (snap : Snapshot) (yield : Entry σ → τ → Bool × τ)

theorem served_mk (r : Registry σ) (rt : Route) : snap.served ⟨r, rt⟩ = snap.visible r rt := rfl

theorem scan_eq (r : Registry σ) (p : Prefix) (rts : List Route) (t : τ) :
    snap.scan yield r p rts t = offer yield
      (((rts.takeWhile (Inside p ·)).filter fun rt =>
        p.bits < rt.pfx.bits ∧ snap.visible r rt = true).map (Entry.mk r)) t := by
  induction rts generalizing t with
  | nil => rfl
  | cons rt rts ih =>
    unfold scan
    rw [served_mk]
    by_cases hin : Inside p rt
    · rw [if_neg, List.takeWhile_cons_of_pos (by simpa using hin), List.filter_cons]
      · by_cases hsel : p.bits < rt.pfx.bits ∧ snap.visible r rt = true
        · rw [if_pos hsel, if_pos (decide_eq_true hsel), List.map_cons, offer]
          cases hy : yield ⟨r, rt⟩ t with
          | mk go t' =>
            cases go with
            | true => exact ih t'
            | false => rfl
        · rw [if_neg hsel, if_neg (by simpa using hsel)]
          exact ih t
      · unfold Inside at hin
        simp [hin.1, hin.2]
    · rw [if_pos, List.takeWhile_cons_of_neg (by simpa using hin)]
      · rfl
      · unfold Inside at hin
        rcases not_and_or.1 hin with h | h
        · exact .inl h
        · exact .inr (Bool.eq_false_iff.2 h)

theorem more_eq (r : Registry σ) {p : Prefix} (hp : p.masked = p) (t : τ) (P : Route → Bool)
    (hP : ∀ rt ∈ r.routes, P rt = true ↔ snap.visible r rt = true ∧ StrictlyCovers p rt.pfx) :
    snap.more yield r p t = offer yield ((r.routes.filter P).map (Entry.mk r)) t := by
  have htake : (r.routes.take (r.notBefore p)).filter P = [] := by
    rw [List.filter_eq_nil_iff]
    intro rt hrt hPrt
    have hsel := ((hP rt (List.mem_of_mem_take hrt)).1 hPrt).2
    exact (r.notBefore_spec p).1 rt hrt (prefixKey_le_of_strictlyCovers hp hsel)
  have hsplit : r.routes.filter P = (r.routes.drop (r.notBefore p)).filter P := by
    conv_lhs => rw [← List.take_append_drop (r.notBefore p) r.routes, List.filter_append, htake]
    rfl
  rw [more, scan_eq, r.takeWhile_inside hp, List.filter_filter, hsplit]
  congr 2
  apply List.filter_congr
  intro rt hrt
  rw [Bool.eq_iff_iff, hP rt (List.mem_of_mem_drop hrt), strictlyCovers_iff_inside]
  simp only [Bool.and_eq_true, decide_eq_true_eq]
  tauto

theorem exact_eq (r : Registry σ) (q : Prefix) (t : τ) (P : Route → Bool)
    (hP : ∀ rt ∈ r.routes, P rt = true ↔ snap.visible r rt = true ∧ rt.pfx = q) :
    snap.exact yield r q t = offer yield ((r.routes.filter P).map (Entry.mk r)) t := by
  rw [exact, offer_skip, r.places_eq, entriesAt_placesWhere, List.filter_map, List.filter_filter]
  congr 2
  apply List.filter_congr
  intro rt hrt
  rw [Bool.eq_iff_iff, hP rt hrt, Bool.and_eq_true, decide_eq_true_eq]
  exact Iff.rfl

theorem allLess_eq (r : Registry σ) (p : Prefix) (t : τ) (P : Route → Bool)
    (hP : ∀ rt ∈ r.routes, P rt = true ↔ snap.visible r rt = true ∧ rt.pfx.Covers p) :
    snap.allLess yield r p t = offer yield ((r.routes.filter P).map (Entry.mk r)) t := by
  rw [allLess, snap.sort_placesLess r p P hP, entriesAt_placesWhere]

/-! ## The search -/

open Classical in
theorem mem_selected {regs : List (Registry σ)} {p : Prefix} {mode : Mode} {r : Registry σ}
    {rt : Route} : rt ∈ snap.selected regs p mode r ↔
      rt ∈ r.routes ∧ snap.visible r rt = true ∧ snap.Selects regs p mode rt.pfx := by
  rw [selected, List.mem_filter, decide_eq_true_eq]

/-- **Route searches are exact**: a search offers its consumer, for each registry in the given
order, the visible routes whose prefix the mode selects, sorted and each as often as the registry
has it. -/
theorem search_eq (regs : List (Registry σ)) (p : Net) (mode : Mode) (t : τ) :
    (∀ r, (snap.selected regs p mode r).Sublist r.routes ∧
      (snap.selected regs p mode r).Pairwise fun a b => routeCmp a b ≠ .gt) ∧
    snap.search yield regs p mode t =
      (offer yield (regs.flatMap fun r => (snap.selected regs p mode r).map (Entry.mk r)) t).2 := by
  classical
  constructor
  · intro r
    exact ⟨List.filter_sublist, r.sorted.sublist List.filter_sublist⟩
  · have hP : ∀ (r : Registry σ), ∀ rt ∈ r.routes,
        decide (snap.visible r rt = true ∧ snap.Selects regs p mode rt.pfx) = true ↔
          snap.visible r rt = true ∧ snap.Selects regs p mode rt.pfx :=
      fun r rt _ => decide_eq_true_iff
    rw [← offer_flatMap]
    unfold search
    cases mode with
    | exact =>
      dsimp only
      congr 2
      funext r t
      exact snap.exact_eq yield r p t _ (hP r)
    | allLess =>
      dsimp only
      congr 2
      funext r t
      exact snap.allLess_eq yield r p t _ (hP r)
    | more =>
      dsimp only
      congr 2
      funext r t
      exact snap.more_eq yield r p.2 t _ (hP r)
    | oneLess =>
      dsimp only
      split
      · rename_i hbest
        congr 2
        funext r t
        apply snap.exact_eq yield r _ t
        intro rt hrt
        rw [hP r rt hrt, selects_oneLess_iff]
        tauto
      · rename_i hbest
        rw [offer_flatMap]
        have hnone : (regs.flatMap fun r =>
            (snap.selected regs p .oneLess r).map (Entry.mk r)) = [] := by
          rw [List.flatMap_eq_nil_iff]
          intro r _
          rw [List.map_eq_nil_iff, List.eq_nil_iff_forall_not_mem]
          intro rt hrt
          obtain ⟨-, -, hsel⟩ := snap.mem_selected.1 hrt
          exact hbest ((snap.selects_oneLess_iff regs p rt.pfx).1 hsel).1
        rw [hnone, offer]

end Snapshot

end Rpsl.Irrdq
