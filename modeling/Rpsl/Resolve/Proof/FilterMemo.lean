import Rpsl.Resolve.FilterMemo

/-!
# The memo's pools keep within their bound

In every memo of a chain, the map and the two lists hold the same answers, and each pool holds what
its answers weigh (`Bounded`). The eviction loop cuts off the back of a list (`evict_spec`). An
answer that is kept weighs no more than a quarter of the bound, so the loop ends before it has cut
off all.
-/

namespace Rpsl.Resolve.FilterMemo

variable {ε : Type} {m : FilterMemo ε} {a : FilterAnswer ε} {k : FilterKey}

def weights (l : List (Elem ε)) : Int := (l.map fun el => el.value.weight).sum

theorem weights_perm {l l' : List (Elem ε)} (h : l.Perm l') : weights l = weights l' :=
  (h.map _).sum_eq

theorem weights_nonneg {l : List (Elem ε)} (h : ∀ el ∈ l, 1 ≤ el.value.weight) :
    0 ≤ weights l := by
  refine List.sum_nonneg fun w hw => ?_
  obtain ⟨el, hel, rfl⟩ := List.mem_map.1 hw
  exact Int.le_trans (by decide) (h el hel)

/-- One kind of answers: those listed are the map's, each once, and their weight is what is held. -/
structure PoolOk (m : FilterMemo ε) (asns : Bool) : Prop where
  listed : ∀ el ∈ (m.pool asns).lru, el.value.key.asns = asns ∧ m.entries el.value.key = some el
  once : ((m.pool asns).lru.map Elem.id).Nodup
  fresh : ∀ el ∈ (m.pool asns).lru, el.id < m.next
  held : (m.pool asns).held = weights (m.pool asns).lru
  bound : 0 ≤ (m.pool asns).held ∧ (m.pool asns).held ≤ Max.max 0 m.max
  light : ∀ el ∈ (m.pool asns).lru, 1 ≤ el.value.weight ∧ el.value.weight ≤ m.max.tdiv 4

structure Bounded (m : FilterMemo ε) : Prop where
  pools : ∀ asns, m.PoolOk asns
  found : ∀ k el, m.entries k = some el → el.value.key = k ∧ el ∈ (m.pool k.asns).lru

@[simp] theorem setPool_entries (asns : Bool) (p : MemoPool ε) :
    (m.setPool asns p).entries = m.entries := by
  cases asns <;> rfl

@[simp] theorem setPool_max (asns : Bool) (p : MemoPool ε) : (m.setPool asns p).max = m.max := by
  cases asns <;> rfl

@[simp] theorem setPool_next (asns : Bool) (p : MemoPool ε) :
    (m.setPool asns p).next = m.next := by
  cases asns <;> rfl

@[simp] theorem pool_setPool (asns : Bool) (p : MemoPool ε) : (m.setPool asns p).pool asns = p := by
  cases asns <;> rfl

theorem pool_setPool_of_ne {asns asns' : Bool} (h : asns' ≠ asns) (p : MemoPool ε) :
    (m.setPool asns p).pool asns' = m.pool asns' := by
  cases asns <;> cases asns' <;> first | rfl | exact absurd rfl h

theorem PoolOk.perm {m' : FilterMemo ε} {asns : Bool} (h : m.PoolOk asns)
    (hlru : (m'.pool asns).lru.Perm (m.pool asns).lru)
    (hheld : (m'.pool asns).held = (m.pool asns).held) (hmax : m'.max = m.max)
    (hnext : m.next ≤ m'.next) (hentries : ∀ k, k.asns = asns → m'.entries k = m.entries k) :
    m'.PoolOk asns := by
  refine ⟨fun x hx => ?_, (hlru.map _).nodup_iff.2 h.once, fun x hx => ?_, ?_, ?_, fun x hx => ?_⟩
  · obtain ⟨hkind, hx⟩ := h.listed x (hlru.mem_iff.1 hx)
    exact ⟨hkind, (hentries _ hkind).trans hx⟩
  · exact (h.fresh x (hlru.mem_iff.1 hx)).trans_le hnext
  · rw [hheld, h.held, weights_perm hlru]
  · rw [hheld, hmax]
    exact h.bound
  · rw [hmax]
    exact h.light x (hlru.mem_iff.1 hx)

/-! ## Lookups -/

theorem moveToFront_perm {el : Elem ε} {l : List (Elem ε)} (hl : (l.map Elem.id).Nodup)
    (hel : el ∈ l) : (moveToFront el l).Perm l := by
  have hany : l.any (·.id == el.id) = true := List.any_eq_true.2 ⟨el, hel, beq_self_eq_true _⟩
  rw [moveToFront, if_pos hany]
  obtain ⟨x, l₁, l₂, -, hx, rfl, herase⟩ :=
    List.exists_of_eraseP (p := (·.id == el.id)) hel (beq_self_eq_true el.id)
  have hsame : x = el :=
    List.inj_on_of_nodup_map hl (by simp) hel (beq_iff_eq.1 hx)
  rw [herase, hsame]
  exact List.perm_middle.symm

theorem Bounded.touch (h : m.Bounded) {el : Elem ε} (hel : m.entries k = some el) :
    (m.touch k el).max = m.max ∧ (m.touch k el).Bounded := by
  have hpool : ∀ asns, ((m.touch k el).pool asns).lru.Perm (m.pool asns).lru ∧
      ((m.touch k el).pool asns).held = (m.pool asns).held := by
    intro asns
    unfold FilterMemo.touch
    by_cases hk : asns = k.asns
    · subst hk
      rw [pool_setPool]
      exact ⟨moveToFront_perm (h.pools k.asns).once (h.found k el hel).2, rfl⟩
    · rw [pool_setPool_of_ne hk]
      exact ⟨.rfl, rfl⟩
  have hentries : (m.touch k el).entries = m.entries := setPool_entries ..
  have hnext : (m.touch k el).next = m.next := setPool_next ..
  refine ⟨setPool_max .., fun asns => ?_, fun k' el' hel' => ?_⟩
  · exact (h.pools asns).perm (hpool asns).1 (hpool asns).2 (setPool_max ..)
      hnext.ge fun k _ => congrFun hentries k
  · rw [hentries] at hel'
    obtain ⟨hkey, hmem⟩ := h.found k' el' hel'
    exact ⟨hkey, (hpool k'.asns).1.mem_iff.2 hmem⟩

/-! ## Keeping an answer -/

theorem evict_spec {bound : Int} (hbound : 0 ≤ bound) (l : List (Elem ε))
    (entries : FilterKey → Option (Elem ε)) :
    ∃ out kept, l = out ++ kept ∧ weights kept ≤ bound ∧
      evict bound (weights l) entries l = some (⟨weights kept, kept.reverse⟩,
        fun k => if k ∈ out.map (·.value.key) then none else entries k) := by
  induction l generalizing entries with
  | nil => exact ⟨[], [], rfl, hbound, by simp [evict, weights, hbound]⟩
  | cons old back ih =>
    rw [evict]
    by_cases hover : bound < weights (old :: back)
    · obtain ⟨out, kept, rfl, hle, hev⟩ := ih (Function.update entries old.value.key none)
      refine ⟨old :: out, kept, rfl, hle, ?_⟩
      have hrest : weights (old :: (out ++ kept)) - old.value.weight = weights (out ++ kept) := by
        simp [weights]
      rw [if_pos hover, hrest, hev]
      congr 2
      funext k
      by_cases hk : k = old.value.key
      · simp [hk]
      · simp [hk]
    · exact ⟨[], old :: back, rfl, Int.not_lt.1 hover, by simp [hover]⟩

theorem mem_kept_iff {l out kept : List (Elem ε)} {entries : FilterKey → Option (Elem ε)}
    (hl : ∀ x ∈ l, entries x.value.key = some x) (hid : (l.map Elem.id).Nodup)
    (hcut : l.reverse = out ++ kept) {x : Elem ε} (hx : x ∈ l) :
    x ∈ kept ↔ x.value.key ∉ out.map (·.value.key) := by
  have hmem : ∀ y, y ∈ l ↔ y ∈ out ∨ y ∈ kept := fun y => by
    rw [← List.mem_reverse, hcut, List.mem_append]
  have hdisj : ∀ y ∈ out, y ∉ kept := by
    have hnodup : (out ++ kept).Nodup := hcut ▸ List.nodup_reverse.2 (List.Nodup.of_map _ hid)
    exact fun y hy hy' => (List.nodup_append.1 hnodup).2.2 y hy y hy' rfl
  refine ⟨fun hk hout => ?_, fun hno => ?_⟩
  · obtain ⟨y, hy, hkey⟩ := List.mem_map.1 hout
    have hsame : some y = some x := by
      rw [← hl y ((hmem y).2 (.inl hy)), ← hl x hx, hkey]
    exact hdisj y hy (Option.some.inj hsame ▸ hk)
  · exact ((hmem x).1 hx).resolve_left fun hout => hno (List.mem_map_of_mem hout)

theorem Bounded.pushed (h : m.Bounded) (hnew : m.entries a.key = none) :
    (∀ x ∈ ⟨m.next, a⟩ :: (m.pool a.key.asns).lru, x.value.key.asns = a.key.asns ∧
      Function.update m.entries a.key (some ⟨m.next, a⟩) x.value.key = some x) ∧
    ((⟨m.next, a⟩ :: (m.pool a.key.asns).lru).map Elem.id).Nodup := by
  have ho := h.pools a.key.asns
  refine ⟨fun x hx => ?_, ?_⟩
  · rcases List.mem_cons.1 hx with rfl | hx
    · exact ⟨rfl, Function.update_self ..⟩
    · obtain ⟨hkind, hheld⟩ := ho.listed x hx
      have hne : x.value.key ≠ a.key := by
        intro heq
        rw [heq, hnew] at hheld
        cases hheld
      exact ⟨hkind, (Function.update_of_ne hne ..).trans hheld⟩
  · refine List.nodup_cons.2 ⟨fun hmem => ?_, ho.once⟩
    obtain ⟨x, hx, hid⟩ := List.mem_map.1 hmem
    exact absurd (ho.fresh x hx) (by rw [hid]; exact Nat.lt_irrefl _)

theorem Bounded.keep (h : m.Bounded) (ha : 1 ≤ a.weight) :
    ∃ m', m.keep a = some m' ∧ m'.max = m.max ∧ m'.Bounded := by
  unfold FilterMemo.keep
  by_cases hheld : (m.entries a.key).isSome = true
  · exact ⟨m, if_pos hheld, rfl, h⟩
  rw [if_neg hheld]
  by_cases hheavy : m.max.tdiv 4 < a.weight
  · exact ⟨m, if_pos hheavy, rfl, h⟩
  rw [if_neg hheavy]
  have hnew : m.entries a.key = none := Option.not_isSome_iff_eq_none.1 hheld
  obtain ⟨hlisted, hid⟩ := h.pushed hnew
  have ho := h.pools a.key.asns
  have hlight : ∀ x ∈ ⟨m.next, a⟩ :: (m.pool a.key.asns).lru,
      1 ≤ x.value.weight ∧ x.value.weight ≤ m.max.tdiv 4 :=
    List.forall_mem_cons.2 ⟨⟨ha, Int.not_lt.1 hheavy⟩, ho.light⟩
  have hmax : 0 ≤ m.max := by
    by_contra hneg
    have hdiv : 0 ≤ (-m.max).tdiv 4 := Int.tdiv_nonneg (by omega) (by decide)
    rw [Int.neg_tdiv] at hdiv
    omega
  have hfresh : ∀ x ∈ ⟨m.next, a⟩ :: (m.pool a.key.asns).lru, x.id < m.next + 1 :=
    List.forall_mem_cons.2 ⟨Nat.lt_succ_self _, fun x hx => Nat.lt_succ_of_lt (ho.fresh x hx)⟩
  have hsum : (m.pool a.key.asns).held + a.weight =
      weights (⟨m.next, a⟩ :: (m.pool a.key.asns).lru).reverse := by
    rw [weights_perm (List.reverse_perm _), ho.held]
    simp [weights, Int.add_comm]
  obtain ⟨out, kept, hcut, hle, hev⟩ := evict_spec hmax
    (⟨m.next, a⟩ :: (m.pool a.key.asns).lru).reverse
    (Function.update m.entries a.key (some ⟨m.next, a⟩))
  dsimp only
  rw [hsum, hev]
  have hkept : ∀ x ∈ kept, x ∈ ⟨m.next, a⟩ :: (m.pool a.key.asns).lru := fun x hx =>
    List.mem_reverse.1 (hcut ▸ List.mem_append_right out hx)
  have hiff : ∀ x ∈ ⟨m.next, a⟩ :: (m.pool a.key.asns).lru,
      (x ∈ kept ↔ x.value.key ∉ out.map (·.value.key)) :=
    fun x hx => mem_kept_iff (fun x hx => (hlisted x hx).2) hid hcut hx
  have hout : ∀ k ∈ out.map (·.value.key), k.asns = a.key.asns := by
    intro k hk
    obtain ⟨x, hx, rfl⟩ := List.mem_map.1 hk
    exact (hlisted x (List.mem_reverse.1 (hcut ▸ List.mem_append_left kept hx))).1
  -- a key of the other kind keeps its entry
  have hother : ∀ k, k.asns ≠ a.key.asns →
      (if k ∈ out.map (·.value.key) then none
        else Function.update m.entries a.key (some ⟨m.next, a⟩) k) = m.entries k := by
    intro k hk
    rw [if_neg fun hmem => hk (hout k hmem)]
    exact Function.update_of_ne (fun heq => hk (congrArg FilterKey.asns heq)) _ _
  refine ⟨_, rfl, setPool_max .., fun asns => ?_, fun k x hx => ?_⟩
  · by_cases hk : asns = a.key.asns
    · subst hk
      refine ⟨fun x hx => ?_, ?_, fun x hx => ?_, ?_, ?_, fun x hx => ?_⟩
      · rw [pool_setPool] at hx
        have hx' := List.mem_reverse.1 hx
        obtain ⟨hkind, heq⟩ := hlisted x (hkept x hx')
        rw [setPool_entries]
        exact ⟨hkind, (if_neg ((hiff x (hkept x hx')).1 hx')).trans heq⟩
      · rw [pool_setPool, List.map_reverse, List.nodup_reverse]
        have hnodup := List.nodup_reverse.2 hid
        rw [← List.map_reverse, hcut, List.map_append] at hnodup
        exact (List.nodup_append.1 hnodup).2.1
      · rw [pool_setPool] at hx
        rw [setPool_next]
        exact hfresh x (hkept x (List.mem_reverse.1 hx))
      · rw [pool_setPool]
        exact (weights_perm (List.reverse_perm _)).symm
      · rw [pool_setPool, setPool_max]
        exact ⟨weights_nonneg fun x hx => (hlight x (hkept x hx)).1,
          hle.trans (le_max_right _ _)⟩
      · rw [pool_setPool] at hx
        rw [setPool_max]
        exact hlight x (hkept x (List.mem_reverse.1 hx))
    · refine (h.pools asns).perm ?_ ?_ (setPool_max ..) ?_ fun k hkind => ?_
      · rw [pool_setPool_of_ne hk]
        exact .rfl
      · rw [pool_setPool_of_ne hk]
        rfl
      · rw [setPool_next]
        exact Nat.le_succ _
      · rw [setPool_entries]
        exact hother k (hkind ▸ hk)
  · rw [setPool_entries] at hx
    dsimp only at hx
    by_cases hk : k.asns = a.key.asns
    · rw [hk, pool_setPool, List.mem_reverse]
      have hno : k ∉ out.map (·.value.key) := by
        intro hmem
        rw [if_pos hmem] at hx
        cases hx
      rw [if_neg hno] at hx
      have hpushed : x.value.key = k ∧ x ∈ ⟨m.next, a⟩ :: (m.pool a.key.asns).lru := by
        by_cases hkey : k = a.key
        · subst hkey
          rw [Function.update_self] at hx
          cases hx
          exact ⟨rfl, List.mem_cons_self⟩
        · rw [Function.update_of_ne hkey] at hx
          obtain ⟨heq, hmem⟩ := h.found k x hx
          exact ⟨heq, List.mem_cons_of_mem _ (hk ▸ hmem)⟩
      exact ⟨hpushed.1, (hiff x hpushed.2).2 (hpushed.1 ▸ hno)⟩
    · rw [pool_setPool_of_ne hk]
      exact h.found k x ((hother k hk).symm.trans hx)

/-! ## Chains -/

/-- A chain of memos with the bounds given, each within its own. -/
def Chain (bounds : List Int) (ms : List (FilterMemo ε)) : Prop :=
  List.Forall₂ (fun bound m => m.max = bound ∧ m.Bounded) bounds ms

variable {bounds : List Int} {ms : List (FilterMemo ε)} (memoizable : ε → Bool)

theorem Bounded.count (h : m.Bounded) (hits misses peers : Nat) :
    { m with hits := hits, misses := misses, peerDependent := peers }.Bounded :=
  ⟨fun asns => (h.pools asns).perm .rfl rfl rfl le_rfl fun _ _ => rfl, h.found⟩

theorem Chain.get (h : Chain bounds ms) (k : FilterKey) :
    ∃ a ms', get k ms = some (a, ms') ∧ Chain bounds ms' ∧ ∀ x ∈ a, 1 ≤ x.weight := by
  induction h with
  | nil => exact ⟨none, [], rfl, .nil, by simp⟩
  | @cons bound m bounds ms hm hms ih =>
    rw [FilterMemo.get]
    cases hel : m.entries k with
    | some el =>
      obtain ⟨hmax, hb⟩ := hm.2.touch hel
      refine ⟨_, _, rfl, .cons ⟨hmax.trans hm.1, hb⟩ hms, fun x hx => ?_⟩
      cases hx
      exact ((hm.2.pools k.asns).light el (hm.2.found k el hel).2).1
    | none =>
      obtain ⟨a, ms', hget, hchain, hweight⟩ := ih
      simp only [hget, Option.bind_eq_bind, Option.bind_some]
      cases a with
      | none => exact ⟨none, _, rfl, .cons ⟨hm.1, hm.2.count _ _ _⟩ hchain, hweight⟩
      | some a =>
        obtain ⟨m', hkeep, hmax, hb⟩ := (hm.2.count (m.hits + 1) m.misses m.peerDependent).keep
          (hweight a rfl)
        refine ⟨some a, m' :: ms', ?_, .cons ⟨hmax.trans hm.1, hb⟩ hchain, hweight⟩
        simp only [hkeep, Option.bind_some]

theorem Chain.store (h : Chain bounds ms) (ha : 1 ≤ a.weight) :
    ∃ ms', store memoizable a ms = some ms' ∧ Chain bounds ms' := by
  induction h with
  | nil => exact ⟨[], rfl, .nil⟩
  | @cons bound m bounds ms hm hms ih =>
    rw [FilterMemo.store]
    split_ifs with herr
    · exact ⟨_, rfl, .cons hm hms⟩
    · obtain ⟨m', hkeep, hmax, hb⟩ := hm.2.keep ha
      obtain ⟨ms', hstore, hchain⟩ := ih
      refine ⟨m' :: ms', ?_, .cons ⟨hmax.trans hm.1, hb⟩ hchain⟩
      simp only [hkeep, hstore, Option.bind_eq_bind, Option.bind_some]

theorem Chain.call (h : Chain bounds ms) (c : Call ε) :
    ∃ ms', call memoizable c ms = some ms' ∧ Chain bounds ms' := by
  cases c with
  | get k =>
    obtain ⟨a, ms', hget, hchain, -⟩ := h.get k
    exact ⟨ms', by rw [FilterMemo.call, hget]; rfl, hchain⟩
  | put k nf err usedPeer =>
    unfold FilterMemo.call FilterMemo.put
    cases usedPeer with
    | true =>
      refine ⟨_, rfl, List.forall₂_map_right_iff.2 (h.imp fun bound m hm => ?_)⟩
      exact ⟨hm.1, hm.2.count _ _ _⟩
    | false =>
      refine h.store memoizable ?_
      show 1 ≤ weightOf nf
      unfold weightOf
      omega
  | putASNs k s err =>
    refine h.store memoizable ?_
    show (1 : Int) ≤ 1 + s.asns.length + s.missing.length
    omega

theorem Chain.callAt (h : Chain bounds ms) (c : Nat × Call ε) :
    ∃ ms', callAt memoizable ms c = some ms' ∧ Chain bounds ms' := by
  obtain ⟨ms', hcall, hchain⟩ := Chain.call memoizable (List.forall₂_drop c.1 h) c.2
  refine ⟨ms.take c.1 ++ ms', by rw [FilterMemo.callAt, hcall]; rfl, ?_⟩
  have happ := List.rel_append (List.forall₂_take c.1 h) hchain
  dsimp only at happ
  rwa [List.take_append_drop] at happ

theorem bounded_new (max : Int) : ({ max } : FilterMemo ε).Bounded := by
  refine ⟨fun asns => ?_, fun k el hel => by cases hel⟩
  cases asns
  all_goals
    exact ⟨by simp [pool], by simp [pool], by simp [pool], rfl,
      ⟨Int.le_refl 0, le_max_left 0 max⟩, by simp [pool]⟩

/-- **The bounds hold** in every memo of every chain after every sequence of calls, and no eviction
meets an empty list. -/
theorem run_bounded (memoizable : ε → Bool) (bounds : List Int) (calls : List (Nat × Call ε)) :
    ∃ ms, run memoizable bounds calls = some ms ∧ Chain bounds ms := by
  have hnew : Chain bounds (bounds.map fun max => ({ max } : FilterMemo ε)) :=
    List.forall₂_map_right_iff.2 (List.forall₂_same.2 fun max _ => ⟨rfl, bounded_new max⟩)
  unfold run
  generalize bounds.map (fun max => ({ max } : FilterMemo ε)) = ms at hnew
  induction calls generalizing ms with
  | nil => exact ⟨ms, rfl, hnew⟩
  | cons c calls ih =>
    obtain ⟨ms', hcall, hchain⟩ := hnew.callAt memoizable c
    rw [List.foldlM_cons, hcall]
    exact ih ms' hchain

/-- What a memo with a negative bound holds, nothing, is over its bound. -/
theorem held_negative : ∃ ms, run (fun _ : Unit => true) [-1] [] = some ms ∧
    ∀ m ∈ ms, m.max < (m.pool false).held :=
  ⟨_, rfl, by simp [pool]⟩

end Rpsl.Resolve.FilterMemo
