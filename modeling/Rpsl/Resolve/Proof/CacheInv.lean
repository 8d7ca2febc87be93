import Rpsl.Lib.Recency
import Rpsl.Resolve.Cache

/-!
# The cache's two tables agree

`Cache.Linked c`: the order list has one element for each key of the entries map, and the entry
points at it. Every operation keeps it except the refill of an expired entry, which pushes a second
element for a key that has one (`orphan_of_expired`); from there an eviction finds an element whose
entry is gone and dereferences nil. In a run whose lookups never meet an expired entry, no operation
fails and the list is in order of use (`bookkeptRun_iff`).
-/

namespace Rpsl.Cache

open Lib

variable {K V : Type}

/-- The keys of the order list, least recently used first. -/
def keys (c : Cache K V) : List K := c.order.map (·.key)

section lists
variable {l : List (CacheElem K)} {x y : CacheElem K} {i : Nat}

theorem removeElem_sublist : (removeElem i l).Sublist l := List.filter_sublist

theorem mem_removeElem (hl : (l.map (·.id)).Nodup) (hx : x ∈ l) :
    y ∈ removeElem x.id l ↔ y ∈ l ∧ y ≠ x := by
  simp only [removeElem, List.mem_filter, ne_eq, decide_not, Bool.not_eq_true',
    decide_eq_false_iff_not]
  refine and_congr_right fun hy => not_congr ⟨fun h => ?_, fun h => h ▸ rfl⟩
  exact List.inj_on_of_nodup_map hl hy hx h

theorem removeElem_head (hl : ((x :: l).map (·.id)).Nodup) : removeElem x.id (x :: l) = l := by
  have h : ∀ y ∈ l, y.id ≠ x.id := fun y hy he =>
    (List.nodup_cons.1 hl).1 (List.mem_map.2 ⟨y, hy, he⟩)
  simpa [removeElem] using h

theorem moveToBack_eq (hl : (l.map (·.id)).Nodup) (hx : x ∈ l) :
    moveToBack x.id l = removeElem x.id l ++ [x] := by
  obtain ⟨l₁, l₂, rfl⟩ := List.append_of_mem hx
  simp only [List.map_append, List.map_cons, List.nodup_append, List.nodup_cons] at hl
  have h₁ : ∀ y ∈ l₁, y.id ≠ x.id := fun y hy =>
    hl.2.2 _ (List.mem_map_of_mem hy) _ List.mem_cons_self
  have h₂ : ∀ y ∈ l₂, y.id ≠ x.id := fun y hy he => hl.2.1.1 (List.mem_map.2 ⟨y, hy, he⟩)
  have f₁ : l₁.filter (fun y => y.id = x.id) = [] := by simpa using h₁
  have f₂ : l₂.filter (fun y => y.id = x.id) = [] := by simpa using h₂
  simp [moveToBack, f₁, f₂]

theorem moveToBack_perm : (moveToBack i l).Perm l := by
  refine (List.perm_append_comm.trans ?_)
  simpa [removeElem] using List.filter_append_perm (fun x : CacheElem K => decide (x.id = i)) l

end lists

variable [DecidableEq K]

structure Linked (c : Cache K V) : Prop where
  keys_nodup : c.keys.Nodup
  ids_nodup : (c.order.map (·.id)).Nodup
  ids_lt : ∀ x ∈ c.order, x.id < c.next
  elem : ∀ x ∈ c.order, ∃ e, c.entries.lookup x.key = some e ∧ e.elem = some x.id
  held : ∀ k ∈ c.entries, k ∈ c.keys
  answered : ∀ k e, c.entries.lookup k = some e → e.res.isContextErr = false

/-- The list is within the cap. -/
def Capped (c : Cache K V) : Prop := ∀ m, cap c.maxEntries = some m → c.order.length ≤ m

theorem cap_pos {maxEntries : Int} {m : Nat} (h : cap maxEntries = some m) : 0 < m := by
  simp only [cap] at h
  split at h
  · cases h
  · split at h <;> cases h <;> omega

theorem remove_of_elem (c : Cache K V) (k : K) {e : CacheEntry V} {i : Nat}
    (h : e.elem = some i) :
    c.remove k e = { c with entries := c.entries.erase k, order := removeElem i c.order } := by
  simp [remove, h]

section linked
variable {c : Cache K V} {e : CacheEntry V} {x : CacheElem K}

theorem Linked.mem_keys_iff (h : c.Linked) {k : K} : k ∈ c.keys ↔ k ∈ c.entries := by
  refine ⟨fun hk => ?_, h.held k⟩
  obtain ⟨x, hx, rfl⟩ := List.mem_map.1 hk
  obtain ⟨e, he, -⟩ := h.elem x hx
  exact AList.lookup_isSome.1 (by simp [he])

theorem Linked.keys_perm (h : c.Linked) : c.keys.Perm c.entries.keys :=
  (List.perm_ext_iff_of_nodup h.keys_nodup c.entries.keys_nodup).2 fun _ => h.mem_keys_iff

theorem Linked.elem_of_lookup (h : c.Linked) {k : K} (he : c.entries.lookup k = some e) :
    ∃ x ∈ c.order, x.key = k ∧ e.elem = some x.id := by
  obtain ⟨x, hx, rfl⟩ := List.mem_map.1 (h.held k (AList.lookup_isSome.1 (by simp [he])))
  obtain ⟨e', he', hid⟩ := h.elem x hx
  obtain rfl : e' = e := Option.some.inj (he'.symm.trans he)
  exact ⟨x, hx, rfl, hid⟩

theorem Linked.key_inj (h : c.Linked) {x y : CacheElem K} (hx : x ∈ c.order) (hy : y ∈ c.order)
    (hk : x.key = y.key) : x = y :=
  List.inj_on_of_nodup_map h.keys_nodup hx hy hk

theorem Linked.remove_eq (h : c.Linked) (hx : x ∈ c.order)
    (he : c.entries.lookup x.key = some e) :
    c.remove x.key e =
      { c with entries := c.entries.erase x.key, order := removeElem x.id c.order } := by
  obtain ⟨e', he', hid⟩ := h.elem x hx
  obtain rfl : e' = e := Option.some.inj (he'.symm.trans he)
  exact remove_of_elem c _ hid

theorem Linked.remove (h : c.Linked) (hx : x ∈ c.order) :
    Linked { c with entries := c.entries.erase x.key, order := removeElem x.id c.order } where
  keys_nodup := h.keys_nodup.sublist (removeElem_sublist.map _)
  ids_nodup := h.ids_nodup.sublist (removeElem_sublist.map _)
  ids_lt y hy := h.ids_lt y (removeElem_sublist.subset hy)
  elem y hy := by
    obtain ⟨hy, hne⟩ := (mem_removeElem h.ids_nodup hx).1 hy
    have hk : y.key ≠ x.key := fun hk => hne (h.key_inj hy hx hk)
    simpa only [AList.lookup_erase_ne hk] using h.elem y hy
  held k hk := by
    obtain ⟨hne, hk⟩ := AList.mem_erase.1 hk
    obtain ⟨y, hy, rfl⟩ := List.mem_map.1 (h.held k hk)
    exact List.mem_map_of_mem ((mem_removeElem h.ids_nodup hx).2 ⟨hy, fun he => hne (he ▸ rfl)⟩)
  answered k e he := by
    by_cases hk : k = x.key
    · rw [hk, AList.lookup_erase] at he
      cases he
    · exact h.answered k e (by rwa [AList.lookup_erase_ne hk] at he)

theorem Linked.perm (h : c.Linked) {l : List (CacheElem K)} (hl : l.Perm c.order) (now : Int)
    (hits : Nat) : Linked { c with order := l, now, hits } where
  keys_nodup := (hl.map _).nodup_iff.2 h.keys_nodup
  ids_nodup := (hl.map _).nodup_iff.2 h.ids_nodup
  ids_lt y hy := h.ids_lt y (hl.subset hy)
  elem y hy := h.elem y (hl.subset hy)
  held k hk := (hl.map _).symm.subset (h.held k hk)
  answered := h.answered

theorem Linked.miss_ids (h : c.Linked) (k : K) : ((c.miss k).order.map (·.id)).Nodup := by
  have hid : c.next ∉ c.order.map (·.id) := fun hm => by
    obtain ⟨y, hy, he⟩ := List.mem_map.1 hm
    exact absurd (h.ids_lt y hy) (by omega)
  simpa [Cache.miss] using (List.nodup_cons.2 ⟨hid, h.ids_nodup⟩).perm
    (List.perm_append_singleton c.next _).symm

theorem Linked.miss (h : c.Linked) {k : K} (hk : k ∉ c.entries) : (c.miss k).Linked := by
  have hk' : k ∉ c.keys := fun hm => hk (h.mem_keys_iff.1 hm)
  have hne : ∀ y ∈ c.order, y.key ≠ k := fun y hy he => hk' (he ▸ List.mem_map_of_mem hy)
  refine ⟨?_, h.miss_ids k, fun y hy => ?_, fun y hy => ?_, fun k' hk' => ?_, fun k' e he => ?_⟩
  · simpa [keys, Cache.miss] using (List.nodup_cons.2 ⟨hk', h.keys_nodup⟩).perm
      (List.perm_append_singleton k c.keys).symm
  all_goals simp only [Cache.miss] at *
  · rcases List.mem_append.1 hy with hy | hy
    · exact Nat.lt_succ_of_lt (h.ids_lt y hy)
    · rw [List.mem_singleton.1 hy]
      exact Nat.lt_succ_self _
  · rcases List.mem_append.1 hy with hy | hy
    · rw [AList.lookup_insert_ne (hne y hy)]
      exact h.elem y hy
    · rw [List.mem_singleton.1 hy]
      exact ⟨_, AList.lookup_insert _, rfl⟩
  · rw [keys, List.map_append, List.mem_append]
    rcases (AList.mem_insert _).1 hk' with rfl | hk'
    · exact .inr (by simp)
    · exact .inl (h.held k' hk')
  · by_cases hkk : k' = k
    · rw [hkk, AList.lookup_insert] at he
      cases he
      rfl
    · exact h.answered k' e (by rwa [AList.lookup_insert_ne hkk] at he)

theorem Linked.fill (h : c.Linked) {k : K} (he : c.entries.lookup k = some e) (t : Int)
    {res : Fill V} (hr : res.isContextErr = false) :
    Linked { c with entries := c.entries.insert k { e with at_ := t, res } } where
  keys_nodup := h.keys_nodup
  ids_nodup := h.ids_nodup
  ids_lt := h.ids_lt
  elem y hy := by
    obtain ⟨e', he', hid⟩ := h.elem y hy
    by_cases hk : y.key = k
    · subst hk
      obtain rfl : e' = e := Option.some.inj (he'.symm.trans he)
      exact ⟨_, AList.lookup_insert _, hid⟩
    · exact ⟨e', by rw [AList.lookup_insert_ne hk]; exact he', hid⟩
  held k' hk' := by
    rcases (AList.mem_insert _).1 hk' with rfl | hk'
    · exact h.held _ (AList.lookup_isSome.1 (by simp [he]))
    · exact h.held k' hk'
  answered k' e' he' := by
    by_cases hk : k' = k
    · rw [hk, AList.lookup_insert] at he'
      cases he'
      exact hr
    · exact h.answered k' e' (by rwa [AList.lookup_insert_ne hk] at he')

end linked

/-! ## Eviction -/

theorem evictLoop_of_le {m fuel : Nat} {c : Cache K V} (h : c.order.length ≤ m) :
    evictLoop m fuel c = .ok c := by
  cases fuel <;> rw [evictLoop, if_neg (Nat.not_lt.2 h)]

theorem evictLoop_turn {m fuel : Nat} {c : Cache K V} {x : CacheElem K} {l : List (CacheElem K)}
    {e : CacheEntry V} (hm : m < c.order.length) (hl : c.order = x :: l)
    (he : c.entries.lookup x.key = some e) :
    evictLoop m (fuel + 1) c = evictLoop m fuel (c.remove x.key e) := by
  rw [evictLoop, if_pos hm]
  simp [hl, he]

theorem evictLoop_spec (m : Nat) {fuel : Nat} {c : Cache K V} (h : c.Linked)
    (hf : c.order.length ≤ fuel) :
    ∃ es, evictLoop m fuel c =
        .ok { c with entries := es, order := c.order.drop (c.order.length - m) } ∧
      Linked { c with entries := es, order := c.order.drop (c.order.length - m) } ∧
      ∀ k ∈ (c.order.drop (c.order.length - m)).map (·.key),
        es.lookup k = c.entries.lookup k := by
  induction fuel generalizing c with
  | zero =>
    have hd : c.order.drop (c.order.length - m) = c.order := by
      rw [show c.order.length - m = 0 by omega, List.drop_zero]
    rw [hd]
    exact ⟨c.entries, evictLoop_of_le (by omega), h, fun _ _ => rfl⟩
  | succ fuel ih =>
    by_cases hm : c.order.length ≤ m
    · have hd : c.order.drop (c.order.length - m) = c.order := by
        rw [Nat.sub_eq_zero_of_le hm, List.drop_zero]
      rw [hd]
      exact ⟨c.entries, evictLoop_of_le hm, h, fun _ _ => rfl⟩
    · obtain ⟨x, l, hl⟩ := List.exists_cons_of_length_pos (by omega : 0 < c.order.length)
      have hx : x ∈ c.order := by simp [hl]
      obtain ⟨e, he, -⟩ := h.elem x hx
      have hr : removeElem x.id c.order = l := by
        rw [hl]
        exact removeElem_head (hl ▸ h.ids_nodup)
      have h' := h.remove hx
      have heq := h.remove_eq hx he
      rw [hr] at h' heq
      obtain ⟨es, hev, hes, hk⟩ := ih h' (by simpa [hl] using hf)
      have hd : c.order.drop (c.order.length - m) = l.drop (l.length - m) := by
        rw [show c.order.length - m = (l.length - m) + 1 by grind, hl, List.drop_succ_cons]
      rw [hd]
      refine ⟨es, ?_, hes, fun k hkm => (hk k hkm).trans (AList.lookup_erase_ne ?_)⟩
      · rw [evictLoop_turn (Nat.not_le.1 hm) hl he, heq]
        exact hev
      · -- the key of the element taken is no other element's
        rintro rfl
        refine (List.nodup_cons.1 (?_ : ((x :: l).map (·.key)).Nodup)).1
          (((List.drop_sublist _ _).map _).subset hkm)
        rw [← hl]
        exact h.keys_nodup

theorem evict_spec {c : Cache K V} (h : c.Linked) (h0 : c.order ≠ []) :
    ∃ n es, n < c.order.length ∧ evict c = .ok { c with entries := es, order := c.order.drop n } ∧
      Linked { c with entries := es, order := c.order.drop n } ∧
      (∀ k ∈ (c.order.drop n).map (·.key), es.lookup k = c.entries.lookup k) ∧
      ∀ m, cap c.maxEntries = some m → (c.order.drop n).length ≤ m := by
  have hpos := List.length_pos_iff.2 h0
  cases hc : cap c.maxEntries with
  | none => exact ⟨0, c.entries, hpos, by simp [evict, hc], h, fun _ _ => rfl, by simp⟩
  | some m =>
    obtain ⟨es, hev, hl, hk⟩ := evictLoop_spec m h le_rfl
    have := cap_pos hc
    refine ⟨_, es, by omega, by rw [evict, hc]; exact hev, hl, hk, ?_⟩
    rintro _ ⟨⟩
    rw [List.length_drop]
    omega

/-! ## Lookups -/

theorem isContextErr_of_not_transient {res : Fill V} (h : ¬ res.transient = true) :
    res.isContextErr = false := by
  cases res <;> simp_all [Fill.transient, Fill.isContextErr]

theorem filled_spec {c : Cache K V} (h : c.Linked) {k : K} {e : CacheEntry V}
    (he : c.entries.lookup k = some e) (res : Fill V) (dt : Nat) :
    (c.filled k e.ptr res dt).Linked ∧ (c.filled k e.ptr res dt).maxEntries = c.maxEntries ∧
      (c.filled k e.ptr res dt).keys.Sublist c.keys ∧
      ∀ a ∈ c.keys, a ≠ k → a ∈ (c.filled k e.ptr res dt).keys := by
  have h' := h.perm (List.Perm.refl _) (c.now + dt) c.hits
  by_cases hr : res.transient = true
  · obtain ⟨x, hx, rfl, -⟩ := h.elem_of_lookup he
    have heq : c.filled x.key e.ptr res dt =
        { c with now := c.now + dt, entries := c.entries.erase x.key,
                 order := removeElem x.id c.order } := by
      simpa [filled, he, hr] using h'.remove_eq hx he
    rw [heq]
    refine ⟨h'.remove hx, rfl, removeElem_sublist.map _, fun a ha hne => ?_⟩
    obtain ⟨y, hy, rfl⟩ := List.mem_map.1 ha
    exact List.mem_map_of_mem
      ((mem_removeElem h.ids_nodup hx).2 ⟨hy, fun hxy => hne (by rw [hxy])⟩)
  · have heq : c.filled k e.ptr res dt =
        { c with now := c.now + dt,
                 entries := c.entries.insert k { e with at_ := c.now + dt, res } } := by
      simp [filled, he, hr]
    rw [heq]
    exact ⟨h'.fill he _ (isContextErr_of_not_transient hr), rfl, .refl _, fun a ha _ => ha⟩

theorem lookup_miss {c : Cache K V} (h : c.Linked) {k : K} (hk : k ∉ c.entries) (res : Fill V)
    (dt : Nat) :
    ∃ n c', lookup c k res dt = .ok c' ∧ c'.Linked ∧ c'.Capped ∧
      c'.keys.Sublist (c.keys.drop n ++ [k]) ∧ ∀ a ∈ c.keys.drop n, a ∈ c'.keys := by
  have hmiss := h.miss hk
  obtain ⟨n, es, hn, hev, hl, hes, hcap⟩ := evict_spec hmiss (by simp [miss])
  have hord : (c.miss k).order = c.order ++ [⟨c.next, k⟩] := rfl
  have hdrop : (c.miss k).order.drop n = c.order.drop n ++ [⟨c.next, k⟩] := by
    rw [hord, List.drop_append_of_le_length]
    simpa [hord, Nat.lt_succ_iff] using hn
  have he : es.lookup k = some ⟨c.next, some c.next, c.now, .failed⟩ := by
    rw [hes k (by simp [hdrop])]
    exact AList.lookup_insert _
  obtain ⟨hfl, hfm, hfs, hfk⟩ := filled_spec hl he res dt
  have hkeys : ((c.miss k).order.drop n).map (·.key) = c.keys.drop n ++ [k] := by
    simp [hdrop, keys, List.map_drop]
  refine ⟨n, _, ?_, hfl, fun m hm => ?_, hkeys ▸ hfs, fun a ha => hfk a ?_ ?_⟩
  · rw [lookup, AList.lookup_eq_none.2 hk, Option.filter_none]
    simp only [hev, Except.map]
  · have hle := hfs.length_le
    simp only [keys, List.length_map] at hle
    exact hle.trans (hcap m (hfm ▸ hm))
  · rw [keys, hkeys]
    exact List.mem_append_left _ ha
  · rintro rfl
    exact hk (h.mem_keys_iff.1 ((List.drop_sublist _ _).subset ha))

theorem lookup_hit {c : Cache K V} (h : c.Linked) {k : K} {e : CacheEntry V}
    (he : c.entries.lookup k = some e) (hf : c.fresh e = true) (res : Fill V) (dt : Nat) :
    ∃ x ∈ c.order, x.key = k ∧ lookup c k res dt =
      .ok { c with hits := c.hits + 1, order := removeElem x.id c.order ++ [x] } := by
  obtain ⟨x, hx, hk, hid⟩ := h.elem_of_lookup he
  refine ⟨x, hx, hk, ?_⟩
  rw [lookup, he, Option.filter, hf, if_pos rfl]
  simp [h.answered k e he, touch, hid, moveToBack_eq h.ids_nodup hx]

/-! ## Runs -/

/-- The key an operation uses. -/
def usesOf : CacheOp K V → List K
  | .lookup k _ _ => [k]
  | _ => []

/-- A lookup of a key held finds its entry fresh. -/
def FreshAt (c : Cache K V) : CacheOp K V → Prop
  | .lookup k _ _ => ∀ e, c.entries.lookup k = some e → c.fresh e = true
  | _ => True

/-- `FreshAt` at every step of a run. -/
def FreshRun (c : Cache K V) : List (CacheOp K V) → Prop
  | [] => True
  | op :: ops => c.FreshAt op ∧ ∀ c', step c op = .ok c' → FreshRun c' ops

/-- The bookkeeping around one step `c` to `c'`, after which `us` have been used: one element per
key held and no other, the cap, and whatever went was used before everything that stays. -/
structure Bookkept (us : List K) (c c' : Cache K V) : Prop where
  keys_perm : c'.keys.Perm c'.entries.keys
  size : c'.entries.keys.length = c'.order.length
  capped : c'.Capped
  lru : ∀ a ∈ c.entries, a ∉ c'.entries → ∀ b ∈ c'.entries, UsedBefore us a b

/-- Every step of the run succeeds and is bookkept. -/
def BookkeptRun (us : List K) (c : Cache K V) : List (CacheOp K V) → Prop
  | [] => True
  | op :: ops => ∃ c', step c op = .ok c' ∧ Bookkept (us ++ usesOf op) c c' ∧
      BookkeptRun (us ++ usesOf op) c' ops

structure Inv (us : List K) (c : Cache K V) : Prop extends c.Linked where
  capped : c.Capped
  recency : Recency us c.keys

theorem inv_new (ttl maxEntries : Int) : Inv [] (new ttl maxEntries : Cache K V) where
  keys_nodup := List.nodup_nil
  ids_nodup := List.nodup_nil
  ids_lt := by simp [new]
  elem := by simp [new]
  held := by simp [new]
  answered := by simp [new]
  capped := fun _ _ => Nat.zero_le _
  recency := List.Pairwise.nil

theorem step_spec {us : List K} {c : Cache K V} (h : Inv us c) {op : CacheOp K V}
    (hf : c.FreshAt op) :
    ∃ c', step c op = .ok c' ∧ Inv (us ++ usesOf op) c' ∧
      ∀ a ∈ c.keys, a ∉ c'.keys → ∀ b ∈ c'.keys, UsedBefore (us ++ usesOf op) a b := by
  cases op with
  | advance dt =>
    rw [show usesOf (.advance dt : CacheOp K V) = [] from rfl, List.append_nil]
    exact ⟨_, rfl, ⟨h.toLinked.perm (.refl _) _ c.hits, h.capped, h.recency⟩,
      fun a ha hn => absurd ha hn⟩
  | purge =>
    refine ⟨_, rfl, ?_, by simp [purge, keys]⟩
    have h0 := inv_new (K := K) (V := V) c.ttl c.maxEntries
    exact ⟨⟨h0.keys_nodup, h0.ids_nodup, by simp [purge], by simp [purge], by simp [purge],
      by simp [purge]⟩, fun _ _ => Nat.zero_le _, List.Pairwise.nil⟩
  | lookup k res dt =>
    by_cases hk : k ∈ c.entries
    · obtain ⟨e, he⟩ := Option.isSome_iff_exists.1 (AList.lookup_isSome.2 hk)
      obtain ⟨x, hx, rfl, heq⟩ := lookup_hit h.toLinked he (hf e he) res dt
      have hp : (removeElem x.id c.order ++ [x]).Perm c.order :=
        moveToBack_eq h.ids_nodup hx ▸ moveToBack_perm
      refine ⟨_, heq, ⟨h.toLinked.perm hp _ _, fun m hm => hp.length_eq ▸ h.capped m hm, ?_⟩,
        fun a ha hn => absurd ((hp.map _).symm.subset ha) hn⟩
      rw [keys, List.map_append]
      refine (h.recency.sublist (removeElem_sublist.map _)).use fun hm => ?_
      obtain ⟨y, hy, hyk⟩ := List.mem_map.1 hm
      obtain ⟨hy, hne⟩ := (mem_removeElem h.ids_nodup hx).1 hy
      exact hne (h.key_inj hy hx hyk)
    · obtain ⟨n, c', heq, hl, hcap, hsub, hmem⟩ := lookup_miss h.toLinked hk res dt
      have hrec := h.recency.use fun hm => hk (h.mem_keys_iff.1 hm)
      rw [← List.take_append_drop n c.keys, List.append_assoc] at hrec
      refine ⟨c', heq, ⟨hl, hcap, hrec.sublist (hsub.trans (List.sublist_append_right _ _))⟩,
        fun a ha hn b hb => hrec.front ?_ (hsub.subset hb)⟩
      rw [← List.take_append_drop n c.keys, List.mem_append] at ha
      exact ha.resolve_right fun h => hn (hmem a h)

/-! ## The refill of an expired entry -/

/-- An element of the list that the key's entry, if there is one, does not know. -/
def Orphan (c : Cache K V) (k : K) : Prop :=
  ∃ x ∈ c.order, x.key = k ∧ (k ∈ c.entries → ∃ y ∈ c.order, y.key = k ∧ y ≠ x)

omit [DecidableEq K] in
theorem Orphan.not_perm {c : Cache K V} {k : K} (h : c.Orphan k) :
    ¬ c.keys.Perm c.entries.keys := by
  obtain ⟨x, hx, rfl, hy⟩ := h
  intro hp
  obtain ⟨y, hy, hk, hne⟩ := hy (hp.subset (List.mem_map_of_mem hx))
  exact hne (List.inj_on_of_nodup_map (hp.nodup_iff.2 c.entries.keys_nodup) hy hx hk)

theorem orphan_filled {c : Cache K V} {x : CacheElem K} {p : Nat} {e : CacheEntry V}
    (hx : x ∈ c.order) (hid : x.id ≠ p) (hp : ⟨p, x.key⟩ ∈ c.order)
    (he : c.entries.lookup x.key = some e) (hptr : e.ptr = p) (helem : e.elem = some p)
    (res : Fill V) (dt : Nat) : (c.filled x.key p res dt).Orphan x.key := by
  by_cases hr : res.transient = true
  · refine ⟨x, ?_, rfl, ?_⟩ <;> simp [filled, he, hptr, hr, remove, helem, removeElem, hx, hid]
  · refine ⟨x, ?_, rfl, fun _ => ⟨⟨p, x.key⟩, ?_, rfl, fun h => hid (h ▸ rfl)⟩⟩ <;>
      simp [filled, he, hptr, hr, hx, hp]

theorem evict_miss {c c₁ : Cache K V} (h : c.Linked) (hcap : c.Capped) {x : CacheElem K}
    (hx : x ∈ c.order) (hev : evict (c.miss x.key) = .ok c₁) :
    c₁ = c.miss x.key ∨
    (∃ y ∈ c.order, y.key ≠ x.key ∧ c₁ = { c.miss x.key with
      entries := (c.miss x.key).entries.erase y.key
      order := removeElem y.id (c.miss x.key).order }) ∨
    c₁ = { c.miss x.key with entries := (c.miss x.key).entries.erase x.key, order := c.order } := by
  obtain ⟨y, l, hl⟩ := List.exists_cons_of_ne_nil (List.ne_nil_of_mem hx)
  have hy : y ∈ c.order := by simp [hl]
  have hord : (c.miss x.key).order = y :: (l ++ [⟨c.next, x.key⟩]) := by simp [miss, hl]
  cases hm : cap (c.miss x.key).maxEntries with
  | none =>
    simp only [evict, hm] at hev
    exact .inl (Except.ok.inj hev).symm
  | some m =>
    simp only [evict, hm] at hev
    by_cases hle : (c.miss x.key).order.length ≤ m
    · rw [evictLoop_of_le hle] at hev
      exact .inl (Except.ok.inj hev).symm
    -- one turn is enough, since the list was within the cap before the miss
    have hlm := hcap m hm
    have hlen : (c.miss x.key).order.length = c.order.length + 1 := by simp [miss]
    rw [hlen] at hev
    by_cases hk : y.key = x.key
    · obtain rfl := h.key_inj hy hx hk
      have hrem : removeElem c.next (c.miss y.key).order = c.order := by
        rw [show (c.miss y.key).order = c.order ++ [⟨c.next, y.key⟩] from rfl, removeElem,
          List.filter_append, List.filter_eq_self.2 fun z hz => by simpa using (h.ids_lt z hz).ne]
        simp
      have hnew : (c.miss y.key).entries.lookup y.key =
          some ⟨c.next, some c.next, c.now, .failed⟩ := AList.lookup_insert _
      rw [evictLoop_turn (Nat.not_le.1 hle) hord hnew, remove_of_elem _ _ rfl, hrem,
        evictLoop_of_le (by exact hlm)] at hev
      exact .inr (.inr (Except.ok.inj hev).symm)
    · obtain ⟨e, he, helem⟩ := h.elem y hy
      have hold : (c.miss x.key).entries.lookup y.key = some e :=
        (AList.lookup_insert_ne hk).trans he
      have hrem : removeElem y.id (c.miss x.key).order = l ++ [⟨c.next, x.key⟩] := by
        rw [hord]
        exact removeElem_head (hord ▸ h.miss_ids x.key)
      rw [evictLoop_turn (Nat.not_le.1 hle) hord hold, remove_of_elem _ _ helem,
        evictLoop_of_le] at hev
      · exact .inr (.inl ⟨y, hy, hk, (Except.ok.inj hev).symm⟩)
      · simpa [hrem, hl] using hlm

theorem orphan_of_expired {c c' : Cache K V} (h : c.Linked) (hcap : c.Capped) {k : K}
    {e : CacheEntry V} (he : c.entries.lookup k = some e) (hf : ¬ c.fresh e = true) {res : Fill V}
    {dt : Nat} (hs : lookup c k res dt = .ok c') : c'.Orphan k := by
  obtain ⟨x, hx, rfl, -⟩ := h.elem_of_lookup he
  have hid : x.id ≠ c.next := (h.ids_lt x hx).ne
  have hord : (c.miss x.key).order = c.order ++ [⟨c.next, x.key⟩] := rfl
  have hnew : (c.miss x.key).entries.lookup x.key = some ⟨c.next, some c.next, c.now, .failed⟩ :=
    AList.lookup_insert _
  rw [lookup, he, Option.filter, if_neg hf] at hs
  rcases hev : evict (c.miss x.key) with _ | c₁
  · rw [hev] at hs
    cases hs
  · rw [hev] at hs
    cases hs
    rcases evict_miss h hcap hx hev with rfl | ⟨y, hy, hk, rfl⟩ | rfl
    · exact orphan_filled (by simp [hord, hx]) hid (by simp [hord]) hnew rfl rfl res dt
    · have hxy : x ∈ removeElem y.id (c.miss x.key).order :=
        (mem_removeElem (h.miss_ids _) (by simp [hord, hy])).2
          ⟨by simp [hord, hx], fun h => hk (h ▸ rfl)⟩
      have hny : ⟨c.next, x.key⟩ ∈ removeElem y.id (c.miss x.key).order :=
        (mem_removeElem (h.miss_ids _) (by simp [hord, hy])).2
          ⟨by simp [hord], fun h => hk (h ▸ rfl)⟩
      exact orphan_filled hxy hid hny ((AList.lookup_erase_ne (Ne.symm hk)).trans hnew) rfl rfl
        res dt
    · exact ⟨x, by simp [filled, hx], rfl, by simp [filled]⟩

theorem bookkeptRun_iff {us : List K} {c : Cache K V} (h : Inv us c) {ops : List (CacheOp K V)} :
    BookkeptRun us c ops ↔ FreshRun c ops := by
  induction ops generalizing us c with
  | nil => exact Iff.rfl
  | cons op ops ih =>
    constructor
    · rintro ⟨c₁, hs, hb, hrun⟩
      have hf : c.FreshAt op := by
        cases op with
        | lookup k res dt =>
          intro e he
          by_contra hf
          exact (orphan_of_expired h.toLinked h.capped he hf hs).not_perm hb.keys_perm
        | _ => trivial
      obtain ⟨c', hs', h', -⟩ := step_spec h hf
      obtain rfl := Except.ok.inj (hs.symm.trans hs')
      refine ⟨hf, fun c₂ hs₂ => ?_⟩
      obtain rfl := Except.ok.inj (hs.symm.trans hs₂)
      exact (ih h').1 hrun
    · rintro ⟨hf, hrun⟩
      obtain ⟨c', hs, h', hlru⟩ := step_spec h hf
      refine ⟨c', hs, ⟨h'.keys_perm, ?_, h'.capped, ?_⟩, (ih h').2 (hrun c' hs)⟩
      · rw [← h'.keys_perm.length_eq, keys, List.length_map]
      · simpa only [← h.mem_keys_iff, ← h'.mem_keys_iff] using hlru

/-- **A cache keeps its books exactly while no lookup meets an expired entry**: then no operation
of the run fails, and after each the list has one element per key held, the cap is kept and the
keys evicted were the least recently used. -/
theorem bookkeeping_iff_fresh (ttl maxEntries : Int) (ops : List (CacheOp K V)) :
    BookkeptRun [] (new ttl maxEntries) ops ↔ FreshRun (new ttl maxEntries) ops :=
  bookkeptRun_iff (inv_new ttl maxEntries)

theorem BookkeptRun.run_ok {us : List K} {c : Cache K V} {ops : List (CacheOp K V)}
    (h : BookkeptRun us c ops) : ∃ c', run c ops = .ok c' := by
  induction ops generalizing us c with
  | nil => exact ⟨c, rfl⟩
  | cons op ops ih =>
    obtain ⟨c₁, hs, -, hrun⟩ := h
    rw [run, hs]
    exact ih hrun

/-- Key `0` expires and is looked up again, then key `1` makes the cache evict. -/
def staleOps : List (CacheOp Nat Unit) :=
  [.lookup 0 (.value ()) 0, .advance 1, .lookup 0 (.value ()) 0, .lookup 1 (.value ()) 0]

/-- With a time to live and a cap of one, the eviction meets the element of the expired entry,
whose key the map no longer holds. -/
theorem evict_nil_of_stale :
    run (new 1 1) staleOps = .error .nilEntry ∧ ¬ BookkeptRun [] (new 1 1) staleOps := by
  have h : run (new 1 1) staleOps = .error .nilEntry := rfl
  refine ⟨h, fun hb => ?_⟩
  obtain ⟨c, hc⟩ := hb.run_ok
  cases h.symm.trans hc

end Rpsl.Cache
