import Rpsl.Object.SrcMembers
import Rpsl.Resolve.Proof.AnyOrder

/-!
# The order of src-members: items

Items are kept by their key, which has neither the registry nor the range operator. Registries are
compared before (`SetMember.conflicts`), operators are not: of a set listed under one registry with
two operators the first item alone is followed. Where no set is (`OneOperator`), members with one
key are one member (`key_inj`), all of them are followed, and expansions do not see their order.
-/

namespace Rpsl.Object

open Text

/-! ## Members kept by key -/

section Keep

variable {ms : List SetMember}

theorem mem_foldl_keepKey_of_mem : ∀ {out : List SetMember} {m : SetMember},
    m ∈ out → m ∈ ms.foldl keepKey out := by
  induction ms with
  | nil => exact fun h => h
  | cons x ms ih =>
    intro out m h
    apply ih
    unfold keepKey
    split
    · split_ifs
      · exact h
      · exact List.mem_append_left _ h
    · exact h

theorem mem_of_mem_foldl_keepKey : ∀ {out : List SetMember}
    {m : SetMember}, m ∈ ms.foldl keepKey out → m ∈ out ∨ m ∈ ms := by
  induction ms with
  | nil => exact fun h => .inl h
  | cons x ms ih =>
    intro out m h
    rcases ih h with h | h
    · unfold keepKey at h
      split at h
      · split_ifs at h
        · exact .inl h
        · rcases List.mem_append.1 h with h | h
          · exact .inl h
          · exact .inr (List.mem_singleton.1 h ▸ List.mem_cons_self)
      · exact .inl h
    · exact .inr (List.mem_cons_of_mem x h)

theorem exists_mem_foldl_keepKey {k : MemberKey} :
    ∀ {out : List SetMember} {m : SetMember}, m ∈ ms → m.key = some k →
      ∃ m' ∈ ms.foldl keepKey out, m'.key = some k := by
  induction ms with
  | nil => exact fun h => absurd h List.not_mem_nil
  | cons x ms ih =>
    intro out m h hk
    rcases List.mem_cons.1 h with rfl | h
    · obtain ⟨m', hm', hk'⟩ : ∃ m' ∈ keepKey out m, m'.key = some k := by
        unfold keepKey
        rw [hk]
        dsimp only
        split_ifs with hany
        · simpa using hany
        · exact ⟨m, by simp, hk⟩
      rw [List.foldl_cons]
      exact ⟨m', mem_foldl_keepKey_of_mem hm', hk'⟩
    · exact ih h hk

theorem foldl_keepKey_nodup : ∀ {out : List SetMember},
    (out.map SetMember.key).Nodup → ((ms.foldl keepKey out).map SetMember.key).Nodup := by
  induction ms with
  | nil => exact fun h => h
  | cons x ms ih =>
    intro out h
    apply ih
    unfold keepKey
    split
    · rename_i k hk
      split_ifs with hany
      · exact h
      · rw [List.map_append, List.map_singleton, hk]
        refine h.append (List.nodup_singleton _) ?_
        rw [List.disjoint_singleton, List.mem_map]
        intro hm
        obtain ⟨m, hm, hmk⟩ := hm
        exact hany (List.any_eq_true.2 ⟨m, hm, by simpa using hmk⟩)
    · exact h

theorem eq_of_mem_kept {m m' : SetMember} (hm : m ∈ ms.foldl keepKey [])
    (hm' : m' ∈ ms.foldl keepKey []) (hk : m.key = m'.key) : m = m' :=
  List.inj_on_of_nodup_map (foldl_keepKey_nodup (by simp)) hm hm' hk

theorem mem_kept_iff (hkeys : ∀ m ∈ ms, m.key ≠ none)
    (hinj : ∀ m ∈ ms, ∀ m' ∈ ms, m.key = m'.key → m = m') (m : SetMember) :
    m ∈ ms.foldl keepKey [] ↔ m ∈ ms := by
  constructor
  · intro h
    exact (mem_of_mem_foldl_keepKey h).resolve_left List.not_mem_nil
  · intro h
    obtain ⟨k, hk⟩ := Option.ne_none_iff_exists'.1 (hkeys m h)
    obtain ⟨m', hm', hk'⟩ := exists_mem_foldl_keepKey h hk
    have hmem := (mem_of_mem_foldl_keepKey hm').resolve_left List.not_mem_nil
    rwa [hinj m h m' hmem (hk.trans hk'.symm)]

end Keep

/-! ## Items that parse -/

section Items

variable {netipParseAddr : Text → Option Addr} {netipParsePrefix : Text → Option Prefix}
variable {container : SetClass}

/-- A member of src-members: is valid, and an AS number among them has no operator. -/
def SrcForm : SetMember → Prop
  | .invalid => False
  | .as_ _ op => op = .none
  | _ => True

theorem srcForm_of_parseSrcBase {base : Text} {op : Option RangeOperator} {m : SetMember}
    (h : parseSrcBase container base op = .ok m) : SrcForm m := by
  unfold parseSrcBase at h
  split at h
  · split_ifs at h
    cases h
    rfl
  · split_ifs at h
    split at h
    · cases h
    · split_ifs at h
      cases h
      trivial

theorem srcForm_of_parse {it : Text} {m : SetMember}
    (h : parseSrcMember netipParseAddr netipParsePrefix container it = .ok m) : SrcForm m := by
  unfold parseSrcMember at h
  dsimp only at h
  split at h
  · cases h
  split at h
  · split_ifs at h
    cases h
    trivial
  · split at h
    · exact srcForm_of_parseSrcBase h
    · split at h
      · cases h
      · exact srcForm_of_parseSrcBase h

theorem mem_parsedSrc {items : List Text} {m : SetMember} :
    m ∈ parsedSrc netipParseAddr netipParsePrefix container items ↔
      ∃ it ∈ items, parseSrcMember netipParseAddr netipParsePrefix container it = .ok m := by
  unfold parsedSrc
  rw [List.mem_filterMap]
  refine exists_congr fun it => and_congr_right fun _ => ?_
  cases parseSrcMember netipParseAddr netipParsePrefix container it <;> simp [Except.toOption]

theorem SrcForm.key_ne_none {m : SetMember} (h : SrcForm m) : m.key ≠ none := by
  cases m with
  | invalid => exact h.elim
  | _ => simp [SetMember.key]

end Items

/-! ## Registries and operators -/

section Registries

variable {ps : List SetMember}

theorem mem_registries {name : SetName} {source : Text} :
    source ∈ registries ps name ↔ ∃ op, .set name source op ∈ ps := by
  unfold registries
  rw [List.mem_dedup, List.mem_filterMap]
  constructor
  · intro h
    obtain ⟨m, hm, h⟩ := h
    cases m with
    | set n s op =>
      simp only [Option.ite_none_right_eq_some, Option.some.injEq] at h
      exact ⟨op, h.1 ▸ h.2 ▸ hm⟩
    | _ => cases h
  · intro h
    obtain ⟨op, h⟩ := h
    exact ⟨_, h, by simp⟩

theorem source_eq {name : SetName} {s s' : Text} {op op' : RangeOperator}
    (hc : (SetMember.set name s op).conflicts ps = false) (h : .set name s op ∈ ps)
    (h' : .set name s' op' ∈ ps) : s = s' := by
  have hlen : (registries ps name).length ≤ 1 := by
    simpa [SetMember.conflicts] using hc
  have hs := mem_registries.2 ⟨op, h⟩
  have hs' := mem_registries.2 ⟨op', h'⟩
  generalize registries ps name = rs at hlen hs hs'
  rcases rs with _ | ⟨r, _ | ⟨r', rs⟩⟩
  · cases hs
  · rw [List.mem_singleton.1 hs, List.mem_singleton.1 hs']
  · simp at hlen

/-- No set is listed under its only registry with two operators. -/
def OneOperator (ps : List SetMember) : Prop :=
  ∀ name source op op', .set name source op ∈ ps → .set name source op' ∈ ps →
    (SetMember.set name source op).conflicts ps = false → op = op'

theorem key_inj (hone : OneOperator ps) (hform : ∀ m ∈ ps, SrcForm m) {m m' : SetMember}
    (hm : m ∈ ps) (hm' : m' ∈ ps) (hc : m.conflicts ps = false) (hk : m.key = m'.key) :
    m = m' := by
  have hf := hform m hm
  have hf' := hform m' hm'
  cases m with
  | invalid => exact hf.elim
  | as_ a op =>
    cases m' with
    | as_ a' op' =>
      simp only [SetMember.key, Option.some.injEq, MemberKey.as_.injEq] at hk
      simp only [SrcForm] at hf hf'
      rw [hk, hf, hf']
    | _ => simp [SetMember.key] at hk
  | set name source op =>
    cases m' with
    | set name' source' op' =>
      simp only [SetMember.key, Option.some.injEq, MemberKey.set.injEq] at hk
      subst hk
      have hsource := source_eq hc hm hm'
      subst hsource
      rw [hone name source op op' hm hm' hc]
    | _ => simp [SetMember.key] at hk
  | range r =>
    cases m' with
    | range r' =>
      simp only [SetMember.key, Option.some.injEq, MemberKey.range.injEq] at hk
      rw [hk]
    | _ => simp [SetMember.key] at hk

end Registries

/-! ## What is followed -/

section Followed

variable {netipParseAddr : Text → Option Addr} {netipParsePrefix : Text → Option Prefix}
variable {container : SetClass} {items : List Text}

theorem srcForm_of_mem_parsedSrc {m : SetMember}
    (h : m ∈ parsedSrc netipParseAddr netipParsePrefix container items) : SrcForm m := by
  obtain ⟨it, -, hit⟩ := mem_parsedSrc.1 h
  exact srcForm_of_parse hit

theorem of_mem_srcMembers {m : SetMember}
    (h : m ∈ srcMembers netipParseAddr netipParsePrefix container items) :
    m ∈ parsedSrc netipParseAddr netipParsePrefix container items ∧
      m.conflicts (parsedSrc netipParseAddr netipParsePrefix container items) = false := by
  have hmem := (mem_of_mem_foldl_keepKey h).resolve_left List.not_mem_nil
  simpa using hmem

theorem followedSrc_eq {src : List SetMember}
    (h : ∀ name source op source' op', .set name source op ∈ src →
      .set name source' op' ∈ src → source' = source) :
    followedSrc src = src.foldl keepKey [] := by
  change (List.filter _ src).foldl keepKey [] = _
  rw [List.filter_eq_self.2]
  intro m hm
  cases m with
  | set name source op =>
    dsimp only
    rw [List.all_eq_true]
    intro m' hm'
    cases m' with
    | set name' source' op' =>
      by_cases hname : name' = name
      · subst hname
        simp [h _ _ _ _ _ hm hm']
      · simp [hname]
    | _ => rfl
  | _ => rfl

theorem mem_followedSrc (m : SetMember) :
    m ∈ followedSrc (srcMembers netipParseAddr netipParsePrefix container items) ↔
      m ∈ srcMembers netipParseAddr netipParsePrefix container items := by
  rw [followedSrc_eq]
  · refine mem_kept_iff (fun m hm => ?_) (fun m hm m' hm' => eq_of_mem_kept hm hm') m
    exact (srcForm_of_mem_parsedSrc (of_mem_srcMembers hm).1).key_ne_none
  · intro name source op source' op' hm hm'
    obtain ⟨hps, hc⟩ := of_mem_srcMembers hm
    exact (source_eq hc hps (of_mem_srcMembers hm').1).symm

theorem mem_followed {listed : List SetMember} {m : SetMember} :
    m ∈ followed netipParseAddr netipParsePrefix container listed items ↔
      m ∈ srcMembers netipParseAddr netipParsePrefix container items ∨
      m ∈ listed ∧ ∀ m' ∈ srcMembers netipParseAddr netipParsePrefix container items,
        m'.key ≠ m.key := by
  unfold followed directMembers
  split_ifs with hempty
  · simp [List.isEmpty_iff.1 hempty]
  · dsimp only
    rw [List.mem_append, mem_followedSrc, List.mem_filter]
    refine or_congr_right (and_congr_right fun _ => ?_)
    cases hk : m.key with
    | none =>
      refine iff_of_true rfl fun m' hm' => ?_
      exact (srcForm_of_mem_parsedSrc (of_mem_srcMembers hm').1).key_ne_none
    | some k => simp [mem_followedSrc]

theorem exists_mem_srcMembers {m : SetMember}
    (h : m ∈ parsedSrc netipParseAddr netipParsePrefix container items)
    (hc : m.conflicts (parsedSrc netipParseAddr netipParsePrefix container items) = false) :
    ∃ m' ∈ srcMembers netipParseAddr netipParsePrefix container items, m'.key = m.key := by
  obtain ⟨k, hk⟩ := Option.ne_none_iff_exists'.1 (srcForm_of_mem_parsedSrc h).key_ne_none
  rw [hk]
  exact exists_mem_foldl_keepKey (List.mem_filter.2 ⟨h, by simp [hc]⟩) hk

theorem mem_srcMembers_of_oneOperator
    (hone : OneOperator (parsedSrc netipParseAddr netipParsePrefix container items))
    {m : SetMember} :
    m ∈ srcMembers netipParseAddr netipParsePrefix container items ↔
      m ∈ parsedSrc netipParseAddr netipParsePrefix container items ∧
        m.conflicts (parsedSrc netipParseAddr netipParsePrefix container items) = false := by
  refine ⟨of_mem_srcMembers, fun h => ?_⟩
  obtain ⟨m', hm', hk⟩ := exists_mem_srcMembers h.1 h.2
  have hps' := (of_mem_srcMembers hm').1
  rwa [key_inj hone (fun _ => srcForm_of_mem_parsedSrc) h.1 hps' h.2 hk.symm]

theorem oneOperator_of_followed {listed : List SetMember}
    (h : ∀ m ∈ parsedSrc netipParseAddr netipParsePrefix container items,
      m.conflicts (parsedSrc netipParseAddr netipParsePrefix container items) = false →
      m ∈ followed netipParseAddr netipParsePrefix container listed items) :
    OneOperator (parsedSrc netipParseAddr netipParsePrefix container items) := by
  -- an item's key is kept, so no listed member has it and the item itself is kept
  have hkept : ∀ m ∈ parsedSrc netipParseAddr netipParsePrefix container items,
      m.conflicts (parsedSrc netipParseAddr netipParsePrefix container items) = false →
      m ∈ srcMembers netipParseAddr netipParsePrefix container items := by
    intro m hm hc
    rcases mem_followed.1 (h m hm hc) with hsrc | hlisted
    · exact hsrc
    · obtain ⟨m', hm', hk⟩ := exists_mem_srcMembers hm hc
      exact absurd hk (hlisted.2 m' hm')
  intro name source op op' hm hm' hc
  have hc' : (SetMember.set name source op').conflicts
      (parsedSrc netipParseAddr netipParsePrefix container items) = false := hc
  have heq := eq_of_mem_kept (hkept _ hm hc) (hkept _ hm' hc') rfl
  injection heq

variable {items' : List Text}

theorem parsedSrc_perm (h : items.Perm items') :
    (parsedSrc netipParseAddr netipParsePrefix container items).Perm
      (parsedSrc netipParseAddr netipParsePrefix container items') :=
  h.filterMap _

theorem conflicts_perm {ps ps' : List SetMember} (h : ps.Perm ps') (m : SetMember) :
    m.conflicts ps = m.conflicts ps' := by
  cases m with
  | set name source op =>
    unfold SetMember.conflicts registries
    dsimp only
    rw [((h.filterMap _).dedup).length_eq]
  | _ => rfl

theorem OneOperator.perm {ps ps' : List SetMember} (h : ps.Perm ps') (hone : OneOperator ps) :
    OneOperator ps' := by
  intro name source op op' hm hm' hc
  rw [← conflicts_perm h] at hc
  exact hone name source op op' (h.mem_iff.2 hm) (h.mem_iff.2 hm') hc

theorem mem_followed_perm {listed : List SetMember} (h : items.Perm items')
    (hone : OneOperator (parsedSrc netipParseAddr netipParsePrefix container items))
    (m : SetMember) :
    m ∈ followed netipParseAddr netipParsePrefix container listed items' ↔
      m ∈ followed netipParseAddr netipParsePrefix container listed items := by
  have hps : (parsedSrc netipParseAddr netipParsePrefix container items).Perm
      (parsedSrc netipParseAddr netipParsePrefix container items') := parsedSrc_perm h
  have hsrc : ∀ m, m ∈ srcMembers netipParseAddr netipParsePrefix container items' ↔
      m ∈ srcMembers netipParseAddr netipParsePrefix container items := by
    intro m
    rw [mem_srcMembers_of_oneOperator hone, mem_srcMembers_of_oneOperator (hone.perm hps),
      hps.mem_iff, conflicts_perm hps]
  simp only [mem_followed, hsrc]

end Followed

end Rpsl.Object

namespace Rpsl.Resolve

open Text Object

/-! ## Expansion -/

section Expansion

variable {E : Type}

/-- The two sets differ in their bodies only (and the text they were decoded from). -/
structure SameButBody (s s' : NamedSet) : Prop where
  cls : s'.cls = s.cls
  name : s'.name = s.name
  source : s'.source = s.source
  refMntners : s'.refMntners = s.refMntners

/-- The second Source answers as the first, with `s'` in the place of `s`. -/
structure Source.Replaces (src src' : Source E) (s s' : NamedSet) : Prop where
  getSet : ∀ ref, src'.getSet ref = src.getSet ref ∨
    src.getSet ref = .ok (some s) ∧ src'.getSet ref = .ok (some s')
  originatedRoutes : ∀ a afi, src'.originatedRoutes a afi = src.originatedRoutes a afi
  membersByRef : ∀ t, src'.membersByRef t = src.membersByRef t
  claims : src'.membersByRef s' = src.membersByRef s

theorem NamedSet.Alike.refl (s : NamedSet) : NamedSet.Alike s s :=
  ⟨rfl, rfl, rfl, rfl, fun _ => .rfl, fun _ => .rfl⟩

theorem alike_of_replaces {src src' : Source E} {s s' : NamedSet} (h : src.Replaces src' s s')
    (hs : NamedSet.Alike s s') : src.Alike src' where
  getSet ref := by
    rcases h.getSet ref with heq | ⟨hfirst, hsecond⟩
    · cases hget : src.getSet ref with
      | error err => exact .inl ⟨err, rfl, heq.trans hget⟩
      | ok found =>
        refine .inr ⟨found, found, rfl, heq.trans hget, ?_⟩
        cases found with
        | none => exact .none
        | some t => exact .some ⟨.refl t, h.membersByRef t⟩
    · exact .inr ⟨_, _, hfirst, hsecond, .some ⟨hs, h.claims⟩⟩
  originatedRoutes := h.originatedRoutes

theorem alike_of_mem_followed {s s' : NamedSet} (h : SameButBody s s')
    {listed src src' : List SetMember} (hbody : s.body = .members listed src)
    (hbody' : s'.body = .members listed src')
    (hmem : ∀ m, m ∈ directMembers listed src' ↔ m ∈ directMembers listed src) :
    NamedSet.Alike s s' := by
  refine ⟨h.cls, h.name, h.source, h.refMntners, fun m => ?_, fun c => ?_⟩
  · unfold members
    rw [hbody, hbody']
    exact (hmem m).symm
  · unfold nestedRefs
    rw [hbody, hbody', h.name]
    simp only [List.mem_filterMap, hmem]

/-- Whatever else the Source holds, expansion does not see the order of the items. -/
def ExpandsAlike (listed src src' : List SetMember) : Prop :=
  ∀ (E : Type) (e : Expander E) (other : Source E) (s s' : NamedSet),
    SameButBody s s' → s.body = .members listed src → s'.body = .members listed src' →
    e.src.Replaces other s s' → ∀ (o o' : Orders), o.Complete → o'.Complete → ∀ ref,
    SameResult ASNSet.Same (e.expandASIn o ref) ({ e with src := other }.expandASIn o' ref) ∧
    SameResult RangeSet.Same (e.expandPrefixRangesIn o ref)
      ({ e with src := other }.expandPrefixRangesIn o' ref) ∧
    SameResult PrefixSet.Same (e.expandPrefixesIn o ref)
      ({ e with src := other }.expandPrefixesIn o' ref)

/-- **src-members: in any order.** Whatever order the items are in, the same members are followed
and expansions return the same, and every item that parses and is not in conflict over registries
is followed, exactly when no set is listed under one registry with two operators. -/
theorem srcMembers_anyOrder_iff (netipParseAddr : Text → Option Addr)
    (netipParsePrefix : Text → Option Prefix) (container : SetClass) (listed : List SetMember)
    (items : List Text) :
    ((∀ items', items.Perm items' →
        (∀ m, m ∈ followed netipParseAddr netipParsePrefix container listed items' ↔
          m ∈ followed netipParseAddr netipParsePrefix container listed items) ∧
        ExpandsAlike listed (srcMembers netipParseAddr netipParsePrefix container items)
          (srcMembers netipParseAddr netipParsePrefix container items')) ∧
      ∀ it ∈ items, ∀ m, parseSrcMember netipParseAddr netipParsePrefix container it = .ok m →
        m.conflicts (parsedSrc netipParseAddr netipParsePrefix container items) = false →
        m ∈ followed netipParseAddr netipParsePrefix container listed items) ↔
    OneOperator (parsedSrc netipParseAddr netipParsePrefix container items) := by
  constructor
  · intro h
    apply oneOperator_of_followed
    intro m hm hc
    obtain ⟨it, hit, hparse⟩ := mem_parsedSrc.1 hm
    exact h.2 it hit m hparse hc
  · intro hone
    refine ⟨fun items' hperm => ⟨mem_followed_perm hperm hone, ?_⟩, fun it hit m hparse hc => ?_⟩
    · intro E e other s s' hsame hbody hbody' hrep o o' ho ho' ref
      have halike := alike_of_mem_followed hsame hbody hbody' (mem_followed_perm hperm hone)
      exact Expander.expand_alike (alike_of_replaces hrep halike) ho ho' ref
    · have hm := mem_parsedSrc.2 ⟨it, hit, hparse⟩
      exact mem_followed.2 (.inl ((mem_srcMembers_of_oneOperator hone).2 ⟨hm, hc⟩))

/-- RS-A of RIPE, asked for at two lengths: whichever item is first is the one followed. -/
theorem srcMembers_order_matters :
    let items := [lit "RIPE::RS-A^24", lit "RIPE::RS-A^25"]
    followed (fun _ => none) (fun _ => none) .routeSet [] items.reverse ≠
      followed (fun _ => none) (fun _ => none) .routeSet [] items ∧
    ∃ m ∈ parsedSrc (fun _ => none) (fun _ => none) .routeSet items,
      m.conflicts (parsedSrc (fun _ => none) (fun _ => none) .routeSet items) = false ∧
      m ∈ followed (fun _ => none) (fun _ => none) .routeSet [] items.reverse ∧
      m ∉ followed (fun _ => none) (fun _ => none) .routeSet [] items := by
  decide +kernel

end Expansion

end Rpsl.Resolve
