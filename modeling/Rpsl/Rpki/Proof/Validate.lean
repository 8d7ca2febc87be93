import Rpsl.Rpki.Rpki

/-!
# Validation is RFC 6811's

The index holds under each prefix the grants of the VRPs of that prefix, and marks the length of
each (`Indexes`). So the grants met on the way from the empty prefix down to a route's are those of
the VRPs that cover it (`mem_met`), and the state is read off them.
-/

namespace Rpsl.Rpki

/-- The VRP's prefix is the route's or less specific, in one family. -/
def VRP.Covers (v : VRP) (p : Prefix) : Prop := ∃ q, v.pfx = some q ∧ q.Covers p

/-- The VRP makes the route valid. -/
def VRP.Matches (v : VRP) (p : Prefix) (a : ASN) : Prop :=
  v.Covers p ∧ p.bits ≤ v.maxLength.toNat ∧ v.asn = a ∧ a ≠ 0

/-- `v` is a VRP of prefix `q`, as `VRP`'s fields promise. -/
structure VRP.Of (v : VRP) (q : Prefix) : Prop where
  pfx : v.pfx = some q
  masked : q.masked = q
  le : q.bits ≤ v.maxLength.toNat
  max : v.maxLength.toNat ≤ q.bitLen

variable {q : Prefix}

theorem check_eq_ok {v : VRP} (h : v.Of q) : check v = .ok q := by
  have hlen : ¬ (v.maxLength.toNat < q.bits ∨ q.bitLen < v.maxLength.toNat) := by
    have := h.le
    have := h.max
    omega
  simp [check, h.pfx, h.masked, hlen]

/-! ## The index -/

namespace FamilyIndex

theorem toBitVec_lengthBit (l : Nat) :
    (lengthBit l).toBitVec = BitVec.twoPow 64 (l % 64) := by
  unfold lengthBit
  rw [UInt64.toBitVec_shiftLeft]
  apply BitVec.eq_of_toNat_eq
  simp [BitVec.twoPow]

theorem getLsbD_lengthBit (l : Nat) : (lengthBit l).toBitVec.getLsbD (l % 64) = true := by
  have hl : l % 64 < 64 := Nat.mod_lt _ (by decide)
  rw [toBitVec_lengthBit]
  simp [hl]

theorem and_lengthBit (x : UInt64) (l : Nat) :
    (x &&& lengthBit l != 0) = x.toBitVec.getLsbD (l % 64) := by
  have hne : BitVec.twoPow 64 (l % 64) ≠ 0#64 := by
    intro e
    have h := getLsbD_lengthBit l
    rw [toBitVec_lengthBit, e] at h
    simp at h
  rw [Bool.eq_iff_iff, bne_iff_ne, ne_eq, ← UInt64.toBitVec_inj, UInt64.toBitVec_and,
    toBitVec_lengthBit, BitVec.and_comm, BitVec.twoPow_and]
  cases x.toBitVec.getLsbD (l % 64) <;> simp [hne]

theorem hasLength_add (f : FamilyIndex) (q : Prefix) (g : Grant) {l : Nat}
    (h : f.hasLength l = true ∨ l = q.bits) : (f.add q g).hasLength l = true := by
  have hq : q.bits / 64 < 3 := by
    have := q.le.trans q.addr.fam.width_le
    omega
  unfold hasLength add at *
  simp only [and_lengthBit] at *
  by_cases hl : q.bits / 64 = l / 64
  · rw [hl, Vector.getElem?_setIfInBounds_self_of_lt (by omega), Option.getD_some,
      UInt64.toBitVec_or, BitVec.getLsbD_or, Bool.or_eq_true]
    rcases h with h | rfl
    · exact .inl h
    · exact .inr (getLsbD_lengthBit q.bits)
  · rw [Vector.getElem?_setIfInBounds_ne hl]
    rcases h with h | rfl
    · exact h
    · exact absurd rfl hl

theorem lookup_filter {β : Type} {q' : Prefix} (h : q' ≠ q) (l : List (Prefix × β)) :
    (l.filter (·.1 ≠ q)).lookup q' = l.lookup q' := by
  induction l with
  | nil => rfl
  | cons x l ih =>
    by_cases hx : x.1 = q
    · have hne : (q' == x.1) = false := by simpa [hx] using h
      rw [List.filter_cons_of_neg (by simpa using hx), ih, List.lookup_cons, hne]
    · rw [List.filter_cons_of_pos (by simpa using hx), List.lookup_cons, List.lookup_cons, ih]

theorem grants_add (f : FamilyIndex) (q q' : Prefix) (g : Grant) :
    (f.add q g).grants q' = if q' = q then f.grants q ++ [g] else f.grants q' := by
  unfold add grants
  by_cases h : q' = q
  · simp [h]
  · have hne : (q' == q) = false := by simpa using h
    rw [List.lookup_cons, hne, lookup_filter h, if_neg h]

end FamilyIndex

def grantsOf (vs : List VRP) (q : Prefix) : List Grant :=
  (vs.filter (·.pfx = some q)).map fun v => ⟨v.maxLength, v.asn⟩

/-- Under each prefix stand the grants of its VRPs, and their lengths are marked. -/
structure Indexes (s : VRPs) (vs : List VRP) : Prop where
  grants : ∀ q, (s.fam q).grants q = grantsOf vs q
  lengths : ∀ v ∈ vs, ∀ q, v.pfx = some q → (s.fam q).hasLength q.bits = true

theorem fam_addGrant (s : VRPs) (q q' : Prefix) (v : VRP) :
    (s.addGrant q v).fam q' =
      if q'.is4 = q.is4 then (s.fam q').add q ⟨v.maxLength, v.asn⟩ else s.fam q' := by
  unfold VRPs.addGrant VRPs.fam
  cases q.is4 <;> cases q'.is4 <;> rfl

variable {s : VRPs} {vs : List VRP}

theorem Indexes.add (h : Indexes s vs) {v : VRP}
    (hv : v.pfx = some q) : Indexes (s.addGrant q v) (vs ++ [v]) where
  grants q' := by
    rw [fam_addGrant]
    by_cases hq : q' = q
    · subst hq
      rw [if_pos rfl, FamilyIndex.grants_add, if_pos rfl, h.grants]
      simp [grantsOf, hv]
    · have hno : v.pfx ≠ some q' := fun e => hq (Option.some.inj (e.symm.trans hv))
      have hkeep : grantsOf (vs ++ [v]) q' = grantsOf vs q' := by simp [grantsOf, hno]
      rw [hkeep, ← h.grants]
      split
      · rw [FamilyIndex.grants_add, if_neg hq]
      · rfl
  lengths w hw q' hq' := by
    rw [fam_addGrant]
    rcases List.mem_append.1 hw with hw | hw
    · split
      · exact FamilyIndex.hasLength_add _ _ _ (.inl (h.lengths w hw q' hq'))
      · exact h.lengths w hw q' hq'
    · obtain rfl := List.mem_singleton.1 hw
      obtain rfl := Option.some.inj (hq'.symm.trans hv)
      rw [if_pos rfl]
      exact FamilyIndex.hasLength_add _ _ _ (.inr rfl)

theorem indexFrom_indexes {us : List VRP} (h : Indexes s us)
    (hvs : ∀ v ∈ vs, ∃ q, v.Of q) (i : Nat) :
    ∃ t, s.indexFrom i vs = .ok t ∧ Indexes t (us ++ vs) := by
  induction vs generalizing s us i with
  | nil => exact ⟨s, rfl, by simpa using h⟩
  | cons v vs ih =>
    obtain ⟨q, hq⟩ := hvs v List.mem_cons_self
    obtain ⟨t, ht, hi⟩ := ih (h.add hq.pfx) (fun w hw => hvs w (List.mem_cons_of_mem v hw)) (i + 1)
    refine ⟨t, ?_, by simpa using hi⟩
    rw [VRPs.indexFrom, check_eq_ok hq]
    exact ht

theorem new_indexes (hvs : ∀ v ∈ vs, ∃ q, v.Of q) :
    ∃ s, VRPs.new vs = .ok s ∧ Indexes s vs := by
  have hnil : Indexes ⟨vs, .empty, .empty⟩ [] := by
    refine ⟨fun q => ?_, by simp⟩
    cases h : q.is4 <;> simp [VRPs.fam, h, FamilyIndex.grants, FamilyIndex.empty, grantsOf]
  exact indexFrom_indexes hnil hvs 0

/-! ## The walk over the lengths -/

/-- The grant makes the route valid. -/
def Grant.Matches (g : Grant) (p : Prefix) (a : ASN) : Prop :=
  g.asn ≠ 0 ∧ g.asn = a ∧ p.bits ≤ g.maxLength.toNat

theorem tryGrants_append (p : Prefix) (a : ASN) (covered : Bool) (gs hs : List Grant) :
    VRPs.tryGrants p a covered (gs ++ hs) =
      (VRPs.tryGrants p a covered gs).bind fun covered => VRPs.tryGrants p a covered hs := by
  induction gs generalizing covered with
  | nil => rfl
  | cons g gs ih =>
    rw [List.cons_append, VRPs.tryGrants, VRPs.tryGrants, ih]
    split <;> rfl

variable {p : Prefix}

theorem tryGrants_eq_none {a : ASN} (covered : Bool) {gs : List Grant} :
    VRPs.tryGrants p a covered gs = none ↔ ∃ g ∈ gs, g.Matches p a := by
  induction gs generalizing covered with
  | nil => simp [VRPs.tryGrants]
  | cons g gs ih =>
    rw [VRPs.tryGrants]
    split
    · rename_i h
      exact ⟨fun _ => ⟨g, List.mem_cons_self, h⟩, fun _ => rfl⟩
    · rename_i h
      have hg : ¬ g.Matches p a := h
      simp [ih, hg]

theorem tryGrants_eq_some {a : ASN} {covered c : Bool} {gs : List Grant}
    (h : VRPs.tryGrants p a covered gs = some c) : c = (covered || !gs.isEmpty) := by
  induction gs generalizing covered with
  | nil =>
    cases h
    simp
  | cons g gs ih =>
    rw [VRPs.tryGrants] at h
    split at h
    · cases h
    · rw [ih h]
      simp

def met (f : FamilyIndex) (p : Prefix) (ls : List Nat) : List Grant :=
  ls.flatMap fun l => if f.hasLength l then f.grants (p.up l) else []

theorem tryLengths_eq (f : FamilyIndex) (p : Prefix) (a : ASN) (covered : Bool) (ls : List Nat) :
    VRPs.tryLengths f p a covered ls =
      match VRPs.tryGrants p a covered (met f p ls) with
      | none => .valid
      | some c => if c then .invalid else .notFound := by
  induction ls generalizing covered with
  | nil => rfl
  | cons l ls ih =>
    have hmet : met f p (l :: ls) =
        (if f.hasLength l then f.grants (p.up l) else []) ++ met f p ls := rfl
    rw [VRPs.tryLengths, hmet, tryGrants_append]
    cases f.hasLength l with
    | false => exact ih covered
    | true =>
      rw [if_pos rfl]
      cases VRPs.tryGrants p a covered (f.grants (p.up l)) with
      | none => rfl
      | some c => exact ih c

theorem up_eq_of_covers (hq : q.masked = q) (h : q.Covers p) : p.up q.bits = q := by
  refine Prefix.ext_path (p.up_masked _) hq h.1.symm ?_
  rw [Prefix.up_path, ← q.path_length]
  exact (List.prefix_iff_eq_take.1 h.2).symm

/-- **The grants met are those of the VRPs that cover the route.** -/
theorem mem_met (h : Indexes s vs) (hvs : ∀ v ∈ vs, ∃ q, v.Of q)
    (p : Prefix) (g : Grant) :
    g ∈ met (s.fam p) p (List.range (p.bits + 1)) ↔
      ∃ v ∈ vs, v.Covers p ∧ g = ⟨v.maxLength, v.asn⟩ := by
  have hfam : ∀ q : Prefix, q.fam = p.fam → s.fam p = s.fam q := fun q hq => by
    simp [VRPs.fam, Prefix.is4, hq]
  have hgrants : ∀ l, (s.fam p).grants (p.up l) = grantsOf vs (p.up l) := fun l => by
    rw [hfam (p.up l) rfl, h.grants]
  unfold met
  rw [List.mem_flatMap]
  constructor
  · intro ⟨l, hl, hg⟩
    split at hg
    · rw [hgrants] at hg
      obtain ⟨v, hv, rfl⟩ := List.mem_map.1 hg
      obtain ⟨hv, hp⟩ := List.mem_filter.1 hv
      exact ⟨v, hv, ⟨_, of_decide_eq_true hp, p.up_covers l⟩, rfl⟩
    · cases hg
  · intro ⟨v, hv, ⟨q, hq, hc⟩, hg⟩
    obtain ⟨q', hof⟩ := hvs v hv
    obtain rfl := Option.some.inj (hq.symm.trans hof.pfx)
    have hup := up_eq_of_covers hof.masked hc
    refine ⟨q.bits, List.mem_range.2 (Nat.lt_succ_of_le hc.bits_le), ?_⟩
    rw [hfam q hc.1, if_pos (h.lengths v hv q hq), ← hfam q hc.1, hgrants, hup, hg]
    exact List.mem_map.2 ⟨v, List.mem_filter.2 ⟨hv, decide_eq_true hq⟩, rfl⟩

/-! ## The state -/

/-- **Route origin validation is RFC 6811's**: `NewVRPs` accepts any list of VRPs, and the route is
valid when a VRP covers it, allows its length and names its origin, which is not AS0; invalid when
none does but one covers it; and not found when none covers it. -/
theorem validate_rfc6811 (vs : List VRP) (hvs : ∀ v ∈ vs, ∃ q, v.Of q) :
    ∃ s, VRPs.new vs = .ok s ∧ ∀ (p : Prefix) (a : ASN),
      (VRPs.validate (some s) (some p) a = .valid ↔ ∃ v ∈ vs, v.Matches p a) ∧
      (VRPs.validate (some s) (some p) a = .invalid ↔
        (¬ ∃ v ∈ vs, v.Matches p a) ∧ ∃ v ∈ vs, v.Covers p) ∧
      (VRPs.validate (some s) (some p) a = .notFound ↔ ¬ ∃ v ∈ vs, v.Covers p) := by
  obtain ⟨s, hs, hi⟩ := new_indexes hvs
  refine ⟨s, hs, fun p a => ?_⟩
  have hmem := mem_met hi hvs p
  generalize hm : met (s.fam p) p (List.range (p.bits + 1)) = gs at hmem
  have hvalid : (∃ g ∈ gs, g.Matches p a) ↔ ∃ v ∈ vs, v.Matches p a := by
    refine ⟨fun ⟨g, hg, h0, ha, hb⟩ => ?_, fun ⟨v, hv, hc, hb, ha, h0⟩ => ?_⟩
    · obtain ⟨v, hv, hc, rfl⟩ := (hmem g).1 hg
      exact ⟨v, hv, hc, hb, ha, ha ▸ h0⟩
    · exact ⟨_, (hmem _).2 ⟨v, hv, hc, rfl⟩, by rw [ha]; exact h0, ha, hb⟩
  have hcover : gs ≠ [] ↔ ∃ v ∈ vs, v.Covers p := by
    refine ⟨fun hne => ?_, fun ⟨v, hv, hc⟩ => List.ne_nil_of_mem ((hmem _).2 ⟨v, hv, hc, rfl⟩)⟩
    obtain ⟨g, hg⟩ := List.exists_mem_of_ne_nil gs hne
    obtain ⟨v, hv, hc, -⟩ := (hmem g).1 hg
    exact ⟨v, hv, hc⟩
  have hsub : (∃ v ∈ vs, v.Matches p a) → ∃ v ∈ vs, v.Covers p := fun ⟨v, hv, h⟩ => ⟨v, hv, h.1⟩
  have hstate : VRPs.validate (some s) (some p) a = match VRPs.tryGrants p a false gs with
      | none => .valid
      | some c => if c then .invalid else .notFound := by
    rw [← hm]
    exact tryLengths_eq ..
  rw [hstate, ← hvalid, ← hcover]
  rw [← hvalid, ← hcover] at hsub
  rw [← tryGrants_eq_none false] at *
  cases ht : VRPs.tryGrants p a false gs with
  | none => simpa [ht] using hsub
  | some c =>
    rw [tryGrants_eq_some ht]
    cases gs <;> simp

/-- The VRPs of 10.0.0.0/8 up to /16 for AS1, and of AS0 for the same prefix. -/
theorem validate_rfc6811_ten :
    ∃ s, VRPs.new [⟨some ⟨⟨.v4, 0x0a000000⟩, 8, by decide⟩, 16, 1⟩,
        ⟨some ⟨⟨.v4, 0x0a000000⟩, 8, by decide⟩, 32, 0⟩] = .ok s ∧
      VRPs.validate (some s) (some ⟨⟨.v4, 0x0a010000⟩, 16, by decide⟩) 1 = .valid := by
  obtain ⟨s, hs, h⟩ := validate_rfc6811
    [⟨some ⟨⟨.v4, 0x0a000000⟩, 8, by decide⟩, 16, 1⟩,
      ⟨some ⟨⟨.v4, 0x0a000000⟩, 8, by decide⟩, 32, 0⟩] (by
    refine List.forall_mem_cons.2 ⟨⟨_, rfl, ?_, ?_, ?_⟩,
      List.forall_mem_cons.2 ⟨⟨_, rfl, ?_, ?_, ?_⟩, by simp⟩⟩ <;> decide +kernel)
  refine ⟨s, hs, (h _ 1).1.2 ⟨_, List.mem_cons_self, ⟨_, rfl, ?_⟩, ?_, rfl, ?_⟩⟩
  · exact (Prefix.contains_masked_iff (by decide)).1 (by decide +kernel)
  · decide
  · decide

end Rpsl.Rpki
