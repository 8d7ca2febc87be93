import Rpsl.Lib.Walk
import Rpsl.Resolve.Proof.Concurrent
import Rpsl.Resolve.Proof.Limits

/-!
# Discovery in any order

Two Sources whose sets list the same members in other orders. A level of discovery notes the
references its sets list (`Took`): which these are, whether there is room for them and what is
left for the next level does not depend on the order, so the levels of the two discoveries are the
same up to order (`discoverLoop_same`), and so are the graphs (`discover_same`).
-/

namespace Rpsl.Object

/-- The body lists the same members, in another order; there are no src-members. -/
inductive SetBody.Permuted : SetBody → SetBody → Prop
  | members {l l' : List SetMember} : l.Perm l' → Permuted (.members l []) (.members l' [])
  | routers {l l' : List RtrSetMember} : l.Perm l' → Permuted (.routers l) (.routers l')
  | peerings (ps : List (Option Policy.Peering)) : Permuted (.peerings ps) (.peerings ps)
  | filter (f mp : Option Policy.Filter) : Permuted (.filter f mp) (.filter f mp)
  | other : Permuted .other .other

/-- The set is the same but for the order of its members. -/
structure NamedSet.Permuted (s s' : NamedSet) : Prop where
  cls : s'.cls = s.cls
  name : s'.name = s.name
  source : s'.source = s.source
  refMntners : s'.refMntners = s.refMntners
  body : s.body.Permuted s'.body

end Rpsl.Object

namespace Rpsl.Resolve

open Text Rpsl.Policy Object Lib

/-- Both fail, or both return and the results are related by `R`. -/
def SameResult {ε α : Type} (R : α → α → Prop) : Except ε α → Except ε α → Prop
  | .ok a, .ok b => R a b
  | .error _, .error _ => True
  | _, _ => False

/-- The Source answers as `src` does, but for the order in which sets list their members. -/
structure Source.Permuted {E : Type} (src src' : Source E) : Prop where
  getSet : ∀ ref, (∃ err, src.getSet ref = .error err ∧ src'.getSet ref = .error err) ∨
    ∃ s s', src.getSet ref = .ok s ∧ src'.getSet ref = .ok s' ∧ Option.Rel NamedSet.Permuted s s'
  originatedRoutes : ∀ a afi, src'.originatedRoutes a afi = src.originatedRoutes a afi
  membersByRef : ∀ s s', s.Permuted s' → src'.membersByRef s' = src.membersByRef s

/-! ## Sets -/

section

variable {s s' : NamedSet}

/-- The two sets are looked up alike, honour the same claims, and the same members of them are
followed. -/
structure NamedSet.Alike (s s' : NamedSet) : Prop where
  cls : s'.cls = s.cls
  name : s'.name = s.name
  source : s'.source = s.source
  refMntners : s'.refMntners = s.refMntners
  members : ∀ m, m ∈ members s ↔ m ∈ members s'
  nestedRefs : ∀ c, c ∈ nestedRefs s ↔ c ∈ nestedRefs s'

theorem NamedSet.Alike.symm (h : NamedSet.Alike s s') : NamedSet.Alike s' s :=
  ⟨h.cls.symm, h.name.symm, h.source.symm, h.refMntners.symm, fun m => (h.members m).symm,
    fun c => (h.nestedRefs c).symm⟩

theorem mem_members_permuted (h : s.Permuted s') (m : SetMember) :
    m ∈ members s ↔ m ∈ members s' := by
  unfold members
  have hbody := h.body
  generalize s.body = b at hbody
  generalize s'.body = b' at hbody
  cases hbody with
  | members hperm => simpa [directMembers] using hperm.mem_iff
  | routers hperm => rfl
  | peerings ps => rfl
  | filter f mp => rfl
  | other => rfl

theorem mem_nestedRefs_permuted (h : s.Permuted s') (c : SetRef) :
    c ∈ nestedRefs s ↔ c ∈ nestedRefs s' := by
  unfold nestedRefs
  have hbody := h.body
  rw [h.name]
  generalize s.body = b at hbody
  generalize s'.body = b' at hbody
  cases hbody with
  | members hperm =>
    simp only [directMembers, List.isEmpty_nil, if_true]
    exact (hperm.filterMap _).mem_iff
  | routers hperm => exact (hperm.filterMap _).mem_iff
  | peerings ps => rfl
  | filter f mp => rfl
  | other => rfl

theorem alike_of_permuted (h : s.Permuted s') : NamedSet.Alike s s' :=
  ⟨h.cls, h.name, h.source, h.refMntners, mem_members_permuted h, mem_nestedRefs_permuted h⟩

theorem claimAllowed_alike (h : NamedSet.Alike s s') (o : Object) :
    (claimClassOK s' o && claimAllowed o s') = (claimClassOK s o && claimAllowed o s) := by
  unfold claimClassOK claimAllowed
  rw [h.name, h.source, h.refMntners]

end

/-! ## Sources -/

section

variable {E : Type} {src src' : Source E}

def Source.HoldAlike (src src' : Source E) (s s' : NamedSet) : Prop :=
  NamedSet.Alike s s' ∧ src'.membersByRef s' = src.membersByRef s

/-- The two Sources answer alike: what an expansion reads of their answers is the same, as sets. -/
structure Source.Alike (src src' : Source E) : Prop where
  getSet : ∀ ref, (∃ err, src.getSet ref = .error err ∧ src'.getSet ref = .error err) ∨
    ∃ s s', src.getSet ref = .ok s ∧ src'.getSet ref = .ok s' ∧
      Option.Rel (src.HoldAlike src') s s'
  originatedRoutes : ∀ a afi, src'.originatedRoutes a afi = src.originatedRoutes a afi

theorem Source.Alike.symm (h : src.Alike src') : src'.Alike src where
  getSet ref := by
    rcases h.getSet ref with ⟨err, h₁, h₂⟩ | ⟨s, s', h₁, h₂, hs⟩
    · exact .inl ⟨err, h₂, h₁⟩
    · refine .inr ⟨s', s, h₂, h₁, ?_⟩
      cases hs with
      | none => exact .none
      | some hs => exact .some ⟨hs.1.symm, hs.2.symm⟩
  originatedRoutes a afi := (h.originatedRoutes a afi).symm

theorem Source.Permuted.alike (h : src.Permuted src') : src.Alike src' where
  getSet ref := by
    rcases h.getSet ref with herr | ⟨s, s', h₁, h₂, hs⟩
    · exact .inl herr
    · refine .inr ⟨s, s', h₁, h₂, ?_⟩
      cases hs with
      | none => exact .none
      | some hs => exact .some ⟨alike_of_permuted hs, h.membersByRef _ _ hs⟩
  originatedRoutes := h.originatedRoutes

end

namespace Expander

variable {E : Type} {e : Expander E} {src' : Source E} (h : e.src.Alike src')

include h

theorem fetchOne_alike (ref : SetRef) :
    (∃ s s', e.fetchOne ref = .ok s ∧ { e with src := src' }.fetchOne ref = .ok s' ∧
      e.src.HoldAlike src' s s') ∨
    ∃ err, e.fetchOne ref = .error err ∧ { e with src := src' }.fetchOne ref = .error err := by
  unfold fetchOne
  rcases h.getSet ref with ⟨err, h₁, h₂⟩ | ⟨s, s', h₁, h₂, hs⟩
  · rw [h₁]
    dsimp only
    rw [h₂]
    exact .inr ⟨_, rfl, rfl⟩
  · rw [h₁]
    dsimp only
    rw [h₂]
    cases hs with
    | none => exact .inr ⟨_, rfl, rfl⟩
    | some hs =>
      rename_i s s'
      unfold checkSet
      dsimp only
      rw [hs.1.name, hs.1.source, hs.1.cls]
      split_ifs
      · exact .inr ⟨_, rfl, rfl⟩
      · exact .inr ⟨_, rfl, rfl⟩
      · exact .inr ⟨_, rfl, rfl⟩
      · exact .inl ⟨s, s', rfl, rfl, hs⟩

theorem found_alike (ref : SetRef) :
    Option.Rel (e.src.HoldAlike src') (e.src.found ref) (src'.found ref) := by
  rcases fetchOne_alike h ref with ⟨s, s', hs, hs', hp⟩ | ⟨err, he, he'⟩
  · have h₂ := ({ e with src := src' }.fetchOne_eq_ok).1 hs'
    rw [e.fetchOne_eq_ok.1 hs]
    change src'.found ref = some s' at h₂
    rw [h₂]
    exact .some hp
  · have h₂ := ({ e with src := src' }).found_eq_none he'
    rw [e.found_eq_none he]
    change src'.found ref = none at h₂
    rw [h₂]
    exact .none

omit h in
theorem claimsOf_alike {s s' : NamedSet} (hs : e.src.HoldAlike src' s s') :
    { e with src := src' }.claimsOf s' = e.claimsOf s := by
  unfold claimsOf
  rw [hs.1.refMntners]
  dsimp only
  rw [hs.2]
  split_ifs
  · rfl
  · cases e.src.membersByRef s with
    | error err =>
      dsimp only
      rw [hs.1.name]
    | ok objs =>
      dsimp only
      congr 1
      exact List.filter_congr fun o _ => claimAllowed_alike hs.1 o

end Expander

/-! ## A level of discovery -/

namespace Expander

variable {E : Type} {e : Expander E} {top : SetRef} {depth : Nat}

variable (e depth) in
structure Took (L : SetRef → Prop) (st st' : Discovery) : Prop where
  seen : ∀ c, c ∈ st'.seen ↔ c ∈ st.seen ∨ L c
  nodup : st.seen.Nodup → st'.seen.Nodup
  next : ∀ c, c ∈ st'.next ↔ c ∈ st.next ∨ L c ∧ c ∉ st.seen ∧ c.name.isAny = false
  nextNodup : (∀ c ∈ st.next, c ∈ st.seen) → st.next.Nodup → st'.next.Nodup
  anyRef : st'.anyRef = none ↔
    st.anyRef = none ∧ ∀ c, L c → c ∉ st.seen → c.name.isAny = false
  room : st'.seen = st.seen ∨ depth + 1 ≤ e.depthLimit ∧ st'.seen.length ≤ e.visitLimit
  any : st'.any = st.any

theorem Took.refl (st : Discovery) : e.Took depth (fun _ => False) st st :=
  ⟨by simp, id, by simp, fun _ => id, by simp, .inl rfl, rfl⟩

variable {st st' : Discovery}

theorem Took.congr {L L' : SetRef → Prop} (hL : ∀ c, L c ↔ L' c)
    (h : e.Took depth L st st') : e.Took depth L' st st' := by
  obtain rfl : L = L' := funext fun c => propext (hL c)
  exact h

theorem Took.trans {L L' : SetRef → Prop} {s t u : Discovery} (h : e.Took depth L s t)
    (h' : e.Took depth L' t u) : e.Took depth (fun c => L c ∨ L' c) s u where
  seen c := by rw [h'.seen, h.seen, or_assoc]
  nodup hs := h'.nodup (h.nodup hs)
  next c := by
    rw [h'.next, h.next, h.seen]
    tauto
  nextNodup hsub hs := by
    refine h'.nextNodup (fun c hc => ?_) (h.nextNodup hsub hs)
    rcases (h.next c).1 hc with hc | ⟨hc, -⟩
    · exact (h.seen c).2 (.inl (hsub c hc))
    · exact (h.seen c).2 (.inr hc)
  anyRef := by
    rw [h'.anyRef, h.anyRef, and_assoc]
    refine and_congr_right fun _ => ⟨fun ⟨h₁, h₂⟩ c hc hs => ?_, fun hall => ⟨fun c hc hs => ?_,
      fun c hc hs => ?_⟩⟩
    · by_cases hL : L c
      · exact h₁ c hL hs
      · exact h₂ c (hc.resolve_left hL) fun ht => ((h.seen c).1 ht).elim hs hL
    · exact hall c (.inl hc) hs
    · exact hall c (.inr hc) fun hs' => hs ((h.seen c).2 (.inl hs'))
  room := by
    rcases h'.room with heq | hroom
    · rw [heq]
      exact h.room
    · exact .inr hroom
  any := h'.any.trans h.any

variable {ref : SetRef}

theorem noteRef_took
    (h : e.noteRef top false depth st ref = .ok st') :
    e.Took depth (fun c => c = ref ∧ e.excludesSet ref.name = false) st st' ∧
      st'.nodes = st.nodes ∧ st'.missing = st.missing := by
  unfold noteRef at h
  simp only [Bool.false_eq_true, if_false] at h
  split_ifs at h with hskip hdepth hvisit hany
  · -- seen already, or excluded
    cases h
    have hno : ∀ c, c = ref ∧ e.excludesSet ref.name = false → c ∈ st.seen := by
      intro c hyp
      obtain ⟨hc, hex⟩ := hyp
      rw [Bool.or_eq_true, hex, List.contains_iff_mem] at hskip
      rw [hc]
      exact hskip.resolve_right (by simp)
    refine ⟨⟨fun c => ⟨.inl, fun hc => hc.elim id (hno c)⟩, id, fun c => ⟨.inl, ?_⟩, fun _ => id,
      ⟨fun ha => ⟨ha, fun c hc hs => absurd (hno c hc) hs⟩, And.left⟩, .inl rfl, rfl⟩, rfl, rfl⟩
    intro hc
    exact hc.elim id fun hc => absurd (hno c hc.1) hc.2.1
  · -- AS-ANY
    cases h
    rw [Bool.or_eq_true, not_or, List.contains_iff_mem, Bool.not_eq_true] at hskip
    refine ⟨⟨fun c => ?_, fun hs => List.nodup_cons.2 ⟨hskip.1, hs⟩, fun c => ⟨.inl, ?_⟩,
      fun _ => id, ?_, .inr ⟨Nat.not_lt.1 hdepth, ?_⟩, ?_⟩, rfl, rfl⟩
    · rw [List.mem_cons, or_comm]
      simp [hskip.2]
    · intro hc
      refine hc.elim id fun hc => ?_
      have hno := hc.2.2
      rw [hc.1.1, hany] at hno
      cases hno
    · constructor
      · intro ha
        cases hst : st.anyRef <;> rw [hst] at ha <;> cases ha
      · intro ha
        have := ha.2 ref ⟨rfl, hskip.2⟩ hskip.1
        rw [hany] at this
        cases this
    · rw [List.length_cons]
      omega
    · rfl
  · cases h
    rw [Bool.or_eq_true, not_or, List.contains_iff_mem, Bool.not_eq_true] at hskip
    rw [Bool.not_eq_true] at hany
    refine ⟨⟨fun c => ?_, fun hs => List.nodup_cons.2 ⟨hskip.1, hs⟩, fun c => ?_,
      fun hsub hs => ?_, ?_, .inr ⟨Nat.not_lt.1 hdepth, ?_⟩, rfl⟩, rfl, rfl⟩
    · rw [List.mem_cons, or_comm]
      simp [hskip.2]
    · rw [List.mem_append, List.mem_singleton]
      refine or_congr_right ⟨fun hc => ?_, fun hc => hc.1.1⟩
      rw [hc]
      exact ⟨⟨rfl, hskip.2⟩, hskip.1, hany⟩
    · rw [List.nodup_append]
      refine ⟨hs, List.nodup_singleton _, fun c hc d hd hcd => hskip.1 ?_⟩
      rw [List.mem_singleton] at hd
      rw [← hd, ← hcd]
      exact hsub c hc
    · refine ⟨fun ha => ⟨ha, fun c hc _ => ?_⟩, And.left⟩
      rw [hc.1]
      exact hany
    · rw [List.length_cons]
      omega

theorem noteRefs_took {refs : List SetRef}
    (h : refs.foldlM (e.noteRef top false depth) st = .ok st') :
    e.Took depth (fun c => c ∈ refs ∧ e.excludesSet c.name = false) st st' ∧
      st'.nodes = st.nodes ∧ st'.missing = st.missing := by
  induction refs generalizing st with
  | nil =>
    cases h
    exact ⟨(Took.refl st').congr (by simp), rfl, rfl⟩
  | cons ref refs ih =>
    rw [List.foldlM_cons] at h
    obtain ⟨t, ht, h⟩ := bind_eq_ok.1 h
    obtain ⟨htook, hnodes, hmissing⟩ := noteRef_took ht
    obtain ⟨htook', hnodes', hmissing'⟩ := ih h
    refine ⟨(htook.trans htook').congr fun c => ?_, hnodes'.trans hnodes,
      hmissing'.trans hmissing⟩
    rw [List.mem_cons, or_and_right]
    refine or_congr_left ⟨fun hc => ⟨hc.1, by rw [hc.1]; exact hc.2⟩, fun hc => ⟨hc.1, ?_⟩⟩
    rw [← hc.1]
    exact hc.2

variable (e) in
def Follows (level : List SetRef) (c : SetRef) : Prop :=
  ∃ ref ∈ level, ∃ s, e.src.found ref = some s ∧ c ∈ nestedRefs s ∧ e.excludesSet c.name = false

variable (e depth) in
def Answered (ref : SetRef) : Prop :=
  (∃ s, e.fetchOne ref = .ok s) ∨ e.fetchOne ref = .error (.source .notFound) ∧ depth ≠ 0

def nodeOf (src : Source E) (ref : SetRef) : Option (SetRef × NamedSet) :=
  (src.found ref).map fun s => (ref, s)

theorem visitRef_took
    (h : e.visitRef top false depth st ref = .ok st') :
    e.Took depth (e.Follows [ref]) st st' ∧ e.Answered depth ref ∧
      st'.nodes = st.nodes ++ (nodeOf e.src ref).toList ∧
      st'.missing = st.missing ++ [ref].filter fun r => (e.src.found r).isNone := by
  unfold visitRef at h
  split at h
  · rename_i herr
    split_ifs at h with hzero
    cases h
    have hnone := e.found_eq_none herr
    refine ⟨⟨?_, id, ?_, fun _ => id, ?_, .inl rfl, rfl⟩, .inr ⟨herr, hzero⟩, ?_, ?_⟩
    · intro c
      simp [Follows, hnone]
    · intro c
      simp [Follows, hnone]
    · simp [Follows, hnone]
    · simp [nodeOf, hnone]
    · simp [hnone]
  · cases h
  · rename_i s hs
    have hfound := e.fetchOne_eq_ok.1 hs
    obtain ⟨htook, hnodes, hmissing⟩ := noteRefs_took h
    have hL : ∀ c, (c ∈ nestedRefs s ∧ e.excludesSet c.name = false) ↔ e.Follows [ref] c := by
      intro c
      simp [Follows, hfound]
    have htook' := htook.congr hL
    refine ⟨⟨htook'.seen, htook'.nodup, htook'.next, htook'.nextNodup, htook'.anyRef, htook'.room,
      htook'.any⟩, .inl ⟨s, hs⟩, ?_, ?_⟩
    · rw [hnodes]
      simp [nodeOf, hfound]
    · rw [hmissing]
      simp [hfound]

variable {level : List SetRef}

/-- **What a level of discovery leaves.** -/
theorem level_took
    (h : level.foldlM (e.visitRef top false depth) st = .ok st') :
    e.Took depth (e.Follows level) st st' ∧ (∀ ref ∈ level, e.Answered depth ref) ∧
      st'.nodes = st.nodes ++ level.filterMap (nodeOf e.src) ∧
      st'.missing = st.missing ++ level.filter fun r => (e.src.found r).isNone := by
  induction level generalizing st with
  | nil =>
    cases h
    exact ⟨(Took.refl st').congr (by simp [Follows]), by simp, by simp, by simp⟩
  | cons ref level ih =>
    rw [List.foldlM_cons] at h
    obtain ⟨t, ht, h⟩ := bind_eq_ok.1 h
    obtain ⟨htook, hans, hnodes, hmissing⟩ := visitRef_took ht
    obtain ⟨htook', hans', hnodes', hmissing'⟩ := ih h
    refine ⟨(htook.trans htook').congr fun c => ?_, ?_, ?_, ?_⟩
    · simp [Follows]
    · intro r hr
      rcases List.mem_cons.1 hr with hr | hr
      · rw [hr]
        exact hans
      · exact hans' r hr
    · rw [hnodes', hnodes, List.append_assoc, List.filterMap_cons]
      cases nodeOf e.src ref <;> rfl
    · rw [hmissing', hmissing, List.append_assoc, ← List.filter_append]
      rfl

/-! ## A level with room -/

theorem noteRef_ok {U : Finset SetRef} (hnd : st.seen.Nodup)
    (hU : ∀ c ∈ st.seen, c ∈ U)
    (hroom : e.excludesSet ref.name = false → ref ∉ st.seen →
      ref ∈ U ∧ depth + 1 ≤ e.depthLimit ∧ U.card ≤ e.visitLimit) :
    ∃ st', e.noteRef top false depth st ref = .ok st' := by
  unfold noteRef
  by_cases hskip : (st.seen.contains ref || e.excludesSet ref.name) = true
  · exact ⟨st, if_pos hskip⟩
  · rw [if_neg hskip]
    rw [Bool.or_eq_true, not_or, List.contains_iff_mem, Bool.not_eq_true] at hskip
    obtain ⟨hmem, hdepth, hcard⟩ := hroom hskip.2 hskip.1
    have hlt := Walk.length_lt_card hnd hU hmem hskip.1
    rw [if_neg (Nat.not_lt.2 hdepth), if_neg (by omega)]
    split_ifs <;> exact ⟨_, rfl⟩

theorem level_ok {U : Finset SetRef}
    (hnd : st.seen.Nodup) (hU : ∀ c ∈ st.seen, c ∈ U)
    (hans : ∀ ref ∈ level, e.Answered depth ref) (hfollow : ∀ c, e.Follows level c → c ∈ U)
    (hroom : (∀ c, e.Follows level c → c ∈ st.seen) ∨
      depth + 1 ≤ e.depthLimit ∧ U.card ≤ e.visitLimit) :
    ∃ st', level.foldlM (e.visitRef top false depth) st = .ok st' := by
  induction level generalizing st with
  | nil => exact ⟨st, rfl⟩
  | cons ref level ih =>
    have hnote : ∀ (refs : List SetRef) {t : Discovery}, t.seen.Nodup → (∀ c ∈ t.seen, c ∈ U) →
        (∀ c ∈ refs, e.excludesSet c.name = false → e.Follows (ref :: level) c) →
        (∀ c ∈ st.seen, c ∈ t.seen) →
        ∃ t', refs.foldlM (e.noteRef top false depth) t = .ok t' := by
      intro refs
      induction refs with
      | nil => exact fun _ _ _ _ => ⟨_, rfl⟩
      | cons c refs ihr =>
        intro t ht htU hrefs hsub
        obtain ⟨t₁, ht₁⟩ : ∃ t₁, e.noteRef top false depth t c = .ok t₁ := by
          refine noteRef_ok ht htU fun hex hc => ?_
          have hf := hrefs c List.mem_cons_self hex
          exact ⟨hfollow c hf, hroom.resolve_left fun hall => hc (hsub c (hall c hf))⟩
        have htook := (noteRef_took ht₁).1
        obtain ⟨t₂, ht₂⟩ := ihr (htook.nodup ht)
          (fun d hd => ((htook.seen d).1 hd).elim (htU d) fun hd => by
            rw [hd.1]
            exact hfollow c (hrefs c List.mem_cons_self hd.2))
          (fun d hd => hrefs d (List.mem_cons_of_mem c hd))
          (fun d hd => (htook.seen d).2 (.inl (hsub d hd)))
        exact ⟨t₂, by rw [List.foldlM_cons, ht₁]; exact ht₂⟩
    have hone : ∃ t, e.visitRef top false depth st ref = .ok t := by
      rcases hans ref List.mem_cons_self with ⟨s, hs⟩ | ⟨hnone, hzero⟩
      · have hfound := e.fetchOne_eq_ok.1 hs
        obtain ⟨t, ht⟩ := hnote (nestedRefs s)
          (t := { st with nodes := st.nodes ++ [(ref, s)] }) hnd hU
          (fun c hc hex => ⟨ref, List.mem_cons_self, s, hfound, hc, hex⟩) fun _ => id
        exact ⟨t, by rw [visitRef, hs]; exact ht⟩
      · exact ⟨_, by rw [visitRef, hnone]; exact if_neg hzero⟩
    obtain ⟨t, ht⟩ := hone
    obtain ⟨htook, -⟩ := visitRef_took ht
    have hrest : ∀ c, e.Follows level c → e.Follows (ref :: level) c := by
      intro c hyp
      obtain ⟨r, hr, hc⟩ := hyp
      exact ⟨r, List.mem_cons_of_mem ref hr, hc⟩
    have hfirst : ∀ c, e.Follows [ref] c → e.Follows (ref :: level) c := by
      intro c hyp
      obtain ⟨r, hr, hc⟩ := hyp
      rw [List.mem_singleton] at hr
      exact ⟨r, by rw [hr]; exact List.mem_cons_self, hc⟩
    obtain ⟨st', hst'⟩ := ih (htook.nodup hnd)
      (fun c hc => ((htook.seen c).1 hc).elim (hU c) fun hc => hfollow c (hfirst c hc))
      (fun r hr => hans r (List.mem_cons_of_mem ref hr)) (fun c hc => hfollow c (hrest c hc))
      (hroom.imp_left fun hall c hc => (htook.seen c).2 (.inl (hall c (hrest c hc))))
    exact ⟨st', by rw [List.foldlM_cons, ht]; exact hst'⟩

/-! ## Discovery -/

variable {src' : Source E}

variable {level' : List SetRef}

theorem follows_alike (h : e.src.Alike src')
    (hl : level.Perm level') (c : SetRef) :
    { e with src := src' }.Follows level' c ↔ e.Follows level c := by
  constructor
  · intro hyp
    obtain ⟨ref, href, s', hs', hc, hex⟩ := hyp
    have hrel := found_alike h ref
    change src'.found ref = some s' at hs'
    rw [hs'] at hrel
    generalize hf : e.src.found ref = f at hrel
    cases hrel with
    | some hp => exact ⟨ref, hl.mem_iff.2 href, _, hf, (hp.1.nestedRefs c).2 hc, hex⟩
  · intro hyp
    obtain ⟨ref, href, s, hs, hc, hex⟩ := hyp
    have hrel := found_alike h ref
    rw [hs] at hrel
    generalize hf : src'.found ref = f at hrel
    cases hrel with
    | some hp => exact ⟨ref, hl.mem_iff.1 href, _, hf, (hp.1.nestedRefs c).1 hc, hex⟩

theorem answered_alike (h : e.src.Alike src') (ha : e.Answered depth ref) :
    { e with src := src' }.Answered depth ref := by
  rcases fetchOne_alike h ref with ⟨s, s', -, hs', -⟩ | ⟨err, he, he'⟩
  · exact .inl ⟨s', hs'⟩
  · rcases ha with ⟨s, hs⟩ | ⟨hnone, hzero⟩
    · rw [hs] at he
      cases he
    · rw [hnone] at he
      cases he
      exact .inr ⟨he', hzero⟩

theorem isNone_found_alike (h : e.src.Alike src') (ref : SetRef) :
    (src'.found ref).isNone = (e.src.found ref).isNone := by
  have hrel := found_alike h ref
  generalize e.src.found ref = f at hrel
  generalize src'.found ref = f' at hrel
  cases hrel <;> rfl

theorem map_fst_nodeOf (src : Source E) (level : List SetRef) :
    (level.filterMap (nodeOf src)).map Prod.fst =
      level.filter fun r => !(src.found r).isNone := by
  induction level with
  | nil => rfl
  | cons ref level ih =>
    rw [List.filterMap_cons, List.filter_cons, nodeOf]
    cases src.found ref with
    | none => simpa using ih
    | some s => simpa using ih

variable (e src') in
structure Same (st st' : Discovery) : Prop where
  seen : st.seen.Perm st'.seen
  nodup : st.seen.Nodup
  keys : (st.nodes.map Prod.fst).Perm (st'.nodes.map Prod.fst)
  missing : st.missing.Perm st'.missing
  any : st.any = []
  any' : st'.any = []
  nodes : ∀ p ∈ st.nodes, e.src.found p.1 = some p.2
  nodes' : ∀ p ∈ st'.nodes, src'.found p.1 = some p.2

theorem mem_filterMap_nodeOf {src : Source E} {p : SetRef × NamedSet}
    (hp : p ∈ level.filterMap (nodeOf src)) : src.found p.1 = some p.2 := by
  obtain ⟨ref, -, hr⟩ := List.mem_filterMap.1 hp
  obtain ⟨s, hs, rfl⟩ := Option.map_eq_some_iff.1 hr
  exact hs

/-- **One level of two discoveries.** -/
theorem level_same (h : e.src.Alike src') (hs : e.Same src' st st')
    (hl : level.Perm level') {st₁ : Discovery}
    (hrun : level.foldlM (e.visitRef top false depth) { st with next := [], anyRef := none } =
      .ok st₁) (hany : st₁.anyRef = none) :
    ∃ st₁', level'.foldlM ({ e with src := src' }.visitRef top false depth)
        { st' with next := [], anyRef := none } = .ok st₁' ∧
      e.Same src' st₁ st₁' ∧ st₁.next.Perm st₁'.next ∧ st₁.next.Nodup ∧ st₁'.anyRef = none := by
  obtain ⟨htook, hans, hnodes, hmissing⟩ := level_took hrun
  have hnd₁ := htook.nodup hs.nodup
  have hnd' : st'.seen.Nodup := hs.seen.nodup_iff.1 hs.nodup
  -- what was seen in the end has room for both
  obtain ⟨st₁', hrun'⟩ : ∃ st₁', level'.foldlM ({ e with src := src' }.visitRef top false depth)
      { st' with next := [], anyRef := none } = .ok st₁' := by
    apply level_ok (U := st₁.seen.toFinset)
      (show ({ st' with next := [], anyRef := none } : Discovery).seen.Nodup from hnd')
    · intro c hc
      exact List.mem_toFinset.2 ((htook.seen c).2 (.inl (hs.seen.mem_iff.2 hc)))
    · exact fun ref href => answered_alike h (hans ref (hl.mem_iff.2 href))
    · intro c hc
      exact List.mem_toFinset.2 ((htook.seen c).2 (.inr ((follows_alike h hl c).1 hc)))
    · rcases htook.room with heq | ⟨hdepth, hlen⟩
      · refine .inl fun c hc => hs.seen.mem_iff.1 ?_
        have hc' := (htook.seen c).2 (.inr ((follows_alike h hl c).1 hc))
        rw [heq] at hc'
        exact hc'
      · refine .inr ⟨hdepth, ?_⟩
        rw [List.toFinset_card_of_nodup hnd₁]
        exact hlen
  obtain ⟨htook', -, hnodes', hmissing'⟩ := level_took hrun'
  have hnotseen : ∀ c, c ∉ st'.seen ↔ c ∉ st.seen := fun c => not_congr hs.seen.mem_iff.symm
  have hseen : st₁.seen.Perm st₁'.seen := by
    rw [List.perm_ext_iff_of_nodup hnd₁ (htook'.nodup hnd')]
    intro c
    rw [htook.seen, htook'.seen, follows_alike h hl, hs.seen.mem_iff]
  have hnext : st₁.next.Nodup := htook.nextNodup (by simp) List.nodup_nil
  have hnext' : st₁'.next.Nodup := htook'.nextNodup (by simp) List.nodup_nil
  have hlevel : ∀ (p : SetRef → Bool) (q : SetRef → Bool), (∀ r, p r = q r) →
      (level.filter p).Perm (level'.filter q) := by
    intro p q hpq
    rw [funext hpq]
    exact hl.filter q
  refine ⟨st₁', hrun', ⟨hseen, hnd₁, ?_, ?_, ?_, ?_, ?_, ?_⟩, ?_, hnext, ?_⟩
  · rw [hnodes, hnodes', List.map_append, List.map_append, map_fst_nodeOf, map_fst_nodeOf]
    refine hs.keys.append (hlevel _ _ fun r => ?_)
    rw [← isNone_found_alike h r]
  · rw [hmissing, hmissing']
    exact hs.missing.append (hlevel _ _ fun r => (isNone_found_alike h r).symm)
  · rw [htook.any]
    exact hs.any
  · rw [htook'.any]
    exact hs.any'
  · intro p hp
    rw [hnodes] at hp
    exact (List.mem_append.1 hp).elim (hs.nodes p) mem_filterMap_nodeOf
  · intro p hp
    rw [hnodes'] at hp
    exact (List.mem_append.1 hp).elim (hs.nodes' p) mem_filterMap_nodeOf
  · rw [List.perm_ext_iff_of_nodup hnext hnext']
    intro c
    rw [htook.next, htook'.next, follows_alike h hl]
    dsimp only
    rw [hnotseen]
  · rw [htook'.anyRef]
    refine ⟨rfl, fun c hc hns => ?_⟩
    exact (htook.anyRef.1 hany).2 c ((follows_alike h hl c).1 hc) ((hnotseen c).1 hns)

/-- **Two discoveries take the same levels.** -/
theorem discoverLoop_same (h : e.src.Alike src') {fuel : Nat} {st₁ : Discovery}
    (hs : e.Same src' st st') (hl : level.Perm level')
    (hrun : e.discoverLoop top false fuel depth level st = .ok st₁) :
    ∃ st₁', { e with src := src' }.discoverLoop top false fuel depth level' st' = .ok st₁' ∧
      e.Same src' st₁ st₁' := by
  induction fuel generalizing depth level level' st st' with
  | zero =>
    cases level with
    | nil =>
      rw [List.nil_perm.1 hl]
      cases hrun
      exact ⟨st', rfl, hs⟩
    | cons ref level => cases hrun
  | succ fuel ih =>
    cases level with
    | nil =>
      rw [List.nil_perm.1 hl]
      cases hrun
      exact ⟨st', rfl, hs⟩
    | cons ref level =>
      obtain ⟨ref', level'', rfl⟩ : ∃ r l, level' = r :: l := by
        cases level' with
        | nil => exact absurd hl.length_eq (by simp)
        | cons r l => exact ⟨r, l, rfl⟩
      unfold discoverLoop at hrun
      obtain ⟨st₂, hst₂, hrest⟩ := bind_eq_ok.1 hrun
      cases hany : st₂.anyRef with
      | some r =>
        rw [hany] at hrest
        cases hrest
      | none =>
        rw [hany] at hrest
        obtain ⟨st₂', hst₂', hs₂, hnext, -, hany'⟩ := level_same h hs hl hst₂ hany
        obtain ⟨st₁', hst₁', hs₁⟩ := ih hs₂ hnext hrest
        refine ⟨st₁', ?_, hs₁⟩
        unfold discoverLoop
        refine bind_eq_ok.2 ⟨st₂', hst₂', ?_⟩
        rw [hany']
        exact hst₁'

/-! ## The graph -/

variable (e) in
/-- The nodes of the graph are sets as the Source has them, with the claims they honour. -/
def Loaded (g : SetGraph) : Prop :=
  ∀ p ∈ g.nodes, e.src.found p.1 = some p.2.set ∧ e.claimsOf p.2.set = .ok p.2.claims

variable {g : SetGraph} {nd : SetNode}

theorem Loaded.node (hg : e.Loaded g)
    (h : g.node ref = some nd) :
    e.src.found ref = some nd.set ∧ e.claimsOf nd.set = .ok nd.claims :=
  hg _ (node_eq_some h)

theorem Loaded.node_of_mem (hg : e.Loaded g)
    (h : (ref, nd) ∈ g.nodes) : g.node ref = some nd := by
  obtain ⟨nd', hnd'⟩ := exists_node h
  obtain ⟨hf, hc⟩ := hg _ h
  obtain ⟨hf', hc'⟩ := hg.node hnd'
  rw [hnd']
  rw [hf] at hf'
  injection hf' with hset
  rw [← hset, hc] at hc'
  injection hc' with hclaims
  cases nd
  cases nd'
  dsimp only at hset hclaims
  rw [hset, hclaims]

structure SameGraph (g g' : SetGraph) : Prop where
  top : g'.top = g.top
  missing : g.missing.Perm g'.missing
  any : g.any = []
  any' : g'.any = []
  node : ∀ ref, Option.Rel (fun nd nd' => NamedSet.Alike nd.set nd'.set ∧ nd'.claims = nd.claims)
    (g.node ref) (g'.node ref)

variable {g' : SetGraph}

theorem SameGraph.node_some (h : SameGraph g g')
    (hnd : g.node ref = some nd) :
    ∃ nd', g'.node ref = some nd' ∧ NamedSet.Alike nd.set nd'.set ∧ nd'.claims = nd.claims := by
  have hrel := h.node ref
  rw [hnd] at hrel
  generalize hf : g'.node ref = f at hrel
  cases hrel with
  | some hp => exact ⟨_, rfl, hp⟩

theorem SameGraph.symm (h : SameGraph g g') : SameGraph g' g where
  top := h.top.symm
  missing := h.missing.symm
  any := h.any'
  any' := h.any
  node ref := by
    have hrel := h.node ref
    generalize g.node ref = f at hrel
    generalize g'.node ref = f' at hrel
    cases hrel with
    | none => exact .none
    | some hp => exact .some ⟨hp.1.symm, hp.2.symm⟩

theorem SameGraph.isNone (h : SameGraph g g') (ref : SetRef) :
    (g'.node ref).isNone = (g.node ref).isNone := by
  have hrel := h.node ref
  generalize g.node ref = f at hrel
  generalize g'.node ref = f' at hrel
  cases hrel <;> rfl

def graphOf (top : SetRef) (st : Discovery) (nodes : List (SetRef × SetNode)) : SetGraph where
  top := top
  nodes := nodes
  missing := st.missing.insertionSort fun a b => a.text ≤ b.text
  any := st.any
  reached := st.seen.length
  routes := []

theorem discover_of_loop (htop : top.name.isAny = false)
    (hst : e.discoverLoop top false (e.depthLimit + 2) 0 [top] ⟨[], [], [], [top], [], none⟩ =
      .ok st) (hany : st.any = []) :
    e.discover top false = (e.fetchClaims st.nodes).map (graphOf top st) := by
  unfold discover
  rw [htop, hst]
  simp only [Bool.false_eq_true, if_false]
  change (if st.any.isEmpty = true then _ else _) = _
  rw [hany]
  cases e.fetchClaims st.nodes with
  | error err => rfl
  | ok nodes =>
    unfold graphOf
    rw [hany]
    rfl

theorem fetchClaims_loaded (nodes : List (SetRef × NamedSet)) :
    Ends (e.fetchClaims nodes) (List.Forall₂ (fun p p' => p'.1 = p.1 ∧ p'.2.set = p.2 ∧
      e.claimsOf p.2 = .ok p'.2.claims) nodes)
      fun err => ∃ p ∈ nodes, e.claimsOf p.2 = .error err := by
  refine .mapM fun p hp => ?_
  obtain ⟨ref, s⟩ := p
  dsimp only
  cases hc : e.claimsOf s with
  | error err => exact ⟨(ref, s), hp, hc⟩
  | ok claims => exact ⟨rfl, rfl, rfl⟩

theorem loaded_of_forall₂ {nodes : List (SetRef × NamedSet)}
    (hnodes : ∀ p ∈ nodes, e.src.found p.1 = some p.2)
    (h : List.Forall₂ (fun p p' => p'.1 = p.1 ∧ p'.2.set = p.2 ∧
      e.claimsOf p.2 = .ok p'.2.claims) nodes g.nodes) : e.Loaded g := by
  intro p' hp'
  obtain ⟨p, hp, href, hset, hc⟩ := (forall₂_mem h).2 p' hp'
  rw [href, hset]
  exact ⟨hnodes p hp, hc⟩

theorem isSome_node_iff :
    (∃ nd, g.node ref = some nd) ↔ ref ∈ g.nodes.map Prod.fst := by
  constructor
  · intro hyp
    obtain ⟨nd, hnd⟩ := hyp
    exact List.mem_map.2 ⟨_, node_eq_some hnd, rfl⟩
  · intro hr
    obtain ⟨p, hp, rfl⟩ := List.mem_map.1 hr
    exact exists_node hp

theorem map_eq_of_forall₂ {α β γ : Type} {R : α → β → Prop} {f : α → γ} {f' : β → γ}
    (hR : ∀ {a b}, R a b → f' b = f a) {l : List α} {l' : List β} (h : List.Forall₂ R l l') :
    l'.map f' = l.map f := by
  induction h with
  | nil => rfl
  | cons hab _ ih => rw [List.map_cons, List.map_cons, hR hab, ih]

theorem sameGraph_of_keys (h : e.src.Alike src') (hg : e.Loaded g)
    (hg' : { e with src := src' }.Loaded g') (htop : g'.top = g.top)
    (hmissing : g.missing.Perm g'.missing) (hany : g.any = []) (hany' : g'.any = [])
    (hkeys : (g.nodes.map Prod.fst).Perm (g'.nodes.map Prod.fst)) : SameGraph g g' := by
  refine ⟨htop, hmissing, hany, hany', fun ref => ?_⟩
  have hiff : (∃ nd, g.node ref = some nd) ↔ ∃ nd, g'.node ref = some nd :=
    isSome_node_iff.trans (hkeys.mem_iff.trans isSome_node_iff.symm)
  cases hn : g.node ref with
  | none =>
    cases hn' : g'.node ref with
    | none => exact .none
    | some nd' =>
      obtain ⟨nd, hnd⟩ := hiff.2 ⟨nd', hn'⟩
      rw [hn] at hnd
      cases hnd
  | some nd =>
    obtain ⟨nd', hn'⟩ := hiff.1 ⟨nd, hn⟩
    rw [hn']
    obtain ⟨hf, hc⟩ := hg.node hn
    obtain ⟨hf', hc'⟩ := hg'.node hn'
    have hrel := found_alike h ref
    change src'.found ref = some nd'.set at hf'
    rw [hf, hf'] at hrel
    cases hrel with
    | some hperm =>
      rw [claimsOf_alike hperm, hc] at hc'
      injection hc' with hclaims
      exact .some ⟨hperm.1, hclaims.symm⟩

/-- **Two discoveries find the same graph.** -/
theorem discover_same (h : e.src.Alike src')
    (hrun : e.discover top false = .ok g) :
    ∃ g', { e with src := src' }.discover top false = .ok g' ∧ SameGraph g g' ∧ e.Loaded g ∧
      { e with src := src' }.Loaded g' := by
  have htop : top.name.isAny = false := by
    unfold discover at hrun
    cases hany : top.name.isAny with
    | false => rfl
    | true =>
      rw [if_pos hany] at hrun
      cases hrun
  obtain ⟨st, hst⟩ : ∃ st, e.discoverLoop top false (e.depthLimit + 2) 0 [top]
      ⟨[], [], [], [top], [], none⟩ = .ok st := by
    unfold discover at hrun
    rw [htop] at hrun
    simp only [Bool.false_eq_true, if_false] at hrun
    obtain ⟨st, hst, -⟩ := bind_eq_ok.1 hrun
    exact ⟨st, hst⟩
  have hinit : e.Same src' ⟨[], [], [], [top], [], none⟩ ⟨[], [], [], [top], [], none⟩ :=
    ⟨.refl _, List.nodup_singleton top, .refl _, .refl _, rfl, rfl, by simp, by simp⟩
  obtain ⟨st', hst', hs⟩ := discoverLoop_same h hinit (.refl [top]) hst
  rw [discover_of_loop htop hst hs.any] at hrun
  obtain ⟨nodes, hclaims, rfl⟩ := map_eq_ok.1 hrun
  have hnodes := (fetchClaims_loaded st.nodes).of_ok hclaims
  -- a set whose claims were fetched is found, in another order, in the other discovery
  have hback : ∀ p' ∈ st'.nodes, ∃ cs, { e with src := src' }.claimsOf p'.2 = .ok cs := by
    intro p' hp'
    obtain ⟨p, hp, hpk⟩ := List.mem_map.1 (hs.keys.mem_iff.2 (List.mem_map_of_mem hp'))
    obtain ⟨q, -, -, -, hc⟩ := (forall₂_mem hnodes).1 p hp
    have hrel := found_alike h p.1
    rw [hs.nodes p hp, hpk, hs.nodes' p' hp'] at hrel
    cases hrel with
    | some hperm => exact ⟨q.2.claims, (claimsOf_alike hperm).trans hc⟩
  have hends := fetchClaims_loaded (e := { e with src := src' }) st'.nodes
  cases hclaims' : { e with src := src' }.fetchClaims st'.nodes with
  | error err =>
    obtain ⟨p', hp', herr⟩ := hends.of_error hclaims'
    obtain ⟨cs, hcs⟩ := hback p' hp'
    rw [hcs] at herr
    cases herr
  | ok nodes' =>
    have hnodes' := hends.of_ok hclaims'
    have hload : e.Loaded (graphOf top st nodes) := loaded_of_forall₂ hs.nodes hnodes
    have hload' : { e with src := src' }.Loaded (graphOf top st' nodes') :=
      loaded_of_forall₂ hs.nodes' hnodes'
    refine ⟨graphOf top st' nodes', ?_, ?_, hload, hload'⟩
    · rw [discover_of_loop htop hst' hs.any', hclaims']
      rfl
    · refine sameGraph_of_keys h hload hload' rfl ?_ hs.any hs.any' ?_
      · exact (List.perm_insertionSort _ _).trans
          (hs.missing.trans (List.perm_insertionSort _ _).symm)
      · change (nodes.map Prod.fst).Perm (nodes'.map Prod.fst)
        rw [map_eq_of_forall₂ And.left hnodes, map_eq_of_forall₂ And.left hnodes']
        exact hs.keys

end Expander

end Rpsl.Resolve
