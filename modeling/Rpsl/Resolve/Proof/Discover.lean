import Rpsl.Lib.Outcome
import Rpsl.Resolve.Equations

/-!
# Discovery finds what the set graph reaches

A level's processing only adds to the state (`Grew`), and each reference of the level ends as a
fetched set or a missing one (`visitRef_grew`). So when no level is left the fetched sets are closed
under what they list (`discover_explored`).
-/

namespace Rpsl.Resolve.Expander

open Text Rpsl.Policy Object Lib

variable {E : Type} (e : Expander E)

/-! ## References -/

theorem fetchOne_eq_ok {ref : SetRef} {s : NamedSet} :
    e.fetchOne ref = .ok s ↔ e.src.found ref = some s := by
  unfold fetchOne Source.found
  cases e.src.getSet ref with
  | error err => simp
  | ok s' =>
    simp only
    cases checkSet (E := E) ref s' <;> simp [Except.toOption]

theorem found_eq_none {ref : SetRef} {err : ExpandError E} (h : e.fetchOne ref = .error err) :
    e.src.found ref = none := by
  rw [Option.eq_none_iff_forall_not_mem]
  intro s hs
  rw [(fetchOne_eq_ok e).2 hs] at h
  cases h

theorem found_spec {ref : SetRef} {s : NamedSet} (h : e.src.found ref = some s) :
    s.name = ref.name ∧ s.cls = ref.name.cls := by
  rw [← e.fetchOne_eq_ok] at h
  unfold fetchOne checkSet at h
  grind

theorem name_of_new {name : SetName} {source : Text} {ref : SetRef}
    (h : SetRef.new source name = some ref) : ref.name = name := by
  unfold SetRef.new at h
  split at h
  · cases h
  · split at h
    · cases h; rfl
    · obtain ⟨s, -, rfl⟩ := Option.map_eq_some_iff.1 h
      rfl

theorem mem_nestedRefs {s : NamedSet} {o : RangeOperator} {ref : SetRef} (h : e.Lists s o ref) :
    ref ∈ nestedRefs s ∧ e.excludesSet ref.name = false := by
  obtain ⟨name, source, hm, hn, hex, h⟩ := h
  rw [name_of_new h]
  refine ⟨?_, hex⟩
  unfold members at hm
  unfold nestedRefs
  split at hm
  · rename_i hbody
    rw [hbody]
    exact List.mem_filterMap.2 ⟨_, hm, by simp [hn, h]⟩
  · cases hm

/-! ## What a level adds -/

structure Grew (anyLeaf : Bool) (st st' : Discovery) : Prop where
  nodes : st.nodes ⊆ st'.nodes
  seen : st.seen ⊆ st'.seen
  next : st.next ⊆ st'.next
  any : st'.any = [] → st.any = []
  noLeaf : anyLeaf = false → st'.any = st.any
  anyRef : st'.anyRef = none → st.anyRef = none
  leaf : anyLeaf = true → st'.any = [] → st.anyRef = none → st'.anyRef = none
  fresh : st'.anyRef = none → ∀ c ∈ st'.seen, c ∈ st.seen ∨ c ∈ st'.next
  closed : ∀ p ∈ st'.nodes, p ∈ st.nodes ∨ e.src.found p.1 = some p.2 ∧
    ∀ c ∈ nestedRefs p.2, e.excludesSet c.name = false → c ∈ st'.seen

variable {e} in
theorem Grew.refl {anyLeaf : Bool} (st : Discovery) : e.Grew anyLeaf st st where
  nodes := List.Subset.refl _
  seen := List.Subset.refl _
  next := List.Subset.refl _
  any := id
  noLeaf _ := rfl
  anyRef := id
  leaf _ _ := id
  fresh _ _ := .inl
  closed _ := .inl

variable {e} in
theorem Grew.trans {anyLeaf : Bool} {s t u : Discovery} (h : e.Grew anyLeaf s t)
    (h' : e.Grew anyLeaf t u) : e.Grew anyLeaf s u where
  nodes := List.Subset.trans h.nodes h'.nodes
  seen := List.Subset.trans h.seen h'.seen
  next := List.Subset.trans h.next h'.next
  any hu := h.any (h'.any hu)
  noLeaf hl := (h'.noLeaf hl).trans (h.noLeaf hl)
  anyRef hu := h.anyRef (h'.anyRef hu)
  leaf hl hu hs := h'.leaf hl hu (h.leaf hl (h'.any hu) hs)
  fresh hu c hc := by
    rcases h'.fresh hu c hc with hc | hc
    · exact (h.fresh (h'.anyRef hu) c hc).imp_right fun hc => h'.next hc
    · exact .inr hc
  closed p hp := by
    rcases h'.closed p hp with hp | hp
    · rcases h.closed p hp with hp | ⟨hf, hc⟩
      · exact .inl hp
      · exact .inr ⟨hf, fun c hm hex => h'.seen (hc c hm hex)⟩
    · exact .inr hp

theorem noteRef_grew (top : SetRef) (anyLeaf : Bool) (depth : Nat) (st : Discovery)
    (ref : SetRef) : Ends (e.noteRef top anyLeaf depth st ref)
      (fun st' => e.Grew anyLeaf st st' ∧ (e.excludesSet ref.name = false → ref ∈ st'.seen))
      fun _ => True := by
  unfold noteRef
  split
  · rename_i h
    refine ⟨.refl st, fun hex => ?_⟩
    simpa [hex] using h
  split
  · trivial
  split
  · trivial
  split
  · refine ⟨⟨List.Subset.refl _, List.subset_cons_self _ _, List.Subset.refl _, ?_, ?_, ?_, ?_, ?_,
      fun _ => .inl⟩, fun _ => List.mem_cons_self⟩
    · cases anyLeaf <;> simp
    · intro hl; simp [hl]
    · cases st.anyRef <;> simp
    · intro hl; simp [hl]
    · cases st.anyRef <;> simp
  · refine ⟨⟨List.Subset.refl _, List.subset_cons_self _ _, List.subset_append_left _ _, id,
      fun _ => rfl, id, fun _ _ => id, fun _ c hc => ?_, fun _ => .inl⟩,
      fun _ => List.mem_cons_self⟩
    rcases List.mem_cons.1 hc with rfl | hc
    · exact .inr (by simp)
    · exact .inl hc

def Processed (st : Discovery) (ref : SetRef) : Prop :=
  (∃ s, (ref, s) ∈ st.nodes) ∨ e.src.found ref = none

theorem visitRef_grew (top : SetRef) (anyLeaf : Bool) (depth : Nat) (st : Discovery)
    (ref : SetRef) : Ends (e.visitRef top anyLeaf depth st ref)
      (fun st' => e.Grew anyLeaf st st' ∧ e.Processed st' ref) fun _ => True := by
  unfold visitRef
  split
  · rename_i h
    split
    · trivial
    · exact ⟨⟨List.Subset.refl _, List.Subset.refl _, List.Subset.refl _, id, fun _ => rfl, id,
        fun _ _ => id, fun _ _ => .inl, fun _ => .inl⟩, .inr (e.found_eq_none h)⟩
  · trivial
  · rename_i s hs
    have hf := (e.fetchOne_eq_ok).1 hs
    refine (Ends.foldlM_grow Grew.refl Grew.trans (fun c _ _ h hc hex => h.seen (hc hex))
      (fun c _ st => e.noteRef_grew top anyLeaf depth st c) _).mono (fun st' h => ?_) fun _ => id
    obtain ⟨hg, hnoted⟩ := h
    refine ⟨⟨?_, hg.seen, hg.next, hg.any, hg.noLeaf, hg.anyRef, hg.leaf, hg.fresh,
      fun p hp => ?_⟩,
      .inl ⟨s, hg.nodes (by simp)⟩⟩
    · exact fun p hp => hg.nodes (by simp [hp])
    · rcases hg.closed p hp with hp | hp
      · rcases List.mem_append.1 hp with hp | hp
        · exact .inl hp
        · rw [List.mem_singleton.1 hp]
          exact .inr ⟨hf, hnoted⟩
      · exact .inr hp

/-! ## All levels -/

/-- Every fetched set has its references seen, and every reference seen is on the level to come or
done with. -/
structure Accounted (st : Discovery) (level : List SetRef) : Prop where
  nodes : ∀ p ∈ st.nodes, e.src.found p.1 = some p.2 ∧
    ∀ c ∈ nestedRefs p.2, e.excludesSet c.name = false → c ∈ st.seen
  seen : ∀ c ∈ st.seen, c ∈ level ∨ e.Processed st c

theorem Processed.of_grew {anyLeaf : Bool} {st st' : Discovery} (h : e.Grew anyLeaf st st')
    {ref : SetRef} (hp : e.Processed st ref) : e.Processed st' ref :=
  hp.imp_left fun ⟨s, hs⟩ => ⟨s, h.nodes hs⟩

theorem level_grew (top : SetRef) (anyLeaf : Bool) (depth : Nat) (level : List SetRef)
    (st : Discovery) : Ends (level.foldlM (e.visitRef top anyLeaf depth) st)
      (fun st' => e.Grew anyLeaf st st' ∧ ∀ ref ∈ level, e.Processed st' ref) fun _ => True :=
  .foldlM_grow Grew.refl Grew.trans (fun _ _ _ h => .of_grew e h)
    (fun ref _ st => e.visitRef_grew top anyLeaf depth st ref) st

theorem Accounted.level {anyLeaf : Bool} {st st' : Discovery} {level : List SetRef}
    (h : e.Accounted st level)
    (hg : e.Grew anyLeaf { st with next := [], anyRef := none } st') (hany : st'.anyRef = none)
    (hp : ∀ ref ∈ level, e.Processed st' ref) : e.Accounted st' st'.next where
  nodes p hp := by
    rcases hg.closed p hp with hp | hp
    · exact ⟨(h.nodes p hp).1, fun c hc hex => hg.seen ((h.nodes p hp).2 c hc hex)⟩
    · exact hp
  seen c hc := by
    rcases hg.fresh hany c hc with hc | hc
    · rcases h.seen c hc with hc | hc
      · exact .inr (hp c hc)
      · exact .inr (Processed.of_grew e hg hc)
    · exact .inl hc

theorem discoverLoop_accounted (top : SetRef) (anyLeaf : Bool) {fuel depth : Nat}
    {level : List SetRef} {st : Discovery} (h : e.Accounted st level) :
    Ends (e.discoverLoop top anyLeaf fuel depth level st)
      (fun st' => st.seen ⊆ st'.seen ∧ (anyLeaf = false → st'.any = st.any) ∧
        ((anyLeaf = true → st'.any = []) → e.Accounted st' []))
      fun _ => True := by
  induction fuel generalizing depth level st with
  | zero =>
    cases level with
    | nil => exact ⟨List.Subset.refl _, fun _ => rfl, fun _ => h⟩
    | cons ref level => trivial
  | succ fuel ih =>
    cases level with
    | nil => exact ⟨List.Subset.refl _, fun _ => rfl, fun _ => h⟩
    | cons ref level =>
      unfold discoverLoop
      refine (e.level_grew top anyLeaf depth _ _).bind fun st1 h1 => ?_
      obtain ⟨hg, hp⟩ := h1
      split
      · rename_i hany
        split
        · rename_i hl
          refine ⟨hg.seen, hg.noLeaf, fun hno => ?_⟩
          rw [hg.leaf hl (hno hl) rfl] at hany
          cases hany
        · trivial
      · rename_i hany
        exact (ih (h.level e hg hany hp)).mono
          (fun st' h' => ⟨List.Subset.trans hg.seen h'.1,
            fun hl => (h'.2.1 hl).trans (hg.noLeaf hl), h'.2.2⟩) fun _ => id

theorem discoverLoop_found (top : SetRef) (anyLeaf : Bool) {fuel : Nat} {st : Discovery} :
    Ends (e.discoverLoop top anyLeaf (fuel + 1) 0 [top] st)
      (fun _ => (e.src.found top).isSome = true) fun _ => True := by
  have hvisit : ∀ st, Ends (e.visitRef top anyLeaf 0 st top)
      (fun _ => (e.src.found top).isSome = true) fun _ => True := by
    intro st
    unfold visitRef
    split
    · trivial
    · trivial
    · rename_i s hs
      exact .of_forall (fun _ _ => by rw [(e.fetchOne_eq_ok).1 hs]; rfl) fun _ _ => trivial
  unfold discoverLoop
  refine Ends.bind (Q := fun _ => (e.src.found top).isSome = true) ?_ fun st1 h1 =>
    .of_forall (fun _ _ => h1) fun _ _ => trivial
  rw [List.foldlM_cons]
  exact (hvisit _).bind fun st1 h1 => h1

/-! ## The graph -/

theorem node_eq_some {g : SetGraph} {ref : SetRef} {nd : SetNode} (h : g.node ref = some nd) :
    (ref, nd) ∈ g.nodes := by
  obtain ⟨p, hp, rfl⟩ := Option.map_eq_some_iff.1 h
  have hr : p.1 = ref := by simpa using List.find?_some hp
  rw [← hr]
  exact List.mem_of_find?_eq_some hp

theorem exists_node {g : SetGraph} {ref : SetRef} {nd : SetNode} (h : (ref, nd) ∈ g.nodes) :
    ∃ nd', g.node ref = some nd' := by
  unfold SetGraph.node
  cases hf : g.nodes.find? (·.1 = ref) with
  | some p => exact ⟨p.2, rfl⟩
  | none =>
    have := List.find?_eq_none.1 hf _ h
    simp at this

/-- What discovery leaves: the top set and every found set one of its sets lists, each as the
Source has it, with the claims it honours. -/
structure Explored (top : SetRef) (g : SetGraph) : Prop where
  top_eq : g.top = top
  top_node : ∃ nd, g.node top = some nd
  node : ∀ {ref nd}, g.node ref = some nd →
    e.src.found ref = some nd.set ∧ ∀ o, o ∈ nd.claims ↔ o ∈ e.src.honours nd.set
  closed : ∀ {ref nd}, g.node ref = some nd → ∀ {o child}, e.Lists nd.set o child →
    (e.src.found child).isSome = true → ∃ nd', g.node child = some nd'

theorem claimsOf_spec (s : NamedSet) :
    Ends (e.claimsOf s) (fun cs => ∀ o, o ∈ cs ↔ o ∈ e.src.honours s) fun _ => True := by
  unfold claimsOf
  split
  · rename_i h
    intro o
    have hno : claimAllowed o s = false := by
      rw [List.isEmpty_iff] at h
      unfold claimAllowed
      cases claimant o <;> simp [h]
    simp [Source.honours, hno]
  · split
    · trivial
    · rename_i objs hobjs
      intro o
      simp [Source.honours, hobjs]

theorem fetchClaims_spec (nodes : List (SetRef × NamedSet)) :
    Ends (e.fetchClaims nodes) (List.Forall₂ (fun p p' => p'.1 = p.1 ∧ p'.2.set = p.2 ∧
      ∀ o, o ∈ p'.2.claims ↔ o ∈ e.src.honours p'.2.set) nodes) fun _ => True :=
  .mapM fun (_, s) _ => (e.claimsOf_spec s).bind fun _ hcs => ⟨rfl, rfl, hcs⟩

theorem Accounted.explored {top : SetRef} {st : Discovery} {g : SetGraph}
    (h : e.Accounted st []) (htop : top ∈ st.seen) (hfound : (e.src.found top).isSome = true)
    (hg : g.top = top)
    (hnodes : List.Forall₂ (fun p p' => p'.1 = p.1 ∧ p'.2.set = p.2 ∧
      ∀ o, o ∈ p'.2.claims ↔ o ∈ e.src.honours p'.2.set) st.nodes g.nodes) : e.Explored top g := by
  obtain ⟨hto, hfrom⟩ := forall₂_mem hnodes
  -- a found reference that was seen is a node
  have hseen : ∀ {ref}, ref ∈ st.seen → (e.src.found ref).isSome = true →
      ∃ nd, g.node ref = some nd := by
    intro ref hr hf
    rcases h.seen ref hr with hr | ⟨s, hs⟩ | hr
    · cases hr
    · obtain ⟨⟨r, nd⟩, hp, rfl, -⟩ := hto _ hs
      exact exists_node hp
    · rw [hr] at hf; cases hf
  refine ⟨hg, hseen htop hfound, fun hn => ?_, fun hn o child hl hf => ?_⟩
  · obtain ⟨p, hp, hr, hs, hc⟩ := hfrom _ (node_eq_some hn)
    simp only at hr hs
    rw [hr, hs]
    exact ⟨(h.nodes p hp).1, hs ▸ hc⟩
  · obtain ⟨p, hp, hr, hs, -⟩ := hfrom _ (node_eq_some hn)
    simp only at hs
    rw [hs] at hl
    obtain ⟨hmem, hex⟩ := e.mem_nestedRefs hl
    exact hseen ((h.nodes p hp).2 child hmem hex) hf

theorem discover_explored (top : SetRef) (anyLeaf : Bool) :
    Ends (e.discover top anyLeaf)
      (fun g => (anyLeaf = true → g.any = []) → e.Explored top g) fun _ => True := by
  have hinit : e.Accounted ⟨[], [], [], [top], [], none⟩ [top] :=
    ⟨by simp, fun c hc => .inl hc⟩
  unfold discover
  split
  · trivial
  refine ((e.discoverLoop_accounted top anyLeaf hinit).and
    (e.discoverLoop_found top anyLeaf)).mono (fun _ => id) (fun _ _ => trivial) |>.bind
    fun st hst => ?_
  obtain ⟨⟨hseen, hany, hacc⟩, hfound⟩ := hst
  have htop : top ∈ st.seen := hseen (by simp)
  split
  · refine (e.fetchClaims_spec st.nodes).bind fun nodes hn hno => ?_
    exact (hacc hno).explored e htop hfound rfl hn
  · rename_i hne
    intro hno
    -- a graph that reached AS-ANY is one the caller does not read
    refine absurd ?_ hne
    rw [List.isEmpty_iff]
    cases hl : anyLeaf with
    | true => exact hno hl
    | false => exact hany hl

/-! ## Routes -/

theorem mem_ordered {g : SetGraph} {ref : SetRef} {nd : SetNode} (h : g.node ref = some nd) :
    nd ∈ g.ordered := by
  unfold SetGraph.ordered
  by_cases hr : ref = g.top
  · simp [← hr, h]
  · simp only [List.mem_append, List.mem_map, List.mem_insertionSort, List.mem_filter]
    exact .inr ⟨(ref, nd), ⟨node_eq_some h, by simpa using hr⟩, rfl⟩

theorem not_excluded_of_needed {g : SetGraph} {a : ASN} (h : a ∈ e.neededASes g) :
    e.excludesAS a = false := by
  unfold neededASes at h
  simp only [List.mem_eraseDups, List.mem_flatMap, List.mem_append, List.mem_filterMap] at h
  grind

theorem needed_of_member {g : SetGraph} {ref : SetRef} {nd : SetNode} {a : ASN}
    {o : RangeOperator} (h : g.node ref = some nd) (hm : .as_ a o ∈ members nd.set)
    (hex : e.excludesAS a = false) : a ∈ e.neededASes g := by
  unfold neededASes
  simp only [List.mem_eraseDups, List.mem_flatMap, List.mem_append, List.mem_filterMap]
  exact ⟨nd, mem_ordered h, .inl ⟨_, hm, by simp [hex]⟩⟩

theorem needed_of_claim {g : SetGraph} {ref : SetRef} {nd : SetNode} {a : AutNum}
    (h : g.node ref = some nd) (hm : .autNum a ∈ nd.claims) (hex : e.excludesAS a.asn = false) :
    a.asn ∈ e.neededASes g := by
  unfold neededASes
  simp only [List.mem_eraseDups, List.mem_flatMap, List.mem_append, List.mem_filterMap]
  exact ⟨nd, mem_ordered h, .inr ⟨_, hm, by simp [hex]⟩⟩

def Routed (g : SetGraph) : Prop :=
  ∀ a (q : Net), (∃ p, some p ∈ g.routesOf a ∧ q.1 = p.masked) ↔
    a ∈ e.neededASes g ∧ q ∈ e.src.originated e.afi a

theorem fetchRoutes_spec (g : SetGraph) :
    Ends (e.fetchRoutes g) (fun g' => (∃ rs, g' = { g with routes := rs }) ∧ e.Routed g')
      fun _ => True := by
  unfold fetchRoutes
  refine Ends.bind (Q := List.Forall₂ (fun a p => p.1 = a ∧
    e.src.originatedRoutes a e.afi = .ok p.2) (e.neededASes g)) (.mapM fun a _ => ?_)
    fun routes hr => ⟨⟨routes, rfl⟩, fun a q => ?_⟩
  · split
    · trivial
    · rename_i ps hps
      exact ⟨rfl, hps⟩
  obtain ⟨hto, hfrom⟩ := forall₂_mem hr
  change (∃ p, some p ∈ ((routes.find? (·.1 = a)).map Prod.snd).getD [] ∧ q.1 = p.masked) ↔
    a ∈ e.neededASes g ∧ _
  cases hf : routes.find? (·.1 = a) with
  | some r =>
    obtain ⟨b, hb, hrb, hps⟩ := hfrom r (List.mem_of_find?_eq_some hf)
    have hra : r.1 = a := by simpa using List.find?_some hf
    obtain rfl : a = b := hra.symm.trans hrb
    simp [Source.originated, hps, hb]
  | none =>
    have hno : a ∉ e.neededASes g := by
      intro ha
      obtain ⟨r, hr, hra, -⟩ := hto a ha
      have := List.find?_eq_none.1 hf r hr
      simp [hra] at this
    simp [hno]

end Rpsl.Resolve.Expander
