import Rpsl.Resolve.Proof.Discover
import Rpsl.Resolve.Proof.OpStack

/-!
# Evaluation walks every path of the set graph

`walk` marks a state done before it walks it and skips states that are done, so when a call returns
not all that is done is finished: the states on the current path are not. What a call adds is
(`Walked`): each state it marked has emitted its ranges and has its successors done. When the
outermost call returns, every state a path reaches is done, so the output is what the paths lead to
(`walk_denote`).
-/

namespace Rpsl.Resolve

open Text Rpsl.Policy Object Lib

namespace RangeSet

theorem mem_denote_add {s : RangeSet} {r : PrefixRange} {q : Net} :
    q ∈ (s.add r).denote ↔ q ∈ s.denote ∨ q ∈ r.denote := by
  unfold denote add
  simp only [Set.mem_ofPred_eq, List.mem_insert_iff]
  exact ⟨fun ⟨r', hr, hq⟩ => hr.elim (fun h => .inr (h ▸ hq)) fun h => .inl ⟨r', h, hq⟩,
    fun h => h.elim (fun ⟨r', hr, hq⟩ => ⟨r', .inr hr, hq⟩) fun hq => ⟨r, .inl rfl, hq⟩⟩

end RangeSet

namespace Expander

theorem mem_denote_exactRange {p : Prefix} {q : Net} :
    (∃ r, exactRange (some p) = some r ∧ q ∈ r.denote) ↔ q.1 = p.masked := by
  simp only [exactRange, Option.bind_some, PrefixRange.mem_denote]
  constructor
  · intro ⟨r, hr, hq⟩
    obtain ⟨h1, h2, hc⟩ := (PrefixRange.contains_new hr q.1).1 hq
    have hb : p.masked.bits = q.1.bits := le_antisymm h1 h2
    exact (Prefix.ext_path p.masked_masked q.2 hc.1
      (hc.2.eq_of_length (by simpa using hb))).symm
  · intro hq
    cases hn : PrefixRange.new p.masked p.masked.bits p.masked.bits with
    | none =>
      have := PrefixRange.new_eq_none hn
      have := p.masked.le
      have : p.masked.bitLen = p.masked.addr.fam.width := rfl
      omega
    | some r =>
      refine ⟨r, rfl, (PrefixRange.contains_new hn q.1).2 ?_⟩
      rw [hq]
      exact ⟨le_rfl, le_rfl, .refl _⟩

variable {E : Type} (e : Expander E) (g : SetGraph) (maxRanges : Nat)

/-! ## What one call adds -/

/-- `add` puts `q` in the output for the range `r` under the stack `ops`. -/
def Adds (ops : OpStack) (r : PrefixRange) (q : Net) : Prop :=
  (∃ t, ops.apply r = some t ∧ q ∈ t.denote) ∧ e.afiAllows q.1 = true

def AddsRoute (ops : OpStack) (routes : List (Option Prefix)) (q : Net) : Prop :=
  ∃ r ∈ routes.filterMap exactRange, e.Adds ops r q

structure Wrote (S : Net → Prop) (v v' : Eval) : Prop where
  done : v'.done = v.done
  visits : v'.visits = v.visits
  out : v.out.denote ⊆ v'.out.denote
  sound : ∀ q ∈ v'.out.denote, q ∈ v.out.denote ∨ S q

variable {S : Net → Prop}

theorem Wrote.refl (v : Eval) : Wrote S v v :=
  ⟨rfl, rfl, subset_rfl, fun _ => .inl⟩

variable {v : Eval}

theorem Wrote.trans {u w : Eval} (h : Wrote S u v) (h' : Wrote S v w) :
    Wrote S u w where
  done := h'.done.trans h.done
  visits := h'.visits.trans h.visits
  out := h.out.trans h'.out
  sound q hq := (h'.sound q hq).elim (h.sound q) .inr

variable {v' : Eval}

theorem Wrote.mono {T : Net → Prop} (h : Wrote S v v') (hST : ∀ q, S q → T q) :
    Wrote T v v' :=
  ⟨h.done, h.visits, h.out, fun q hq => (h.sound q hq).imp_right (hST q)⟩

theorem afiAllows_of_mem {t : PrefixRange} {q : Net} (h : q ∈ t.denote) :
    t.pfx.all e.afiAllows = e.afiAllows q.1 := by
  obtain ⟨b, hb, -, -, hc⟩ := PrefixRange.contains_iff.1 h
  have hf : b.is4 = q.1.is4 := by rw [Prefix.is4, Prefix.is4, show b.fam = q.1.fam from hc.1]
  rw [hb]
  unfold afiAllows
  cases e.afi <;> simp [hf]

theorem addRange_wrote (ops : OpStack) (v : Eval) (r : PrefixRange) :
    Ends (e.addRange g maxRanges ops v r)
      (fun v' => Wrote (e.Adds ops r) v v' ∧ ∀ q, e.Adds ops r q → q ∈ v'.out.denote)
      fun _ => True := by
  unfold addRange
  split
  · rename_i hn
    refine ⟨.refl v, fun q ⟨⟨t, ht, _⟩, _⟩ => ?_⟩
    rw [hn] at ht; cases ht
  · rename_i t ht
    split
    · rename_i hafi
      dsimp only
      split
      · trivial
      · refine ⟨⟨rfl, rfl, fun q hq => RangeSet.mem_denote_add.2 (.inl hq), fun q hq => ?_⟩,
          fun q ⟨⟨t', ht', hq⟩, _⟩ => RangeSet.mem_denote_add.2 (.inr ?_)⟩
        · refine (RangeSet.mem_denote_add.1 hq).imp_right fun hq => ⟨⟨t, ht, hq⟩, ?_⟩
          rw [← e.afiAllows_of_mem hq, hafi]
        · rw [ht] at ht'; cases ht'; exact hq
    · rename_i hafi
      refine ⟨.refl v, fun q ⟨⟨t', ht', hq⟩, ha⟩ => absurd ?_ hafi⟩
      rw [ht] at ht'; cases ht'
      rw [e.afiAllows_of_mem hq, ha]

theorem addRoutes_wrote (ops : OpStack) (v : Eval) (routes : List (Option Prefix)) :
    Ends (e.addRoutes g maxRanges ops v routes)
      (fun v' => Wrote (e.AddsRoute ops routes) v v' ∧
        ∀ q, e.AddsRoute ops routes q → q ∈ v'.out.denote)
      fun _ => True := by
  refine (Ends.foldlM_grow (R := Wrote (e.AddsRoute ops routes))
    (P := fun r v' => ∀ q, e.Adds ops r q → q ∈ v'.out.denote) .refl .trans
    (fun r v v' h hq q ha => h.out (hq q ha)) (fun r hr v => ?_) v).mono
    (fun v' h => ⟨h.1, fun q ⟨r, hr, ha⟩ => h.2 r hr q ha⟩) fun _ => id
  exact (e.addRange_wrote g maxRanges ops v r).mono
    (fun v' h => ⟨h.1.mono fun q ha => ⟨r, hr, ha⟩, h.2⟩) fun _ => id

/-! ## States -/

def Emits (x : EvalState) (q : Net) : Prop :=
  ∃ nd, g.node x.set = some nd ∧
    ((∃ r, .range r ∈ members nd.set ∧ e.Adds x.ops r q) ∨
     (∃ a o, .as_ a o ∈ members nd.set ∧ e.AddsRoute (x.ops.push o) (g.routesOf a) q) ∨
     (∃ c ∈ nd.claims, e.AddsRoute x.ops (claimRoutes g c) q))

def Succ (x y : EvalState) : Prop :=
  ∃ nd, g.node x.set = some nd ∧ ∃ o, e.Lists nd.set o y.set ∧ (g.node y.set).isSome = true ∧
    y.ops = x.ops.push o

def Finished (v : Eval) (x : EvalState) : Prop :=
  (∀ q, e.Emits g x q → q ∈ v.out.denote) ∧ ∀ y, e.Succ g x y → y ∈ v.done

/-- What a call leaves of a state: what it marked is finished, and its output is that of states
with `R`. -/
structure Walked (R : EvalState → Prop) (v v' : Eval) : Prop where
  done : v.done ⊆ v'.done
  out : v.out.denote ⊆ v'.out.denote
  finished : ∀ x ∈ v'.done, x ∈ v.done ∨ e.Finished g v' x
  sound : ∀ q ∈ v'.out.denote, q ∈ v.out.denote ∨ ∃ x, R x ∧ e.Emits g x q

variable {e g} {R : EvalState → Prop}

theorem Walked.refl (v : Eval) : e.Walked g R v v :=
  ⟨List.Subset.refl _, subset_rfl, fun _ => .inl, fun _ => .inl⟩

variable {x : EvalState}

theorem Finished.mono (h : e.Finished g v x)
    (hd : v.done ⊆ v'.done) (ho : v.out.denote ⊆ v'.out.denote) : e.Finished g v' x :=
  ⟨fun q hq => ho (h.1 q hq), fun y hy => hd (h.2 y hy)⟩

theorem Walked.trans {u w : Eval} (h : e.Walked g R u v) (h' : e.Walked g R v w) :
    e.Walked g R u w where
  done := List.Subset.trans h.done h'.done
  out := h.out.trans h'.out
  finished x hx := by
    rcases h'.finished x hx with hx | hx
    · exact (h.finished x hx).imp_right fun hx => hx.mono h'.done h'.out
    · exact .inr hx
  sound q hq := (h'.sound q hq).elim (h.sound q) .inr

theorem Wrote.walked (h : Wrote S v v')
    (hS : ∀ q, S q → ∃ x, R x ∧ e.Emits g x q) : e.Walked g R v v' where
  done := by rw [h.done]; exact List.Subset.refl _
  out := h.out
  finished x hx := .inl (by rwa [h.done] at hx)
  sound q hq := (h.sound q hq).imp_right (hS q)

/-! ## The walk -/

def MemberDone (e : Expander E) (g : SetGraph) (x : EvalState) (m : SetMember) (v : Eval) : Prop :=
  match m with
  | .range r => ∀ q, e.Adds x.ops r q → q ∈ v.out.denote
  | .as_ a o => ∀ q, e.AddsRoute (x.ops.push o) (g.routesOf a) q → q ∈ v.out.denote
  | .set name source o => ∀ child, nestable x.set.name.cls name.cls = true →
      e.excludesSet name = false → SetRef.new source name = some child →
      (g.node child).isSome = true → ⟨child, x.ops.push o⟩ ∈ v.done
  | .invalid => True

theorem MemberDone.mono {m : SetMember} (h : MemberDone e g x m v)
    (hw : e.Walked g R v v') : MemberDone e g x m v' := by
  cases m with
  | range r => exact fun q hq => hw.out (h q hq)
  | as_ a o => exact fun q hq => hw.out (h q hq)
  | set name source o => exact fun child h1 h2 h3 h4 => hw.done (h child h1 h2 h3 h4)
  | invalid => trivial

theorem member_walked {nd : SetNode} (hnd : g.node x.set = some nd) (hx : R x)
    (hname : nd.set.name = x.set.name) (hR : ∀ y, e.Succ g x y → R y)
    {walkChild : EvalState → Eval → Except (ExpandError E) Eval}
    (ih : ∀ y v, R y → Ends (walkChild y v) (fun v' => e.Walked g R v v' ∧ y ∈ v'.done)
      fun _ => True)
    {m : SetMember} (hm : m ∈ members nd.set) (v : Eval) :
    Ends (e.walkMember g maxRanges walkChild x v m)
      (fun v' => e.Walked g R v v' ∧ MemberDone e g x m v') fun _ => True := by
  cases m with
  | range r =>
    refine (e.addRange_wrote g maxRanges x.ops v r).mono (fun v' h => ⟨h.1.walked ?_, h.2⟩)
      fun _ => id
    exact fun q hq => ⟨x, hx, nd, hnd, .inl ⟨r, hm, hq⟩⟩
  | as_ a o =>
    refine (e.addRoutes_wrote g maxRanges (x.ops.push o) v (g.routesOf a)).mono
      (fun v' h => ⟨h.1.walked ?_, h.2⟩) fun _ => id
    exact fun q hq => ⟨x, hx, nd, hnd, .inr (.inl ⟨a, o, hm, hq⟩)⟩
  | set name source o =>
    unfold walkMember
    dsimp only
    split
    · rename_i hskip
      refine ⟨.refl v, fun child hn hex _ _ => ?_⟩
      simp [hn, hex] at hskip
    · rename_i hfollow
      simp only [Bool.or_eq_true, Bool.not_eq_true', not_or, Bool.not_eq_false,
        Bool.not_eq_true] at hfollow
      split
      · rename_i hno
        exact ⟨.refl v, fun child _ _ hr _ => by rw [hno] at hr; cases hr⟩
      · rename_i child hr
        split
        · rename_i hdone
          refine ⟨.refl v, fun c _ _ hc hsome => ?_⟩
          rw [hr] at hc; cases hc
          obtain ⟨cnd, hcnd⟩ := Option.isSome_iff_exists.1 hsome
          simpa [hcnd] using hdone
        · rename_i hdone
          rw [Bool.or_eq_true, not_or, Option.isNone_iff_eq_none, ← ne_eq,
            ← Option.isSome_iff_ne_none] at hdone
          refine (ih ⟨child, x.ops.push o⟩ v (hR _ ?_)).mono
            (fun v' h => ⟨h.1, fun c _ _ hc _ => ?_⟩) fun _ => id
          · exact ⟨nd, hnd, o, ⟨name, source, hm, by rw [hname]; exact hfollow.1, hfollow.2, hr⟩,
              hdone.1, rfl⟩
          · rw [hr] at hc; cases hc
            exact h.2
  | invalid => exact ⟨.refl v, trivial⟩

theorem Walked.mark {visits : Nat}
    (h : e.Walked g R { v with done := x :: v.done, visits := visits } v')
    (hx : e.Finished g v' x) : e.Walked g R v v' ∧ x ∈ v'.done := by
  refine ⟨⟨fun y hy => h.done (List.mem_cons_of_mem x hy), h.out, fun y hy => ?_, h.sound⟩,
    h.done List.mem_cons_self⟩
  rcases h.finished y hy with hy | hy
  · rcases List.mem_cons.1 hy with rfl | hy
    · exact .inr hx
    · exact .inl hy
  · exact .inr hy

/-- **What one call of `walk` does**: it marks its state, and all it marks is finished. -/
theorem walk_walked (hname : ∀ {ref nd}, g.node ref = some nd → nd.set.name = ref.name)
    (hR : ∀ x y, R x → e.Succ g x y → R y) {fuel : Nat} (v : Eval) (hRx : R x) :
    Ends (e.walk g maxRanges fuel x v) (fun v' => e.Walked g R v v' ∧ x ∈ v'.done)
      fun _ => True := by
  induction fuel generalizing x v with
  | zero => trivial
  | succ fuel ih =>
    unfold walk
    dsimp only
    split
    · trivial
    split
    · rename_i hn
      refine (Walked.refl _).mark ⟨fun q ⟨nd, hnd, _⟩ => ?_, fun y ⟨nd, hnd, _⟩ => ?_⟩ <;>
        (rw [hn] at hnd; cases hnd)
    · rename_i nd hnd
      refine (Ends.foldlM_grow (R := e.Walked g R) (P := MemberDone e g x) .refl .trans
        (fun m _ _ h hm => MemberDone.mono hm h) (fun m hm v => member_walked maxRanges hnd hRx
          (hname hnd) (hR x · hRx) (fun y v hy => ih v hy) hm v) _).bind fun v1 h1 => ?_
      refine (Ends.foldlM_grow (R := e.Walked g R)
        (P := fun c v => ∀ q, e.AddsRoute x.ops (claimRoutes g c) q → q ∈ v.out.denote)
        .refl .trans (fun c _ _ h hc q hq => h.out (hc q hq)) (fun c hc v => ?_) v1).mono
        (fun v2 h2 => ?_) fun _ => id
      · refine (e.addRoutes_wrote g maxRanges x.ops v _).mono
          (fun v' h => ⟨h.1.walked ?_, h.2⟩) fun _ => id
        exact fun q hq => ⟨x, hRx, nd, hnd, .inr (.inr ⟨c, hc, hq⟩)⟩
      · obtain ⟨hw1, hmem⟩ := h1
        obtain ⟨hw2, hclaims⟩ := h2
        refine (hw1.trans hw2).mark ⟨fun q ⟨nd', hnd', hq⟩ => ?_,
          fun y ⟨nd', hnd', o, ⟨name, source, hm, hn, hex, hr⟩, hsome, hops⟩ => ?_⟩
        · rw [hnd] at hnd'; cases hnd'
          rcases hq with ⟨r, hm, hq⟩ | ⟨a, o, hm, hq⟩ | ⟨c, hc, hq⟩
          · exact hw2.out (hmem _ hm q hq)
          · exact hw2.out (hmem _ hm q hq)
          · exact hclaims c hc q hq
        · rw [hnd] at hnd'; cases hnd'
          rw [hname hnd] at hn
          obtain ⟨yset, yops⟩ := y
          subst hops
          exact hw2.done (hmem _ hm yset hn hex hr hsome)

end Expander

end Rpsl.Resolve
