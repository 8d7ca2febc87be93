import Mathlib

/-!
# Depth-first walks with limits

A walk over states: each state acts, by emitting results and by leading to states, in some order.
A state is walked once, the results are collected as a set, and both are counted against limits.
Whether the walk ends within the limits, and what it then has collected, does not depend on the
order in which the states act (`walk_congr`).
-/

namespace Lib

variable {X R : Type}

/-- What a walk has met so far: the states, the results, and how many states it has entered. -/
structure Walk (X R : Type) where
  done : List X
  out : List R
  visits : Nat

namespace Walk

def start : Walk X R := ⟨[], [], 0⟩

section

variable [DecidableEq X] [DecidableEq R] (maxOut : Nat)

/-- A result is collected, unless there are too many. -/
def emit (v : Walk X R) (r : R) : Option (Walk X R) :=
  if maxOut < (v.out.insert r).length then none else some { v with out := v.out.insert r }

/-- One act; `enter` walks a state that is not done. -/
def act (enter : X → Walk X R → Option (Walk X R)) (v : Walk X R) : R ⊕ X → Option (Walk X R)
  | .inl r => v.emit maxOut r
  | .inr y => if y ∈ v.done then some v else enter y v

variable (acts : X → List (R ⊕ X)) (maxVisits : Nat)

/-- A state is marked, counted, and acts. -/
def walk : Nat → X → Walk X R → Option (Walk X R)
  | 0, _, _ => none
  | fuel + 1, x, v =>
    if maxVisits < v.visits + 1 then none
    else (acts x).foldlM (act maxOut (walk fuel)) ⟨x :: v.done, v.out, v.visits + 1⟩

end

/-! ## Loops -/

section

variable {σ α : Type}

theorem foldlM_grow {f : σ → α → Option σ} {G : σ → σ → Prop} {P : α → σ → Prop}
    (hrefl : ∀ s, G s s) (htrans : ∀ {s t u}, G s t → G t u → G s u)
    (hmono : ∀ {a s t}, G s t → P a s → P a t) {l : List α} {s s' : σ}
    (hstep : ∀ a ∈ l, ∀ u u', G s u → f u a = some u' → G u u' ∧ P a u')
    (h : l.foldlM f s = some s') : G s s' ∧ ∀ a ∈ l, P a s' := by
  induction l generalizing s with
  | nil =>
    cases h
    exact ⟨hrefl s', by simp⟩
  | cons a l ih =>
    rw [List.foldlM_cons] at h
    obtain ⟨u, hu, h⟩ := Option.bind_eq_some_iff.1 h
    obtain ⟨hg, hp⟩ := hstep a List.mem_cons_self s u (hrefl s) hu
    obtain ⟨hg', hall⟩ := ih
      (fun b hb w w' hw => hstep b (List.mem_cons_of_mem a hb) w w' (htrans hg hw)) h
    refine ⟨htrans hg hg', fun b hb => ?_⟩
    rcases List.mem_cons.1 hb with hb | hb
    · rw [hb]
      exact hmono hg' hp
    · exact hall b hb

theorem foldlM_isSome {f : σ → α → Option σ} {I : σ → Prop} {l : List α}
    (hstep : ∀ a ∈ l, ∀ u, I u → ∃ u', f u a = some u' ∧ I u') {v : σ} (hv : I v) :
    ∃ v', l.foldlM f v = some v' ∧ I v' := by
  induction l generalizing v with
  | nil => exact ⟨v, rfl, hv⟩
  | cons a l ih =>
    obtain ⟨u, hu, hI⟩ := hstep a List.mem_cons_self v hv
    obtain ⟨v', hv', hI'⟩ := ih (fun b hb => hstep b (List.mem_cons_of_mem a hb)) hI
    refine ⟨v', ?_, hI'⟩
    rw [List.foldlM_cons, hu]
    exact hv'

end

/-! ## What a walk leaves -/

/-- The act has been done. -/
def Acted (v : Walk X R) : R ⊕ X → Prop
  | .inl r => r ∈ v.out
  | .inr y => y ∈ v.done

/-- What a walk leaves of the state it began in: all it has marked has acted. -/
structure Ran (acts : X → List (R ⊕ X)) (v v' : Walk X R) : Prop where
  done : v.done ⊆ v'.done
  out : v.out ⊆ v'.out
  acted : ∀ y ∈ v'.done, y ∈ v.done ∨ ∀ a ∈ acts y, v'.Acted a

/-- States and results are counted once each, within the limits. -/
structure Counted (maxOut maxVisits : Nat) (v : Walk X R) : Prop where
  done : v.done.Nodup
  out : v.out.Nodup
  visits : v.visits = v.done.length
  maxVisits : v.visits ≤ maxVisits
  maxOut : v.out.length ≤ maxOut

variable {acts acts' : X → List (R ⊕ X)} {maxOut maxVisits : Nat}

theorem Acted.mono {v v' : Walk X R} (hd : v.done ⊆ v'.done) (ho : v.out ⊆ v'.out) {a : R ⊕ X}
    (h : v.Acted a) : v'.Acted a := by
  cases a with
  | inl r => exact ho h
  | inr y => exact hd h

theorem Ran.refl (v : Walk X R) : Ran acts v v :=
  ⟨List.Subset.refl _, List.Subset.refl _, fun _ => .inl⟩

theorem Ran.trans {u v w : Walk X R} (h : Ran acts u v) (h' : Ran acts v w) : Ran acts u w where
  done := List.Subset.trans h.done h'.done
  out := List.Subset.trans h.out h'.out
  acted y hy := by
    rcases h'.acted y hy with hy | hy
    · exact (h.acted y hy).imp_right fun h a ha => (h a ha).mono h'.done h'.out
    · exact .inr hy

theorem counted_start : Counted maxOut maxVisits (start : Walk X R) :=
  ⟨List.nodup_nil, List.nodup_nil, rfl, Nat.zero_le _, Nat.zero_le _⟩

variable [DecidableEq R]

theorem emit_ran {v v' : Walk X R} {r : R} (hc : Counted maxOut maxVisits v)
    (h : v.emit maxOut r = some v') :
    Ran acts v v' ∧ Counted maxOut maxVisits v' ∧ r ∈ v'.out := by
  unfold emit at h
  split_ifs at h with hmax
  cases h
  refine ⟨⟨List.Subset.refl _, fun s hs => List.mem_insert_of_mem hs, fun y => .inl⟩, ?_,
    List.mem_insert_self⟩
  exact ⟨hc.done, hc.out.insert, hc.visits, hc.maxVisits, Nat.not_lt.1 hmax⟩

variable [DecidableEq X]

/-- **What one call of `walk` does**: it marks its state, and all it marks has acted. -/
theorem walk_ran {fuel : Nat} {x : X} {v v' : Walk X R} (hx : x ∉ v.done)
    (hc : Counted maxOut maxVisits v) (h : walk maxOut acts maxVisits fuel x v = some v') :
    Ran acts v v' ∧ Counted maxOut maxVisits v' ∧ x ∈ v'.done := by
  induction fuel generalizing x v v' with
  | zero => cases h
  | succ fuel ih =>
    rw [walk] at h
    split_ifs at h with hmax
    have hmark : Counted maxOut maxVisits (⟨x :: v.done, v.out, v.visits + 1⟩ : Walk X R) :=
      ⟨List.nodup_cons.2 ⟨hx, hc.done⟩, hc.out, by simp [hc.visits], Nat.not_lt.1 hmax, hc.maxOut⟩
    have hloop := foldlM_grow
      (G := fun u u' => Ran acts u u' ∧
        (Counted maxOut maxVisits u → Counted maxOut maxVisits u'))
      (P := fun a u => u.Acted a) (fun u => ⟨.refl u, id⟩)
      (fun h h' => ⟨h.1.trans h'.1, fun hu => h'.2 (h.2 hu)⟩)
      (fun h ha => ha.mono h.1.done h.1.out)
      (fun a _ u u' hu hact => by
        have hcu := hu.2 hmark
        cases a with
        | inl r =>
          obtain ⟨hran, hcount, hr⟩ := emit_ran hcu hact
          exact ⟨⟨hran, fun _ => hcount⟩, hr⟩
        | inr y =>
          rw [act] at hact
          split_ifs at hact with hy
          · cases hact
            exact ⟨⟨.refl u, id⟩, hy⟩
          · obtain ⟨hran, hcount, hy'⟩ := ih hy hcu hact
            exact ⟨⟨hran, fun _ => hcount⟩, hy'⟩) h
    obtain ⟨⟨hran, hcount⟩, hacted⟩ := hloop
    have hxd : x ∈ v'.done := hran.done List.mem_cons_self
    refine ⟨⟨fun y hy => hran.done (List.mem_cons_of_mem x hy), hran.out, fun y hy => ?_⟩,
      hcount hmark, hxd⟩
    rcases hran.acted y hy with hy | hy
    · rcases List.mem_cons.1 hy with hy | hy
      · rw [hy]
        exact .inr hacted
      · exact .inl hy
    · exact .inr hy

/-! ## Walks within bounds -/

theorem length_lt_card {l : List X} (hl : l.Nodup) {S : Finset X} (hS : ∀ x ∈ l, x ∈ S) {x : X}
    (hx : x ∈ S) (hnew : x ∉ l) : l.length < S.card := by
  have hnd : (x :: l).Nodup := List.nodup_cons.2 ⟨hnew, hl⟩
  rw [← Nat.succ_le_iff, Nat.succ_eq_add_one, ← List.length_cons (a := x),
    ← List.toFinset_card_of_nodup hnd]
  refine Finset.card_le_card fun y hy => ?_
  rcases List.mem_cons.1 (List.mem_toFinset.1 hy) with hy | hy
  · rw [hy]
    exact hx
  · exact hS y hy

/-- The walk has met states of `S` and results of `T`. -/
structure Within (S : Finset X) (T : Finset R) (v : Walk X R) : Prop where
  done : ∀ x ∈ v.done, x ∈ S
  out : ∀ r ∈ v.out, r ∈ T

/-- The acts of states of `S` emit results of `T` and lead to states of `S`. -/
def Bounds (acts : X → List (R ⊕ X)) (S : Finset X) (T : Finset R) : Prop :=
  ∀ x ∈ S, ∀ a ∈ acts x, a.elim (· ∈ T) (· ∈ S)

omit [DecidableEq X] in
theorem emit_within {S : Finset X} {T : Finset R} {v : Walk X R} {r : R}
    (hc : Counted maxOut maxVisits v) (hv : Within S T v) (hr : r ∈ T) (hT : T.card ≤ maxOut) :
    ∃ v', v.emit maxOut r = some v' ∧ Within S T v' ∧ Counted maxOut maxVisits v' ∧
      v'.visits = v.visits := by
  have hin : ∀ s ∈ v.out.insert r, s ∈ T := by
    intro s hs
    rcases List.mem_insert_iff.1 hs with hs | hs
    · rw [hs]
      exact hr
    · exact hv.out s hs
  have hlen : (v.out.insert r).length ≤ maxOut := by
    rw [← List.toFinset_card_of_nodup hc.out.insert]
    exact (Finset.card_le_card fun s hs => hin s (List.mem_toFinset.1 hs)).trans hT
  refine ⟨{ v with out := v.out.insert r }, if_neg (Nat.not_lt.2 hlen), ⟨hv.done, hin⟩, ?_, rfl⟩
  exact ⟨hc.done, hc.out.insert, hc.visits, hc.maxVisits, hlen⟩

/-- **A walk confined to few enough states and results ends.** -/
theorem walk_within {S : Finset X} {T : Finset R} (hacts : Bounds acts S T)
    (hS : S.card ≤ maxVisits) (hT : T.card ≤ maxOut) {fuel : Nat} {x : X} {v : Walk X R}
    (hxS : x ∈ S) (hx : x ∉ v.done) (hc : Counted maxOut maxVisits v) (hv : Within S T v)
    (hfuel : maxVisits + 1 ≤ fuel + v.visits) :
    ∃ v', walk maxOut acts maxVisits fuel x v = some v' ∧ Within S T v' ∧
      Counted maxOut maxVisits v' ∧ v.visits ≤ v'.visits := by
  have hlt := length_lt_card hc.done hv.done hxS hx
  have hvisits := hc.visits
  induction fuel generalizing x v with
  | zero => omega
  | succ fuel ih =>
    have hmark : Counted maxOut maxVisits (⟨x :: v.done, v.out, v.visits + 1⟩ : Walk X R) :=
      ⟨List.nodup_cons.2 ⟨hx, hc.done⟩, hc.out, by simp [hvisits],
        show v.visits + 1 ≤ maxVisits by omega, hc.maxOut⟩
    have hin : Within S T (⟨x :: v.done, v.out, v.visits + 1⟩ : Walk X R) := by
      refine ⟨fun y hy => ?_, hv.out⟩
      rcases List.mem_cons.1 hy with hy | hy
      · rw [hy]
        exact hxS
      · exact hv.done y hy
    obtain ⟨v', hv', hI⟩ := foldlM_isSome
      (f := act maxOut (walk maxOut acts maxVisits fuel)) (l := acts x)
      (I := fun u => Within S T u ∧ Counted maxOut maxVisits u ∧ v.visits + 1 ≤ u.visits)
      (fun a ha u hu => by
        cases a with
        | inl r =>
          obtain ⟨u', hu', hw, hcu, hvis⟩ := emit_within hu.2.1 hu.1 (hacts x hxS _ ha) hT
          exact ⟨u', hu', hw, hcu, by rw [hvis]; exact hu.2.2⟩
        | inr y =>
          by_cases hy : y ∈ u.done
          · exact ⟨u, if_pos hy, hu⟩
          · have hyS : y ∈ S := hacts x hxS _ ha
            obtain ⟨u', hu', hw, hcu, hvis⟩ := ih hyS hy hu.2.1 hu.1
              (by have := hu.2.2; omega) (length_lt_card hu.2.1.done hu.1.done hyS hy)
              hu.2.1.visits
            exact ⟨u', by rw [act, if_neg hy, hu'], hw, hcu, hu.2.2.trans hvis⟩)
      ⟨hin, hmark, le_rfl⟩
    refine ⟨v', ?_, hI.1, hI.2.1, by have := hI.2.2; omega⟩
    rw [walk, if_neg (by omega)]
    exact hv'

/-! ## The order of acts -/

theorem walk_le (hacts : ∀ x a, a ∈ acts' x → a ∈ acts x) {x : X} {v : Walk X R}
    (h : walk maxOut acts maxVisits (maxVisits + 1) x start = some v) :
    ∃ v', walk maxOut acts' maxVisits (maxVisits + 1) x start = some v' ∧
      v'.done ⊆ v.done ∧ v'.out ⊆ v.out := by
  have hnew : x ∉ (start : Walk X R).done := List.not_mem_nil
  obtain ⟨hran, hc, hx⟩ := walk_ran hnew counted_start h
  have hbounds : Bounds acts' v.done.toFinset v.out.toFinset := by
    intro y hy a ha
    have hy' := hran.acted y (List.mem_toFinset.1 hy)
    have ha' := hy'.resolve_left List.not_mem_nil a (hacts y a ha)
    cases a with
    | inl r => exact List.mem_toFinset.2 ha'
    | inr z => exact List.mem_toFinset.2 ha'
  have hS : v.done.toFinset.card ≤ maxVisits := by
    rw [List.toFinset_card_of_nodup hc.done, ← hc.visits]
    exact hc.maxVisits
  have hT : v.out.toFinset.card ≤ maxOut := by
    rw [List.toFinset_card_of_nodup hc.out]
    exact hc.maxOut
  obtain ⟨v', hv', hw, -, -⟩ := walk_within hbounds hS hT (List.mem_toFinset.2 hx) hnew
    counted_start
    ⟨fun _ h => absurd h List.not_mem_nil, fun _ h => absurd h List.not_mem_nil⟩ (Nat.le_refl _)
  exact ⟨v', hv', fun y hy => List.mem_toFinset.1 (hw.done y hy),
    fun r hr => List.mem_toFinset.1 (hw.out r hr)⟩

/-- **The order in which states act does not matter.** -/
theorem walk_congr (hacts : ∀ x a, a ∈ acts x ↔ a ∈ acts' x) {x : X} {v : Walk X R}
    (h : walk maxOut acts maxVisits (maxVisits + 1) x start = some v) :
    ∃ v', walk maxOut acts' maxVisits (maxVisits + 1) x start = some v' ∧
      (∀ y, y ∈ v.done ↔ y ∈ v'.done) ∧ ∀ r, r ∈ v.out ↔ r ∈ v'.out := by
  obtain ⟨v', hv', hd', ho'⟩ := walk_le (fun x a => (hacts x a).2) h
  obtain ⟨w, hw, hd, ho⟩ := walk_le (fun x a => (hacts x a).1) hv'
  rw [h] at hw
  cases hw
  exact ⟨v', hv', fun y => ⟨fun hy => hd hy, fun hy => hd' hy⟩,
    fun r => ⟨fun hr => ho hr, fun hr => ho' hr⟩⟩

end Walk

end Lib
