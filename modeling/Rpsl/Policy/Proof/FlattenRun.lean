import Mathlib.Tactic.Common
import Rpsl.Policy.Flatten

/-!
# What flattening comes to

The terms a policy expression denotes without a budget, with what building them costs and how deep
it goes, are its `Denoted`. A flattener returns them all and has paid for each where the budget and
the depth allow it (`Denoted.Paid`), and records an error otherwise (`flatten_run`).

After an error it goes on with the terms it has (`Expr.kept`), so which slices it asks for depends
on where the budget runs out: `Expr.Fits` says that each is within the budget.
-/

namespace Rpsl.Policy

open Text

/-! ## Terms without a budget -/

def cost (ts : List WTerm) : Nat := (ts.map fun t => t.w + 1).sum

@[simp] theorem cost_nil : cost [] = 0 := rfl

@[simp] theorem cost_cons (t : WTerm) (ts : List WTerm) : cost (t :: ts) = t.w + 1 + cost ts := by
  simp [cost]

@[simp] theorem cost_append (ts us : List WTerm) : cost (ts ++ us) = cost ts + cost us := by
  simp [cost]

/-- The terms of an EXCEPT's sides. -/
def excepted (left right : List WTerm) : List WTerm :=
  if right.isEmpty then left
  else (left.flatMap fun l => right.map (exceptTerm l)) ++ left.map (restTerm right)

/-- The terms of a REFINE's sides. -/
def refinedTerms (addrText : Addr → Text) (left right : List WTerm) : List WTerm :=
  left.flatMap fun l => right.filterMap (refineTerm addrText l)

/-- The terms an expression denotes, the cost of all terms built on the way, and the levels of the
expression. -/
structure Denoted where
  terms : List WTerm
  charged : Nat
  levels : Nat
  covers : cost terms ≤ charged

namespace Denoted

def nil : Denoted := ⟨[], 0, 0, le_rfl⟩

def factor (peers : List PeerAction) (filter : Filter) : Denoted :=
  ⟨peers.map (factorTerm filter), cost (peers.map (factorTerm filter)), 1, le_rfl⟩

def append (x y : Denoted) : Denoted where
  terms := x.terms ++ y.terms
  charged := x.charged + y.charged
  levels := max x.levels y.levels
  covers := by
    rw [cost_append]
    exact Nat.add_le_add x.covers y.covers

def nest (x : Denoted) : Denoted := { x with levels := x.levels + 1 }

def refine (addrText : Addr → Text) (x y : Denoted) : Denoted where
  terms := refinedTerms addrText x.terms y.terms
  charged := x.charged + y.charged + cost (refinedTerms addrText x.terms y.terms)
  levels := max x.levels y.levels + 1
  covers := Nat.le_add_left _ _

/-- With no right-hand terms an EXCEPT builds none. -/
def except (x y : Denoted) : Denoted where
  terms := excepted x.terms y.terms
  charged := x.charged + y.charged +
    if y.terms.isEmpty then 0 else cost (excepted x.terms y.terms)
  levels := max x.levels y.levels + 1
  covers := by
    split_ifs with h
    · rw [excepted, if_pos h]
      exact x.covers.trans (Nat.le_add_right _ _)
    · exact Nat.le_add_left _ _

/-- `s` spent before and `d` deep, there is enough of the budget and of the depth left. -/
def Paid (x : Denoted) (s d : Nat) : Prop :=
  s + x.charged ≤ maxFlattenNodes ∧ d + x.levels ≤ maxFlattenDepth + 1

instance (x : Denoted) (s d : Nat) : Decidable (x.Paid s d) := inferInstanceAs (Decidable (_ ∧ _))

variable {x y : Denoted} {s d : Nat}

theorem Paid.mono {s' d' : Nat} (h : x.Paid s d) (hs : s' ≤ s) (hd : d' ≤ d) : x.Paid s' d' :=
  ⟨(Nat.add_le_add_right hs _).trans h.1, (Nat.add_le_add_right hd _).trans h.2⟩

theorem paid_append :
    (x.append y).Paid s d ↔ x.Paid s d ∧ y.Paid (s + x.charged) d := by
  simp only [Paid, append]
  omega

theorem paid_nest : x.nest.Paid s d ↔ x.Paid s (d + 1) := by
  simp only [Paid, nest]
  omega

theorem paid_refine {addrText : Addr → Text} :
    (x.refine addrText y).Paid s d ↔ x.Paid s (d + 1) ∧ y.Paid (s + x.charged) (d + 1) ∧
      s + x.charged + y.charged + cost (refinedTerms addrText x.terms y.terms) ≤
        maxFlattenNodes := by
  simp only [Paid, refine]
  omega

theorem paid_except :
    (x.except y).Paid s d ↔ x.Paid s (d + 1) ∧ y.Paid (s + x.charged) (d + 1) ∧
      (y.terms ≠ [] → s + x.charged + y.charged + cost (excepted x.terms y.terms) ≤
        maxFlattenNodes) := by
  simp only [Paid, except, List.isEmpty_iff]
  split_ifs with h <;> simp only [h, ne_eq, not_true_eq_false, not_false_eq_true, false_imp_iff,
    true_imp_iff, and_true] <;> omega

theorem not_paid_of_deep (hx : 0 < x.levels) (hd : maxFlattenDepth < d) : ¬ x.Paid s d := by
  rintro ⟨-, hlevels⟩
  omega

end Denoted

section

variable (addrText : Addr → Text) (af : AddrFamily)

mutual

def Expr.denoted : Expr → Denoted
  | .nil => .nil
  | .factor peers filter => .factor peers filter
  | .list exprs => (Expr.denotedAll exprs).nest
  | .refine l r afis _ =>
    if scopeCovers af afis then l.denoted.refine addrText r.denoted else l.denoted.nest
  | .except l r afis _ =>
    if scopeCovers af afis then l.denoted.except r.denoted else l.denoted.nest

def Expr.denotedAll : List Expr → Denoted
  | [] => .nil
  | e :: es => e.denoted.append (Expr.denotedAll es)

end

mutual

/-- How many terms a flattener goes on with, `s` spent before and `d` deep: all of them where they
are paid for; otherwise those of a list up to where the budget runs out, and the left side's of an
EXCEPT with nothing left of its right side. -/
def Expr.kept : Expr → Nat → Nat → Nat
  | .nil, _, _ => 0
  | .factor peers filter, s, d => if (Denoted.factor peers filter).Paid s d then peers.length else 0
  | .list exprs, s, d => if d ≤ maxFlattenDepth then Expr.keptAll exprs s (d + 1) else 0
  | .refine l r afis _, s, d =>
    if maxFlattenDepth < d then 0
    else if scopeCovers af afis then
      let x := (l.denoted addrText af).refine addrText (r.denoted addrText af)
      if x.Paid s d then x.terms.length else 0
    else l.kept s (d + 1)
  | .except l r afis _, s, d =>
    let left := l.denoted addrText af
    let x := left.except (r.denoted addrText af)
    if maxFlattenDepth < d then 0
    else if scopeCovers af afis ∧ left.Paid s (d + 1) then
      if r.kept (s + left.charged) (d + 1) = 0 then left.terms.length
      else if x.Paid s d then x.terms.length else 0
    else l.kept s (d + 1)

def Expr.keptAll : List Expr → Nat → Nat → Nat
  | [], _, _ => 0
  | e :: es, s, d =>
    let x := e.denoted addrText af
    e.kept s d + if x.Paid s d then Expr.keptAll es (s + x.charged) d else 0

end

mutual

/-- `s` spent before and `d` deep, no slice asked for is over the budget: no factor that is reached
has more peers, and no EXCEPT in effect that is reached with its left side paid for has more terms
in the product of its sides, as many as are left of the right one, and the left side. -/
def Expr.Fits : Expr → Nat → Nat → Prop
  | .nil, _, _ => True
  | .factor peers _, _, d => d ≤ maxFlattenDepth → peers.length ≤ maxFlattenNodes
  | .list exprs, s, d => d ≤ maxFlattenDepth → Expr.FitsAll exprs s (d + 1)
  | .refine l r afis _, s, d => d ≤ maxFlattenDepth →
    let left := l.denoted addrText af
    l.Fits s (d + 1) ∧ (scopeCovers af afis = true → left.Paid s (d + 1) →
      r.Fits (s + left.charged) (d + 1))
  | .except l r afis _, s, d => d ≤ maxFlattenDepth →
    let left := l.denoted addrText af
    let m := r.kept addrText af (s + left.charged) (d + 1)
    l.Fits s (d + 1) ∧ (scopeCovers af afis = true → left.Paid s (d + 1) →
      r.Fits (s + left.charged) (d + 1) ∧
        (m ≠ 0 → m * left.terms.length + left.terms.length ≤ maxFlattenNodes))

def Expr.FitsAll : List Expr → Nat → Nat → Prop
  | [], _, _ => True
  | e :: es, s, d =>
    let x := e.denoted addrText af
    e.Fits s d ∧ (x.Paid s d → Expr.FitsAll es (s + x.charged) d)

end

end

/-! ## Paying -/

namespace Flattener

/-- Every slice of terms asked for is within the budget. -/
def Within (f : Flattener) : Prop := ∀ c ∈ f.caps, c ≤ maxFlattenNodes

theorem within_request {f : Flattener} {n : Nat} :
    (f.request n).Within ↔ f.Within ∧ n ≤ maxFlattenNodes := by
  simp [Within, request, or_imp, forall_and]

variable {f : Flattener}

theorem build_of_err (h : f.err.isSome = true) (out ts : List WTerm) :
    f.build out ts = (if ts = [] then some out else none, f) := by
  cases ts with
  | nil => rfl
  | cons t ts => simp [build, charge, h]

theorem build_cases (h : f.err = none) (hf : f.spent ≤ maxFlattenNodes)
    (out ts : List WTerm) :
    (f.spent + cost ts ≤ maxFlattenNodes ∧
      f.build out ts = (some (out ++ ts), { f with spent := f.spent + cost ts })) ∨
    (maxFlattenNodes < f.spent + cost ts ∧
      ∃ s, f.build out ts = (none, { f with spent := s, err := some .nodes })) := by
  induction ts generalizing f out with
  | nil => exact .inl ⟨hf, by simp [build]⟩
  | cons t ts ih =>
    rw [cost_cons]
    by_cases hpay : f.spent + (t.w + 1) ≤ maxFlattenNodes
    · have hcharge : f.charge t.w = (true, { f with spent := f.spent + (t.w + 1) }) := by
        simp [charge, h, Nat.not_lt.2 hpay]
      rw [build, hcharge]
      rcases ih (f := { f with spent := f.spent + (t.w + 1) }) h hpay (out ++ [t]) with
        ⟨hle, hb⟩ | ⟨hlt, s, hb⟩
      · refine .inl ⟨by rw [← Nat.add_assoc]; exact hle, ?_⟩
        dsimp only
        rw [hb, List.append_assoc, List.singleton_append, Nat.add_assoc]
      · exact .inr ⟨by rw [← Nat.add_assoc]; exact hlt, s, hb⟩
    · have hcharge : f.charge t.w =
          (false, { f with spent := f.spent + (t.w + 1), err := some .nodes }) := by
        simp [charge, h, Nat.not_le.1 hpay]
      rw [build, hcharge]
      exact .inr ⟨by omega, _, rfl⟩

theorem enter_deep {d : Nat} (h : f.err = none) (hd : maxFlattenDepth < d) :
    f.enter d = (false, { f with err := some .depth }) := by
  simp [enter, h, hd]

theorem enter_of_le {d : Nat} (h : f.err = none) (hd : d ≤ maxFlattenDepth) :
    f.enter d = (true, f) := by
  simp [enter, h, Nat.not_lt.2 hd]

section
variable (addrText : Addr → Text) (af : AddrFamily)

theorem flatten_of_err (h : f.err.isSome = true) (e : Expr) (d : Nat) :
    f.flatten addrText af e d = ([], f) := by
  cases e <;> simp [Flattener.flatten, enter, h]

theorem flattenList_of_err (h : f.err.isSome = true) (es : List Expr) (d : Nat) :
    f.flattenList addrText af es d = ([], f) := by
  induction es with
  | nil => rfl
  | cons e es ih => simp [flattenList, flatten_of_err addrText af h, ih]

end

end Flattener

/-! ## One step -/

/-- What a flattener `f` that is to build `x` at depth `d` comes to: it builds and pays for it or
records an error, it returns `kept` terms, and its slices are within the budget if `fits`. -/
structure Run (f : Flattener) (x : Denoted) (d kept : Nat) (fits : Prop)
    (r : List WTerm × Flattener) : Prop where
  paid : x.Paid f.spent d → r.1 = x.terms ∧ r.2.err = none ∧ r.2.spent = f.spent + x.charged
  unpaid : ¬ x.Paid f.spent d → r.2.err.isSome = true
  length : r.1.length = kept
  within : r.2.Within ↔ f.Within ∧ fits

section

variable {addrText : Addr → Text} {af : AddrFamily} {f f₁ : Flattener} {x y : Denoted}
  {d kx ky : Nat} {fx fy : Prop} {left : List WTerm} {r : List WTerm × Flattener}

theorem Run.congr (h : Run f x d kx fx r) (hk : kx = ky) (hfits : fx ↔ fy) : Run f x d ky fy r :=
  ⟨h.paid, h.unpaid, h.length.trans hk, h.within.trans (and_congr_right' hfits)⟩

theorem run_deep (h : ¬ x.Paid f.spent d) (hfits : fx) :
    Run f x d 0 fx ([], { f with err := some .depth }) :=
  ⟨fun hp => absurd hp h, fun _ => rfl, rfl, (and_iff_left hfits).symm⟩

theorem run_factor (he : f.err = none) (hf : f.spent ≤ maxFlattenNodes)
    (hd : d ≤ maxFlattenDepth) (peers : List PeerAction) (filter : Filter) :
    Run f (.factor peers filter) d
      (if (Denoted.factor peers filter).Paid f.spent d then peers.length else 0)
      (d ≤ maxFlattenDepth → peers.length ≤ maxFlattenNodes) (f.factor peers filter) := by
  have hpaid : (Denoted.factor peers filter).Paid f.spent d ↔
      f.spent + cost (peers.map (factorTerm filter)) ≤ maxFlattenNodes := by
    simp only [Denoted.Paid, Denoted.factor]
    omega
  have hwithin : (f.request peers.length).Within ↔
      f.Within ∧ (d ≤ maxFlattenDepth → peers.length ≤ maxFlattenNodes) := by
    rw [Flattener.within_request]
    simp [hd]
  unfold Flattener.factor
  dsimp only
  rcases Flattener.build_cases (f := f.request peers.length) he hf []
    (peers.map (factorTerm filter)) with ⟨hle, hb⟩ | ⟨hlt, s, hb⟩
  · rw [hb, if_pos (hpaid.2 hle)]
    exact ⟨fun _ => ⟨rfl, he, rfl⟩, fun h => absurd (hpaid.2 hle) h, List.length_map _, hwithin⟩
  · have hnot : ¬ (Denoted.factor peers filter).Paid f.spent d :=
      fun h => Nat.not_lt.2 (hpaid.1 h) hlt
    rw [hb, if_neg hnot]
    exact ⟨fun h => absurd h hnot, fun _ => rfl, rfl, hwithin⟩

/-- What follows once a first part was built: nothing more after an error. -/
theorem run_append {us : List WTerm} {f₂ : Flattener} (hx : Run f x d kx fx (left, f₁))
    (hstop : f₁.err.isSome = true → (us, f₂) = ([], f₁))
    (hy : x.Paid f.spent d → Run f₁ y d ky fy (us, f₂)) :
    Run f (x.append y) d (kx + if x.Paid f.spent d then ky else 0)
      (fx ∧ (x.Paid f.spent d → fy)) (left ++ us, f₂) := by
  by_cases hp : x.Paid f.spent d
  · obtain ⟨hleft, -, hspent⟩ := hx.paid hp
    have hy := hy hp
    dsimp only at hleft hspent
    have hpaid : (x.append y).Paid f.spent d ↔ y.Paid f₁.spent d := by
      rw [Denoted.paid_append, hspent]
      exact and_iff_right hp
    refine ⟨fun h => ?_, fun h => hy.unpaid fun h' => h (hpaid.2 h'), ?_, ?_⟩
    · obtain ⟨hus, herr, hspent'⟩ := hy.paid (hpaid.1 h)
      dsimp only at hus herr hspent' ⊢
      rw [hleft, hus, hspent', hspent, Nat.add_assoc]
      exact ⟨rfl, herr, rfl⟩
    · rw [if_pos hp, List.length_append]
      exact congrArg₂ _ hx.length hy.length
    · simpa [hp, and_assoc] using hy.within.trans (and_congr_left' hx.within)
  · obtain ⟨rfl, rfl⟩ := Prod.mk.inj (hstop (hx.unpaid hp))
    refine ⟨fun h => absurd (Denoted.paid_append.1 h).1 hp, fun _ => hx.unpaid hp, ?_, ?_⟩
    · simpa [hp] using hx.length
    · simpa [hp] using hx.within

theorem run_nest (h : Run f x (d + 1) kx fx r) : Run f x.nest d kx fx r :=
  ⟨fun hp => h.paid (Denoted.paid_nest.1 hp), fun hp => h.unpaid fun h' =>
    hp (Denoted.paid_nest.2 h'), h.length, h.within⟩

theorem run_refine (hx : Run f x (d + 1) kx fx (left, f₁))
    (hstop : f₁.err.isSome = true → r = ([], f₁))
    (hy : x.Paid f.spent (d + 1) → Run f₁ y (d + 1) ky fy r) :
    Run f (x.refine addrText y) d (if (x.refine addrText y).Paid f.spent d then
        (x.refine addrText y).terms.length else 0)
      (fx ∧ (x.Paid f.spent (d + 1) → fy)) (r.2.refineTerms addrText left r.1) := by
  unfold Flattener.refineTerms
  by_cases hp : x.Paid f.spent (d + 1)
  · obtain ⟨hleft, -, hspent⟩ := hx.paid hp
    have hy := hy hp
    dsimp only at hleft hspent
    have hwithin : r.2.Within ↔ f.Within ∧ fx ∧ (x.Paid f.spent (d + 1) → fy) := by
      simpa [hp, and_assoc] using hy.within.trans (and_congr_left' hx.within)
    by_cases hq : y.Paid f₁.spent (d + 1)
    · obtain ⟨hright, herr, hspent'⟩ := hy.paid hq
      rw [hspent] at hq hspent'
      have hle : r.2.spent ≤ maxFlattenNodes := by
        rw [hspent']
        exact hq.1
      have hpaid : (x.refine addrText y).Paid f.spent d ↔
          r.2.spent + cost (refinedTerms addrText x.terms y.terms) ≤ maxFlattenNodes := by
        rw [Denoted.paid_refine, hspent']
        simp [hp, hq]
      rw [hleft, hright]
      rcases Flattener.build_cases herr hle [] (refinedTerms addrText x.terms y.terms) with
        ⟨hle, hb⟩ | ⟨hlt, s, hb⟩
      · rw [refinedTerms] at hb
        rw [hb, if_pos (hpaid.2 hle)]
        refine ⟨fun _ => ⟨rfl, herr, ?_⟩, fun h => absurd (hpaid.2 hle) h, rfl, hwithin⟩
        simp only [Denoted.refine, refinedTerms, hspent', Nat.add_assoc]
      · have hnot : ¬ (x.refine addrText y).Paid f.spent d :=
          fun h => Nat.not_lt.2 (hpaid.1 h) hlt
        rw [refinedTerms] at hb
        rw [hb, if_neg hnot]
        exact ⟨fun h => absurd h hnot, fun _ => rfl, rfl, hwithin⟩
    · have hnot : ¬ (x.refine addrText y).Paid f.spent d := fun h => by
        rw [Denoted.paid_refine, ← hspent] at h
        exact hq h.2.1
      rw [Flattener.build_of_err (hy.unpaid hq), if_neg hnot]
      refine ⟨fun h => absurd h hnot, fun _ => hy.unpaid hq, ?_, hwithin⟩
      dsimp only
      split_ifs <;> rfl
  · have hnot : ¬ (x.refine addrText y).Paid f.spent d := fun h => hp (Denoted.paid_refine.1 h).1
    obtain rfl := hstop (hx.unpaid hp)
    rw [Flattener.build_of_err (hx.unpaid hp), if_neg hnot]
    refine ⟨fun h => absurd h hnot, fun _ => hx.unpaid hp, ?_, by simpa [hp] using hx.within⟩
    dsimp only
    split_ifs <;> rfl

theorem exceptTerms_of_err {left right : List WTerm} (h : f.err.isSome = true) (hne : right ≠ []) :
    f.exceptTerms left right = ([], f.request (right.length * left.length + left.length)) := by
  have herr : (f.request (right.length * left.length + left.length)).err.isSome = true := h
  unfold Flattener.exceptTerms
  rw [if_neg (by simpa using hne)]
  dsimp only
  rw [Flattener.build_of_err herr]
  split_ifs with hpairs
  · dsimp only
    rw [Flattener.build_of_err herr]
    split_ifs <;> rfl
  · rfl

/-- The pairs and what is left of the left-hand terms are paid for together. -/
theorem exceptTerms_cases {right : List WTerm} (h : f.err = none)
    (hf : f.spent ≤ maxFlattenNodes) (left : List WTerm) (hne : right ≠ []) :
    (f.spent + cost (excepted left right) ≤ maxFlattenNodes ∧ f.exceptTerms left right =
      (excepted left right, { f.request (right.length * left.length + left.length) with
        spent := f.spent + cost (excepted left right) })) ∨
    (maxFlattenNodes < f.spent + cost (excepted left right) ∧ ∃ s, f.exceptTerms left right =
      ([], { f.request (right.length * left.length + left.length) with
        spent := s, err := some .nodes })) := by
  have hempty : ¬ right.isEmpty = true := by simpa using hne
  have hexc : excepted left right = (left.flatMap fun l => right.map (exceptTerm l)) ++
      left.map (restTerm right) := if_neg hempty
  unfold Flattener.exceptTerms
  rw [if_neg hempty, hexc, cost_append, ← Nat.add_assoc]
  dsimp only
  set g := f.request (right.length * left.length + left.length) with hg
  have hge : g.err = none := h
  have hgs : g.spent = f.spent := rfl
  rcases Flattener.build_cases hge (hgs ▸ hf) [] (left.flatMap fun l => right.map (exceptTerm l))
    with ⟨hle, hb⟩ | ⟨hlt, s, hb⟩
  · rw [hb]
    rcases Flattener.build_cases
      (f := { g with spent := g.spent + cost (left.flatMap fun l => right.map (exceptTerm l)) })
      hge hle ([] ++ left.flatMap fun l => right.map (exceptTerm l)) (left.map (restTerm right))
      with ⟨hle', hb'⟩ | ⟨hlt', s, hb'⟩
    · refine .inl ⟨hle', ?_⟩
      dsimp only
      rw [hb']
      rfl
    · refine .inr ⟨hlt', s, ?_⟩
      dsimp only
      rw [hb']
      rfl
  · refine .inr ⟨by omega, s, ?_⟩
    rw [hb]

theorem run_except (hx : Run f x (d + 1) kx fx (left, f₁))
    (hstop : f₁.err.isSome = true → r = ([], f₁))
    (hy : x.Paid f.spent (d + 1) → Run f₁ y (d + 1) ky fy r) :
    Run f (x.except y) d
      (if x.Paid f.spent (d + 1) then if ky = 0 then x.terms.length
        else if (x.except y).Paid f.spent d then (x.except y).terms.length else 0 else kx)
      (fx ∧ (x.Paid f.spent (d + 1) → fy ∧
        (ky ≠ 0 → ky * x.terms.length + x.terms.length ≤ maxFlattenNodes)))
      (r.2.exceptTerms left r.1) := by
  by_cases hp : x.Paid f.spent (d + 1)
  · obtain ⟨hleft, -, hspent⟩ := hx.paid hp
    have hy := hy hp
    dsimp only at hleft hspent
    subst hleft
    have hlen := hy.length
    have hwithin : r.2.Within ↔ f.Within ∧ fx ∧ fy := by
      simpa [and_assoc] using hy.within.trans (and_congr_left' hx.within)
    by_cases hright : r.1 = []
    · -- the left side's terms stand as they are
      rw [hright, List.length_nil] at hlen
      have hexc : r.2.exceptTerms x.terms r.1 = (x.terms, r.2) := by
        rw [hright]
        rfl
      rw [hexc, if_pos hp, if_pos hlen.symm]
      refine ⟨fun h => ?_, fun h => hy.unpaid fun hq => h ?_, rfl, by simpa [hp, ← hlen]⟩
      · obtain ⟨-, hq, -⟩ := Denoted.paid_except.1 h
        rw [← hspent] at hq
        obtain ⟨hterms, herr, hspent'⟩ := hy.paid hq
        rw [hright] at hterms
        refine ⟨?_, herr, ?_⟩
        · simp [Denoted.except, ← hterms, excepted]
        · simp [Denoted.except, ← hterms, hspent', hspent, Nat.add_assoc]
      · obtain ⟨hterms, -, -⟩ := hy.paid hq
        rw [Denoted.paid_except, ← hspent, ← hterms, hright]
        exact ⟨hp, hq, fun h => absurd rfl h⟩
    · have hky : ky ≠ 0 := by
        rw [← hlen]
        simpa using hright
      have hask : (r.2.request (r.1.length * x.terms.length + x.terms.length)).Within ↔ f.Within ∧
          fx ∧ (x.Paid f.spent (d + 1) → fy ∧
            (ky ≠ 0 → ky * x.terms.length + x.terms.length ≤ maxFlattenNodes)) := by
        rw [Flattener.within_request, hwithin, hlen]
        simp [hp, hky, and_assoc]
      rw [if_pos hp, if_neg hky]
      by_cases hq : y.Paid f₁.spent (d + 1)
      · obtain ⟨hterms, herr, hspent'⟩ := hy.paid hq
        rw [hspent] at hq hspent'
        have hpaid : (x.except y).Paid f.spent d ↔
            r.2.spent + cost (excepted x.terms y.terms) ≤ maxFlattenNodes := by
          rw [Denoted.paid_except, hspent', ← hterms]
          simp [hp, hq, hright]
        have hle : r.2.spent ≤ maxFlattenNodes := by
          rw [hspent']
          exact hq.1
        rw [← hterms] at hpaid
        rcases exceptTerms_cases herr hle x.terms hright with ⟨hle, hb⟩ | ⟨hlt, s, hb⟩
        · rw [hb, if_pos (hpaid.2 hle)]
          refine ⟨fun _ => ⟨by simp [Denoted.except, hterms], herr, ?_⟩,
            fun h => absurd (hpaid.2 hle) h, by simp [Denoted.except, hterms], hask⟩
          simp [Denoted.except, ← hterms, hright, hspent', Nat.add_assoc]
        · have hnot : ¬ (x.except y).Paid f.spent d := fun h => Nat.not_lt.2 (hpaid.1 h) hlt
          rw [hb, if_neg hnot]
          exact ⟨fun h => absurd h hnot, fun _ => rfl, rfl, hask⟩
      · have hnot : ¬ (x.except y).Paid f.spent d := fun h => by
          rw [Denoted.paid_except, ← hspent] at h
          exact hq h.2.1
        rw [exceptTerms_of_err (hy.unpaid hq) hright, if_neg hnot]
        exact ⟨fun h => absurd h hnot, fun _ => hy.unpaid hq, rfl, hask⟩
  · obtain rfl := hstop (hx.unpaid hp)
    rw [show f₁.exceptTerms left [] = (left, f₁) from rfl, if_neg hp]
    exact ⟨fun h => absurd (Denoted.paid_except.1 h).1 hp, fun _ => hx.unpaid hp, hx.length, by
      simpa [hp] using hx.within⟩

end

/-! ## Whole expressions -/

mutual

theorem Expr.induct {P : Expr → Prop} (nil : P .nil)
    (factor : ∀ peers filter, P (.factor peers filter))
    (list : ∀ es, (∀ e ∈ es, P e) → P (.list es))
    (refine_ : ∀ l r afis mp, P l → P r → P (.refine l r afis mp))
    (except_ : ∀ l r afis mp, P l → P r → P (.except l r afis mp)) : ∀ e, P e
  | .nil => nil
  | .factor peers filter => factor peers filter
  | .list es => list es (Expr.induct_mem nil factor list refine_ except_ es)
  | .refine l r afis mp => refine_ l r afis mp
      (Expr.induct nil factor list refine_ except_ l)
      (Expr.induct nil factor list refine_ except_ r)
  | .except l r afis mp => except_ l r afis mp
      (Expr.induct nil factor list refine_ except_ l)
      (Expr.induct nil factor list refine_ except_ r)

theorem Expr.induct_mem {P : Expr → Prop} (nil : P .nil)
    (factor : ∀ peers filter, P (.factor peers filter))
    (list : ∀ es, (∀ e ∈ es, P e) → P (.list es))
    (refine_ : ∀ l r afis mp, P l → P r → P (.refine l r afis mp))
    (except_ : ∀ l r afis mp, P l → P r → P (.except l r afis mp)) :
    ∀ es : List Expr, ∀ e ∈ es, P e
  | [], _, h => absurd h List.not_mem_nil
  | e :: es, e', h => by
    rcases List.mem_cons.1 h with heq | h
    · rw [heq]
      exact Expr.induct nil factor list refine_ except_ e
    · exact Expr.induct_mem nil factor list refine_ except_ es e' h

end

section

variable {addrText : Addr → Text} {af : AddrFamily}

variable (addrText af) in
/-- Flattening `e` comes to what it denotes, from any flattener with no error. -/
def Expr.Runs (e : Expr) : Prop :=
  ∀ (f : Flattener) (d : Nat), f.err = none → f.spent ≤ maxFlattenNodes → d ≤ maxFlattenDepth + 1 →
    Run f (e.denoted addrText af) d (e.kept addrText af f.spent d) (e.Fits addrText af f.spent d)
      (f.flatten addrText af e d)

/-- What is right of an expression runs with what that left of the budget. -/
theorem Expr.Runs.after {e : Expr} (h : e.Runs addrText af) {f f₁ : Flattener} {x : Denoted}
    {d k : Nat} {fits : Prop} {ts : List WTerm} (hx : Run f x d k fits (ts, f₁))
    (hp : x.Paid f.spent d) (hd : d ≤ maxFlattenDepth + 1) :
    Run f₁ (e.denoted addrText af) d (e.kept addrText af (f.spent + x.charged) d)
      (e.Fits addrText af (f.spent + x.charged) d) (f₁.flatten addrText af e d) := by
  obtain ⟨-, herr, hspent⟩ := hx.paid hp
  have := h f₁ d herr (by rw [hspent]; exact hp.1) hd
  rwa [hspent] at this

theorem flattenList_run {es : List Expr} (h : ∀ e ∈ es, e.Runs addrText af) {f : Flattener}
    {d : Nat} (he : f.err = none) (hf : f.spent ≤ maxFlattenNodes) (hd : d ≤ maxFlattenDepth + 1) :
    Run f (Expr.denotedAll addrText af es) d (Expr.keptAll addrText af es f.spent d)
      (Expr.FitsAll addrText af es f.spent d) (f.flattenList addrText af es d) := by
  induction es generalizing f with
  | nil =>
    rw [Flattener.flattenList, Expr.denotedAll, Expr.keptAll, Expr.FitsAll]
    exact ⟨fun _ => ⟨rfl, he, rfl⟩, fun hn => absurd ⟨hf, hd⟩ hn, rfl, by simp⟩
  | cons e es ih =>
    rw [Flattener.flattenList, Expr.denotedAll, Expr.keptAll, Expr.FitsAll]
    have hx := h e List.mem_cons_self f d he hf hd
    rcases hrun : f.flatten addrText af e d with ⟨ts, f₁⟩
    rw [hrun] at hx
    refine run_append hx (Flattener.flattenList_of_err addrText af · es d) fun hp => ?_
    obtain ⟨-, herr, hspent⟩ := hx.paid hp
    have := ih (fun e he => h e (List.mem_cons_of_mem _ he)) (f := f₁) herr
      (by rw [hspent]; exact hp.1)
    rwa [hspent] at this

/-- **What a flattener comes to.** -/
theorem flatten_run (e : Expr) : e.Runs addrText af := by
  induction e using Expr.induct with
  | nil =>
    intro f d he hf hd
    rw [Flattener.flatten, Expr.denoted, Expr.kept, Expr.Fits]
    exact ⟨fun _ => ⟨rfl, he, rfl⟩, fun hn => absurd ⟨hf, hd⟩ hn, rfl, by simp⟩
  | factor peers filter =>
    intro f d he hf _
    rw [Flattener.flatten, Expr.denoted, Expr.kept, Expr.Fits]
    rcases Nat.lt_or_ge maxFlattenDepth d with hd | hd
    · have hnot :=
        Denoted.not_paid_of_deep (x := .factor peers filter) (s := f.spent) Nat.one_pos hd
      rw [f.enter_deep he hd, if_neg hnot]
      exact run_deep hnot fun h => absurd h (by omega)
    · rw [f.enter_of_le he hd]
      exact run_factor he hf hd peers filter
  | list es ih =>
    intro f d he hf _
    rw [Flattener.flatten, Expr.denoted, Expr.kept, Expr.Fits]
    rcases Nat.lt_or_ge maxFlattenDepth d with hd | hd
    · rw [f.enter_deep he hd, if_neg (by omega)]
      exact run_deep (Denoted.not_paid_of_deep (Nat.succ_pos _) hd) fun h => absurd h (by omega)
    · rw [f.enter_of_le he hd, if_pos hd]
      exact (run_nest (flattenList_run ih he hf (Nat.succ_le_succ hd))).congr rfl (by simp [hd])
  | refine_ l r afis mp ihl ihr =>
    intro f d he hf _
    rw [Flattener.flatten, Expr.denoted, Expr.kept, Expr.Fits]
    rcases Nat.lt_or_ge maxFlattenDepth d with hd | hd
    · rw [f.enter_deep he hd, if_pos hd]
      refine run_deep (Denoted.not_paid_of_deep ?_ hd) fun h => absurd h (by omega)
      split_ifs <;> exact Nat.succ_pos _
    · have hx := ihl f (d + 1) he hf (Nat.succ_le_succ hd)
      rcases hrun : f.flatten addrText af l (d + 1) with ⟨left, f₁⟩
      rw [hrun] at hx
      rw [f.enter_of_le he hd, if_neg (Nat.not_lt.2 hd)]
      dsimp only
      rw [hrun]
      cases hc : scopeCovers af afis with
      | true =>
        exact (run_refine hx (Flattener.flatten_of_err addrText af · r (d + 1)) fun hp =>
          ihr.after hx hp (Nat.succ_le_succ hd)).congr rfl (by simp [hd])
      | false => exact (run_nest hx).congr rfl (by simp [hd])
  | except_ l r afis mp ihl ihr =>
    intro f d he hf _
    rw [Flattener.flatten, Expr.denoted, Expr.kept, Expr.Fits]
    rcases Nat.lt_or_ge maxFlattenDepth d with hd | hd
    · dsimp only
      rw [f.enter_deep he hd, if_pos hd]
      refine run_deep (Denoted.not_paid_of_deep ?_ hd) fun h => absurd h (by omega)
      split_ifs <;> exact Nat.succ_pos _
    · have hx := ihl f (d + 1) he hf (Nat.succ_le_succ hd)
      rcases hrun : f.flatten addrText af l (d + 1) with ⟨left, f₁⟩
      rw [hrun] at hx
      dsimp only
      rw [f.enter_of_le he hd, if_neg (Nat.not_lt.2 hd)]
      dsimp only
      rw [hrun]
      cases hc : scopeCovers af afis with
      | true =>
        exact (run_except hx (Flattener.flatten_of_err addrText af · r (d + 1)) fun hp =>
          ihr.after hx hp (Nat.succ_le_succ hd)).congr (by simp) (by simp [hd])
      | false => exact (run_nest hx).congr (by simp) (by simp [hd])

variable (addrText af) in
/-- What `Flatten` comes to: an error and the slices asked for, or the terms denoted and their own
slice. -/
theorem flattenAlloc_cases (e : Expr) :
    ∃ f : Flattener, (f.Within ↔ e.Fits addrText af 0 0) ∧
      ((¬ (e.denoted addrText af).Paid 0 0 ∧
          ∃ err, flattenAlloc addrText af e = (.error err, f.caps)) ∨
        (e.denoted addrText af).Paid 0 0 ∧ flattenAlloc addrText af e =
          (.ok ((e.denoted addrText af).terms.map WTerm.toTerm),
            if (e.denoted addrText af).terms = [] then f.caps
            else f.caps ++ [(e.denoted addrText af).terms.length])) := by
  have hrun : Run Flattener.start (e.denoted addrText af) 0 _ _ _ :=
    flatten_run e Flattener.start 0 rfl (Nat.zero_le _) (Nat.zero_le _)
  have hstart : Flattener.start.Within := nofun
  unfold flattenAlloc
  rcases hf : Flattener.start.flatten addrText af e 0 with ⟨ts, f⟩
  rw [hf] at hrun
  refine ⟨f, hrun.within.trans (and_iff_right hstart), ?_⟩
  by_cases hp : (e.denoted addrText af).Paid 0 0
  · obtain ⟨hts, herr, -⟩ := hrun.paid hp
    refine .inr ⟨hp, ?_⟩
    dsimp only at hts herr ⊢
    rw [herr, hts]
    by_cases hnil : (e.denoted addrText af).terms = [] <;> simp [hnil]
  · obtain ⟨err, herr⟩ := Option.isSome_iff_exists.1 (hrun.unpaid hp)
    refine .inl ⟨hp, err, ?_⟩
    dsimp only at herr ⊢
    rw [herr]

theorem flatten_eq_ok_iff {e : Expr} {ts : List Term} : flatten addrText af e = .ok ts ↔
    (e.denoted addrText af).Paid 0 0 ∧ ts = (e.denoted addrText af).terms.map WTerm.toTerm := by
  obtain ⟨f, -, ⟨hnot, err, heq⟩ | ⟨hp, heq⟩⟩ := flattenAlloc_cases addrText af e
  · rw [flatten, heq]
    simp [hnot]
  · rw [flatten, heq]
    simp [hp, eq_comm]

end

end Rpsl.Policy
