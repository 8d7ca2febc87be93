import Rpsl.Resolve.OpStack
import Rpsl.Types.Proof.Range
import Rpsl.Lib.UnionSystem

/-!
# A stack denotes the operators pushed on it

Pushing an operator and applying the stack is applying the operator and then the stack
(`apply_push`), so a stack built by pushes denotes the composition of its operators
(`mem_apply_stackOf`), whatever ranges it is applied to.
-/

namespace Rpsl.Resolve.OpStack

open Lib (UnionSystem)

/-! ## The tables `push` makes -/

variable {s : OpStack} {o : RangeOperator}

theorem lo_push (ho : o.isZero = false) {f : Family} {k : Nat}
    (hk : k ≤ f.width) : (s.push o).lo f k = s.pushLo o f k := by
  have hk' : k < f.width + 1 := by omega
  cases f <;> simp only [Family.width] at hk' <;> simp [lo, push, ho, hk']

theorem hi_push (ho : o.isZero = false) (f : Family) :
    (s.push o).hi f = s.pushHi o f := by
  cases f <;> simp [hi, push, ho]

theorem set_push (ho : o.isZero = false) :
    (s.push o).set = true := by simp [push, ho]

theorem toNat_ofNat_width {f : Family} {n : Nat} (h : n ≤ f.width) :
    (UInt8.ofNat n).toNat = n ∧ UInt8.ofNat n ≠ deleted := by
  have hn : n < 255 := by cases f <;> simp only [Family.width] at h <;> omega
  have ht : (UInt8.ofNat n).toNat = n := UInt8.toNat_ofNat_of_lt' (by simp [UInt8.size]; omega)
  refine ⟨ht, fun h => ?_⟩
  rw [h] at ht
  simp [deleted] at ht
  omega

variable {r : PrefixRange}

theorem apply_of_set {p : Prefix} (hr : r.isEmpty = false)
    (hp : r.pfx = some p) (hs : s.set = true) : s.apply r =
      if s.lo p.fam r.lo = deleted then none
      else PrefixRange.new p (s.lo p.fam r.lo).toNat (s.hi p.fam).toNat := by
  obtain ⟨b, hb, hle⟩ := PrefixRange.isEmpty_eq_false_iff.1 hr
  have hw : ¬ p.fam.width < r.lo := by
    have : r.hi ≤ p.fam.width := (PrefixRange.pfx_wf hp).2.2.1
    omega
  simp [apply, hr, hs, hp, hw]

/-- **Pushing an operator and applying the stack is applying the operator, then the stack.** -/
theorem apply_push (s : OpStack) (o : RangeOperator) (hr : r.isEmpty = false) :
    (s.push o).apply r = (o.apply r).bind s.apply := by
  by_cases hz : o.isZero = true
  · simp [push, RangeOperator.apply, hz]
  rw [Bool.not_eq_true] at hz
  obtain ⟨p, hp, hle⟩ := PrefixRange.isEmpty_eq_false_iff.1 hr
  obtain ⟨hpm, hbits, hhi, -⟩ := PrefixRange.pfx_wf hp
  have hk : r.lo ≤ p.fam.width := hle.trans hhi
  obtain ⟨-, hwid, hlow, hwl⟩ := o.window_mono hk p.fam.width
  rw [apply_of_set hr hp (set_push hz), lo_push hz hk, hi_push hz]
  unfold RangeOperator.apply pushLo pushHi
  have hbl : p.bitLen = p.fam.width := rfl
  simp only [hz, hp, hbl, Bool.false_eq_true, if_false]
  by_cases hdel : (o.window r.lo p.fam.width).2 < (o.window r.lo p.fam.width).1
  · simp [hdel]
  -- the operator leaves a range with the window's bounds, whose lower one `s` looks up
  simp only [hdel, if_false]
  cases hn : PrefixRange.new p (o.window r.lo p.fam.width).1 (o.window r.lo p.fam.width).2 with
  | none =>
    have := PrefixRange.new_eq_none hn
    change min _ p.fam.width < _ at this
    omega
  | some t =>
    obtain ⟨htp, htlo, -⟩ := PrefixRange.new_eq_some hn
    rw [hpm] at htp
    have htl : t.lo = (o.window r.lo p.fam.width).1 := by omega
    have hte := PrefixRange.isEmpty_new hn
    rw [Option.bind_some]
    by_cases hs : s.set = true
    · rw [apply_of_set hte htp hs, htl]
      simp [hs]
    · have hlo := toNat_ofNat_width (show (o.window r.lo p.fam.width).1 ≤ p.fam.width by omega)
      have hhi := toNat_ofNat_width (show (o.window r.lo p.fam.width).2 ≤ p.fam.width by omega)
      simp [apply, hs, hte, hlo, hwid, hhi, hn]

/-! ## Stacks built by pushes -/

/-- The stack of a path's operators, the outermost first. -/
def stackOf (os : List RangeOperator) : OpStack := os.foldl push empty

theorem stackOf_snoc (os : List RangeOperator) (o : RangeOperator) :
    stackOf (os ++ [o]) = (stackOf os).push o := by simp [stackOf]

/-- **A stack built by pushes denotes the composition of its operators.** -/
theorem mem_apply_stackOf (os : List RangeOperator) (r : PrefixRange) (q : Net) :
    (∃ t, (stackOf os).apply r = some t ∧ q ∈ t.denote) ↔
      ∃ p ∈ r.denote, UnionSystem.through (fun o (p q : Net) => o.Allows p.1 q.1) os p q := by
  by_cases hr : r.isEmpty = true
  · simp [apply, hr, PrefixRange.mem_denote, PrefixRange.not_contains_of_isEmpty hr]
  rw [Bool.not_eq_true] at hr
  -- the last operator is the innermost, so it is the first to act
  induction os using List.reverseRecOn generalizing r with
  | nil => simp [stackOf, apply, hr, empty, UnionSystem.through]
  | append_singleton os o ih =>
    rw [stackOf_snoc, apply_push _ _ hr]
    simp only [UnionSystem.through_snoc]
    have himg := Set.ext_iff.1 (o.apply_denote r)
    constructor
    · intro h
      obtain ⟨t, ht, hq⟩ := h
      obtain ⟨u, hu, htu⟩ := Option.bind_eq_some_iff.1 ht
      obtain ⟨m, hm, hmq⟩ := (ih u (RangeOperator.isEmpty_apply hr hu)).1 ⟨t, htu, hq⟩
      obtain ⟨p, hp, hpm⟩ := (himg m).2 ⟨u, hu, hm⟩
      exact ⟨p, hp, m, hpm, hmq⟩
    · intro h
      obtain ⟨p, hp, m, hpm, hmq⟩ := h
      obtain ⟨u, hu, hm⟩ := (himg m).1 ⟨p, hp, hpm⟩
      obtain ⟨t, ht, hq⟩ := (ih u (RangeOperator.isEmpty_apply hr hu)).2 ⟨m, hm, hmq⟩
      exact ⟨t, Option.bind_eq_some_iff.2 ⟨u, hu, ht⟩, hq⟩

/-- The operators applied to a range one after another, the last of the list first. -/
def applyAll (os : List RangeOperator) (r : PrefixRange) : Option PrefixRange :=
  os.foldr (fun o t => t.bind o.apply) (some r)

theorem applyAll_snoc (os : List RangeOperator) (o : RangeOperator) (r : PrefixRange) :
    applyAll (os ++ [o]) r = (o.apply r).bind (applyAll os) := by
  have hfrom : ∀ t : Option PrefixRange,
      os.foldr (fun o t => t.bind o.apply) t = t.bind (applyAll os) := by
    intro t
    induction os with
    | nil => exact (Option.bind_fun_some t).symm
    | cons a os ih =>
      show (os.foldr (fun o t => t.bind o.apply) t).bind a.apply = _
      rw [ih, Option.bind_assoc]
      rfl
  unfold applyAll
  rw [List.foldr_append]
  exact hfrom (o.apply r)

theorem apply_stackOf (os : List RangeOperator) (hr : r.isEmpty = false) :
    (stackOf os).apply r = applyAll os r := by
  induction os using List.reverseRecOn generalizing r with
  | nil => simp [stackOf, apply, hr, empty, applyAll]
  | append_singleton os o ih =>
    rw [stackOf_snoc, apply_push _ _ hr, applyAll_snoc]
    cases ho : o.apply r with
    | none => rfl
    | some t => exact ih (RangeOperator.isEmpty_apply hr ho)

theorem finite_uint8 : Finite UInt8 :=
  Finite.of_injective UInt8.toFin fun _ _ h => UInt8.toFin_inj.1 h

instance : Finite OpStack := by
  have := finite_uint8
  refine Finite.of_injective
    (fun s => (s.set, s.hi4, s.hi6, (fun i : Fin 33 => s.lo4[i]), fun i : Fin 129 => s.lo6[i])) ?_
  intro s t h
  obtain ⟨_, _, _, lo4, lo6⟩ := s
  obtain ⟨_, _, _, lo4', lo6'⟩ := t
  simp only [Prod.mk.injEq] at h
  obtain ⟨rfl, rfl, rfl, h4, h6⟩ := h
  obtain rfl : lo4 = lo4' := Vector.ext fun i hi => congrFun h4 ⟨i, hi⟩
  obtain rfl : lo6 = lo6' := Vector.ext fun i hi => congrFun h6 ⟨i, hi⟩
  rfl

/-- **Operator stacks are exact.** A stack built by pushes does to a range what its operators do one
after another, the last pushed first; stacks that are equal stay so under a push and act alike; and
there are finitely many of them. -/
theorem stackOf_exact :
    (∀ (os : List RangeOperator) (r : PrefixRange), r.isEmpty = false →
      (stackOf os).apply r = applyAll os r) ∧
    (∀ os os' : List RangeOperator, stackOf os = stackOf os' →
      (∀ o, stackOf (os ++ [o]) = stackOf (os' ++ [o])) ∧
      ∀ r : PrefixRange, r.isEmpty = false → applyAll os r = applyAll os' r) ∧
    {s | ∃ os, stackOf os = s}.Finite := by
  refine ⟨fun os r hr => apply_stackOf os hr, fun os os' h => ⟨fun o => ?_, fun r hr => ?_⟩, ?_⟩
  · rw [stackOf_snoc, stackOf_snoc, h]
  · rw [← apply_stackOf os hr, ← apply_stackOf os' hr, h]
  · exact Set.toFinite _

theorem stackOf_exact_nested :
    (stackOf [⟨.plus, 0, 0⟩, ⟨.range, 16, 24⟩]).apply
      ((PrefixRange.new ⟨⟨.v4, 0x0A000000#32⟩, 8, by decide⟩ 8 8).getD .zero) =
        applyAll [⟨.plus, 0, 0⟩, ⟨.range, 16, 24⟩]
          ((PrefixRange.new ⟨⟨.v4, 0x0A000000#32⟩, 8, by decide⟩ 8 8).getD .zero) ∧
      stackOf [⟨.plus, 0, 0⟩, ⟨.plus, 0, 0⟩, ⟨.minus, 0, 0⟩] =
        stackOf [⟨.plus, 0, 0⟩, ⟨.minus, 0, 0⟩] :=
  ⟨stackOf_exact.1 _ _ (by decide), (stackOf_exact.2.1 [⟨.plus, 0, 0⟩, ⟨.plus, 0, 0⟩]
    [⟨.plus, 0, 0⟩] (by decide +kernel)).1 ⟨.minus, 0, 0⟩⟩

end Rpsl.Resolve.OpStack
