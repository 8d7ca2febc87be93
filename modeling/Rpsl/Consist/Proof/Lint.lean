import Rpsl.Consist.Lint
import Rpsl.Consist.Proof.Sides
import Rpsl.Types.Proof.Subset

/-!
# Shadowing reports are sound

A signature's cover holds what the earlier conjuncts with tests among the signature's do, however
they are split between the folded union and the large spaces (`SigCover.Current`), and every call
of `shadowed` and `add` keeps this (`Cover.Inv`). So `shadowed` answers exactly the inclusion it is
asked for, and a route that passes the tests of a shadowed clause passes those of an earlier one.
-/

namespace Rpsl.Consist

open Text Rpsl.Policy Resolve Peval

/-! ## A signature's cover -/

def SigCover.Holds (sc : SigCover) (p : Prefix) : Prop :=
  sc.folded.contains p = true ∨ ∃ s ∈ sc.large, s.contains p = true

/-- An earlier conjunct holds the prefix and tests nothing that `sig` does not. -/
def Covered (earlier : List Conj) (sig : List Text) (p : Prefix) : Prop :=
  ∃ e ∈ earlier, (∀ t ∈ e.sig, t ∈ sig) ∧ e.space.contains p = true

theorem subset_eq_true {a b : List Text} : subset a b = true ↔ ∀ t ∈ a, t ∈ b := by
  simp [subset]

theorem contains_space_union (s t : PrefixSpace) (p : Prefix) :
    (s.union t).contains p = true ↔ s.contains p = true ∨ t.contains p = true := by
  simp [PrefixSpace.union, PrefixSpace.contains_combine, SetOp.bool]

namespace SigCover

@[simp] theorem take_sig (sc : SigCover) (s : PrefixSpace) : (sc.take s).sig = sc.sig := by
  unfold take
  split <;> rfl

theorem holds_take (sc : SigCover) (s : PrefixSpace) (p : Prefix) :
    (sc.take s).Holds p ↔ sc.Holds p ∨ s.contains p = true := by
  unfold take Holds
  split
  · simp [or_assoc, or_and_right, exists_or]
  · rw [contains_space_union]
    exact or_right_comm

theorem foldl_take (es : List Conj) (sc : SigCover) :
    let sc' := es.foldl (fun sc e => if subset e.sig sc.sig then sc.take e.space else sc) sc
    sc'.sig = sc.sig ∧ ∀ p, sc'.Holds p ↔ sc.Holds p ∨ Covered es sc.sig p := by
  induction es generalizing sc with
  | nil => simp [Covered]
  | cons e es ih =>
    have hcons : ∀ p, Covered (e :: es) sc.sig p ↔
        (subset e.sig sc.sig = true ∧ e.space.contains p = true) ∨ Covered es sc.sig p := by
      simp [Covered, subset_eq_true]
    rw [List.foldl_cons]
    split_ifs with h
    · obtain ⟨hsig, hholds⟩ := ih (sc.take e.space)
      rw [take_sig] at hsig hholds
      refine ⟨hsig, fun p => ?_⟩
      rw [hholds, holds_take, hcons, or_assoc]
      simp [h]
    · obtain ⟨hsig, hholds⟩ := ih sc
      refine ⟨hsig, fun p => ?_⟩
      rw [hholds, hcons]
      simp [h]

structure Current (earlier : List Conj) (sc : SigCover) : Prop where
  n_le : sc.n ≤ earlier.length
  holds : ∀ p, sc.Holds p ↔ Covered (earlier.take sc.n) sc.sig p

theorem current_new (earlier : List Conj) (sig : List Text) :
    Current earlier { sig := sig } where
  n_le := Nat.zero_le _
  holds := fun p => by
    simp [Holds, Covered, not_contains_of_isEmpty (s := PrefixSpace.empty) rfl]

theorem Current.append {earlier : List Conj} {sc : SigCover} (h : sc.Current earlier)
    (cs : List Conj) : sc.Current (earlier ++ cs) where
  n_le := by
    have := h.n_le
    rw [List.length_append]
    omega
  holds := fun p => by rw [h.holds, List.take_append_of_le_length h.n_le]

@[simp] theorem update_sig (sc : SigCover) (earlier : List Conj) :
    (sc.update earlier).sig = sc.sig := (foldl_take _ sc).1

theorem Current.update {earlier : List Conj} {sc : SigCover} (h : sc.Current earlier) :
    (sc.update earlier).Current earlier where
  n_le := le_rfl
  holds := fun p => by
    have hsplit : Covered (earlier.take sc.n) sc.sig p ∨ Covered (earlier.drop sc.n) sc.sig p ↔
        Covered earlier sc.sig p := by
      conv_rhs => rw [← List.take_append_drop sc.n earlier]
      simp only [Covered, List.mem_append, or_and_right, exists_or]
    calc (sc.update earlier).Holds p ↔ sc.Holds p ∨ Covered (earlier.drop sc.n) sc.sig p :=
          (foldl_take _ sc).2 p
      _ ↔ Covered earlier sc.sig p := by rw [h.holds, hsplit]
      _ ↔ Covered (earlier.take (sc.update earlier).n) (sc.update earlier).sig p := by
          rw [update_sig, show (sc.update earlier).n = earlier.length from rfl, List.take_length]

theorem Current.holds_update {earlier : List Conj} {sc : SigCover} (h : sc.Current earlier)
    (p : Prefix) : (sc.update earlier).Holds p ↔ Covered earlier sc.sig p := by
  rw [h.update.holds, update_sig, show (sc.update earlier).n = earlier.length from rfl,
    List.take_length]

theorem covers_iff (shared : Family → List Bool → Bool) (sc : SigCover) {s : PrefixSpace}
    (hs : s.Canonical) :
    sc.covers shared s = true ↔ ∀ p, s.contains p = true → sc.Holds p := by
  unfold covers Holds
  split
  case isTrue h =>
    rw [PrefixSpace.subset_iff hs, List.isEmpty_iff.1 h]
    simp
  case isFalse h =>
    rw [PrefixSpace.subsetOfUnion_iff hs]
    simp

end SigCover

/-! ## The cover -/

structure Conj.Ok (c : Conj) : Prop where
  parts : ∀ t ∈ c.sig, IsPart t
  canonical : c.space.Canonical

theorem ok_of_mem_clauseConjs {cl : Clause} {c : Conj} (h : c ∈ clauseConjs cl) : c.Ok := by
  obtain ⟨cj, -, rfl⟩ := List.mem_map.1 h
  exact ⟨fun t ht => cj.isPart_tests t (mem_signature.1 ht),
    ((PrefixSpace.canonical_spaceOf _).combine .minus (PrefixSpace.canonical_spaceOf _) :)⟩

theorem Conj.Ok.sig_eq {c d : Conj} (hc : c.Ok) (hd : d.Ok) (h : c.key = d.key) :
    c.sig = d.sig :=
  isPart_prefixFree.intercalate_inj _ hc.parts hd.parts h

theorem canonical_union {cs : List Conj} (h : ∀ c ∈ cs, c.Ok) : (union cs).Canonical := by
  have hfold : ∀ s : PrefixSpace, s.Canonical →
      (cs.foldl (fun s c => s.union c.space) s).Canonical := by
    induction cs with
    | nil => exact fun s hs => hs
    | cons c cs ih =>
      intro s hs
      exact ih (fun d hd => h d (List.mem_cons_of_mem _ hd)) _
        (hs.combine .union (h c List.mem_cons_self).canonical)
  exact hfold _ (PrefixSpace.canonical_spaceOf [])

namespace Cover

/-- Every signature's cover is that of the conjuncts it has taken in, and is found under the key of
its signature. -/
structure Inv (c : Cover) : Prop where
  current : ∀ k sc, c.bySig k = some sc → sc.Current c.earlier
  sig : ∀ k sc, c.bySig k = some sc → ∀ d : Conj, d.Ok → d.key = k → d.sig = sc.sig

theorem inv_new : Inv {} := ⟨by rintro _ _ ⟨⟩, by rintro _ _ ⟨⟩⟩

theorem Inv.add {c : Cover} (h : c.Inv) (cs : List Conj) : (c.add cs).Inv :=
  ⟨fun k sc hk => (h.current k sc hk).append cs, h.sig⟩

def found (c : Cover) (cs : List Conj) (k : Text) : SigCover :=
  (c.bySig k).getD { sig := groupSig (group cs k) }

def keep (c : Cover) (cs : List Conj) (k : Text) : Cover :=
  { c with bySig := Function.update c.bySig k (some ((c.found cs k).update c.earlier)) }

theorem ask_cons (shared : Text → Family → List Bool → Bool) (cs : List Conj) (k : Text)
    (ks : List Text) (c : Cover) :
    c.ask shared cs (k :: ks) =
      if ((c.found cs k).update c.earlier).covers (shared k) (union (group cs k)) then
        (c.keep cs k).ask shared cs ks
      else (false, c.keep cs k) := rfl

section

variable {c : Cover} {cs : List Conj} {k : Text} {d : Conj}

theorem Inv.found (h : c.Inv) (hcs : ∀ d ∈ cs, d.Ok) (hd : d ∈ cs) (hk : d.key = k) :
    (c.found cs k).Current c.earlier ∧
      ∀ e : Conj, e.Ok → e.key = k → e.sig = (c.found cs k).sig := by
  unfold Cover.found
  cases hb : c.bySig k with
  | some sc => exact ⟨h.current k sc hb, h.sig k sc hb⟩
  | none =>
    refine ⟨SigCover.current_new _ _, fun e he hek => ?_⟩
    cases hg : group cs k with
    | nil =>
      have := mem_group.2 ⟨hd, hk⟩
      rw [hg] at this
      cases this
    | cons f g =>
      obtain ⟨hf, hfk⟩ := mem_group.1 (show f ∈ group cs k by simp [hg])
      exact he.sig_eq (hcs f hf) (hek.trans hfk.symm)

theorem Inv.keep (h : c.Inv) (hcs : ∀ d ∈ cs, d.Ok) (hd : d ∈ cs) (hk : d.key = k) :
    (c.keep cs k).Inv := by
  obtain ⟨hcur, hsig⟩ := h.found hcs hd hk
  constructor
  · intro k' sc hsc
    by_cases heq : k' = k
    · subst heq
      cases (Function.update_self (f := c.bySig) ..).symm.trans hsc
      exact hcur.update
    · exact h.current k' sc ((Function.update_of_ne heq ..).symm.trans hsc)
  · intro k' sc hsc
    by_cases heq : k' = k
    · subst heq
      cases (Function.update_self (f := c.bySig) ..).symm.trans hsc
      rw [SigCover.update_sig]
      exact hsig
    · exact h.sig k' sc ((Function.update_of_ne heq ..).symm.trans hsc)

theorem Inv.covers_iff (h : c.Inv) (shared : Family → List Bool → Bool) (hcs : ∀ d ∈ cs, d.Ok)
    (hd : d ∈ cs) (hk : d.key = k) :
    ((c.found cs k).update c.earlier).covers shared (union (group cs k)) = true ↔
      ∀ e ∈ cs, e.key = k → ∀ p, e.space.contains p = true → Covered c.earlier e.sig p := by
  obtain ⟨hcur, hsig⟩ := h.found hcs hd hk
  rw [SigCover.covers_iff _ _ (canonical_union fun e he => hcs e (mem_group.1 he).1)]
  simp only [hcur.holds_update, contains_union, mem_group]
  constructor
  · intro hall e he hek p hp
    rw [hsig e (hcs e he) hek]
    exact hall p ⟨e, ⟨he, hek⟩, hp⟩
  · rintro hall p ⟨e, ⟨he, hek⟩, hp⟩
    rw [← hsig e (hcs e he) hek]
    exact hall e he hek p hp

/-- **The loop over the groups**: it keeps the invariant and adds no conjunct, and answers whether
the groups asked about lie in the earlier conjuncts. -/
theorem ask_spec (shared : Text → Family → List Bool → Bool) (hcs : ∀ d ∈ cs, d.Ok)
    {ks : List Text} (hks : ∀ k ∈ ks, ∃ d ∈ cs, d.key = k) (h : c.Inv) :
    (c.ask shared cs ks).2.Inv ∧ (c.ask shared cs ks).2.earlier = c.earlier ∧
      ((c.ask shared cs ks).1 = true ↔ ∀ k ∈ ks, ∀ d ∈ cs, d.key = k →
        ∀ p, d.space.contains p = true → Covered c.earlier d.sig p) := by
  induction ks generalizing c with
  | nil => exact ⟨h, rfl, by simp [ask]⟩
  | cons k ks ih =>
    obtain ⟨d, hd, hdk⟩ := hks k List.mem_cons_self
    have hkeep := h.keep hcs hd hdk
    have hcov := h.covers_iff (shared k) hcs hd hdk
    rw [ask_cons, List.forall_mem_cons, ← hcov]
    split_ifs with hc
    · obtain ⟨hinv, hearlier, hiff⟩ := ih (fun k' hk' => hks k' (List.mem_cons_of_mem _ hk')) hkeep
      exact ⟨hinv, hearlier, by rw [hiff, and_iff_right hc]; rfl⟩
    · exact ⟨hkeep, rfl, by simp [hc]⟩

theorem shadowed_spec (ch : Choices) (hcs : ∀ d ∈ cs, d.Ok) (h : c.Inv) :
    (c.shadowed ch cs).2.Inv ∧ (c.shadowed ch cs).2.earlier = c.earlier ∧
      ((c.shadowed ch cs).1 = true ↔ ∀ d ∈ cs, ∀ p, d.space.contains p = true →
        Covered c.earlier d.sig p) := by
  have hmem : ∀ k, k ∈ ch.order (cs.map Conj.key).dedup ↔ ∃ d ∈ cs, d.key = k := fun k => by
    rw [(ch.perm _).mem_iff, List.mem_dedup, List.mem_map]
  obtain ⟨hinv, hearlier, hiff⟩ := ask_spec ch.shared hcs (fun k hk => (hmem k).1 hk) h
  refine ⟨hinv, hearlier, hiff.trans ⟨fun hall d hd => ?_, fun hall k _ d hd _ => hall d hd⟩⟩
  exact hall d.key ((hmem _).2 ⟨d, hd, rfl⟩) d hd rfl

end

/-! ## Calls -/

/-- A call on a cover, with the conjuncts of a clause. -/
inductive Call
  | shadowed (ch : Choices) (cl : Clause)
  | add (cl : Clause)

/-- The cover after a call. -/
def call (c : Cover) : Call → Cover
  | .shadowed ch cl => (c.shadowed ch (clauseConjs cl)).2
  | .add cl => c.add (clauseConjs cl)

/-- The conjuncts a call adds. -/
def Call.added : Call → List Conj
  | .shadowed _ _ => []
  | .add cl => clauseConjs cl

theorem Inv.call {c : Cover} (h : c.Inv) (a : Call) :
    (c.call a).Inv ∧ (c.call a).earlier = c.earlier ++ a.added := by
  cases a with
  | shadowed ch cl =>
    obtain ⟨hinv, hearlier, -⟩ := shadowed_spec ch (fun _ => ok_of_mem_clauseConjs) h
    exact ⟨hinv, by rw [Call.added, List.append_nil]; exact hearlier⟩
  | add cl => exact ⟨h.add _, rfl⟩

theorem Inv.calls {c : Cover} (h : c.Inv) (as : List Call) :
    (as.foldl Cover.call c).Inv ∧
      (as.foldl Cover.call c).earlier = c.earlier ++ as.flatMap Call.added := by
  induction as generalizing c with
  | nil => exact ⟨h, by simp⟩
  | cons a as ih =>
    obtain ⟨hinv, hearlier⟩ := h.call a
    obtain ⟨hinv', hearlier'⟩ := ih hinv
    refine ⟨hinv', ?_⟩
    rw [List.foldl_cons, hearlier', hearlier, List.flatMap_cons, List.append_assoc]

end Cover

/-! ## Policies -/

/-- What the report of a clause says of it, the clauses before it being `before`. -/
structure Report.Sound (before : List Clause) (cl : Clause) (rule : Option Rule) : Prop where
  empty : rule = some .empty → ∀ v p, ¬ cl.matches v p = true
  shadowed : rule = some .shadowed → ∀ v p, cl.matches v p = true →
    ∃ cl' ∈ before, cl'.matches v p = true

theorem sideOf_singleton (cl : Clause) : (sideOf ⟨[cl], []⟩).conjs = clauseConjs cl := by
  simp [sideOf]

theorem matches_of_covered {before : List Clause} {earlier : List Conj}
    (hearlier : ∀ e ∈ earlier, ∃ cl ∈ before, e ∈ clauseConjs cl) {cl : Clause}
    (hcov : ∀ d ∈ clauseConjs cl, ∀ p, d.space.contains p = true → Covered earlier d.sig p)
    {v : Truth} {p : Prefix} (h : cl.matches v p = true) :
    ∃ cl' ∈ before, cl'.matches v p = true := by
  obtain ⟨d, hd, hsp, hpass⟩ := (clause_matches_iff cl v p).1 h
  obtain ⟨e, he, hsig, hesp⟩ := hcov d hd p hsp
  obtain ⟨cl', hcl', he'⟩ := hearlier e he
  exact ⟨cl', hcl', (clause_matches_iff cl' v p).2 ⟨e, he', hesp, fun t ht => hpass t (hsig t ht)⟩⟩

theorem policyFrom_sound {skip : Clause → Bool} {choices : Nat → Choices} (cls : List Clause)
    {i : Nat} {cov : Cover} (hinv : cov.Inv) {before : List Clause}
    (hearlier : ∀ e ∈ cov.earlier, ∃ cl ∈ before, e ∈ clauseConjs cl) {j : Nat} {cl : Clause}
    {rule : Option Rule} (h : (policyFrom skip choices i cov cls)[j]? = some (cl, rule)) :
    cls[j]? = some cl ∧ Report.Sound (before ++ cls.take j) cl rule := by
  induction cls generalizing i cov before j with
  | nil => simp [policyFrom] at h
  | cons c cls ih =>
    -- what the rest of the loop says, whatever the cover it starts from
    have hrest : ∀ {cov' : Cover} {j : Nat}, cov'.Inv →
        (∀ e ∈ cov'.earlier, ∃ cl ∈ before ++ [c], e ∈ clauseConjs cl) →
        (policyFrom skip choices (i + 1) cov' cls)[j]? = some (cl, rule) →
        cls[j]? = some cl ∧ Report.Sound (before ++ (c :: cls).take (j + 1)) cl rule := by
      intro cov' j hinv' he hj
      have := ih hinv' he hj
      rwa [List.append_assoc] at this
    have hbefore : ∀ e ∈ cov.earlier, ∃ cl ∈ before ++ [c], e ∈ clauseConjs cl := fun e he => by
      obtain ⟨cl', hcl', hmem⟩ := hearlier e he
      exact ⟨cl', List.mem_append_left _ hcl', hmem⟩
    obtain ⟨hinv', hearlier', hiff⟩ :=
      Cover.shadowed_spec (choices i) (fun _ => ok_of_mem_clauseConjs) hinv
    unfold policyFrom at h
    simp only [sideOf_singleton] at h
    have hadd : ∀ e ∈ ((cov.shadowed (choices i) (clauseConjs c)).2.add (clauseConjs c)).earlier,
        ∃ cl ∈ before ++ [c], e ∈ clauseConjs cl := fun e he => by
      rcases List.mem_append.1 he with he | he
      · exact hbefore e (hearlier' ▸ he)
      · exact ⟨c, by simp, he⟩
    split_ifs at h with hskip hempty hshadowed
    · cases j with
      | zero => cases h; exact ⟨rfl, nofun, nofun⟩
      | succ j => exact hrest hinv hbefore h
    · cases j with
      | zero =>
        cases h
        refine ⟨rfl, fun _ v p hm => ?_, nofun⟩
        obtain ⟨d, hd, hsp, -⟩ := (clause_matches_iff _ v p).1 hm
        have := (contains_union _ _).2 ⟨d, hd, hsp⟩
        rw [not_contains_of_isEmpty hempty] at this
        cases this
      | succ j => exact hrest hinv hbefore h
    · cases j with
      | zero =>
        cases h
        refine ⟨rfl, nofun, fun _ v p hm => ?_⟩
        rw [List.take_zero, List.append_nil]
        exact matches_of_covered hearlier (hiff.1 hshadowed) hm
      | succ j => exact hrest (hinv'.add _) hadd h
    · cases j with
      | zero => cases h; exact ⟨rfl, nofun, nofun⟩
      | succ j => exact hrest (hinv'.add _) hadd h

/-- **Shadowing reports are sound and the cover is exact**, for every truth value of the AS-path and
community tests. A clause reported empty accepts no route, and a route that a clause reported
shadowed accepts an earlier clause accepts; and `shadowed`, after any calls, answers whether for
every signature among the clause's conjuncts those with it lie in the conjuncts added whose tests
are among the signature's. -/
theorem shadowed_exact :
    (∀ (skip : Clause → Bool) (choices : Nat → Choices) (P : Policy) (i : Nat) (cl : Clause)
      (rule : Option Rule), (lintPolicy skip choices P)[i]? = some (cl, rule) →
      P.clauses[i]? = some cl ∧
      (rule = some .empty → ∀ v p, ¬ cl.matches v p = true) ∧
      (rule = some .shadowed → ∀ v p, cl.matches v p = true →
        ∃ cl' ∈ P.clauses.take i, cl'.matches v p = true)) ∧
    (∀ (calls : List Cover.Call) (ch : Choices) (cl : Clause),
      ((calls.foldl Cover.call {}).shadowed ch (clauseConjs cl)).1 = true ↔
        ∀ T ∈ (clauseConjs cl).map Conj.sig, ∀ p,
          (∃ d ∈ clauseConjs cl, d.sig = T ∧ d.space.contains p = true) →
          ∃ e ∈ calls.flatMap Cover.Call.added, (∀ t ∈ e.sig, t ∈ T) ∧
            e.space.contains p = true) := by
  refine ⟨fun skip choices P i cl rule h => ?_, fun calls ch cl => ?_⟩
  · obtain ⟨hi, hs⟩ := policyFrom_sound P.clauses Cover.inv_new
      (show ∀ e ∈ ({} : Cover).earlier, ∃ cl ∈ [], e ∈ clauseConjs cl from nofun) h
    exact ⟨hi, hs.empty, hs.shadowed⟩
  · obtain ⟨hinv, hearlier⟩ := Cover.inv_new.calls calls
    rw [(Cover.shadowed_spec ch (fun _ => ok_of_mem_clauseConjs) hinv).2.2, hearlier]
    constructor
    · rintro hall _ - p ⟨d, hd, rfl, hp⟩
      exact hall d hd p hp
    · intro hall d hd p hp
      exact hall d.sig (List.mem_map_of_mem hd) p ⟨d, hd, rfl, hp⟩

/-- A clause without tests that accepts the prefixes of length 1 in the prefix of a path. -/
def lengthOne (path : List Bool) (h : path.length ≤ Family.v4.width) : Clause :=
  let rs := (PrefixRange.new (Prefix.ofPath .v4 path h) 1 1).toList
  ⟨0, [], ⟨[⟨⟨rs, []⟩, ⟨[], []⟩, [], [], false⟩], []⟩⟩

/-- The two halves of IPv4 shadow the whole of it, and neither does alone. -/
theorem shadowed_exact_halves :
    let whole := lengthOne [] (by decide)
    let P : Policy := ⟨[lengthOne [false] (by decide), lengthOne [true] (by decide), whole], []⟩
    let choices : Nat → Choices := fun _ => ⟨id, fun ks => .refl ks, fun _ _ _ => false⟩
    (lintPolicy (fun _ => false) choices P).map Prod.snd = [none, none, some .shadowed] ∧
      ∀ v p, whole.matches v p = true → ∃ cl' ∈ P.clauses.take 2, cl'.matches v p = true := by
  intro whole P choices
  have hlint : (lintPolicy (fun _ => false) choices P).map Prod.snd =
      [none, none, some .shadowed] := by decide +kernel
  refine ⟨hlint, fun v p hm => ?_⟩
  cases hg : (lintPolicy (fun _ => false) choices P)[2]? with
  | none =>
    have := congrArg (·[2]?) hlint
    simp [hg] at this
  | some r =>
    obtain ⟨cl, rule⟩ := r
    have hrule : rule = some .shadowed := by
      have := congrArg (·[2]?) hlint
      simpa [hg] using this
    obtain ⟨hcl, -, hsound⟩ := shadowed_exact.1 _ _ _ _ _ _ hg
    cases (hcl :)
    exact hsound hrule v p hm

end Rpsl.Consist
