import Rpsl.Consist.PathAll
import Rpsl.Policy.Proof.ASPathParse
import Rpsl.Resolve.Proof.PathMeaning

/-!
# A test said to match every path does

`nullable` and `onesAll` read the bounds of a repeat, not its operator, and look into classes; they
are right about trees in which the two agree and classes hold single ASes (`Shaped`). What the
parser builds is such a tree, and stays one when it is bound to a peer.
-/

namespace Rpsl.Consist

open Lib Policy Resolve

def Single : ASPathExpr → Prop
  | .any | .asn _ | .set _ | .template _ | .peerAS | .asnRange _ _ => True
  | _ => False

/-- Trees whose repeats have the bounds of their operator, with classes of single ASes. -/
inductive Shaped : ASPathExpr → Prop
  | alt {alts : List ASPathExpr} (h : ∀ e ∈ alts, Shaped e) : Shaped (.alt alts)
  | seq {terms : List ASPathExpr} (h : ∀ e ∈ terms, Shaped e) : Shaped (.seq terms)
  | rep {e : ASPathExpr} {op : RepeatOp} {min : Nat} {max : Option Nat} {same : Bool}
    (h : Shaped e) (hq : Quantified op min max same) : Shaped (.rep e op min max same)
  | start : Shaped .start
  | end_ : Shaped .end_
  | single {e : ASPathExpr} (h : Single e) : Shaped e
  | cls {negated : Bool} {items : List ASPathExpr} (h : ∀ e ∈ items, Single e) :
    Shaped (.cls negated items)

/-! ## What the parser builds -/

variable {e : ASPathExpr}

theorem single_of_classifyWord {w : Text} (h : classifyWord w = .ok e) :
    Single e := by
  unfold classifyWord at h
  split at h
  · cases h
    trivial
  · split_ifs at h
    · cases h
      trivial
    · split at h
      · split_ifs at h
        cases h
        trivial
      · split at h
        · split_ifs at h
          cases h
          trivial
        · cases h

theorem single_of_item {P : Text → Prop} (h : Item P e) : Single e := by
  cases h with
  | any => trivial
  | range => trivial
  | word _ h => exact single_of_classifyWord h

theorem shaped_of_built {P : Text → Prop} (h : Built P e) : Shaped e := by
  induction h with
  | alt _ _ ih => exact .alt ih
  | seq _ _ ih => exact .seq ih
  | rep _ _ hq ih => exact .rep ih hq
  | any => exact .single trivial
  | start => exact .start
  | end_ => exact .end_
  | word _ h => exact .single (single_of_classifyWord h)
  | cls _ h => exact .cls fun e he => single_of_item (h e he)

theorem bindREs_eq_map (peer : ASN) (es : List ASPathExpr) :
    ASPathExpr.bindREs peer es = es.map (ASPathExpr.bindRE peer) := by
  induction es with
  | nil => rfl
  | cons e es ih => rw [ASPathExpr.bindREs, ih, List.map_cons]

theorem Single.bindRE (h : Single e) (peer : ASN) : Single (e.bindRE peer) := by
  cases e <;> exact h

theorem Shaped.bindRE (h : Shaped e) (peer : ASN) : Shaped (e.bindRE peer) := by
  induction h with
  | alt _ ih =>
    rw [ASPathExpr.bindRE, bindREs_eq_map]
    exact .alt (List.forall_mem_map.2 ih)
  | seq _ ih =>
    rw [ASPathExpr.bindRE, bindREs_eq_map]
    exact .seq (List.forall_mem_map.2 ih)
  | rep _ hq ih => exact .rep ih hq
  | start => exact .start
  | end_ => exact .end_
  | single h => exact .single (h.bindRE peer)
  | cls h =>
    rw [ASPathExpr.bindRE, bindREs_eq_map]
    exact .cls (List.forall_mem_map.2 fun e he => (h e he).bindRE peer)

theorem Shaped.bind {re : ASPathRE} (h : Shaped re.body) (peer : ASN) :
    Shaped (re.bind peer).body := by
  unfold ASPathRE.bind
  split_ifs
  · exact h
  · exact h.bindRE peer

/-! ## The empty match -/

theorem anyNullable_iff {es : List ASPathExpr} :
    anyNullable es = true ↔ ∃ e ∈ es, nullable e = true := by
  induction es with
  | nil => simp [anyNullable]
  | cons e es ih => simp [anyNullable, ih]

theorem allNullable_iff {es : List ASPathExpr} :
    allNullable es = true ↔ ∀ e ∈ es, nullable e = true := by
  induction es with
  | nil => simp [allNullable]
  | cons e es ih => simp [allNullable, ih]

section
variable {sets : List (SetName × ASNSet)}

theorem counts_of_quantified {op : RepeatOp} {min n : Nat} {max : Option Nat} {same : Bool}
    (h : Quantified op min max same) (hmin : min ≤ n) (hmax : ∀ m ∈ max, n ≤ m) :
    ASPathExpr.Counts op min max n := by
  cases h with
  | star => trivial
  | plus => exact hmin
  | quest => exact hmax 1 rfl
  | range => exact ⟨hmin, hmax⟩

theorem iter_self {α : Type*} {R : α → α → Prop} {x : α} (h : R x x) (n : Nat) : Iter R n x x := by
  induction n with
  | zero => rfl
  | succ n ih => exact ⟨x, h, ih⟩

theorem sameAS_self (x : Place ASN) : ASPathExpr.SameAS x x := ⟨0, 0, rfl⟩

theorem matchSeq_self {es : List ASPathExpr} {x : Place ASN} (h : ∀ e ∈ es, e.Match sets x x) :
    ASPathExpr.MatchSeq sets es x x := by
  induction es with
  | nil => rw [ASPathExpr.MatchSeq]
  | cons e es ih =>
    rw [ASPathExpr.MatchSeq]
    exact ⟨x, h e List.mem_cons_self, ih fun e' he' => h e' (List.mem_cons_of_mem e he')⟩

theorem nullable_match (hs : Shaped e) (h : nullable e = true) (x : Place ASN) :
    e.Match sets x x := by
  induction hs with
  | alt _ ih =>
    rw [nullable, anyNullable_iff] at h
    obtain ⟨e, he, h⟩ := h
    rw [ASPathExpr.Match, ASPathExpr.matchAny_iff]
    exact ⟨e, he, ih e he h⟩
  | seq _ ih =>
    rw [nullable, allNullable_iff] at h
    rw [ASPathExpr.Match]
    exact matchSeq_self fun e he => ih e he (h e he)
  | @rep e op min max same _ hq ih =>
    rw [nullable, Bool.or_eq_true, beq_iff_eq] at h
    rw [ASPathExpr.Match]
    refine ⟨min, counts_of_quantified hq (Nat.le_refl _) fun m hm => hq.le hm, ?_,
      fun _ => sameAS_self x⟩
    rcases h with rfl | h
    · rfl
    · exact iter_self (ih h) min
  | start => cases h
  | end_ => cases h
  | @single e he => cases e <;> first | cases h | exact he.elim
  | cls => cases h

/-! ## One AS -/

theorem onesEach_eq_map (es : List ASPathExpr) : onesEach sets es = es.map (onesAll sets) := by
  induction es with
  | nil => rfl
  | cons e es ih => rw [onesEach, ih, List.map_cons]

theorem onesEach_any {es : List ASPathExpr} :
    (onesEach sets es).any id = true ↔ ∃ e ∈ es, onesAll sets e = true := by
  rw [onesEach_eq_map]
  simp

theorem oneAmong_split {α : Type*} {one null : α → Bool} {es : List α}
    (h : oneAmong (es.map one) (es.map null) = true) :
    ∃ pre e post, es = pre ++ e :: post ∧ one e = true ∧
      (∀ d ∈ pre, null d = true) ∧ ∀ d ∈ post, null d = true := by
  simp only [oneAmong, List.any_eq_true, List.all_eq_true, Bool.and_eq_true, Bool.or_eq_true,
    beq_iff_eq] at h
  obtain ⟨⟨b, i⟩, hi, hb, hnull⟩ := h
  rw [List.mem_zipIdx_iff_getElem?, List.getElem?_map, Option.map_eq_some_iff] at hi
  obtain ⟨e, he, rfl⟩ := hi
  have hothers : ∀ (j : Nat) (d : α), es[j]? = some d → j ≠ i → null d = true := by
    intro j d hd hj
    have hmem : (null d, j) ∈ (es.map null).zipIdx := by
      rw [List.mem_zipIdx_iff_getElem?, List.getElem?_map, hd]
      rfl
    exact (hnull _ hmem).resolve_left hj
  obtain ⟨hlt, hget⟩ := List.getElem?_eq_some_iff.1 he
  refine ⟨es.take i, e, es.drop (i + 1), ?_, hb, fun d hd => ?_, fun d hd => ?_⟩
  · rw [← hget, List.getElem_cons_drop, List.take_append_drop]
  · obtain ⟨j, hj⟩ := List.mem_iff_getElem?.1 hd
    rw [List.getElem?_take] at hj
    split_ifs at hj with hji
    exact hothers j d hj (Nat.ne_of_lt hji)
  · obtain ⟨j, hj⟩ := List.mem_iff_getElem?.1 hd
    rw [List.getElem?_drop] at hj
    exact hothers _ d hj (by omega)

variable {y : Place ASN}

theorem matchSeq_append {es es' : List ASPathExpr} {x z : Place ASN}
    (h : ASPathExpr.MatchSeq sets es x z) (h' : ASPathExpr.MatchSeq sets es' z y) :
    ASPathExpr.MatchSeq sets (es ++ es') x y := by
  induction es generalizing x with
  | nil =>
    rw [ASPathExpr.MatchSeq] at h
    exact h ▸ h'
  | cons e es ih =>
    rw [ASPathExpr.MatchSeq] at h
    obtain ⟨w, hw, h⟩ := h
    rw [List.cons_append, ASPathExpr.MatchSeq]
    exact ⟨w, hw, ih h⟩

variable {a : ASN}

theorem sameAS_step {x : Place ASN} (h : Place.Step a x y) :
    ASPathExpr.SameAS x y := ⟨a, 1, h.1⟩

theorem has_of_onesAll (hs : Single e) (h : onesAll sets e = true) (a : ASN) :
    e.Has sets a := by
  cases e with
  | any => trivial
  | set n =>
    rw [onesAll, Bool.or_eq_true] at h
    rw [ASPathExpr.Has]
    apply h.imp_right
    intro h
    unfold Resolve.setOf ASNSet.has
    cases hn : sets.lookup n with
    | none => simp [hn] at h
    | some s =>
      rw [hn] at h
      simp [show s.any = true from h]
  | alt => exact hs.elim
  | seq => exact hs.elim
  | rep => exact hs.elim
  | start => exact hs.elim
  | end_ => exact hs.elim
  | cls => exact hs.elim
  | _ => cases h

theorem hasAny_iff {es : List ASPathExpr} :
    ASPathExpr.HasAny sets es a ↔ ∃ e ∈ es, e.Has sets a := by
  induction es with
  | nil => simp [ASPathExpr.HasAny]
  | cons e es ih => rw [ASPathExpr.HasAny, ih, List.exists_mem_cons_iff]

theorem onesAll_match (hs : Shaped e) (h : onesAll sets e = true)
    {x : Place ASN} (hstep : Place.Step a x y) : e.Match sets x y := by
  induction hs with
  | alt _ ih =>
    rw [onesAll, onesEach_any] at h
    obtain ⟨e, he, h⟩ := h
    rw [ASPathExpr.Match, ASPathExpr.matchAny_iff]
    exact ⟨e, he, ih e he h⟩
  | @seq terms hterms ih =>
    rw [onesAll, onesEach_eq_map] at h
    obtain ⟨pre, e, post, rfl, he, hpre, hpost⟩ := oneAmong_split h
    have hmem : e ∈ pre ++ e :: post := by simp
    rw [ASPathExpr.Match]
    apply matchSeq_append (z := x)
    · apply matchSeq_self
      intro d hd
      exact nullable_match (hterms d (by simp [hd])) (hpre d hd) x
    · rw [ASPathExpr.MatchSeq]
      refine ⟨y, ih e hmem he, matchSeq_self ?_⟩
      intro d hd
      exact nullable_match (hterms d (by simp [hd])) (hpost d hd) y
  | @rep e op min max same _ hq ih =>
    simp only [onesAll, Bool.and_eq_true, decide_eq_true_eq] at h
    obtain ⟨⟨hmin, hmax⟩, h⟩ := h
    rw [ASPathExpr.Match]
    refine ⟨1, counts_of_quantified hq hmin ?_, iter_one.2 (ih h), fun _ => sameAS_step hstep⟩
    intro m hm
    rw [Option.mem_def.1 hm] at hmax
    exact of_decide_eq_true hmax
  | start => cases h
  | end_ => cases h
  | @single e he =>
    have hhas := has_of_onesAll he h a
    cases e <;> first | exact ⟨a, hhas, hstep⟩ | exact he.elim
  | @cls negated items hitems =>
    rw [onesAll, Bool.and_eq_true, onesEach_any] at h
    obtain ⟨hneg, e, he, h⟩ := h
    rw [Bool.not_eq_true'] at hneg
    subst hneg
    refine ⟨a, ?_, hstep⟩
    rw [ASPathExpr.Has, hasAny_iff]
    exact ⟨e, he, has_of_onesAll (hitems e he) h a⟩

/-! ## Every path -/

theorem match_ofTerms {es : List ASPathExpr} {x : Place ASN} :
    (ASPathExpr.ofTerms es).Match sets x y ↔ ASPathExpr.MatchSeq sets es x y := by
  unfold ASPathExpr.ofTerms
  split
  · exact ASPathExpr.matchSeq_singleton.symm
  · rw [ASPathExpr.Match]

theorem shaped_ofTerms {es : List ASPathExpr} (h : ∀ e ∈ es, Shaped e) :
    Shaped (.ofTerms es) := by
  unfold ASPathExpr.ofTerms
  split
  · exact h _ List.mem_cons_self
  · exact .seq h

theorem shaped_termsOf (h : Shaped e) : ∀ t ∈ e.termsOf, Shaped t := by
  unfold ASPathExpr.termsOf
  split
  · cases h with
    | seq h => exact h
    | single h => exact h.elim
  · exact List.forall_mem_singleton.2 h

theorem mem_stripStart {es : List ASPathExpr}
    (h : e ∈ (ASPathExpr.stripStart es).1) : e ∈ es := by
  unfold ASPathExpr.stripStart at h
  split at h
  · exact List.mem_cons_of_mem _ h
  · exact h

theorem mem_stripEnd {es : List ASPathExpr}
    (h : e ∈ (ASPathExpr.stripEnd es).1) : e ∈ es := by
  unfold ASPathExpr.stripEnd at h
  split at h
  · exact List.mem_of_mem_dropLast h
  · exact h

variable {path : List ASN}

theorem exists_window (hs : Shaped e)
    (h : nullable e = true ∨ onesAll sets e = true) {left right : Bool}
    (hone : ¬ (left = true ∧ right = true)) (hpath : path ≠ []) :
    ∃ x y : Place ASN, x.1 ++ x.2 = path ∧ (left = true → x.1 = []) ∧ (right = true → y.2 = []) ∧
      e.Match sets x y := by
  cases right with
  | false =>
    obtain ⟨a, as, rfl⟩ := List.exists_cons_of_ne_nil hpath
    rcases h with h | h
    · exact ⟨([], a :: as), ([], a :: as), rfl, fun _ => rfl, by simp, nullable_match hs h _⟩
    · exact ⟨([], a :: as), ([a], as), rfl, fun _ => rfl, by simp, onesAll_match hs h ⟨rfl, rfl⟩⟩
  | true =>
    have hleft : left = true → False := fun hl => hone ⟨hl, rfl⟩
    rcases h with h | h
    · exact ⟨(path, []), (path, []), by simp, fun hl => (hleft hl).elim, fun _ => rfl,
        nullable_match hs h _⟩
    · refine ⟨(path.dropLast, [path.getLast hpath]), (path, []),
        List.dropLast_append_getLast hpath, fun hl => (hleft hl).elim, fun _ => rfl,
        onesAll_match hs h ⟨rfl, ?_⟩⟩
      exact (List.dropLast_append_getLast hpath).symm

theorem everyPath_found (hs : Shaped e) (h : everyPath sets e = true)
    (hpath : path ≠ []) :
    ∃ x y : Place ASN, x.1 ++ x.2 = path ∧ e.Match sets x y := by
  unfold everyPath at h
  dsimp only at h
  split_ifs at h with hboth hanchor
  rw [Bool.or_eq_true] at h
  rw [Bool.and_eq_true] at hboth
  have hrest : Shaped (.ofTerms (ASPathExpr.stripEnd (ASPathExpr.stripStart e.termsOf).1).1) :=
    shaped_ofTerms fun t ht => shaped_termsOf hs t (mem_stripStart (mem_stripEnd ht))
  obtain ⟨x, y, hxy, hleft, hright, hmatch⟩ := exists_window hrest h hboth hpath
  rw [match_ofTerms] at hmatch
  refine ⟨x, y, hxy, ?_⟩
  rw [ASPathExpr.match_termsOf, ASPathExpr.match_stripStart, ASPathExpr.match_stripEnd]
  exact ⟨hleft, hright, hmatch⟩

/-- **A test that `rejectsEveryPath` reports matches every non-empty path**: of every regexp that is
parsed, bound to any peer and to any sets. -/
theorem rejectsEveryPath_found {body : Text} {re : ASPathRE}
    (hre : parseASPathRegexp body = .ok re) (peer : ASN) (negated : Bool)
    (h : rejectsEveryPath ⟨negated, re.bind peer, sets⟩ = true)
    (hpath : path ≠ []) : PathMatch.Found ⟨negated, re.bind peer, sets⟩ path := by
  have hs : Shaped (re.bind peer).body :=
    (shaped_of_built (built_of_parse (P := fun _ => True) (fun _ _ _ _ => trivial) hre)).bind peer
  show ∃ x y : Place ASN, x.1 ++ x.2 = path ∧ (re.bind peer).body.Match sets x y
  unfold rejectsEveryPath at h
  dsimp only at h
  generalize (re.bind peer).body = e at hs h ⊢
  split at h
  · rename_i alts
    cases hs with
    | single h => exact h.elim
    | alt halts =>
      obtain ⟨b, hb, h⟩ := List.any_eq_true.1 h
      obtain ⟨x, y, hxy, hmatch⟩ := everyPath_found (halts b hb) h hpath
      refine ⟨x, y, hxy, ?_⟩
      rw [ASPathExpr.Match, ASPathExpr.matchAny_iff]
      exact ⟨b, hb, hmatch⟩
  · exact everyPath_found hs h hpath

/-- An as-set that reaches AS-ANY. -/
def anySets : List (SetName × ASNSet) :=
  [((SetName.parse (Text.lit "AS-R")).getD SetName.zero, ⟨[], [], true⟩)]

/-- "^AS-R AS1*" matches the path AS2 AS1, with every AS in AS-R. -/
theorem rejectsEveryPath_found_any : ∃ re, parseASPathRegexp (Text.lit "^AS-R AS1*") = .ok re ∧
    rejectsEveryPath ⟨true, re.bind 0, anySets⟩ = true ∧
    PathMatch.Found ⟨true, re.bind 0, anySets⟩ [2, 1] := by
  have hall : (parseASPathRegexp (Text.lit "^AS-R AS1*")).toOption.any
      (fun re => rejectsEveryPath ⟨true, re.bind 0, anySets⟩) = true := by decide +kernel
  cases hre : parseASPathRegexp (Text.lit "^AS-R AS1*") with
  | error e =>
    rw [hre] at hall
    cases hall
  | ok re =>
    rw [hre] at hall
    exact ⟨re, rfl, hall, rejectsEveryPath_found hre 0 true hall (by simp)⟩

end

end Rpsl.Consist
