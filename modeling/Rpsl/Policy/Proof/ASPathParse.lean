import Rpsl.Lib.Outcome
import Rpsl.Policy.ASPathParse

/-!
# What the AS-path parser builds

`Built`: the trees `ParseASPathRegexp` returns, one case for each way the parser makes a node. Each
part of the parser is followed once (`parseAlt_built` and the lemmas before it), with the words that
are left as the only state.
-/

namespace Rpsl.Policy

open Lib Text

/-- The quantifiers the parser reads: the operator gives the bounds, or the range in braces. -/
inductive Quantified : RepeatOp → Nat → Option Nat → Bool → Prop
  | star (same : Bool) : Quantified .star 0 none same
  | plus (same : Bool) : Quantified .plus 1 none same
  | quest : Quantified .quest 0 (some 1) false
  | range {lo : Nat} {hi : Option Nat} (same : Bool) (hlo : lo < 2 ^ 63)
    (hhi : ∀ h ∈ hi, lo ≤ h ∧ h < 2 ^ 63) : Quantified .range lo hi same

theorem Quantified.le {op : RepeatOp} {min m : Nat} {max : Option Nat} {same : Bool}
    (h : Quantified op min max same) (hm : m ∈ max) : min ≤ m := by
  cases h with
  | star => cases hm
  | plus => cases hm
  | quest => exact Nat.zero_le m
  | range _ _ hhi => exact (hhi m hm).1

section
variable (P : Text → Prop)

inductive Item : ASPathExpr → Prop
  | any : Item .any
  | range {lo hi : ASN} (h : lo ≤ hi) : Item (.asnRange lo hi)
  | word {w : Text} {e : ASPathExpr} (hw : P w) (h : classifyWord w = .ok e) : Item e

inductive Built : ASPathExpr → Prop
  | alt {alts : List ASPathExpr} (hlen : 2 ≤ alts.length) (h : ∀ e ∈ alts, Built e) :
    Built (.alt alts)
  | seq {terms : List ASPathExpr} (hlen : terms.length ≠ 1) (h : ∀ e ∈ terms, Built e) :
    Built (.seq terms)
  | rep {e : ASPathExpr} {op : RepeatOp} {min : Nat} {max : Option Nat} {same : Bool}
    (h : Built e) (hanchor : e.isAnchor = false) (hq : Quantified op min max same) :
    Built (.rep e op min max same)
  | any : Built .any
  | start : Built .start
  | end_ : Built .end_
  | word {w : Text} {e : ASPathExpr} (hw : P w) (h : classifyWord w = .ok e) : Built e
  | cls {negated : Bool} {items : List ASPathExpr} (hne : items ≠ []) (h : ∀ e ∈ items, Item P e) :
    Built (.cls negated items)

def Words (ts : List ReToken) : Prop := ∀ w, ReToken.word w ∈ ts → P w

end

section
variable {P : Text → Prop} {t : ReToken} {ts : List ReToken}

theorem Words.tail (h : Words P (t :: ts)) : Words P ts := by
  intro w hw
  exact h w (List.mem_cons_of_mem t hw)

theorem Words.head {w : Text} (h : Words P (.word w :: ts)) : P w := h w List.mem_cons_self

def Reads (P : Text → Prop) {α : Type} (p : ReParser α) (Q : α → Prop) : Prop :=
  ∀ ts, Words P ts → Ends (p ts) (fun r => Q r.1 ∧ Words P r.2) fun _ => True

/-! ## Classes -/

theorem asnRange_item {lo hi : Text} {Q : Text → Prop} :
    Ends (asnRange lo hi) (Item Q) fun _ => True := by
  unfold asnRange
  split
  · split_ifs with hlt
    · trivial
    · exact .range (UInt32.not_lt.1 hlt)
  · trivial

theorem classItem_item {w : Text} (hw : P w) : Ends (classItem w) (Item P) fun _ => True := by
  unfold classItem
  dsimp only
  split_ifs
  · exact asnRange_item
  · exact .of_forall (fun e he => .word hw he) fun _ _ => trivial

theorem Reads.cons {e : ASPathExpr} {p : ReParser (List ASPathExpr)} {Q : ASPathExpr → Prop}
    (he : Q e) (hts : Ends (p ts) (fun r => (∀ e ∈ r.1, Q e) ∧ Words P r.2) fun _ => True) :
    Ends (do let (es, rest) ← p ts; .ok (e :: es, rest) : Except ReError _)
      (fun r => (∀ e ∈ r.1, Q e) ∧ Words P r.2) fun _ => True := by
  apply hts.bind
  intro r hr
  exact ⟨List.forall_mem_cons.2 ⟨he, hr.1⟩, hr.2⟩

theorem classItems_reads : Reads P classItems fun es => ∀ e ∈ es, Item P e := by
  intro ts hts
  induction ts using classItems.induct with
  | case1 ts =>
    rw [classItems]
    exact ⟨by simp, hts.tail⟩
  | case2 ts ih =>
    rw [classItems]
    exact Reads.cons .any (ih hts.tail)
  | case3 lo hi ts ih =>
    rw [classItems]
    apply asnRange_item.bind
    intro e he
    exact Reads.cons he (ih hts.tail.tail.tail)
  | case4 w ts hno =>
    rw [classItems]
    · trivial
    · exact hno
  | case5 w ts hno hdash ih =>
    rw [classItems]
    · apply (classItem_item hts.head).bind
      intro e he
      exact Reads.cons he (ih hts.tail)
    · exact hno
    · exact hdash
  | case6 =>
    rw [classItems]
    trivial
  | case7 t ts =>
    rw [classItems]
    · trivial
    all_goals assumption

theorem parseClass_reads (negated : Bool) : Reads P (parseClass negated) (Built P) := by
  intro ts hts
  unfold parseClass
  apply (classItems_reads ts hts).bind
  intro r hr
  dsimp only
  split_ifs with hempty
  · trivial
  · exact ⟨.cls (by simpa using hempty) hr.1, hr.2⟩

/-! ## Quantifiers -/

theorem parseUint_lt {w : Text} {bits n : Nat} (h : parseUint w bits = some n) : n < 2 ^ bits := by
  unfold parseUint at h
  dsimp only at h
  split_ifs at h with _ hlt
  cases h
  exact hlt

theorem quantBound_reads (upper : Bool) : Reads P (quantBound upper) (· < 2 ^ 63) := by
  intro ts hts
  unfold quantBound
  split
  · split
    · rename_i hv
      exact ⟨parseUint_lt hv, hts.tail⟩
    · trivial
  · trivial

theorem upperBound_reads {lo : Nat} (hlo : lo < 2 ^ 63) :
    Reads P (upperBound lo) fun hi => ∀ h ∈ hi, h < 2 ^ 63 := by
  intro ts hts
  unfold upperBound
  split
  · apply (quantBound_reads true _ hts.tail).bind
    intro r hr
    exact ⟨by simpa using hr.1, hr.2⟩
  · exact ⟨by simp, hts.tail⟩
  · exact ⟨by simpa using hlo, hts⟩

theorem parseRange_reads : Reads P parseRange fun r =>
    ∀ same, Quantified .range r.1 r.2 same := by
  intro ts hts
  unfold parseRange
  apply (quantBound_reads false ts hts).bind
  intro lo hlo
  apply (upperBound_reads hlo.1 lo.2 hlo.2).bind
  intro hi hhi
  dsimp only
  split
  · rename_i heq
    rw [heq] at hhi
    split
    · exact ⟨fun same => .range same hlo.1 (by simp), hhi.2.tail⟩
    · rename_i hi' hsome
      rw [hsome] at hhi
      split_ifs with hlt
      · trivial
      · refine ⟨fun same => .range same hlo.1 ?_, hhi.2.tail⟩
        intro h hh
        obtain rfl : hi' = h := Option.some.inj hh
        exact ⟨Nat.not_lt.1 hlt, hhi.1 hi' rfl⟩
  · trivial

theorem quantifier_reads {same : Bool} {ts : List ReToken} (hts : Words P ts)
    (hsame : same = true → ts.head? ≠ some .quest) :
    Ends (quantifier ts) (fun r => (∀ q ∈ r.1, Quantified q.1 q.2.1 q.2.2 same) ∧ Words P r.2)
      fun _ => True := by
  unfold quantifier
  split
  · exact ⟨by simpa using .star same, hts.tail⟩
  · exact ⟨by simpa using .plus same, hts.tail⟩
  · cases same with
    | true => exact absurd rfl (hsame rfl)
    | false => exact ⟨by simpa using .quest, hts.tail⟩
  · apply (parseRange_reads _ hts.tail).bind
    intro r hr
    exact ⟨by simpa using hr.1 same, hr.2⟩
  · exact ⟨by simp, hts⟩

theorem sameMark_reads {ts : List ReToken} (hts : Words P ts) :
    Ends (sameMark ts) (fun r => (r.1 = true → r.2.head? ≠ some .quest) ∧ Words P r.2)
      fun _ => True := by
  unfold sameMark
  split
  · split
    case h_4 => trivial
    all_goals
      rename_i heq
      exact ⟨by simp [heq], hts.tail⟩
  · exact ⟨by simp, hts⟩

theorem quantify_reads (n : Nat) {atom : ASPathExpr} (hatom : Built P atom) :
    Reads P (quantify n atom) (Built P) := by
  induction n generalizing atom with
  | zero => exact fun _ _ => trivial
  | succ n ih =>
    intro ts hts
    rw [quantify]
    apply (sameMark_reads hts).bind
    intro m hm
    apply (quantifier_reads hm.2 hm.1).bind
    intro q hq
    dsimp only
    split
    · exact ⟨hatom, hq.2⟩
    · rename_i op min max hsome
      split_ifs with hanchor
      · trivial
      · have hbuilt := hatom.rep (Bool.eq_false_iff.2 hanchor) (hq.1 _ hsome)
        exact ih hbuilt _ hq.2

/-! ## Terms, sequences, alternations -/

section
variable {inner : ReParser ASPathExpr}

theorem parseAtom_reads (hinner : Reads P inner (Built P)) :
    Reads P (parseAtom inner) (Built P) := by
  intro ts hts
  unfold parseAtom
  split
  · apply (hinner _ hts.tail).bind
    intro r hr
    dsimp only
    split
    · rename_i heq
      rw [heq] at hr
      exact ⟨hr.1, hr.2.tail⟩
    · trivial
  · exact parseClass_reads true _ hts.tail.tail
  · exact parseClass_reads false _ hts.tail
  · exact ⟨.any, hts.tail⟩
  · exact ⟨.start, hts.tail⟩
  · exact ⟨.end_, hts.tail⟩
  · rename_i w ts'
    have hword : Ends (classifyWord w) (Built P) fun _ => True :=
      .of_forall (fun e he => .word hts.head he) fun _ _ => trivial
    apply hword.bind
    intro e he
    exact ⟨he, hts.tail⟩
  · trivial

theorem parseTerm_reads (depth : Nat) (hinner : Reads P inner (Built P)) :
    Reads P (parseTerm depth inner) (Built P) := by
  intro ts hts
  unfold parseTerm
  apply (parseAtom_reads hinner ts hts).bind
  intro r hr
  exact quantify_reads (depth + 1) hr.1 r.2 hr.2

end

section
variable {p : ReParser ASPathExpr}

theorem parseTerms_reads (hp : Reads P p (Built P)) (n : Nat) :
    Reads P (parseTerms p n) fun es => ∀ e ∈ es, Built P e := by
  induction n with
  | zero => exact fun ts hts => ⟨by simp, hts⟩
  | succ n ih =>
    intro ts hts
    rw [parseTerms]
    split_ifs
    · apply (hp ts hts).bind
      intro r hr
      exact Reads.cons hr.1 (ih r.2 hr.2)
    · exact ⟨by simp, hts⟩

theorem built_ofTerms {es : List ASPathExpr} (h : ∀ e ∈ es, Built P e) :
    Built P (.ofTerms es) := by
  unfold ASPathExpr.ofTerms
  split
  · exact h _ List.mem_cons_self
  · rename_i hone
    refine .seq ?_ h
    intro hlen
    obtain ⟨e, rfl⟩ := List.length_eq_one_iff.1 hlen
    exact hone e rfl

theorem parseSeq_reads (hp : Reads P p (Built P)) : Reads P (parseSeq p) (Built P) := by
  intro ts hts
  unfold parseSeq
  apply (parseTerms_reads hp ts.length ts hts).bind
  intro r hr
  exact ⟨built_ofTerms hr.1, hr.2⟩

theorem parseAlts_reads (hp : Reads P p (Built P)) (n : Nat) :
    Reads P (parseAlts p n) fun es => ∀ e ∈ es, Built P e := by
  induction n with
  | zero => exact fun ts hts => ⟨by simp, hts⟩
  | succ n ih =>
    intro ts hts
    unfold parseAlts
    split
    · rename_i heq
      cases heq
      apply (hp _ hts.tail).bind
      intro r hr
      exact Reads.cons hr.1 (ih r.2 hr.2)
    · exact ⟨by simp, hts⟩

theorem built_ofAlts {e : ASPathExpr} {es : List ASPathExpr} (he : Built P e)
    (h : ∀ e ∈ es, Built P e) : Built P (.ofAlts e es) := by
  cases es with
  | nil => exact he
  | cons e' es => exact .alt (by simp) (List.forall_mem_cons.2 ⟨he, h⟩)

end

theorem parseAlt_reads (depth : Nat) : Reads P (parseAlt depth) (Built P) := by
  induction depth with
  | zero => exact fun _ _ => trivial
  | succ depth ih =>
    intro ts hts
    have hseq := parseSeq_reads (parseTerm_reads depth ih)
    rw [parseAlt]
    apply (hseq ts hts).bind
    intro r hr
    apply (parseAlts_reads hseq _ r.2 hr.2).bind
    intro r' hr'
    exact ⟨built_ofAlts hr.1 hr'.1, hr'.2⟩

end

theorem built_of_parse {P : Text → Prop} {body : Text} {re : ASPathRE}
    (hwords : ∀ ts, reScan maxTokens body = .ok ts → Words P ts)
    (h : parseASPathRegexp body = .ok re) : Built P re.body := by
  unfold parseASPathRegexp at h
  obtain ⟨ts, hts, h⟩ := bind_eq_ok.1 h
  split_ifs at h
  obtain ⟨r, hr, h⟩ := bind_eq_ok.1 h
  dsimp only at h
  split at h
  · cases h
    exact ((parseAlt_reads maxParseDepth ts (hwords ts hts)).of_ok hr).1
  · cases h

end Rpsl.Policy
