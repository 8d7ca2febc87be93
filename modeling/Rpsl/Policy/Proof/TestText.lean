import Rpsl.Lib.PrefixFree
import Rpsl.Policy.Filter

/-!
# Texts of tests

The parts of a conjunct are compared, and joined into keys, as text. No part's text begins
another's: a path test ends at its first '>', a community test where its parenthesis or brace
closes, a prefix list at its first '}'. So a joined text is read back in one way, whatever bytes
the values of a community test hold.
-/

namespace Rpsl.Policy

open Text

/-! ## Path tests -/

theorem not_mem_ofNat {c : Char} (h : ¬ c.isDigit) (n : Nat) : c ∉ ofNat n := fun hc =>
  h (Nat.isDigit_of_mem_toDigits (by decide) (by decide) hc)

theorem gt_not_mem_asn (a : ASN) : '>' ∉ a.text := by
  rw [ASN.text, List.mem_append, not_or]
  exact ⟨by decide, not_mem_ofNat (by decide) _⟩

theorem gt_not_mem_setName (n : SetName) : '>' ∉ n.text := fun h =>
  absurd (n.chars _ h) (by decide)

theorem not_mem_reParen {c : Char} {s : Text} (h : c ∉ s) (ho : c ≠ '(') (hc : c ≠ ')')
    (prec want : Nat) : c ∉ ASPathExpr.reParen s prec want := by
  unfold ASPathExpr.reParen
  split <;> simp [h, ho, hc]

theorem gt_not_mem_repeatString (op : RepeatOp) (min : Nat) (max : Option Nat) (same : Bool) :
    '>' ∉ ASPathExpr.repeatString op min max same := by
  have hn := fun n => not_mem_ofNat (c := '>') (by decide) n
  unfold ASPathExpr.repeatString
  cases op <;> cases max <;> cases same <;> simp [hn] <;> split <;> simp [hn]

theorem gt_not_mem_intercalate {sep : Text} {ts : List Text} (hs : '>' ∉ sep)
    (h : ∀ t ∈ ts, '>' ∉ t) : '>' ∉ sep.intercalate ts := by
  intro hm
  rcases Lib.mem_intercalate hm with hm | ⟨t, ht, hm⟩
  · exact hs hm
  · exact h t ht hm

mutual

theorem gt_not_mem_reString : ∀ (e : ASPathExpr) (want : Nat), '>' ∉ e.reString want
  | .alt alts, want => by
    rw [ASPathExpr.reString]
    exact not_mem_reParen (gt_not_mem_intercalate (by decide) (gt_not_mem_reStrings alts _))
      (by decide) (by decide) _ _
  | .seq [], _ => by rw [ASPathExpr.reString]; decide
  | .seq (t :: ts), want => by
    rw [ASPathExpr.reString]
    exact not_mem_reParen (gt_not_mem_intercalate (by decide) (gt_not_mem_reStrings (t :: ts) _))
      (by decide) (by decide) _ _
  | .rep inner op min max same, _ => by
    rw [ASPathExpr.reString, List.mem_append, not_or]
    exact ⟨gt_not_mem_reString inner _, gt_not_mem_repeatString op min max same⟩
  | .any, _ => by rw [ASPathExpr.reString]; decide
  | .asn a, _ => by rw [ASPathExpr.reString]; exact gt_not_mem_asn a
  | .set name, _ => by rw [ASPathExpr.reString]; exact gt_not_mem_setName name
  | .template t, _ => by
    rw [ASPathExpr.reString]
    exact fun h => absurd (t.spelling h) (by decide)
  | .peerAS, _ => by rw [ASPathExpr.reString]; decide
  | .start, _ => by rw [ASPathExpr.reString]; decide
  | .end_, _ => by rw [ASPathExpr.reString]; decide
  | .cls negated items, _ => by
    have h : '>' ∉ [' '].intercalate (ASPathExpr.reStrings items ASPathExpr.precAtom) :=
      gt_not_mem_intercalate (by decide) (gt_not_mem_reStrings items _)
    rw [ASPathExpr.reString]
    cases negated <;> simp [h]
  | .asnRange lo hi, _ => by
    rw [ASPathExpr.reString, List.mem_append, List.mem_append]
    simp only [gt_not_mem_asn, or_false, false_or]
    decide

theorem gt_not_mem_reStrings : ∀ (es : List ASPathExpr) (want : Nat),
    ∀ t ∈ ASPathExpr.reStrings es want, '>' ∉ t
  | [], _ => by simp [ASPathExpr.reStrings]
  | e :: es, want => by
    rw [ASPathExpr.reStrings]
    exact List.forall_mem_cons.2 ⟨gt_not_mem_reString e want, gt_not_mem_reStrings es want⟩

end

theorem ASPathRE.gt_not_mem_text (r : ASPathRE) : '>' ∉ r.text := gt_not_mem_reString r.body _

/-! ## Community tests -/

theorem relOp_append {s t : Text} (h : s ≠ []) (h' : s ≠ ['<']) : relOp (s ++ t) = relOp s := by
  match s with
  | [] => exact absurd rfl h
  | [c] =>
    have hc : ('<' == c) = false := by
      rw [beq_eq_false_iff_ne]
      intro hc
      exact h' (by rw [hc])
    simp [relOp, List.isPrefixOf, hc]
  | c :: b :: s => simp [relOp, List.isPrefixOf]

theorem closes_append {r : Bool} {d : Nat} {s t : Text} (h : closes r d s)
    (h' : closes r d (s ++ t)) : t = [] := by
  induction s generalizing r d with
  | nil => simp [closes] at h
  | cons c s ih =>
    rw [List.cons_append] at h'
    simp only [closes] at h h'
    split_ifs at h h' with hr ho hc hd
    · exact ih h h'
    · exact ih h h'
    · exact (List.append_eq_nil_iff.1 (List.isEmpty_iff.1 h')).2
    · exact ih h h'
    · -- the lexer looks past '<' for an operator; a text that closes holds what it looks at
      have hs : s ≠ [] := by
        intro e
        simp [e, closes] at h
      have hs' : s ≠ ['<'] := by
        intro e
        simp [e, closes] at h
      rw [relOp_append hs hs'] at h'
      exact ih h h'

theorem closes_inj {x y s t : Text} (hx : closes false 1 x) (hy : closes false 1 y)
    (e : x ++ s = y ++ t) : x = y := by
  rcases List.append_eq_append_iff.1 e with ⟨u, rfl, -⟩ | ⟨u, rfl, -⟩
  · rw [closes_append hx hy, List.append_nil]
  · rw [closes_append hy hx, List.append_nil]

/-! ## The code -/

inductive PartKind
  | path
  | contains
  | equals
  | ranges
  | any
deriving DecidableEq

namespace PartKind

def kinds : List PartKind := [path, contains, equals, ranges, any]

theorem mem_kinds (k : PartKind) : k ∈ kinds := by cases k <;> decide

def tag : PartKind → Text
  | path => ['<']
  | contains => lit "community("
  | equals => lit "community == \x7b"
  | ranges => ['{']
  | any => lit "ANY"

def Ends : PartKind → Text → Prop
  | path, x => ∃ y, '>' ∉ y ∧ x = y ++ ['>']
  | contains, x => closes false 1 x
  | equals, x | ranges, x => ∃ y, '}' ∉ y ∧ x = y ++ ['}']
  | any, x => x = []

theorem mark_inj {m : Char} {x y s t : Text} (hx : ∃ u, m ∉ u ∧ x = u ++ [m])
    (hy : ∃ u, m ∉ u ∧ y = u ++ [m]) (e : x ++ s = y ++ t) : x = y := by
  obtain ⟨u, hu, rfl⟩ := hx
  obtain ⟨v, hv, rfl⟩ := hy
  rw [List.append_assoc, List.append_assoc] at e
  rw [Lib.append_mark_inj hu hv e]

theorem Ends.inj {k : PartKind} {x y s t : Text} (hx : k.Ends x) (hy : k.Ends y)
    (e : x ++ s = y ++ t) : x = y := by
  cases k with
  | path => exact mark_inj hx hy e
  | contains => exact closes_inj hx hy e
  | equals => exact mark_inj hx hy e
  | ranges => exact mark_inj hx hy e
  | any => exact hx.trans hy.symm

end PartKind

def IsPart (t : Text) : Prop :=
  ∃ (negated : Bool) (k : PartKind) (x : Text), k.Ends x ∧ t = notIf negated (k.tag ++ x)

theorem notIf_append (negated : Bool) (s t : Text) :
    notIf negated (s ++ t) = notIf negated s ++ t := by cases negated <;> simp [notIf]

theorem tag_ne_nil (n : Bool) (k : PartKind) : notIf n k.tag ≠ [] := by
  have all : ∀ n : Bool, ∀ k ∈ PartKind.kinds, notIf n k.tag ≠ [] := by decide +kernel
  exact all n k k.mem_kinds

theorem tag_inj (n m : Bool) (k l : PartKind) :
    (notIf n k.tag).isPrefixOf (notIf m l.tag) → n = m ∧ k = l := by
  have all : ∀ n m : Bool, ∀ k ∈ PartKind.kinds, ∀ l ∈ PartKind.kinds,
      (notIf n k.tag).isPrefixOf (notIf m l.tag) → n = m ∧ k = l := by decide +kernel
  exact all n m k k.mem_kinds l l.mem_kinds

/-- **No part's text begins another's.** -/
theorem isPart_prefixFree : Lib.PrefixFree IsPart := by
  refine ⟨?_, ?_⟩
  · intro t ⟨n, k, x, _, ht⟩ h
    rw [ht, notIf_append] at h
    exact tag_ne_nil n k (List.append_eq_nil_iff.1 h).1
  · intro t u v w ⟨n, k, x, hx, ht⟩ ⟨m, l, y, hy, hu⟩ e
    have e' : notIf n k.tag ++ (x ++ v) = notIf m l.tag ++ (y ++ w) := by
      simpa [ht, hu, notIf_append] using e
    have htag : n = m ∧ k = l := by
      rcases List.append_eq_append_iff.1 e' with ⟨z, h, -⟩ | ⟨z, h, -⟩
      · exact tag_inj n m k l (List.isPrefixOf_iff_prefix.2 ⟨z, h.symm⟩)
      · exact (tag_inj m n l k (List.isPrefixOf_iff_prefix.2 ⟨z, h.symm⟩)).imp Eq.symm Eq.symm
    obtain ⟨rfl, rfl⟩ := htag
    rw [ht, hu, hx.inj hy (List.append_cancel_left e')]

theorem isPart_path (negated : Bool) (r : ASPathRE) :
    IsPart (notIf negated ('<' :: r.text ++ ['>'])) :=
  ⟨negated, .path, r.text ++ ['>'], ⟨r.text, r.gt_not_mem_text, rfl⟩, rfl⟩

theorem isPart_community (negated : Bool) (c : FilterCommunity) :
    IsPart (notIf negated c.text) := by
  obtain ⟨op, values, raw, closed⟩ := c
  cases op with
  | contains =>
    exact ⟨negated, .contains, communityBody values ++ [')'], closed,
      by rw [FilterCommunity.text, List.append_assoc]; rfl⟩
  | equals =>
    exact ⟨negated, .equals, communityBody values ++ ['}'], ⟨_, closed, rfl⟩,
      by rw [FilterCommunity.text, List.append_assoc]; rfl⟩

end Rpsl.Policy
