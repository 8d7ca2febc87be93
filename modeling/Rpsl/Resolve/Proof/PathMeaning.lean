import Rpsl.Policy.Proof.ASPathParse
import Rpsl.Resolve.PathMeaning

/-!
# Matching part by part

What an alternation and a sequence match, and a sequence without the anchors at its ends: "^" and
"$" only say where the match of the other terms begins and ends. What the parser returns is
`Parsed` (`parsed_of_parse`).
-/

namespace Rpsl.Policy.ASPathExpr

open Lib Resolve

variable {sets : List (SetName × ASNSet)} {x y : Place ASN}

variable {es : List ASPathExpr}

theorem matchAny_iff :
    MatchAny sets es x y ↔ ∃ e ∈ es, e.Match sets x y := by
  induction es with
  | nil => simp [MatchAny]
  | cons e es ih => rw [MatchAny, ih, List.exists_mem_cons_iff]

theorem matchSeq_singleton {e : ASPathExpr} :
    MatchSeq sets [e] x y ↔ e.Match sets x y := by
  rw [MatchSeq]
  constructor
  · intro hyp
    obtain ⟨z, hz, hy⟩ := hyp
    rw [MatchSeq] at hy
    exact hy ▸ hz
  · intro h
    exact ⟨y, h, by rw [MatchSeq]⟩

theorem matchSeq_start :
    MatchSeq sets (.start :: es) x y ↔ x.1 = [] ∧ MatchSeq sets es x y := by
  rw [MatchSeq]
  constructor
  · intro hyp
    obtain ⟨z, hz, hy⟩ := hyp
    rw [Match] at hz
    obtain ⟨rfl, hx⟩ := hz
    exact ⟨hx, hy⟩
  · intro hyp
    obtain ⟨hx, hy⟩ := hyp
    exact ⟨x, by rw [Match]; exact ⟨rfl, hx⟩, hy⟩

theorem matchSeq_end :
    MatchSeq sets (es ++ [.end_]) x y ↔ MatchSeq sets es x y ∧ y.2 = [] := by
  induction es generalizing x with
  | nil =>
    rw [List.nil_append, matchSeq_singleton, Match, MatchSeq]
    exact and_congr_right fun h => by rw [h]
  | cons e es ih =>
    rw [List.cons_append, MatchSeq, MatchSeq]
    simp only [ih]
    constructor
    · intro hyp
      obtain ⟨z, hz, hy, hnil⟩ := hyp
      exact ⟨⟨z, hz, hy⟩, hnil⟩
    · intro hyp
      obtain ⟨⟨z, hz, hy⟩, hnil⟩ := hyp
      exact ⟨z, hz, hy, hnil⟩

theorem match_termsOf {body : ASPathExpr} :
    body.Match sets x y ↔ MatchSeq sets (termsOf body) x y := by
  cases body with
  | seq terms => rw [Match, termsOf]
  | _ => exact matchSeq_singleton.symm

theorem match_stripStart : MatchSeq sets es x y ↔
    ((stripStart es).2 = true → x.1 = []) ∧ MatchSeq sets (stripStart es).1 x y := by
  unfold stripStart
  split
  · rw [matchSeq_start]
    simp
  · simp

theorem match_stripEnd : MatchSeq sets es x y ↔
    ((stripEnd es).2 = true → y.2 = []) ∧ MatchSeq sets (stripEnd es).1 x y := by
  unfold stripEnd
  split
  · rename_i hlast
    rw [← List.dropLast_append_getLast? _ hlast, matchSeq_end]
    simp [and_comm]
  · simp

/-! ## What the parser returns -/

theorem parsedAll_iff : ParsedAll es ↔ ∀ e ∈ es, e.Parsed := by
  induction es with
  | nil => simp [ParsedAll]
  | cons e es ih => rw [ParsedAll, ih, List.forall_mem_cons]

theorem parsed_of_classifyWord {w : Text} {e : ASPathExpr} (h : classifyWord w = .ok e) :
    e.Parsed := by
  unfold classifyWord at h
  split at h
  · cases h
    trivial
  · split_ifs at h
    · cases h
      trivial
    · split at h
      · split_ifs at h
        cases h
        trivial
      · split at h
        · split_ifs at h
          cases h
          trivial
        · cases h

theorem parsed_of_built {P : Text → Prop} {e : ASPathExpr} (h : Built P e) : e.Parsed := by
  induction h with
  | alt hlen _ ih =>
    rw [Parsed, parsedAll_iff]
    exact ⟨List.ne_nil_of_length_pos (by omega), ih⟩
  | seq _ _ ih =>
    rw [Parsed, parsedAll_iff]
    exact ih
  | rep _ _ hq ih =>
    rw [Parsed]
    exact ⟨ih, fun _ m hm => hq.le hm⟩
  | word _ h => exact parsed_of_classifyWord h
  | any | start | end_ | cls => trivial

theorem parsed_of_parse {body : Text} {re : ASPathRE} (h : parseASPathRegexp body = .ok re) :
    re.body.Parsed :=
  parsed_of_built (built_of_parse (P := fun _ => True) (fun _ _ _ _ => trivial) h)

end Rpsl.Policy.ASPathExpr
