import Rpsl.Irrdq.Answer
import Mathlib.Tactic

/-!
# What an answer's reply is

Whatever calls build it, an answer holds its pieces joined and their length, or has passed its
budget and holds nothing (`Built`). Its reply is the whole data answer if that is within the budget
and the refusal otherwise (`frame_eq`).
-/

namespace Rpsl.Irrdq

open Text

/-- The data answer of a payload. -/
def dataAnswer (payload : Text) : Text :=
  lit "A" ++ ofNat payload.length ++ lit "\n" ++ payload ++ lit "C\n"

namespace Answer

/-- The answer holds the payload, which is within the budget; or the payload is over it. -/
inductive Built (max : Nat) (payload : Text) : Answer → Prop
  | held {parts : List Text} {cur : Text} (htext : parts.flatten ++ cur = payload)
      (hle : 0 < max → payload.length ≤ max) :
      Built max payload ⟨parts, cur, payload.length, max, false⟩
  | refused {n : Nat} (hpos : 0 < max) (hlt : max < payload.length) :
      Built max payload ⟨[], [], n, max, true⟩

theorem built_newAnswer (max : Nat) : Built max [] (newAnswer max) :=
  .held rfl fun _ => Nat.zero_le _

variable {max : Nat} {payload : Text} {a : Answer}

theorem grow_spec (h : Built max payload a) (t : Text) :
    (∃ parts cur, parts.flatten ++ cur = payload ∧ (0 < max → (payload ++ t).length ≤ max) ∧
        a.grow t.length = (true, ⟨parts, cur, (payload ++ t).length, max, false⟩)) ∨
      ∃ a', a.grow t.length = (false, a') ∧ Built max (payload ++ t) a' := by
  cases h with
  | @held parts cur htext hle =>
    by_cases hover : 0 < max ∧ max < payload.length + t.length
    · right
      refine ⟨_, if_pos hover, .refused hover.1 ?_⟩
      rw [List.length_append]
      exact hover.2
    · left
      refine ⟨parts, cur, htext, fun hpos => ?_, ?_⟩
      · rw [List.length_append]
        by_contra hlt
        exact hover ⟨hpos, Nat.lt_of_not_le hlt⟩
      · rw [List.length_append]
        exact if_neg hover
  | @refused n hpos hlt =>
    right
    refine ⟨_, rfl, .refused hpos ?_⟩
    rw [List.length_append]
    omega

theorem put_eq (parts : List Text) (cur : Text) (n max : Nat) (o : Bool) (p : Text) :
    ∃ parts' cur', put ⟨parts, cur, n, max, o⟩ p = ⟨parts', cur', n, max, o⟩ ∧
      parts'.flatten ++ cur' = parts.flatten ++ cur ++ p := by
  unfold put
  split
  · exact ⟨parts, cur ++ p, rfl, by rw [List.append_assoc]⟩
  · split
    · exact ⟨parts ++ [cur] ++ [p], [], rfl, by simp⟩
    · rename_i hcur
      have hnil : cur = [] := List.eq_nil_of_length_eq_zero (Nat.eq_zero_of_not_pos hcur)
      exact ⟨parts ++ [p], cur, rfl, by simp [hnil]⟩

theorem foldl_put_eq (pieces : List Text) (parts : List Text) (cur : Text) (n max : Nat)
    (o : Bool) :
    ∃ parts' cur', pieces.foldl put ⟨parts, cur, n, max, o⟩ = ⟨parts', cur', n, max, o⟩ ∧
      parts'.flatten ++ cur' = parts.flatten ++ cur ++ pieces.flatten := by
  induction pieces generalizing parts cur with
  | nil => exact ⟨parts, cur, rfl, by simp⟩
  | cons p pieces ih =>
    obtain ⟨parts₁, cur₁, hput, htext₁⟩ := put_eq parts cur n max o p
    obtain ⟨parts₂, cur₂, hputs, htext₂⟩ := ih parts₁ cur₁
    refine ⟨parts₂, cur₂, ?_, ?_⟩
    · rw [List.foldl_cons, hput, hputs]
    · rw [htext₂, htext₁, List.flatten_cons, List.append_assoc]

theorem add_built (h : Built max payload a)
    (pieces : List Text) : Built max (payload ++ pieces.flatten) (a.add pieces).2 := by
  have hlen : (pieces.map List.length).sum = pieces.flatten.length := List.length_flatten.symm
  unfold add
  rw [hlen]
  rcases grow_spec h pieces.flatten with ⟨parts, cur, htext, hle, hgrow⟩ | ⟨a', hgrow, hbuilt⟩
  · rw [hgrow]
    obtain ⟨parts', cur', hput, htext'⟩ := foldl_put_eq pieces parts cur
      (payload ++ pieces.flatten).length max false
    dsimp only
    rw [hput]
    exact .held (by rw [htext', htext]) hle
  · rw [hgrow]
    exact hbuilt

theorem addText_built (h : Built max payload a)
    (b : Text) : Built max (payload ++ b) (a.addText b).2 := by
  unfold addText
  rcases grow_spec h b with ⟨parts, cur, htext, hle, hgrow⟩ | ⟨a', hgrow, hbuilt⟩
  · rw [hgrow]
    exact .held (by rw [← List.append_assoc, htext]) hle
  · rw [hgrow]
    exact hbuilt

theorem call_built (h : Built max payload a) (c : Call) :
    Built max (payload ++ c.text) (a.call c) := by
  cases c with
  | add pieces => exact add_built h pieces
  | addAS as => exact addText_built h as.text
  | addPrefix p => exact addText_built h p.text

/-- **Any calls build the joined pieces**, or pass the budget. -/
theorem foldl_call_built (max : Nat) (calls : List Call) :
    Built max (calls.flatMap Call.text) (calls.foldl call (newAnswer max)) := by
  have hfold : ∀ {payload a}, Built max payload a →
      Built max (payload ++ calls.flatMap Call.text) (calls.foldl call a) := by
    induction calls with
    | nil =>
      intro payload a h
      rwa [List.flatMap_nil, List.append_nil]
    | cons c calls ih =>
      intro payload a h
      rw [List.flatMap_cons, ← List.append_assoc]
      exact ih (call_built h c)
  exact hfold (built_newAnswer max)

theorem frame_eq (h : Built max payload a) :
    a.frame = underBudget max (dataAnswer payload) := by
  have hlen : (dataAnswer payload).length =
      (lit "A" ++ ofNat payload.length ++ lit "\n").length + payload.length +
        (lit "C\n").length := by
    rw [dataAnswer, List.length_append, List.length_append]
  unfold underBudget
  rw [hlen]
  cases h with
  | held htext hle =>
    unfold frame
    rw [if_neg Bool.false_ne_true]
    dsimp only
    rw [writeTo, htext]
    rfl
  | refused hpos hlt =>
    unfold frame
    rw [if_pos rfl, if_pos ⟨hpos, by omega⟩]
    rfl

theorem underBudget_frame (h : Built max payload a) :
    underBudget max a.frame = a.frame := by
  rw [frame_eq h]
  by_cases hover : 0 < max ∧ max < (dataAnswer payload).length
  · have hrefused : underBudget max (dataAnswer payload) = tooLarge max := if_pos hover
    rw [hrefused, underBudget]
    split <;> rfl
  · have hwhole : underBudget max (dataAnswer payload) = dataAnswer payload := if_neg hover
    rw [hwhole, hwhole]

end Answer

end Rpsl.Irrdq
