import Mathlib.Tactic

/-!
# Yielding to a consumer

A consumer takes values one by one, with a state of its own, and may refuse to go on. `offer` gives
it a list's values until it does; a loop that yields is `offer` of the values it comes to.
-/

namespace Lib

variable {α β τ : Type}

/-- The values in order, as long as the consumer takes them: whether it took them all, and its
state. -/
def offer (yield : α → τ → Bool × τ) : List α → τ → Bool × τ
  | [], t => (true, t)
  | a :: as, t =>
    match yield a t with
    | (true, t) => offer yield as t
    | (false, t) => (false, t)

variable {yield : α → τ → Bool × τ}

theorem offer_append (as bs : List α) (t : τ) :
    offer yield (as ++ bs) t =
      match offer yield as t with
      | (true, t) => offer yield bs t
      | (false, t) => (false, t) := by
  induction as generalizing t with
  | nil => rfl
  | cons a as ih =>
    rw [List.cons_append, offer, offer]
    cases h : yield a t with
    | mk go t' =>
      cases go with
      | true => exact ih t'
      | false => rfl

theorem offer_flatMap (f : β → List α) (bs : List β) (t : τ) :
    offer (fun b t => offer yield (f b) t) bs t = offer yield (bs.flatMap f) t := by
  induction bs generalizing t with
  | nil => rfl
  | cons b bs ih =>
    rw [List.flatMap_cons, offer_append, offer]
    cases h : offer yield (f b) t with
    | mk go t' =>
      cases go with
      | true => exact ih t'
      | false => rfl

theorem offer_skip (keep : α → Bool) (as : List α) (t : τ) :
    offer (fun a t => if keep a then yield a t else (true, t)) as t =
      offer yield (as.filter keep) t := by
  induction as generalizing t with
  | nil => rfl
  | cons a as ih =>
    rw [offer, List.filter_cons]
    cases keep a with
    | true =>
      rw [if_pos rfl, if_pos rfl, offer]
      cases h : yield a t with
      | mk go t' =>
        cases go with
        | true => exact ih t'
        | false => rfl
    | false => exact ih t

end Lib
