import Rpsl.Resolve.Concurrent

/-!
# The order in which fetches complete

Each call of a batch writes its own slot, so when all have completed the slots hold the calls'
results in their own order (`each_eq`), and an expansion is the one that fetches one set after the
other.
-/

namespace Rpsl.Resolve

open Text Rpsl.Policy Object

section

variable {α β : Type} {xs : List α} {f : α → β} {zero : β}

theorem length_writeSlot (out : List β) (i : Nat) :
    (writeSlot xs f out i).length = out.length := by
  unfold writeSlot
  split <;> simp

theorem getElem?_writeSlot {out : List β} (hlen : out.length = xs.length) (i j : Nat) :
    (writeSlot xs f out i)[j]? = if j = i then (xs[j]?).map f else out[j]? := by
  unfold writeSlot
  split
  · rename_i x hx
    have hi : i < out.length := by
      rw [hlen]
      exact (List.getElem?_eq_some_iff.1 hx).1
    by_cases hj : j = i
    · rw [if_pos hj, hj, hx, List.getElem?_set_self hi, Option.map_some]
    · rw [if_neg hj, List.getElem?_set_ne (Ne.symm hj)]
  · rename_i hx
    by_cases hj : j = i
    · rw [if_pos hj, hj, hx, Option.map_none, List.getElem?_eq_none_iff, hlen]
      exact List.getElem?_eq_none_iff.1 hx
    · rw [if_neg hj]

theorem getElem?_writes {order : List Nat} {out : List β} (hlen : out.length = xs.length)
    (j : Nat) :
    (order.foldl (writeSlot xs f) out)[j]? = if j ∈ order then (xs[j]?).map f else out[j]? := by
  induction order generalizing out with
  | nil => simp
  | cons i order ih =>
    rw [List.foldl_cons, ih (by rw [length_writeSlot, hlen]), getElem?_writeSlot hlen]
    by_cases hj : j ∈ order
    · rw [if_pos hj, if_pos (List.mem_cons_of_mem i hj)]
    · by_cases hji : j = i
      · rw [if_neg hj, if_pos hji, if_pos (by rw [hji]; exact List.mem_cons_self)]
      · rw [if_neg hj, if_neg hji, if_neg (by simp [hj, hji])]

/-- **When all calls have completed, the slots hold their results.** -/
theorem each_eq {order : List Nat} (h : order.Perm (List.range xs.length)) :
    each order xs f zero = xs.map f := by
  apply List.ext_getElem?
  intro j
  rw [each, getElem?_writes (by simp), List.getElem?_map, List.getElem?_map]
  by_cases hj : j < xs.length
  · rw [if_pos (h.mem_iff.2 (List.mem_range.2 hj))]
  · rw [if_neg (fun hm => hj (List.mem_range.1 (h.mem_iff.1 hm))),
      List.getElem?_eq_none (Nat.not_lt.1 hj)]
    rfl

end

namespace Expander

variable {E : Type} (e : Expander E) {o : Orders}

theorem foldlM_visitFetched (top : SetRef) (anyLeaf : Bool) (depth : Nat) (level : List SetRef)
    (st : Discovery) :
    (level.zip (level.map e.fetchOne)).foldlM (e.visitFetched top anyLeaf depth) st =
      level.foldlM (e.visitRef top anyLeaf depth) st := by
  rw [← List.map_prod_left_eq_zip, List.foldlM_map]
  rfl

theorem discoverLoopIn_eq (ho : o.Complete) (top : SetRef) (anyLeaf : Bool) (fuel depth : Nat)
    (level : List SetRef) (st : Discovery) :
    e.discoverLoopIn o top anyLeaf fuel depth level st =
      e.discoverLoop top anyLeaf fuel depth level st := by
  induction fuel generalizing depth level st with
  | zero => cases level <;> rfl
  | succ fuel ih =>
    cases level with
    | nil => rfl
    | cons ref level =>
      unfold discoverLoopIn discoverLoop fetchLevel
      rw [each_eq (ho.level _), foldlM_visitFetched]
      refine congrArg _ (funext fun st => ?_)
      cases st.anyRef with
      | some ref => rfl
      | none => exact ih _ _ _

theorem fetchClaimsIn_eq (ho : o.Complete) (nodes : List (SetRef × NamedSet)) :
    e.fetchClaimsIn o nodes = e.fetchClaims nodes := by
  unfold fetchClaimsIn fetchClaims
  rw [each_eq (ho.claims _), ← List.map_prod_left_eq_zip, List.mapM_map]
  rfl

theorem discoverIn_eq (ho : o.Complete) (top : SetRef) (anyLeaf : Bool) :
    e.discoverIn o top anyLeaf = e.discover top anyLeaf := by
  unfold discoverIn discover
  simp only [discoverLoopIn_eq e ho, fetchClaimsIn_eq e ho]

theorem fetchRoutesIn_eq (ho : o.Complete) (g : SetGraph) :
    e.fetchRoutesIn o g = e.fetchRoutes g := by
  unfold fetchRoutesIn fetchRoutes
  dsimp only
  rw [each_eq (ho.routes _), ← List.map_prod_left_eq_zip, List.mapM_map]
  rfl

theorem expandASIn_eq (ho : o.Complete) (ref : SetRef) :
    e.expandASIn o ref = (e.expandAS ref false).map Prod.fst := by
  unfold expandASIn expandAS
  split_ifs
  · rfl
  · rw [discoverIn_eq e ho]
    cases e.discover ref false with
    | error err => rfl
    | ok g =>
      change (if _ then _ else _) = Except.map Prod.fst (if _ then _ else _)
      split_ifs <;> rfl

theorem expandRangesIn_eq (ho : o.Complete) (ref : SetRef) (maxRanges : Nat) :
    e.expandRangesIn o ref maxRanges = (e.expandRanges ref maxRanges).map Prod.fst := by
  unfold expandRangesIn expandRanges
  split_ifs
  · rfl
  · rw [discoverIn_eq e ho]
    cases e.discover ref false with
    | error err => rfl
    | ok g =>
      change (do
        let g ← e.fetchRoutesIn o g
        let v ← e.walk g maxRanges (e.visitLimit + 1) ⟨ref, .empty⟩ ⟨.empty, [], 0⟩
        .ok { v.out with missing := g.missing }) = Except.map Prod.fst (do
          let g ← e.fetchRoutes g
          let v ← e.walk g maxRanges (e.visitLimit + 1) ⟨ref, .empty⟩ ⟨.empty, [], 0⟩
          .ok ({ v.out with missing := g.missing }, g.reached))
      rw [fetchRoutesIn_eq e ho]
      cases e.fetchRoutes g with
      | error err => rfl
      | ok g =>
        change (do
          let v ← e.walk g maxRanges (e.visitLimit + 1) ⟨ref, .empty⟩ ⟨.empty, [], 0⟩
          .ok { v.out with missing := g.missing }) = Except.map Prod.fst (do
            let v ← e.walk g maxRanges (e.visitLimit + 1) ⟨ref, .empty⟩ ⟨.empty, [], 0⟩
            .ok ({ v.out with missing := g.missing }, g.reached))
        cases e.walk g maxRanges (e.visitLimit + 1) ⟨ref, .empty⟩ ⟨.empty, [], 0⟩ <;> rfl

end Expander

end Rpsl.Resolve
