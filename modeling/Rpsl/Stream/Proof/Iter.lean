import Rpsl.Stream.Iter
import Rpsl.Stream.Proof.Lines

/-!
# Breaking out of a stream loses nothing

What the iterator has still to yield is what is queued and what a run to the end would add
(`Iter.ahead`). A streamer only adds to the chunks it has made (`run_prepend`), so reading a line
does not change what is ahead (`ahead_turn`), and a range takes its items off it (`range_spec`).
-/

namespace Rpsl.Stream

open Lexer Ast
open Lib (LawfulSource ReadErr Reader Source)

/-! ## Chunks are only added -/

namespace Streamer

def prepend (o : List Chunk) (s : Streamer) : Streamer := { s with out := o ++ s.out }

variable (o : List Chunk) (s : Streamer)

theorem noteRecoded_prepend (li : LineInfo) :
    (s.prepend o).noteRecoded li = (s.noteRecoded li).prepend o := by
  unfold noteRecoded
  split <;> rfl

theorem takeRecoded_prepend (c : Chunk) :
    (s.prepend o).takeRecoded c = ((s.takeRecoded c).1.prepend o, (s.takeRecoded c).2) := by
  unfold takeRecoded
  rw [show (s.prepend o).recoded = s.recoded from rfl]
  split <;> rfl

theorem discardLine_prepend (at_ : Pos) :
    (s.prepend o).discardLine at_ = (s.discardLine at_).prepend o := by
  unfold discardLine prepend
  dsimp only
  split_ifs <;> rfl

theorem takeCarry_prepend :
    (s.prepend o).takeCarry = (s.takeCarry.1.prepend o, s.takeCarry.2) := rfl

theorem takeLead_prepend : (s.prepend o).takeLead = (s.takeLead.1.prepend o, s.takeLead.2) := rfl

theorem addLead_prepend (b : Bytes) (at_ : Pos) :
    (s.prepend o).addLead b at_ = ((s.addLead b at_).1.prepend o, (s.addLead b at_).2) := by
  unfold addLead prepend exceeds overLines
  dsimp only
  split_ifs <;> rfl

theorem takeParts_prepend : (s.prepend o).takeParts = (s.takeParts.1.prepend o, s.takeParts.2) := by
  unfold takeParts
  rw [takeLead_prepend]
  unfold prepend
  dsimp only
  split_ifs <;> rfl

theorem takeCurrent_prepend :
    (s.prepend o).takeCurrent = (s.takeCurrent.1.prepend o, s.takeCurrent.2) := by
  unfold takeCurrent
  rw [takeParts_prepend]
  dsimp only
  rw [takeCarry_prepend]
  dsimp only
  rw [takeRecoded_prepend]
  rfl

theorem emit_prepend (c : Chunk) : (s.prepend o).emit c = (s.emit c).prepend o := by
  unfold emit prepend
  rw [List.append_assoc]

theorem emitPending_prepend : (s.prepend o).emitPending = s.emitPending.prepend o := by
  unfold emitPending
  rw [show (s.prepend o).pending = s.pending from rfl]
  split
  · rfl
  · exact emit_prepend o { s with pending := none } _

theorem oversize_prepend (at_ : Pos) : (s.prepend o).oversize at_ = (s.oversize at_).prepend o := by
  unfold oversize
  rw [emitPending_prepend, takeCarry_prepend]
  exact emit_prepend o
    { s.emitPending.takeCarry.1.dropLead with
      recoded := 0, obj := [], objLines := 0, leadOver := false, inObj := false
      dropping := true } _

theorem endObject_prepend : (s.prepend o).endObject = s.endObject.prepend o := by
  unfold endObject
  rw [takeCurrent_prepend, show (s.prepend o).dropping = s.dropping from rfl,
    show (s.prepend o).inObj = s.inObj from rfl]
  split
  · rfl
  · split
    · dsimp only
      rw [emitPending_prepend]
      rfl
    · rfl

theorem line_prepend (li : LineInfo) : (s.prepend o).line li = (s.line li).prepend o := by
  unfold line
  rw [endObject_prepend, discardLine_prepend, addLead_prepend, oversize_prepend, oversize_prepend,
    emitPending_prepend, discardLine_prepend, addLead_prepend]
  rw [show (s.prepend o).dropping = s.dropping from rfl,
    show (s.prepend o).inObj = s.inObj from rfl,
    show (s.prepend o).exceeds = s.exceeds from rfl,
    show (s.prepend o).overLines = s.overLines from rfl,
    show (s.prepend o).obj = s.obj from rfl, show (s.prepend o).objLines = s.objLines from rfl]
  split
  · split <;> rfl
  · split
    · rfl
    · split
      · split
        · rfl
        · exact noteRecoded_prepend o
            { s with obj := s.obj ++ li.text, objLines := s.objLines + 1 } li
      · split
        · rfl
        · split
          · rfl
          · split
            · exact noteRecoded_prepend o { s.emitPending with
                inObj := true, objStart := li.at_, objLines := 1, obj := li.text } li
            · rcases s.addLead li.text li.at_ with ⟨s', kept⟩
              cases kept with
              | true => exact noteRecoded_prepend o s' li
              | false => rfl

theorem finishTrivia_prepend : (s.prepend o).finishTrivia = s.finishTrivia.prepend o := by
  unfold finishTrivia
  rw [emitPending_prepend, takeLead_prepend, show (s.prepend o).pending = s.pending from rfl,
    show (s.prepend o).dropping = s.dropping from rfl]
  by_cases hdrop : s.dropping
  · rw [if_pos hdrop, if_pos hdrop]
  · rw [if_neg hdrop, if_neg hdrop]
    cases s.pending with
    | some p =>
      dsimp only
      rw [takeCarry_prepend]
      dsimp only
      rw [takeRecoded_prepend]
      exact emitPending_prepend o { (s.takeLead.1.takeCarry.1.takeRecoded { p with
        parts := p.parts ++ s.takeLead.2, diags := p.diags ++ s.takeLead.1.takeCarry.2 }).1 with
          pending := some (s.takeLead.1.takeCarry.1.takeRecoded { p with
            parts := p.parts ++ s.takeLead.2, diags := p.diags ++ s.takeLead.1.takeCarry.2 }).2 }
    | none =>
      dsimp only
      rw [takeCarry_prepend]
      dsimp only
      rw [takeRecoded_prepend, emit_prepend]
      by_cases hrest : s.lead ≠ [] ∨ s.leadParts ≠ [] ∨ s.carry ≠ []
      · rw [if_pos hrest]
        exact if_pos hrest
      · rw [if_neg hrest]
        exact if_neg hrest

theorem finish_prepend (at_ : Pos) (err : Option ReadErr) :
    (s.prepend o).finish at_ err = (s.finish at_ err).prepend o := by
  unfold finish
  rw [takeCurrent_prepend, finishTrivia_prepend, show (s.prepend o).inObj = s.inObj from rfl]
  split
  · dsimp only
    rw [emitPending_prepend]
    exact emit_prepend o _ _
  · split
    · exact emit_prepend o _ _
    · rfl

end Streamer

open Streamer

variable {σ : Type} [Source σ UInt8]

theorem run_prepend (o : List Chunk) (left : Nat) (r : LineReader σ) (s : Streamer) :
    run left r (s.prepend o) = (run left r s).prepend o := by
  induction left generalizing r s with
  | zero =>
    unfold run
    rcases r.next with ⟨li, err, r'⟩
    dsimp only
    rw [line_prepend, ← apply_ite (prepend o)]
    cases err with
    | some e => exact finish_prepend o _ _ _
    | none => rfl
  | succ left ih =>
    unfold run
    rcases r.next with ⟨li, err, r'⟩
    dsimp only
    rw [line_prepend, ← apply_ite (prepend o)]
    cases err with
    | some e => exact finish_prepend o _ _ _
    | none => exact ih _ _

/-! ## Lines left -/

theorem next_left [LawfulSource σ] {r r' : LineReader σ} {li : LineInfo} (hinv : r.buf.Inv)
    (h : r.next = (li, none, r')) :
    r'.buf.Inv ∧ r'.buf.content.length < r.buf.content.length := by
  obtain ⟨line, htakes⟩ := nextLoop_takes r.limit _ {} hinv le_rfl
  unfold LineReader.next at h
  rcases hloop : nextLoop r.limit r.buf.content.length r.buf {} with ⟨p, e, buf⟩
  rw [hloop] at h htakes
  dsimp only at h htakes
  rw [Prod.mk.injEq, Prod.mk.injEq] at h
  obtain ⟨-, rfl, rfl⟩ := h
  obtain ⟨upTo, rfl, -⟩ := htakes.isLine.ended rfl
  refine ⟨htakes.inv, ?_⟩
  rw [← htakes.content, List.length_append, List.length_append, List.length_singleton]
  show buf.content.length < _
  omega

def afterLine (li : LineInfo) (s : Streamer) : Streamer :=
  if li.text ≠ [] ∨ li.tooLong then s.line li else s

theorem run_last {r r' : LineReader σ} {li : LineInfo} {e : ReadErr}
    (h : r.next = (li, some e, r')) (left : Nat) (s : Streamer) :
    run left r s = (afterLine li s).finish r'.pos (if e = .eof then none else some e) := by
  unfold run
  rw [h]
  rfl

theorem run_more {r r' : LineReader σ} {li : LineInfo} (h : r.next = (li, none, r')) (left : Nat)
    (s : Streamer) : run (left + 1) r s = run left r' (afterLine li s) := by
  conv_lhs => unfold run
  rw [h]
  rfl

theorem run_eq_of_le [LawfulSource σ] {left left' : Nat} {r : LineReader σ} (hok : r.buf.Inv)
    (hle : r.buf.content.length ≤ left) (hle' : r.buf.content.length ≤ left') (s : Streamer) :
    run left r s = run left' r s := by
  induction left generalizing left' r s with
  | zero =>
    rcases hnext : r.next with ⟨li, err, r'⟩
    cases err with
    | some e => rw [run_last hnext, run_last hnext]
    | none =>
      have := (next_left hok hnext).2
      omega
  | succ left ih =>
    rcases hnext : r.next with ⟨li, err, r'⟩
    cases err with
    | some e => rw [run_last hnext, run_last hnext]
    | none =>
      obtain ⟨hok', hless⟩ := next_left hok hnext
      obtain ⟨left', rfl⟩ : ∃ k, left' = k + 1 := ⟨left' - 1, by omega⟩
      rw [run_more hnext, run_more hnext]
      exact ih hok' (by omega) (by omega) _

/-! ## What is ahead -/

namespace Iter

def whole (it : Iter σ) : List Chunk :=
  if it.done then it.s.out else (run it.r.buf.content.length it.r it.s).out

def ahead (it : Iter σ) : List Chunk := it.whole.drop it.head

/-- What is yielded is queued first, and the reader is sound while it is used. -/
structure Sound (it : Iter σ) : Prop where
  head_le : it.head ≤ it.s.out.length
  ok : it.done = false → it.r.buf.Inv

def cleared (it : Iter σ) : Iter σ := { it with s := { it.s with out := [] }, head := 0 }

theorem whole_eq (it : Iter σ) : it.whole = it.s.out ++ it.cleared.whole := by
  have hs : it.s = prepend it.s.out { it.s with out := [] } := by
    unfold prepend
    rw [List.append_nil]
  unfold whole cleared
  dsimp only
  split
  · rw [List.append_nil]
  · conv_lhs => rw [hs, run_prepend]
    rfl

theorem ahead_eq {it : Iter σ} (h : it.head ≤ it.s.out.length) :
    it.ahead = it.s.out.drop it.head ++ it.cleared.ahead := by
  rw [ahead, whole_eq, List.drop_append_of_le_length h]
  rfl

theorem ahead_turn [LawfulSource σ] {it : Iter σ} (hsound : it.Sound) (hdone : it.done = false)
    (hhead : it.head = 0) :
    it.turn.ahead = it.ahead ∧ it.turn.Sound ∧ it.turn.head = 0 ∧
      (it.turn.done = false → it.turn.r.buf.content.length < it.r.buf.content.length) := by
  have hok := hsound.ok hdone
  have hwhole : it.whole = (run it.r.buf.content.length it.r it.s).out := by
    rw [whole, hdone]
    rfl
  unfold turn
  rcases hnext : it.r.next with ⟨li, err, r⟩
  cases err with
  | some e =>
    refine ⟨?_, ⟨?_, fun h => by cases h⟩, hhead, fun h => by cases h⟩
    · rw [ahead, ahead, hwhole, run_last hnext]
      rfl
    · show it.head ≤ _
      rw [hhead]
      exact Nat.zero_le _
  | none =>
    obtain ⟨hok', hless⟩ := next_left hok hnext
    obtain ⟨k, hk⟩ : ∃ k, it.r.buf.content.length = k + 1 := ⟨it.r.buf.content.length - 1, by omega⟩
    refine ⟨?_, ⟨?_, fun _ => hok'⟩, hhead, fun _ => hless⟩
    · rw [ahead, ahead, hwhole, hk, run_more hnext, whole]
      dsimp only
      rw [hdone, if_neg Bool.false_ne_true, run_eq_of_le hok' (le_refl _) (by omega : _ ≤ k)]
      rfl
    · show it.head ≤ _
      rw [hhead]
      exact Nat.zero_le _

/-! ## Ranges -/

variable {quote : Bytes → Text} {go : List Item → Bool}

theorem drainQueue_spec (quote : Bytes → Text) (go : List Item → Bool) (queue : List Chunk)
    (head : Nat) (seen : List Item) :
    ∃ taken rest, queue = taken ++ rest ∧
      (drainQueue quote go queue head seen).1 = head + taken.length ∧
      (drainQueue quote go queue head seen).2.1 = seen ++ taken.map (·.yielded quote) ∧
      ((drainQueue quote go queue head seen).2.2 = false → rest = []) ∧
      ((∀ l, go l = true) → (drainQueue quote go queue head seen).2.2 = false) := by
  induction queue generalizing head seen with
  | nil => exact ⟨[], [], rfl, rfl, (List.append_nil _).symm, fun _ => rfl, fun _ => rfl⟩
  | cons c queue ih =>
    rw [drainQueue]
    split
    · obtain ⟨taken, rest, hqueue, hhead, hseen, hrest, hgo⟩ :=
        ih (head + 1) (seen ++ [c.yielded quote])
      refine ⟨c :: taken, rest, ?_, ?_, ?_, hrest, hgo⟩
      · rw [hqueue, List.cons_append]
      · rw [hhead, List.length_cons]
        omega
      · rw [hseen, List.append_assoc, List.map_cons, List.singleton_append]
    · rename_i hstop
      exact ⟨[c], queue, rfl, rfl, rfl, fun h => absurd h (by simp), fun h => absurd (h _) hstop⟩

/-- What a part of a range does: it takes items off what is ahead, all that is queued unless the
consumer stops. -/
structure Took (quote : Bytes → Text) (go : List Item → Bool) (it : Iter σ) (seen : List Item)
    (it' : Iter σ) (seen' : List Item) (stopped : Bool) : Prop where
  items : ∃ taken, seen' = seen ++ taken.map (·.yielded quote) ∧ it.ahead = taken ++ it'.ahead
  sound : it'.Sound
  goes : (∀ l, go l = true) → stopped = false

theorem Took.trans {it₁ it₂ it₃ : Iter σ} {seen₁ seen₂ seen₃ : List Item} {st₁ st₂ : Bool}
    (h₁ : Took quote go it₁ seen₁ it₂ seen₂ st₁) (h₂ : Took quote go it₂ seen₂ it₃ seen₃ st₂) :
    Took quote go it₁ seen₁ it₃ seen₃ st₂ := by
  obtain ⟨taken₁, hseen₁, hahead₁⟩ := h₁.items
  obtain ⟨taken₂, hseen₂, hahead₂⟩ := h₂.items
  refine ⟨⟨taken₁ ++ taken₂, ?_, ?_⟩, h₂.sound, h₂.goes⟩
  · rw [hseen₂, hseen₁, List.map_append, List.append_assoc]
  · rw [hahead₁, hahead₂, List.append_assoc]

theorem drain_spec (quote : Bytes → Text) (go : List Item → Bool) {it : Iter σ}
    (hsound : it.Sound) (seen : List Item) :
    Took quote go it seen (it.drain quote go seen).1 (it.drain quote go seen).2.1
        (it.drain quote go seen).2.2 ∧
      (it.drain quote go seen).1.done = it.done ∧
      ((it.drain quote go seen).2.2 = false → (it.drain quote go seen).1 = it.cleared) := by
  obtain ⟨taken, rest, hqueue, hhead, hseen, hrest, hgo⟩ :=
    drainQueue_spec quote go (it.s.out.drop it.head) it.head seen
  unfold drain
  rcases hdrain : drainQueue quote go (it.s.out.drop it.head) it.head seen with
    ⟨head, seen', stopped⟩
  rw [hdrain] at hhead hseen hrest hgo
  dsimp only at hhead hseen hrest hgo ⊢
  have hlen := congrArg List.length hqueue
  rw [List.length_drop, List.length_append] at hlen
  have hle := hsound.head_le
  have hahead : it.ahead = taken ++ (rest ++ it.cleared.ahead) := by
    rw [ahead_eq hle, hqueue, List.append_assoc]
  by_cases hall : head = it.s.out.length
  · have hnil : rest = [] := List.eq_nil_of_length_eq_zero (by omega)
    rw [if_pos hall]
    refine ⟨⟨⟨taken, hseen, ?_⟩, ⟨Nat.zero_le _, hsound.ok⟩, hgo⟩, rfl, fun _ => rfl⟩
    rw [hahead, hnil]
    rfl
  · rw [if_neg hall]
    have hle' : head ≤ it.s.out.length := by omega
    refine ⟨⟨⟨taken, hseen, ?_⟩, ⟨hle', hsound.ok⟩, hgo⟩, rfl, fun hstop => ?_⟩
    · have hdrop : it.s.out.drop head = rest := by
        rw [hhead, ← List.drop_drop, hqueue]
        exact List.drop_left
      rw [hahead, @ahead_eq _ _ { it with head := head } hle', hdrop]
      rfl
    · rw [hrest hstop, List.length_nil] at hlen
      omega

def Ended (it : Iter σ) : Prop := it.done = true ∧ it.ahead = []

theorem ended_cleared {it : Iter σ} (h : it.done = true) : it.cleared.Ended := by
  refine ⟨h, ?_⟩
  rw [ahead, whole]
  exact (congrArg _ (if_pos h)).trans rfl

theorem loop_spec [LawfulSource σ] (left : Nat) {it : Iter σ} (hsound : it.Sound)
    (hdone : it.done = false) (hhead : it.head = 0) (hleft : it.r.buf.content.length ≤ left)
    (seen : List Item) :
    Took quote go it seen (it.loop quote go left seen).1 (it.loop quote go left seen).2.1
        (it.loop quote go left seen).2.2 ∧
      ((it.loop quote go left seen).2.2 = false → (it.loop quote go left seen).1.Ended) := by
  induction left using Nat.strong_induction_on generalizing it seen with
  | _ left ih =>
    obtain ⟨hahead, hsound₁, -, hless⟩ := ahead_turn hsound hdone hhead
    obtain ⟨htook, hdone₂, hcleared⟩ := drain_spec quote go hsound₁ seen
    unfold loop
    rcases hdrain : it.turn.drain quote go seen with ⟨it₂, seen₂, stopped⟩
    rw [hdrain] at htook hdone₂ hcleared
    dsimp only at htook hdone₂ hcleared ⊢
    have htook' : Took quote go it seen it₂ seen₂ stopped :=
      ⟨hahead ▸ htook.items, htook.sound, htook.goes⟩
    cases stopped with
    | true => exact ⟨htook', fun h => by cases h⟩
    | false =>
      rw [Bool.false_or]
      cases hend : it₂.done with
      | true =>
        rw [if_pos rfl]
        refine ⟨htook', fun _ => ?_⟩
        show it₂.Ended
        rw [hcleared rfl]
        rw [hend] at hdone₂
        exact ended_cleared hdone₂.symm
      | false =>
        rw [if_neg Bool.false_ne_true]
        rw [hend] at hdone₂
        have hr : it₂.r = it.turn.r := by rw [hcleared rfl]; rfl
        have hlt := hless hdone₂.symm
        rw [← hr] at hlt
        obtain ⟨left, rfl⟩ : ∃ k, left = k + 1 := ⟨left - 1, by omega⟩
        have hhead₂ : it₂.head = 0 := by rw [hcleared rfl]; rfl
        obtain ⟨htook₃, hended⟩ := ih left (Nat.lt_succ_self _) htook.sound hend hhead₂ (by omega)
          seen₂
        exact ⟨htook'.trans htook₃, hended⟩

/-- **A range takes its items off what is ahead**, and all of them if it ends by itself. -/
theorem range_spec [LawfulSource σ] (quote : Bytes → Text) (go : List Item → Bool) {it : Iter σ}
    (hsound : it.Sound) :
    Took quote go it [] (it.range quote go).1 (it.range quote go).2.1 (it.range quote go).2.2 ∧
      ((it.range quote go).2.2 = false → (it.range quote go).1.Ended) := by
  obtain ⟨htook, hdone, hcleared⟩ := drain_spec quote go hsound []
  unfold range
  rcases hdrain : it.drain quote go [] with ⟨it₁, seen₁, stopped⟩
  rw [hdrain] at htook hdone hcleared
  dsimp only at htook hdone hcleared ⊢
  cases stopped with
  | true => exact ⟨htook, fun h => by cases h⟩
  | false =>
    rw [Bool.false_or]
    cases hend : it₁.done with
    | true =>
      rw [if_pos rfl]
      refine ⟨htook, fun _ => ?_⟩
      show it₁.Ended
      rw [hcleared rfl]
      rw [hend] at hdone
      exact ended_cleared hdone.symm
    | false =>
      rw [if_neg Bool.false_ne_true]
      have hhead : it₁.head = 0 := by rw [hcleared rfl]; rfl
      obtain ⟨htook₂, hended⟩ := loop_spec _ htook.sound hend hhead le_rfl seen₁
      exact ⟨htook.trans htook₂, hended⟩

theorem range_of_ahead_nil [LawfulSource σ] (quote : Bytes → Text) (go : List Item → Bool)
    {it : Iter σ} (hsound : it.Sound) (h : it.ahead = []) :
    (it.range quote go).2.1 = [] ∧ (it.range quote go).1.Sound ∧
      (it.range quote go).1.ahead = [] := by
  have htook := (range_spec quote go hsound).1
  obtain ⟨taken, hitems, hahead⟩ := htook.items
  rw [h] at hahead
  obtain ⟨htaken, hrest⟩ := List.append_eq_nil_iff.1 hahead.symm
  refine ⟨?_, htook.sound, hrest⟩
  rw [hitems, htaken]
  rfl

theorem ranges_of_ahead_nil [LawfulSource σ] {it : Iter σ} (hsound : it.Sound) (h : it.ahead = [])
    (gos : List (List Item → Bool)) : ∀ x ∈ it.ranges quote gos, x.1 = [] := by
  induction gos generalizing it with
  | nil => exact fun x hx => absurd hx List.not_mem_nil
  | cons go gos ih =>
    obtain ⟨hitems, hsound', hahead⟩ := range_of_ahead_nil quote go hsound h
    rw [ranges]
    exact List.forall_mem_cons.2 ⟨hitems, ih hsound' hahead⟩

theorem ranges_begin [LawfulSource σ] {it : Iter σ} (hsound : it.Sound)
    (gos : List (List Item → Bool)) :
    (it.ranges quote gos).flatMap Prod.fst <+: it.ahead.map (·.yielded quote) := by
  induction gos generalizing it with
  | nil => exact List.nil_prefix
  | cons go gos ih =>
    have htook := (range_spec quote go hsound).1
    obtain ⟨taken, hitems, hahead⟩ := htook.items
    rw [ranges, List.flatMap_cons, hahead, List.map_append]
    dsimp only
    rw [hitems, List.nil_append]
    exact (List.prefix_append_right_inj _).2 (ih htook.sound)

theorem ranges_ended [LawfulSource σ] {it : Iter σ} (hsound : it.Sound)
    {gos : List (List Item → Bool)} {before after : List (List Item × Bool)} {items : List Item}
    (h : it.ranges quote gos = before ++ (items, false) :: after) :
    before.flatMap Prod.fst ++ items = it.ahead.map (·.yielded quote) ∧ ∀ x ∈ after, x.1 = [] := by
  induction gos generalizing it before with
  | nil =>
    have := congrArg List.length h
    simp [ranges] at this
  | cons go gos ih =>
    obtain ⟨htook, hended⟩ := range_spec quote go hsound
    obtain ⟨taken, hitems, hahead⟩ := htook.items
    rw [ranges] at h
    dsimp only at h
    cases before with
    | nil =>
      rw [List.nil_append, List.cons.injEq, Prod.mk.injEq] at h
      obtain ⟨⟨rfl, hstop⟩, rfl⟩ := h
      have hend := (hended hstop).2
      refine ⟨?_, ranges_of_ahead_nil htook.sound hend gos⟩
      rw [hahead, hend, List.append_nil, List.flatMap_nil, List.nil_append, hitems, List.nil_append]
    | cons x before =>
      rw [List.cons_append, List.cons.injEq] at h
      obtain ⟨rfl, hrest⟩ := h
      obtain ⟨hall, hafter⟩ := ih htook.sound hrest
      refine ⟨?_, hafter⟩
      rw [List.flatMap_cons, List.append_assoc, hall, hahead, List.map_append]
      dsimp only
      rw [hitems, List.nil_append]

theorem sound_start (input : σ) (opts : ParseOptions) : (start input opts).Sound :=
  ⟨le_refl _, fun _ => Reader.inv_new _ _⟩

theorem ahead_start (quote : Bytes → Text) (input : σ) (opts : ParseOptions) :
    (start input opts).ahead.map (·.yielded quote) = parseWith quote input opts := rfl

/-- **Breaking out of a stream loses nothing.** The items of all ranges, in order, are the first of
those one uninterrupted range yields; they are all of them once a range has ended by itself, and a
range after that yields nothing. -/
theorem ranges_lossless (quote : Bytes → Text) (input : Input) (opts : ParseOptions) :
    ((start input opts).range quote fun _ => true).2 = (parseWith quote input opts, false) ∧
      ∀ gos, ((start input opts).ranges quote gos).flatMap Prod.fst <+:
          parseWith quote input opts ∧
        ∀ before items after,
          (start input opts).ranges quote gos = before ++ (items, false) :: after →
          before.flatMap Prod.fst ++ items = parseWith quote input opts ∧
            ∀ x ∈ after, x.1 = [] := by
  have hsound := sound_start input opts
  rw [← ahead_start]
  refine ⟨?_, fun gos => ⟨ranges_begin hsound gos, fun _ _ _ h => ranges_ended hsound h⟩⟩
  obtain ⟨htook, hended⟩ := range_spec quote (fun _ => true) hsound
  have hstop := htook.goes fun _ => rfl
  obtain ⟨taken, hitems, hahead⟩ := htook.items
  rw [(hended hstop).2, List.append_nil] at hahead
  exact Prod.ext (by rw [hitems, hahead]; rfl) hstop

end Iter

end Rpsl.Stream
