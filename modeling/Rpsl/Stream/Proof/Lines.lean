import Rpsl.Stream.Reader

/-!
# The line reader reads lines

However the input is split, `LineReader.next` takes one physical line off what is left of it
(`next_line`): the fragments join to bytes up to the first newline or the end, and the position
moves over them.
-/

namespace Rpsl.Stream

open Lexer Lib Reader

/-! ## Inputs -/

theorem Input.read_spec {space : Nat} (r : Input) :
    Source.Read space r (r.read space).1 (r.read space).2.1 (r.read space).2.2 := by
  refine ⟨List.take_append_drop _ _, ?_, fun e he => ?_, fun h => absurd trivial h⟩
  · exact (List.length_take_le _ _).trans (min_le_right _ _)
  · simp only [Input.read] at he ⊢
    split_ifs at he with hc
    obtain ⟨e', he', rfl⟩ := Option.map_eq_some_iff.1 he
    cases e' with
    | eof => exact .inl ⟨rfl, by_contra fun hne => hc ⟨he', hne⟩⟩
    | noProgress => exact .inr ⟨nofun, nofun, trivial⟩
    | failed msg => exact .inr ⟨nofun, nofun, trivial⟩

instance : LawfulSource Input := ⟨fun _ r => r.read_spec, fun h => absurd trivial h⟩

/-! ## Lines -/

/-- `line` is a line up to its end: a newline, or the end of what can be read. -/
structure IsLine (line : Bytes) (err : Option ReadErr) (rest : Bytes) : Prop where
  ended : err = none → ∃ upTo, line = upTo ++ [nl] ∧ nl ∉ upTo
  last : err ≠ none → nl ∉ line
  eof : err = some .eof → rest = []

def Pos.after (p : Pos) (b : Bytes) : Pos := ⟨p.line + b.count nl, p.byte + b.length⟩

theorem IsLine.count {line rest : Bytes} {err : Option ReadErr} (h : IsLine line err rest) :
    line.count nl = if err = none then 1 else 0 := by
  by_cases he : err = none
  · obtain ⟨upTo, rfl, hup⟩ := h.ended he
    rw [if_pos he, List.count_append, List.count_eq_zero.2 hup]
    rfl
  · rw [if_neg he, List.count_eq_zero.2 (h.last he)]

/-- Bytes within a cap; a negative cap is none. -/
def Within (limit : Int) (n : Nat) : Prop := 0 ≤ limit → (n : Int) ≤ limit

theorem Within.of_le {limit : Int} {n m : Nat} (h : Within limit n) (hle : m ≤ n) :
    Within limit m := fun h0 => (Int.ofNat_le.2 hle).trans (h h0)

theorem Within.isOver {limit : Int} {n m : Nat} (h : Within limit (n + m)) :
    isOver limit n m = false := by
  rw [Stream.isOver, Bool.and_eq_false_iff, decide_eq_false_iff_not, decide_eq_false_iff_not]
  by_cases h0 : 0 ≤ limit
  · exact .inr (Int.not_lt.2 (by exact_mod_cast h h0))
  · exact .inl h0

section
variable {limit : Int} {frag : Bytes}

@[simp] theorem Partial.add_n (p : Partial) (frag : Bytes) (final : Bool) :
    (p.add limit frag final).n = p.n + frag.length := by
  unfold Partial.add
  dsimp only
  split <;> rfl

theorem Partial.add_kept {p : Partial} (final : Bool) (h : p.tooLong = false)
    (hlen : Within limit (p.kept.length + frag.length)) :
    (p.add limit frag final).tooLong = false ∧
      (p.add limit frag final).kept = p.kept ++ frag := by
  simp [Partial.add, h, hlen.isOver]

end

/-! ## The loop -/

section
variable {σ : Type} [Source σ UInt8] {limit : Int} {b b' : Reader UInt8 σ} {place : Nat × Nat}
  {e err : Option ReadErr}

/-- What the loop of `next` comes to, from `p` on: it takes `line` off the buffer, and keeps it
where it is within the cap. -/
structure Takes (limit : Int) (b : Reader UInt8 σ) (p : Partial) (line : Bytes) (p' : Partial)
    (err : Option ReadErr) (b' : Reader UInt8 σ) : Prop where
  content : line ++ b'.content = b.content
  inv : b'.Inv
  isLine : IsLine line err b'.content
  stopped : ∀ e, err = some e → e = .eof ∨ Source.fails σ
  n : p'.n = p.n + line.length
  kept : p.tooLong = false → Within limit (p.kept.length + line.length) →
    p'.tooLong = false ∧ p'.kept = p.kept ++ line

theorem takes_last (p : Partial) (hread : ReadSlice nl b place e b')
    (he : e ≠ some .bufferFull) :
    Takes limit b p (b'.slice place) (p.add limit (b'.slice place) true) e b' := by
  have hends := hread.ends
  refine ⟨hread.content, hread.inv, ?_, ?_, Partial.add_n .., Partial.add_kept true⟩
  all_goals generalize b'.slice place = frag at hends
  all_goals generalize b'.content = rest at hends
  · cases hends with
    | found hp => exact ⟨fun _ => ⟨_, rfl, hp⟩, fun h => absurd rfl h, nofun⟩
    | eof hs => exact ⟨nofun, fun _ => hs, fun _ => rfl⟩
    | full _ _ => exact absurd rfl he
    | failed hs heof _ _ => exact ⟨nofun, fun _ => hs, fun h => absurd (Option.some.inj h) heof⟩
  · intro x hx
    cases hends with
    | found _ => cases hx
    | eof _ => exact .inl (Option.some.inj hx).symm
    | full _ _ => exact absurd rfl he
    | failed _ _ _ hfails => exact .inr hfails

theorem takes_more {b₁ : Reader UInt8 σ} {p p' : Partial} {line : Bytes}
    (hread : ReadSlice nl b place (some .bufferFull) b₁) (hnl : nl ∉ b₁.slice place)
    (h : Takes limit b₁ (p.add limit (b₁.slice place) false) line p' err b') :
    Takes limit b p (b₁.slice place ++ line) p' err b' := by
  refine ⟨?_, h.inv, ⟨fun he => ?_, fun he => ?_, h.isLine.eof⟩, h.stopped, ?_, fun hp hlen => ?_⟩
  · rw [List.append_assoc, h.content, hread.content]
  · obtain ⟨upTo, rfl, hup⟩ := h.isLine.ended he
    exact ⟨b₁.slice place ++ upTo, by simp, by simp [hnl, hup]⟩
  · simp [hnl, h.isLine.last he]
  · rw [h.n, Partial.add_n, List.length_append, Nat.add_assoc]
  · rw [List.length_append, ← Nat.add_assoc] at hlen
    obtain ⟨hadd, hkept⟩ := Partial.add_kept false hp (hlen.of_le (Nat.le_add_right _ _))
    have := h.kept hadd (by rwa [hkept, List.length_append])
    rwa [hkept, List.append_assoc] at this

theorem nextLoop_takes [LawfulSource σ] (limit : Int) (left : Nat) (p : Partial) (hb : b.Inv)
    (hleft : b.content.length ≤ left) :
    ∃ line, Takes limit b p line (nextLoop limit left b p).1 (nextLoop limit left b p).2.1
      (nextLoop limit left b p).2.2 := by
  induction left using Nat.strong_induction_on generalizing b p with
  | _ left ih =>
    have hread := readSlice_spec nl hb
    unfold nextLoop
    rcases hslice : b.readSlice nl with ⟨place, e, b'⟩
    rw [hslice] at hread
    dsimp only at hread ⊢
    by_cases he : e = some .bufferFull
    · subst he
      rw [if_pos rfl]
      -- a full buffer holds bytes, and no newline
      obtain ⟨hnl, hlen⟩ : nl ∉ b'.slice place ∧ (b'.slice place).length = b.size := by
        have hends := hread.ends
        generalize b'.slice place = frag at hends ⊢
        generalize b'.content = rest at hends
        cases hends with
        | full hs hlen => exact ⟨hs, hlen⟩
        | failed _ _ hfull _ => exact absurd rfl hfull
      have hpos := hb.size_pos
      have hsum := congrArg List.length hread.content
      rw [List.length_append] at hsum
      obtain ⟨left, rfl⟩ : ∃ k, left = k + 1 := ⟨left - 1, by omega⟩
      obtain ⟨line, h⟩ := ih left (Nat.lt_succ_self _) (p.add limit (b'.slice place) false)
        hread.inv (by omega)
      exact ⟨_, takes_more hread hnl h⟩
    · rw [if_neg he]
      exact ⟨_, takes_last p hread he⟩

structure Next (r : LineReader σ) (line : Bytes) (li : LineInfo) (err : Option ReadErr)
    (r' : LineReader σ) : Prop where
  content : line ++ r'.buf.content = r.buf.content
  inv : r'.buf.Inv
  isLine : IsLine line err r'.buf.content
  stopped : ∀ e, err = some e → e = .eof ∨ Source.fails σ
  at_ : li.at_ = r.pos
  pos : r'.pos = r.pos.after line
  plain : r'.cp1252 = false
  limit : r'.limit = r.limit
  text : Within r.limit line.length → li.tooLong = false ∧ li.text = line ∧ li.blank = false

/-- **`next` takes the next line**, when no line is recoded. -/
theorem next_line [LawfulSource σ] {r : LineReader σ} (hinv : r.buf.Inv)
    (hplain : r.cp1252 = false) : ∃ line, Next r line r.next.1 r.next.2.1 r.next.2.2 := by
  obtain ⟨line, h⟩ := nextLoop_takes r.limit _ {} hinv le_rfl
  unfold LineReader.next
  rcases hloop : nextLoop r.limit r.buf.content.length r.buf {} with ⟨p, e, buf⟩
  rw [hloop] at h
  simp only [hplain, Bool.false_and, Bool.false_eq_true, if_false]
  refine ⟨line, h.content, h.inv, h.isLine, h.stopped, rfl, ?_, rfl, rfl, fun hlen => ?_⟩
  · have hcount := h.isLine.count
    have hn := h.n
    dsimp only at hcount hn ⊢
    rw [Pos.after, hcount, hn]
    split <;> simp
  · obtain ⟨hp, hkept⟩ := h.kept rfl (by simpa using hlen)
    dsimp only at hp hkept ⊢
    rw [hp, hkept]
    exact ⟨rfl, rfl, rfl⟩

end

end Rpsl.Stream
