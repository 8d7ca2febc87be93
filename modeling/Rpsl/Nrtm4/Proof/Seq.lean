import Rpsl.Nrtm4.Seq
import Rpsl.Resolve.Proof.Trim

/-!
# The records of a text sequence are its pieces

However the bytes are delivered, `untilRS` takes one piece off what is left, the bytes up to the
next RS (`untilRS_spec`), and reports one that is longer than `max`. `next` takes pieces until one
is not blank (`nextFrom_spec`), so that `n` calls answer with the first `n` records
(`run_reads_pieces`).
-/

namespace Rpsl.Nrtm4

open Text Lib Resolve Reader Policy

/-! ## Slices -/

theorem trimLeftFrom_eq_drop (n : Nat) (s : Text) : ∃ k, trimLeftFrom n s = s.drop k := by
  induction s generalizing n with
  | nil => exact ⟨0, rfl⟩
  | cons c s ih =>
    cases n with
    | succ n =>
      obtain ⟨k, hk⟩ := ih n
      exact ⟨k + 1, hk⟩
    | zero =>
      rw [trimLeftFrom]
      cases spaceLen (c :: s) with
      | zero => exact ⟨0, rfl⟩
      | succ n =>
        obtain ⟨k, hk⟩ := ih n
        exact ⟨k + 1, hk⟩

theorem length_trimSpace_le (s : Text) :
    (trimSpace s).length ≤ (trimLeftFrom 0 s).length ∧ (trimLeftFrom 0 s).length ≤ s.length := by
  obtain ⟨k, hk⟩ := trimLeftFrom_eq_drop 0 s
  obtain ⟨w, hw, -⟩ := trimRight_append (trimLeftFrom 0 s)
  constructor
  · have := congrArg List.length hw
    rw [List.length_append] at this
    rw [trimSpace]
    omega
  · rw [hk, List.length_drop]
    omega

theorem take_drop_trimSpace (s : Text) :
    (s.drop (s.length - (trimLeftFrom 0 s).length)).take (trimSpace s).length = trimSpace s := by
  obtain ⟨k, hk⟩ := trimLeftFrom_eq_drop 0 s
  obtain ⟨w, hw, -⟩ := trimRight_append (trimLeftFrom 0 s)
  have hdrop : s.drop (s.length - (trimLeftFrom 0 s).length) = trimLeftFrom 0 s := by
    rw [hk, List.length_drop, List.drop_eq_drop_iff]
    omega
  rw [hdrop]
  conv_lhs => rw [hw]
  exact List.take_left' rfl

theorem take_drop_take_drop {α : Type} (mem : List α) (off len : Nat) {k m : Nat}
    (h : k + m ≤ len) :
    (mem.drop (off + k)).take m = (((mem.drop off).take len).drop k).take m := by
  rw [List.drop_take, List.drop_drop, List.take_take, Nat.min_eq_left (by omega)]

namespace SeqReader

theorem bytes_trim (s : SeqReader) (sl : Slice) : s.bytes (s.trim sl) = trimSpace (s.bytes sl) := by
  have hlen : (s.bytes sl).length ≤ sl.len := by
    unfold bytes
    split <;> exact List.length_take_le _ _
  have hle := length_trimSpace_le (s.bytes sl)
  conv_rhs => rw [← take_drop_trimSpace]
  cases hmem : sl.mem with
  | reader =>
    simp only [bytes, trim, hmem, slice] at hlen hle ⊢
    exact take_drop_take_drop _ _ _ (by omega)
  | own =>
    simp only [bytes, trim, hmem] at hlen hle ⊢
    exact take_drop_take_drop _ _ _ (by omega)

theorem len_trim (s : SeqReader) (sl : Slice) :
    (s.trim sl).len = (trimSpace (s.bytes sl)).length := rfl

/-! ## One piece -/

theorem toInt_add_one {max : Int64} (h : max ≠ Int64.maxValue) :
    (max + 1).toInt = max.toInt + 1 := by
  have hlt := max.toInt_lt
  have hle := max.le_toInt
  have hne : max.toInt ≠ 2 ^ 63 - 1 := fun he => h (Int64.toInt_inj.1 he)
  rw [Int64.toInt_add]
  show (max.toInt + 1).bmod (2 ^ 64) = max.toInt + 1
  rw [Int.bmod_eq_of_le] <;> omega

/-- What `untilRS` can do with a piece `p` and the pieces `ps` after it. -/
inductive Until (s : SeqReader) (p : Text) (ps : List Text) :
    Except SeqError (Slice × Option ReadErr) × SeqReader → Prop
  | tooLong {s' : SeqReader} (hlen : s.max.toInt < p.length) :
      Until s p ps (.error (.tooLong s.max), s')
  | piece {sl : Slice} {s' : SeqReader} (hlen : p.length ≤ s.max.toInt) (hinv : s'.r.Inv)
      (hmax : s'.max = s.max) (hbegun : s'.begun = s.begun) (hbytes : s'.bytes sl = p)
      (hps : s'.r.content.splitOn rs = ps) (hless : s'.r.content.length < s.r.content.length) :
      Until s p ps (.ok (sl, none), s')
  | last {sl : Slice} {s' : SeqReader} (hlen : p.length ≤ s.max.toInt) (hinv : s'.r.Inv)
      (hmax : s'.max = s.max) (hbegun : s'.begun = s.begun) (hbytes : s'.bytes sl = p)
      (hps : ps = []) (hend : s'.r.content = []) :
      Until s p ps (.ok (sl, some .eof), s')

theorem Until.of_le {s t : SeqReader} {p : Text} {ps : List Text}
    {x : Except SeqError (Slice × Option ReadErr) × SeqReader} (h : Until t p ps x)
    (hmax : t.max = s.max) (hbegun : t.begun = s.begun)
    (hle : t.r.content.length ≤ s.r.content.length) : Until s p ps x := by
  cases h with
  | tooLong hlen =>
    rw [hmax] at hlen ⊢
    exact .tooLong hlen
  | piece hlen hinv hmax' hbegun' hbytes hps hless =>
    exact .piece (hmax ▸ hlen) hinv (hmax'.trans hmax) (hbegun'.trans hbegun) hbytes hps
      (hless.trans_le hle)
  | last hlen hinv hmax' hbegun' hbytes hps hend =>
    exact .last (hmax ▸ hlen) hinv (hmax'.trans hmax) (hbegun'.trans hbegun) hbytes hps hend

theorem append_of_splitOn {xs ys p : Text} {ps : List Text} (hxs : rs ∉ xs)
    (h : (xs ++ ys).splitOn rs = p :: ps) : ∃ q, p = xs ++ q := by
  induction xs generalizing p ps with
  | nil => exact ⟨p, rfl⟩
  | cons x xs ih =>
    obtain ⟨hx, hxs⟩ := not_or.1 fun hor => hxs (List.mem_cons.2 hor)
    cases hrest : (xs ++ ys).splitOn rs with
    | nil => exact absurd hrest (List.splitOn_ne_nil _ _)
    | cons q qs =>
      obtain ⟨q', rfl⟩ := ih hxs hrest
      rw [List.cons_append, List.splitOn_cons_eq_if_modifyHead, hrest,
        if_neg fun he => hx (beq_iff_eq.1 he).symm] at h
      cases h
      exact ⟨q', rfl⟩

section

variable {out chunk : Text} {s : SeqReader} {place : Nat × Nat} {err : Option ReadErr}
  {r : Reader Char}

theorem untilFrom_found {q : Text} (hmax : s.max ≠ Int64.maxValue) (hinv : r.Inv)
    (hslice : s.r.readSlice rs = (place, none, r)) (hchunk : r.slice place = q ++ [rs])
    (hless : r.content.length < s.r.content.length) (fuel : Nat) :
    Until s (out ++ q) (r.content.splitOn rs) (s.untilFrom fuel out) := by
  have hsum : out.length + (q ++ [rs]).length = (out ++ q).length + 1 := by
    rw [List.length_append, List.length_append]
    rfl
  unfold untilFrom
  rw [hslice]
  dsimp only
  rw [hchunk, toInt_add_one hmax, hsum]
  split
  · exact .tooLong (by omega)
  · have hlen : ((out ++ q).length : Int) ≤ s.max.toInt := by omega
    split
    · -- whole in the reader's buffer
      rename_i hnil
      obtain ⟨-, rfl⟩ := hnil
      refine .piece hlen hinv rfl rfl ?_ rfl hless
      show (r.buf.drop place.1).take ((q ++ [rs]).length - 1) = q
      have hle : (q ++ [rs]).length - 1 ≤ place.2 := by
        rw [← hchunk, slice, List.length_take]
        omega
      rw [← Nat.min_eq_left hle, ← List.take_take]
      show (r.slice place).take _ = q
      rw [hchunk]
      exact List.take_left' (by simp)
    · refine .piece hlen hinv rfl rfl ?_ rfl hless
      show ((out ++ (q ++ [rs])).drop 0).take ((out ++ (q ++ [rs])).length - 1) = out ++ q
      rw [List.drop_zero, ← List.append_assoc]
      exact List.take_left' (by simp)

theorem untilFrom_eof (hmax : s.max ≠ Int64.maxValue) (hinv : r.Inv)
    (hslice : s.r.readSlice rs = (place, some .eof, r)) (hchunk : r.slice place = chunk)
    (hend : r.content = []) (fuel : Nat) :
    Until s (out ++ chunk) [] (s.untilFrom fuel out) := by
  unfold untilFrom
  rw [hslice]
  dsimp only
  rw [hchunk, toInt_add_one hmax, ← List.length_append]
  split
  · exact .tooLong (by omega)
  · rw [if_neg fun h => (by cases h.1)]
    split
    · exact .tooLong (by assumption)
    · refine .last (by omega) hinv rfl rfl ?_ rfl hend
      show ((out ++ chunk).drop 0).take (out ++ chunk).length = out ++ chunk
      rw [List.drop_zero, List.take_length]

theorem untilFrom_full (hmax : s.max ≠ Int64.maxValue)
    (hslice : s.r.readSlice rs = (place, some .bufferFull, r)) (hchunk : r.slice place = chunk) :
    s.max.toInt < (out ++ chunk).length ∧
        (∀ fuel, s.untilFrom fuel out = (.error (.tooLong s.max), { s with r := r })) ∨
      ∀ fuel, s.untilFrom (fuel + 1) out =
        untilFrom fuel (out ++ chunk) { s with r := r, buf := out ++ chunk } := by
  by_cases hlen : s.max.toInt + 1 < ((out ++ chunk).length : Int)
  · left
    refine ⟨by omega, fun fuel => ?_⟩
    unfold untilFrom
    rw [hslice]
    dsimp only
    rw [hchunk, toInt_add_one hmax, ← List.length_append, if_pos hlen]
  · right
    intro fuel
    conv_lhs => unfold untilFrom
    rw [hslice]
    dsimp only
    rw [hchunk, toInt_add_one hmax, ← List.length_append, if_neg hlen,
      if_neg fun h => (by cases h.1)]

end

/-- **`untilRS` takes one piece**, whatever it is joined from. -/
theorem untilFrom_spec (fuel : Nat) {out : Text} {s : SeqReader} {p : Text} {ps : List Text}
    (hmax : s.max ≠ Int64.maxValue) (hr : s.r.Inv) (hout : rs ∉ out)
    (hps : (out ++ s.r.content).splitOn rs = p :: ps) (hfuel : s.r.content.length ≤ fuel) :
    Until s p ps (s.untilFrom fuel out) := by
  induction fuel using Nat.strong_induction_on generalizing out s with
  | _ fuel ih =>
    have hread := readSlice_spec rs hr
    rcases hslice : s.r.readSlice rs with ⟨place, err, r⟩
    rw [hslice] at hread
    have hinv := hread.inv
    have hcontent := hread.content
    have hends := hread.ends
    dsimp only at hinv hcontent hends
    generalize hchunk : r.slice place = chunk at hends hcontent
    generalize hrest : r.content = rest at hends hcontent
    cases hends with
    | @found q _ hq =>
      have hoq : rs ∉ out ++ q := fun h => (List.mem_append.1 h).elim hout hq
      rw [← hcontent, List.append_assoc, List.singleton_append, ← List.append_assoc,
        List.splitOn_append_cons_self_of_not_mem hoq, ← hrest] at hps
      obtain ⟨rfl, rfl⟩ := List.cons.inj hps
      apply untilFrom_found hmax hinv hslice hchunk
      rw [← hcontent, hrest, List.length_append, List.length_append, List.length_singleton]
      omega
    | eof hnot =>
      have hoc : rs ∉ out ++ chunk := fun h => (List.mem_append.1 h).elim hout hnot
      rw [← hcontent, List.append_nil, List.splitOn_eq_singleton hoc] at hps
      obtain ⟨rfl, rfl⟩ := List.cons.inj hps
      exact untilFrom_eof hmax hinv hslice hchunk hrest _
    | failed _ _ _ hfails => exact False.elim hfails
    | full hnot hlen =>
      have hoc : rs ∉ out ++ chunk := fun h => (List.mem_append.1 h).elim hout hnot
      rw [← hcontent, ← List.append_assoc] at hps
      rcases untilFrom_full hmax hslice hchunk with ⟨hlong, hturn⟩ | hturn
      · obtain ⟨q, rfl⟩ := append_of_splitOn hoc hps
        rw [hturn]
        refine .tooLong ?_
        rw [List.length_append]
        omega
      · -- the buffer was not empty, so there is fuel for what is after it
        have hpos := hr.size_pos
        rw [← hcontent, List.length_append, ← hrest] at hfuel
        obtain ⟨fuel, rfl⟩ : ∃ k, fuel = k + 1 := ⟨fuel - 1, by omega⟩
        rw [← hrest] at hps
        rw [hturn]
        have hrec := ih fuel (Nat.lt_succ_self _) (s := { s with r := r, buf := out ++ chunk })
          hmax hinv hoc hps (show r.content.length ≤ fuel by omega)
        refine Until.of_le (s := s) hrec rfl rfl ?_
        show r.content.length ≤ s.r.content.length
        rw [← hcontent, List.length_append, hrest]
        omega

theorem untilRS_spec {s : SeqReader} {p : Text} {ps : List Text} (hmax : s.max ≠ Int64.maxValue)
    (hr : s.r.Inv) (hps : s.r.content.splitOn rs = p :: ps) : Until s p ps s.untilRS :=
  untilFrom_spec _ hmax hr List.not_mem_nil hps (le_refl _)

/-! ## One record -/

/-- A piece is longer than `m` bytes. -/
def Long (m : Int64) (ps : List Text) : Prop := ∃ p ∈ ps, m.toInt < p.length

def Skipped (m : Int64) (ps : List Text) : Prop :=
  ∀ p ∈ ps, trimSpace p = [] ∧ p.length ≤ m.toInt

/-- The reader has begun and the pieces `ps` are left, or none and the end has been reported. -/
structure At (m : Int64) (s : SeqReader) (ps : List Text) : Prop where
  inv : s.r.Inv
  max : s.max = m
  begun : s.begun = true
  pieces : s.r.content.splitOn rs = ps ∨ ps = [] ∧ s.r.content = [] ∧ 0 ≤ m.toInt

/-- What `next` can do with the pieces `ps`: it skips the blank ones, to one that is too long or is
a record, or to the end. -/
inductive Next (m : Int64) : List Text → Except SeqError (Option Slice) × SeqReader → Prop
  | tooLong {skipped : List Text} {p : Text} {ps : List Text} {s' : SeqReader}
      (hskip : Skipped m skipped) (hlen : m.toInt < p.length) :
      Next m (skipped ++ p :: ps) (.error (.tooLong m), s')
  | record {skipped : List Text} {p : Text} {ps : List Text} {sl : Slice} {s' : SeqReader}
      (hskip : Skipped m skipped) (hlen : p.length ≤ m.toInt) (hne : trimSpace p ≠ [])
      (hbytes : s'.bytes sl = trimSpace p) (hat : At m s' ps) :
      Next m (skipped ++ p :: ps) (.ok (some sl), s')
  | eof {skipped : List Text} {s' : SeqReader} (hskip : Skipped m skipped) (hat : At m s' []) :
      Next m skipped (.ok none, s')

theorem skipped_nil (m : Int64) : Skipped m [] := fun _ h => absurd h List.not_mem_nil

theorem Next.skip {m : Int64} {p : Text} {ps : List Text}
    {x : Except SeqError (Option Slice) × SeqReader} (hblank : trimSpace p = [])
    (hlen : p.length ≤ m.toInt) (h : Next m ps x) : Next m (p :: ps) x := by
  have hskip : ∀ {skipped}, Skipped m skipped → Skipped m (p :: skipped) :=
    fun hs => List.forall_mem_cons.2 ⟨⟨hblank, hlen⟩, hs⟩
  cases h with
  | tooLong hs hlong => exact .tooLong (hskip hs) hlong
  | record hs hle hne hbytes hat => exact .record (hskip hs) hle hne hbytes hat
  | eof hs hat => exact .eof (hskip hs) hat

variable {m : Int64}

theorem trim_len_pos {s : SeqReader} {sl : Slice} {p : Text} (h : s.bytes sl = p) :
    0 < (s.trim sl).len ↔ trimSpace p ≠ [] := by
  rw [len_trim, h]
  exact List.length_pos_iff

theorem next_of_piece {s : SeqReader} {sl : Slice} {p : Text} {ps : List Text}
    {x : Except SeqError (Option Slice) × SeqReader} (hbytes : s.bytes sl = p)
    (hlen : p.length ≤ m.toInt) (hat : At m s ps) (hrest : Next m ps x) :
    Next m (p :: ps) (if 0 < (s.trim sl).len then (.ok (some (s.trim sl)), s) else x) := by
  split
  · rename_i hpos
    exact .record (skipped_nil m) hlen
      ((trim_len_pos hbytes).1 hpos) ((bytes_trim s sl).trans (congrArg _ hbytes)) hat
  · rename_i hpos
    have hblank := not_not.1 fun hne => hpos ((trim_len_pos hbytes).2 hne)
    exact .skip hblank hlen hrest

theorem nextFrom_pieces (hm : m ≠ Int64.maxValue) (fuel : Nat) {s : SeqReader} {ps : List Text}
    (hinv : s.r.Inv) (hmax : s.max = m) (hbegun : s.begun = true)
    (hps : s.r.content.splitOn rs = ps) (hfuel : s.r.content.length < fuel) :
    Next m ps (s.nextFrom fuel) := by
  induction fuel generalizing s ps with
  | zero => exact absurd hfuel (Nat.not_lt_zero _)
  | succ fuel ih =>
    cases ps with
    | nil => exact absurd hps (List.splitOn_ne_nil _ _)
    | cons p ps =>
      subst hmax
      rw [nextFrom]
      have htook := untilRS_spec hm hinv hps
      generalize s.untilRS = x at htook
      cases htook with
      | tooLong hlen => exact .tooLong (skipped_nil _) hlen
      | @piece sl s' hlen hinv' hmax' hbegun' hbytes hps' hless =>
        rw [hbegun] at hbegun'
        have hat : At s.max s' ps := ⟨hinv', hmax', hbegun', .inl hps'⟩
        have hrest := ih hinv' hmax' hbegun' hps' (by omega)
        dsimp only
        rw [hbegun', if_neg (fun h => h rfl), if_neg (show ¬ none = some ReadErr.eof by simp)]
        exact next_of_piece hbytes hlen hat hrest
      | @last sl s' hlen hinv' hmax' hbegun' hbytes hps' hend =>
        rw [hbegun] at hbegun'
        have hat : At s.max s' [] := ⟨hinv', hmax', hbegun', .inr ⟨rfl, hend, by omega⟩⟩
        subst hps'
        dsimp only
        rw [hbegun', if_neg (fun h => h rfl), if_pos rfl]
        exact next_of_piece hbytes hlen hat (.eof (skipped_nil _) hat)

theorem Next.of_end {x : Except SeqError (Option Slice) × SeqReader} (hm : 0 ≤ m.toInt)
    (h : Next m [[]] x) : Next m [] x := by
  generalize hps : [[]] = ps at h
  cases h with
  | @tooLong skipped p _ _ _ hlong =>
    have hp : p ∈ [[]] := hps ▸ List.mem_append_right _ List.mem_cons_self
    rw [List.mem_singleton.1 hp] at hlong
    exact absurd hm (not_le_of_gt hlong)
  | @record skipped p _ _ _ _ _ hne =>
    have hp : p ∈ [[]] := hps ▸ List.mem_append_right _ List.mem_cons_self
    rw [List.mem_singleton.1 hp] at hne
    exact absurd rfl hne
  | eof _ hat => exact .eof (skipped_nil _) hat

/-- **`next` takes pieces to the first that is not blank.** -/
theorem nextFrom_spec (hm : m ≠ Int64.maxValue) {fuel : Nat} {s : SeqReader} {ps : List Text}
    (hat : At m s ps) (hfuel : s.r.content.length < fuel) : Next m ps (s.nextFrom fuel) := by
  rcases hat.pieces with hps | ⟨rfl, hend, hnonneg⟩
  · exact nextFrom_pieces hm fuel hat.inv hat.max hat.begun hps hfuel
  · apply Next.of_end hnonneg
    apply nextFrom_pieces hm fuel hat.inv hat.max hat.begun _ hfuel
    rw [hend, List.splitOn_nil]

/-! ## Successive calls -/

/-- The records of pieces. -/
def records (ps : List Text) : List Text := (ps.map trimSpace).filter (· ≠ [])

/-- The pieces that `n` calls reach: up to the `n`-th that is not blank. -/
def reached : Nat → List Text → List Text
  | _, [] => []
  | 0, _ :: _ => []
  | n + 1, p :: ps => p :: if trimSpace p = [] then reached (n + 1) ps else reached n ps

/-- What `n` calls answer that reach the pieces `ps`: their records, and then the end. -/
def answers (ps : List Text) (n : Nat) : List Answer :=
  (records ps).map .record ++ List.replicate (n - (records ps).length) .eof

/-- The answers of `n` calls, and of one more that reaches a piece that is too long. -/
structure Runs (m : Int64) (ps : List Text) (s : SeqReader) (n : Nat) : Prop where
  ok : ¬ Long m (reached n ps) → s.run n = answers (reached n ps) n
  error : ¬ Long m (reached n ps) → Long m (reached (n + 1) ps) →
    ∃ e, s.run (n + 1) = answers (reached n ps) n ++ [.error e]

theorem reached_skip {skipped : List Text} (h : Skipped m skipped) (n : Nat) (ps : List Text) :
    reached (n + 1) (skipped ++ ps) = skipped ++ reached (n + 1) ps := by
  induction skipped with
  | nil => rfl
  | cons p skipped ih =>
    rw [List.cons_append, reached, if_pos (h p List.mem_cons_self).1,
      ih fun q hq => h q (List.mem_cons_of_mem _ hq)]
    rfl

theorem records_skip {skipped : List Text} (h : Skipped m skipped) (ps : List Text) :
    records (skipped ++ ps) = records ps := by
  induction skipped with
  | nil => rfl
  | cons p skipped ih =>
    have hblank := (h p List.mem_cons_self).1
    rw [List.cons_append, records, List.map_cons, List.filter_cons_of_neg (by simp [hblank])]
    exact ih fun q hq => h q (List.mem_cons_of_mem _ hq)

theorem long_skip {skipped : List Text} (h : Skipped m skipped) (ps : List Text) :
    Long m (skipped ++ ps) ↔ Long m ps := by
  constructor
  · intro hlong
    obtain ⟨p, hp, hlen⟩ := hlong
    rcases List.mem_append.1 hp with hp | hp
    · have := (h p hp).2
      omega
    · exact ⟨p, hp, hlen⟩
  · intro hlong
    obtain ⟨p, hp, hlen⟩ := hlong
    exact ⟨p, List.mem_append_right _ hp, hlen⟩

theorem reached_zero (ps : List Text) : reached 0 ps = [] := by
  cases ps <;> rfl

theorem not_long_nil : ¬ Long m [] := by
  intro hlong
  obtain ⟨p, hp, -⟩ := hlong
  cases hp

theorem run_of_next {s : SeqReader} {ps : List Text} (hnext : Next m ps s.next) :
    (∀ n, Long m (reached (n + 1) ps) ∧ s.run (n + 1) = [.error (.tooLong m)]) ∨
      ∃ a s' ps', At m s' ps' ∧ ∀ n, s.run (n + 1) = a :: s'.run n ∧
        (Long m (reached (n + 1) ps) ↔ Long m (reached n ps')) ∧
        answers (reached (n + 1) ps) (n + 1) = a :: answers (reached n ps') n := by
  simp only [run]
  generalize s.next = x at hnext
  cases hnext with
  | @tooLong skipped p rest _ hskip hlen =>
    left
    intro n
    refine ⟨?_, rfl⟩
    rw [reached_skip hskip, long_skip hskip, reached]
    exact ⟨p, List.mem_cons_self, hlen⟩
  | @record skipped p rest sl s' hskip hlen hne hbytes hat =>
    right
    refine ⟨.record (trimSpace p), s', rest, hat, ?_⟩
    intro n
    have hrecords : records (p :: reached n rest) = trimSpace p :: records (reached n rest) := by
      rw [records, List.map_cons, List.filter_cons_of_pos (by simpa using hne)]
      rfl
    rw [reached_skip hskip, long_skip hskip, reached, if_neg hne, answers, records_skip hskip,
      hrecords]
    refine ⟨congrArg (Answer.record · :: run n s') hbytes, ?_, ?_⟩
    · constructor
      · intro hlong
        obtain ⟨q, hq, hlong⟩ := hlong
        rcases List.mem_cons.1 hq with rfl | hq
        · omega
        · exact ⟨q, hq, hlong⟩
      · intro hlong
        obtain ⟨q, hq, hlong⟩ := hlong
        exact ⟨q, List.mem_cons_of_mem _ hq, hlong⟩
    · rw [List.length_cons, Nat.add_sub_add_right]
      rfl
  | eof hskip hat =>
    right
    refine ⟨.eof, _, [], hat, ?_⟩
    intro n
    have hreached := reached_skip hskip n []
    have hlong := long_skip hskip []
    have hrecords := records_skip hskip []
    rw [List.append_nil] at hreached hlong hrecords
    rw [hreached, reached, List.append_nil, hlong, reached, answers, hrecords]
    exact ⟨rfl, Iff.rfl, rfl⟩

theorem runs_zero {s : SeqReader} {ps : List Text} (hnext : Next m ps s.next) : Runs m ps s 0 := by
  refine ⟨fun _ => ?_, fun _ hlong => ?_⟩
  · rw [reached_zero]
    rfl
  · rw [reached_zero]
    rcases run_of_next hnext with herror | ⟨a, s', ps', -, hrun⟩
    · exact ⟨_, (herror 0).2⟩
    · have := (hrun 0).2.1.1 hlong
      rw [reached_zero] at this
      exact absurd this not_long_nil

theorem runs_succ {s : SeqReader} {ps : List Text} (hnext : Next m ps s.next) {n : Nat}
    (ih : ∀ {s ps}, At m s ps → Runs m ps s n) : Runs m ps s (n + 1) := by
  rcases run_of_next hnext with herror | ⟨a, s', ps', hat, hrun⟩
  · exact ⟨fun h => absurd (herror n).1 h, fun h => absurd (herror n).1 h⟩
  · obtain ⟨hrun0, hlong0, hanswers0⟩ := hrun n
    obtain ⟨hrun1, hlong1, -⟩ := hrun (n + 1)
    refine ⟨fun hok => ?_, fun hok hlong => ?_⟩
    · rw [hrun0, hanswers0, (ih hat).ok fun h => hok (hlong0.2 h)]
    · obtain ⟨e, he⟩ := (ih hat).error (fun h => hok (hlong0.2 h)) (hlong1.1 hlong)
      exact ⟨e, by rw [hrun1, hanswers0, he, List.cons_append]⟩

theorem runs (hm : m ≠ Int64.maxValue) {s : SeqReader} {ps : List Text} (hat : At m s ps)
    (n : Nat) : Runs m ps s n := by
  induction n generalizing s ps with
  | zero => exact runs_zero (nextFrom_spec hm hat (Nat.lt_succ_self _))
  | succ n ih => exact runs_succ (nextFrom_spec hm hat (Nat.lt_succ_self _)) ih

/-! ## From the first call -/

theorem next_of_new {s : SeqReader} {p : Text} {ps : List Text} (hm : m ≠ Int64.maxValue)
    (hinv : s.r.Inv) (hmax : s.max = m) (hbegun : s.begun = false)
    (hps : s.r.content.splitOn rs = p :: ps) :
    (m.toInt < p.length ∨ trimSpace p ≠ []) ∧ (∃ e, ∃ s', s.next = (.error e, s')) ∨
      (p.length ≤ m.toInt ∧ trimSpace p = []) ∧ Next m ps s.next := by
  subst hmax
  unfold next
  rw [nextFrom]
  have htook := untilRS_spec hm hinv hps
  generalize s.untilRS = x at htook
  cases htook with
  | tooLong hlen => exact .inl ⟨.inl hlen, _, _, rfl⟩
  | @piece sl s' hlen hinv' hmax' hbegun' hbytes hps' hless =>
    rw [hbegun] at hbegun'
    dsimp only
    rw [hbegun', if_pos Bool.false_ne_true]
    by_cases hpos : 0 < (s'.trim sl).len
    · rw [if_pos hpos]
      exact .inl ⟨.inr ((trim_len_pos hbytes).1 hpos), _, _, rfl⟩
    · have hblank := not_not.1 fun hne => hpos ((trim_len_pos hbytes).2 hne)
      rw [if_neg hpos, if_neg (show ¬ none = some ReadErr.eof by simp)]
      exact .inr ⟨⟨hlen, hblank⟩, nextFrom_pieces hm _ hinv' hmax' rfl hps' hless⟩
  | @last sl s' hlen hinv' hmax' hbegun' hbytes hps' hend =>
    rw [hbegun] at hbegun'
    dsimp only
    rw [hbegun', if_pos Bool.false_ne_true]
    by_cases hpos : 0 < (s'.trim sl).len
    · rw [if_pos hpos]
      exact .inl ⟨.inr ((trim_len_pos hbytes).1 hpos), _, _, rfl⟩
    · have hblank := not_not.1 fun hne => hpos ((trim_len_pos hbytes).2 hne)
      rw [if_neg hpos, if_pos rfl, hps']
      exact .inr ⟨⟨hlen, hblank⟩, .eof (skipped_nil _)
        ⟨hinv', hmax', rfl, .inr ⟨rfl, hend, by omega⟩⟩⟩

/-- Among the pieces that `n` calls reach one is longer than `m` bytes, or the first, before any
RS, is not blank. -/
def Refused (m : Int64) (pieces : List Text) (n : Nat) : Prop :=
  0 < n ∧ (trimSpace (pieces.headD []) ≠ [] ∨
    Long m (pieces.headD [] :: reached n pieces.tail))

theorem error_not_mem_answers (e : SeqError) (ps : List Text) (n : Nat) :
    .error e ∉ answers ps n := by
  rw [answers, List.mem_append, List.mem_map]
  intro h
  rcases h with ⟨t, -, ht⟩ | h
  · cases ht
  · cases List.eq_of_mem_replicate h

theorem runs_of_next (hm : m ≠ Int64.maxValue) {s : SeqReader} {ps : List Text}
    (hnext : Next m ps s.next) (n : Nat) : Runs m ps s n := by
  cases n with
  | zero => exact runs_zero hnext
  | succ n => exact runs_succ hnext fun hat => runs hm hat n

theorem refused_iff {p : Text} {ps : List Text} (hlen : p.length ≤ m.toInt)
    (hblank : trimSpace p = []) (n : Nat) :
    Refused m (p :: ps) n ↔ Long m (reached n ps) := by
  have hcons : Long m (p :: reached n ps) ↔ Long m (reached n ps) :=
    long_skip (List.forall_mem_singleton.2 ⟨hblank, hlen⟩) _
  unfold Refused
  rw [List.headD_cons, List.tail_cons, hcons]
  constructor
  · intro h
    exact h.2.resolve_left fun hne => hne hblank
  · intro h
    refine ⟨Nat.pos_of_ne_zero fun h0 => ?_, .inr h⟩
    rw [h0, reached_zero] at h
    exact not_long_nil h

/-- **Text sequences are read exactly.** However the bytes are delivered, as long as no piece that
`n` calls reach is refused they answer with the records of those pieces, each still in its slice
when the next call is made, and then with the end; and one more call reports an error exactly if it
reaches a piece that is refused. -/
theorem run_reads_pieces (d : Delivery Char) {m : Int64} (hm : m ≠ Int64.maxValue) (n : Nat)
    (hok : ¬ Refused m (d.elems.splitOn rs) n) :
    (newSeqReader d m).run n = answers (reached n (d.elems.splitOn rs).tail) n ∧
      ((∃ e, (newSeqReader d m).run (n + 1) =
          answers (reached n (d.elems.splitOn rs).tail) n ++ [.error e]) ↔
        Refused m (d.elems.splitOn rs) (n + 1)) := by
  cases hps : d.elems.splitOn rs with
  | nil => exact absurd hps (List.splitOn_ne_nil _ _)
  | cons p ps =>
    rw [hps] at hok
    rcases next_of_new (s := newSeqReader d m) hm (inv_new d _) rfl rfl hps with
      ⟨hbad, e, s', hnext⟩ | ⟨⟨hlen, hblank⟩, hnext⟩
    · -- the first piece is refused, so that no call comes before
      have hrefused : ∀ k, Refused m (p :: ps) (k + 1) := by
        intro k
        refine ⟨Nat.succ_pos k, ?_⟩
        rcases hbad with hlong | hne
        · exact .inr ⟨p, List.mem_cons_self, hlong⟩
        · exact .inl hne
      cases n with
      | succ n => exact absurd (hrefused n) hok
      | zero =>
        rw [reached_zero]
        refine ⟨rfl, fun _ => hrefused 0, fun _ => ⟨e, ?_⟩⟩
        rw [run, hnext]
        rfl
    · have hruns := runs_of_next hm hnext
      rw [refused_iff hlen hblank] at hok ⊢
      refine ⟨(hruns n).ok hok, fun herror => ?_, (hruns n).error hok⟩
      by_contra hok'
      obtain ⟨e, he⟩ := herror
      rw [(hruns (n + 1)).ok hok'] at he
      apply error_not_mem_answers e (reached (n + 1) ps) (n + 1)
      rw [he]
      exact List.mem_append_right _ List.mem_cons_self

/-- A blank and three records, of two, three and seven bytes, in four reads. -/
def threeRecords : Delivery Char :=
  ⟨[⟨⟨0, Nat.zero_lt_succ 99⟩, ' ', [rs]⟩, ⟨⟨1, Nat.one_lt_succ_succ 98⟩, 'a', ['\n', rs, 'b']⟩,
    ⟨⟨0, Nat.zero_lt_succ 99⟩, 'c', ['\n', rs]⟩,
    ⟨⟨0, Nat.zero_lt_succ 99⟩, 'd', ['e', 'f', 'g', 'h', 'i', '\n']⟩],
    ⟨0, Nat.zero_lt_succ 99⟩, true⟩

/-- Of records of at most five bytes the first two are read and the third is refused. -/
theorem run_threeRecords :
    (newSeqReader threeRecords 5).run 2 = [.record ['a'], .record ['b', 'c']] ∧
    ∃ e, (newSeqReader threeRecords 5).run 3 = [.record ['a'], .record ['b', 'c'], .error e] := by
  have hrefused : ¬ Refused 5 (threeRecords.elems.splitOn rs) 2 ∧
      Refused 5 (threeRecords.elems.splitOn rs) 3 := by
    unfold Refused Long
    decide +kernel
  have hanswers : answers (reached 2 (threeRecords.elems.splitOn rs).tail) 2 =
      [.record ['a'], .record ['b', 'c']] := by
    decide +kernel
  have hrun := run_reads_pieces threeRecords (by decide) 2 hrefused.1
  rw [hanswers] at hrun
  exact ⟨hrun.1, hrun.2.2 hrefused.2⟩

/-- With the largest `int` for `max`, `max + 1` is the smallest and every record is refused. -/
theorem run_maxValue : (newSeqReader threeRecords Int64.maxValue).run 1 =
      [.error (.tooLong Int64.maxValue)] ∧
    ¬ Refused Int64.maxValue (threeRecords.elems.splitOn rs) 1 := by
  unfold Refused Long
  decide +kernel

end SeqReader

end Rpsl.Nrtm4
