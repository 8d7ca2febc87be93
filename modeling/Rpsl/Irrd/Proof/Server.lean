import Rpsl.Irrd.Server

/-!
# Lines are read as they stand in the stream

However the bytes are delivered, `readLine` takes the next line off what is left of them
(`readLine_spec`), and waits for no chunk after those that decide the line: that have its end, or
show it to be too long.
-/

namespace Rpsl.Irrd

open Text Lib Reader

variable (max : Int) {s p rest line : Text} {br : Reader Char}

/-- What reading a line off a text can do, and what is left then: a line is taken whole, and of one
that is too long a part may be. -/
inductive LineRead : Text → Except LineError Text → Text → Prop
  | whole {p rest : Text} (hp : '\n' ∉ p) (hlen : p.length ≤ max) :
      LineRead (p ++ '\n' :: rest) (.ok p) rest
  | last {p : Text} (hp : '\n' ∉ p) (hne : p ≠ []) (hlen : p.length ≤ max) : LineRead p (.ok p) []
  | tooLong {c p rest : Text} (hc : '\n' ∉ c ++ p) (hp : p <+: rest)
      (hlen : max < (c ++ p).length) : LineRead (c ++ rest) (.error .tooLong) rest
  | eof (hmax : 0 ≤ max) : LineRead [] (.error (.read .eof)) []

/-- A text that has the end of its first line, or more of it than a line may have. -/
def Decided (t : Text) : Prop := '\n' ∈ t ∨ max < t.length

structure LineTaken (line : Text) (br : Reader Char) (out : Except LineError Text × Reader Char) :
    Prop where
  inv : out.2.Inv
  read : LineRead max (line ++ br.content) out.1 out.2.content
  chunks : ∀ cs cs', br.rd.chunks = cs ++ cs' →
    Decided max (line ++ br.unread ++ cs.flatMap Chunk.elems) → cs' <:+ out.2.rd.chunks

theorem not_mem_append {t : Text} (hp : '\n' ∉ p) (ht : '\n' ∉ t) : '\n' ∉ p ++ t :=
  fun h => (List.mem_append.1 h).elim hp ht

/-! ## One turn of the loop -/

theorem split_newline {scanned i : Nat} {buf : Text} (hscan : '\n' ∉ buf.take scanned)
    (hidx : (buf.drop scanned).idxOf? '\n' = some i) :
    i + scanned < buf.length ∧ '\n' ∉ buf.take (i + scanned) ∧
      buf.take (i + scanned) ++ '\n' :: buf.drop (i + scanned + 1) = buf := by
  obtain ⟨hi, hget, hbefore⟩ := List.idxOf?_eq_some_iff.1 hidx
  refine ⟨by rw [List.length_drop] at hi; omega, ?_⟩
  rw [Nat.add_comm i scanned, List.take_add, Nat.add_assoc, ← List.drop_drop]
  refine ⟨not_mem_append hscan fun h => ?_, ?_⟩
  · obtain ⟨j, hj, hnl⟩ := List.mem_take_iff_getElem.1 h
    exact hbefore j (by omega) hnl
  · rw [← hget, List.append_assoc, List.getElem_cons_drop, List.take_append_drop,
      List.take_append_drop]

theorem taken_found {k : Nat} (hb : br.Inv) (hline : '\n' ∉ line) (hk : k < br.unread.length)
    (hp : '\n' ∉ br.unread.take k)
    (hunread : br.unread.take k ++ '\n' :: br.unread.drop (k + 1) = br.unread) :
    LineTaken max line br (if max < line.length + k then (.error .tooLong, br)
      else (.ok (line ++ br.unread.take k), br.discard (k + 1))) := by
  have hlen : (line ++ br.unread.take k).length = line.length + k := by
    rw [List.length_append, List.length_take_of_le (Nat.le_of_lt hk)]
  split_ifs with hlong
  · refine ⟨hb, .tooLong (not_mem_append hline hp) ?_ (by omega), fun cs _ hcs _ => ⟨cs, hcs.symm⟩⟩
    exact (List.take_prefix _ _).trans (List.prefix_append _ _)
  · refine ⟨inv_discard hb hk, ?_, fun cs _ hcs _ => ⟨cs, hcs.symm⟩⟩
    have hcontent : line ++ br.content =
        line ++ br.unread.take k ++ '\n' :: (br.discard (k + 1)).content := by
      rw [content, content, unread_discard, List.append_assoc, ← List.cons_append,
        ← List.append_assoc (br.unread.take k), hunread]
      rfl
    rw [hcontent]
    exact .whole (not_mem_append hline hp) (by omega)

theorem spill_spec (hb : br.Inv) (hline : '\n' ∉ line) (hnl : '\n' ∉ br.unread) :
    ∃ line' br', spill line br.unread br = (line', br'.unread, br') ∧ br'.Inv ∧
      line' ++ br'.content = line ++ br.content ∧ line' ++ br'.unread = line ++ br.unread ∧
      '\n' ∉ line' ∧ br'.unread.length < br'.size ∧ br'.rd = br.rd := by
  unfold spill
  split_ifs with hfull
  · have hnil : (br.discard br.unread.length).unread = [] := by
      rw [unread_discard, List.drop_length]
    have hcontent := br.content_discard br.unread.length
    rw [List.take_length] at hcontent
    refine ⟨_, _, by rw [hnil], inv_discard hb le_rfl, ?_, ?_, not_mem_append hline hnl, ?_, rfl⟩
    · rw [List.append_assoc, hcontent]
    · rw [hnil, List.append_nil]
    · rw [hnil]
      exact hb.size_pos
  · have hle := length_unread_le hb
    exact ⟨line, br, rfl, hb, rfl, rfl, hline, by omega, rfl⟩

theorem readLast_spec (hb : br.Inv) (hnl : '\n' ∉ line ++ br.unread) (hend : br.rd.elems = [])
    (hlen : (line ++ br.unread).length ≤ max) :
    (readLast max line .eof br).2.Inv ∧ LineRead max (line ++ br.content)
      (readLast max line .eof br).1 (readLast max line .eof br).2.content := by
  have hcontent : br.content = br.unread := by rw [content_delivery, hend, List.append_nil]
  rw [readLast, peek_buffered hb, hcontent]
  dsimp only
  rw [← Nat.cast_add, ← List.length_append]
  split_ifs with hnil hlong
  · have hempty := List.length_eq_zero_iff.1 (hnil.resolve_left fun h => h rfl)
    rw [hempty, hcontent, (List.append_eq_nil_iff.1 hempty).2]
    exact ⟨hb, .eof (by omega)⟩
  · exact absurd hlong (Int.not_lt.2 hlen)
  · have hleft : (br.discard br.unread.length).content = [] := by
      rw [content, unread_discard, List.drop_length]
      exact hend
    rw [hleft]
    exact ⟨inv_discard hb le_rfl, .last hnl (fun h => hnil (.inr (h ▸ rfl))) hlen⟩

theorem LineTaken.wait {line' : Text} {br' : Reader Char}
    {out : Except LineError Text × Reader Char} (h : LineTaken max line' br' out)
    (hcontent : line' ++ br'.content = line ++ br.content)
    (hopen : ¬Decided max (line ++ br.unread))
    (hchunks : br.rd.chunks.tail <:+ br'.rd.chunks) : LineTaken max line br out := by
  refine ⟨h.inv, hcontent ▸ h.read, fun cs cs' hcs hdec => ?_⟩
  cases cs with
  | nil =>
    rw [List.flatMap_nil, List.append_nil] at hdec
    exact absurd hdec hopen
  | cons c cs =>
    rw [hcs, List.cons_append, List.tail_cons] at hchunks
    obtain ⟨cs₁, hcs₁⟩ := hchunks
    refine h.chunks (cs₁ ++ cs) cs' (by rw [List.append_assoc, hcs₁]) ?_
    -- what was delivered before `cs'` is the same
    have hsame : line' ++ br'.unread ++ (cs₁ ++ cs).flatMap Chunk.elems =
        line ++ br.unread ++ (c :: cs).flatMap Chunk.elems := by
      refine (List.append_left_inj (cs'.flatMap Chunk.elems)).1 ?_
      rw [content_delivery, content_delivery, Delivery.elems, Delivery.elems, ← hcs₁, hcs]
        at hcontent
      simpa [List.flatMap_append, List.append_assoc] using hcontent
    rw [hsame]
    exact hdec

theorem readLineFrom_spec (fuel : Nat) {scanned : Nat} (hb : br.Inv) (hline : '\n' ∉ line)
    (hscan : '\n' ∉ br.unread.take scanned) (hfuel : br.rd.elems.length ≤ fuel) :
    LineTaken max line br (readLineFrom max fuel line scanned br) := by
  induction fuel using Nat.strong_induction_on generalizing br line scanned with
  | _ fuel ih =>
    unfold readLineFrom
    rw [peek_buffered hb]
    dsimp only
    cases hidx : (br.unread.drop scanned).idxOf? '\n' with
    | some i =>
      obtain ⟨hi, hp, hunread⟩ := split_newline hscan hidx
      exact taken_found max hb hline hi hp hunread
    | none =>
      have hnl : '\n' ∉ br.unread := by
        rw [← List.take_append_drop scanned br.unread]
        exact not_mem_append hscan (List.idxOf?_eq_none_iff.1 hidx)
      have hnl' := not_mem_append hline hnl
      dsimp only
      rw [← Nat.cast_add, ← List.length_append]
      split_ifs with hlong
      · exact ⟨hb, .tooLong hnl' (List.prefix_append _ _) hlong, fun cs _ hcs _ => ⟨cs, hcs.symm⟩⟩
      have hopen : ¬Decided max (line ++ br.unread) := fun h => h.elim hnl' hlong
      obtain ⟨line', br', hspill, hinv', hcontent', happ, hline', hroom, hrd⟩ :=
        spill_spec hb hline hnl
      rw [hspill]
      dsimp only
      have hpeek := peek_spec hinv' hroom
      rcases hres : br'.peek (br'.unread.length + 1) with ⟨got, e, br₂⟩
      rw [hres] at hpeek
      dsimp only at hpeek ⊢
      have hcontent₂ := hpeek.content
      cases e with
      | some e =>
        obtain ⟨heof, hsame, hend⟩ := hpeek.last (Option.some_ne_none e)
        cases heof
        have hend₂ : br₂.rd.elems = [] := by
          rw [content_delivery, content_delivery, hsame, hend] at hcontent₂
          exact List.append_cancel_left hcontent₂
        rw [← happ, ← hsame] at hnl' hlong
        obtain ⟨hinv, hread⟩ := readLast_spec max hpeek.inv hnl' hend₂ (Int.not_lt.1 hlong)
        rw [hcontent₂, hcontent'] at hread
        refine ⟨hinv, hread, fun cs cs' hcs hdec => ?_⟩
        -- nothing was to be delivered, so nothing decides the line
        rw [hrd, Delivery.elems, hcs, List.flatMap_append] at hend
        rw [(List.append_eq_nil_iff.1 hend).1, List.append_nil] at hdec
        exact absurd hdec hopen
      | none =>
        have hmore := hpeek.more rfl
        have hless : br₂.rd.elems.length < br.rd.elems.length := by
          have := congrArg List.length hcontent₂
          rw [content_delivery, content_delivery, List.length_append, List.length_append, hrd]
            at this
          omega
        have hsame : br₂.unread.take br'.unread.length = br'.unread := by
          have := congrArg (List.take br'.unread.length) hcontent₂
          rwa [content, content, List.take_left, List.take_append_of_le_length (by omega)] at this
        have hscan₂ : '\n' ∉ br₂.unread.take br'.unread.length := by
          rw [hsame]
          exact fun h => hnl' (happ ▸ List.mem_append_right _ h)
        cases fuel with
        | zero => omega
        | succ fuel =>
          have htaken := ih fuel (Nat.lt_succ_self _) hpeek.inv hline' hscan₂ (by omega)
          exact htaken.wait max (by rw [hcontent₂, hcontent']) hopen (hrd ▸ hpeek.chunks)

/-- **`readLine` takes the next line off what is left.** -/
theorem readLine_spec (hb : br.Inv) : LineTaken max [] br (readLine max br) :=
  readLineFrom_spec max _ hb List.not_mem_nil (by simp) le_rfl

/-! ## The lines of a stream -/

/-- The lines of a text: what follows the last newline is one if there is anything. -/
def lines (s : Text) : List Text :=
  if (s.splitOn '\n').getLast? = some [] then (s.splitOn '\n').dropLast else s.splitOn '\n'

theorem lines_whole (hp : '\n' ∉ p) : lines (p ++ '\n' :: rest) = p :: lines rest := by
  rw [lines, List.splitOn_append_cons_self_of_not_mem hp, lines]
  cases h : rest.splitOn '\n' with
  | nil => exact absurd h (List.splitOn_ne_nil _ _)
  | cons q qs =>
    rw [List.getLast?_cons_cons, List.dropLast_cons_cons]
    split_ifs <;> rfl

theorem lines_last (hp : '\n' ∉ p) (hne : p ≠ []) : lines p = [p] := by
  rw [lines, List.splitOn_eq_singleton hp]
  exact if_neg fun h => hne (Option.some.inj h)

theorem lines_long (hp : '\n' ∉ p) (hne : p ++ rest ≠ []) :
    ∃ l ls, lines (p ++ rest) = l :: ls ∧ p.length ≤ l.length := by
  by_cases hnl : '\n' ∈ rest
  · obtain ⟨q, t, rfl, hq⟩ := List.eq_append_cons_of_mem hnl
    rw [← List.append_assoc, lines_whole (not_mem_append hp hq)]
    exact ⟨_, _, rfl, by rw [List.length_append]; omega⟩
  · rw [lines_last (not_mem_append hp hnl) hne]
    exact ⟨_, _, rfl, by rw [List.length_append]; omega⟩

/-- The lines before the first that is too long. -/
def fitting (s : Text) : List Text := (lines s).takeWhile fun l => (l.length : Int) ≤ max

/-- What ends the lines of a text: the end, or one that is too long. -/
def ending (s : Text) : LineError :=
  if (∀ l ∈ lines s, (l.length : Int) ≤ max) ∧ 0 ≤ max then .read .eof else .tooLong

theorem fitting_ok {left : Text} (h : LineRead max s (.ok line) left) :
    lines s = line :: lines left ∧ fitting max s = line :: fitting max left ∧
      ending max s = ending max left ∧ left <:+ s := by
  have hlines : lines s = line :: lines left ∧ line.length ≤ max ∧ left <:+ s := by
    cases h with
    | whole hp hlen =>
      exact ⟨lines_whole hp, hlen, (List.suffix_cons _ _).trans (List.suffix_append _ _)⟩
    | last hp hne hlen => exact ⟨lines_last hp hne, hlen, List.nil_suffix⟩
  obtain ⟨hlines, hlen, hsuffix⟩ := hlines
  refine ⟨hlines, ?_, ?_, hsuffix⟩
  · rw [fitting, hlines, List.takeWhile_cons_of_pos (by simpa using hlen)]
    rfl
  · simp only [ending, hlines, List.forall_mem_cons, hlen, true_and]

theorem fitting_long (hp : '\n' ∉ p) (hlen : max < p.length) (rest : Text) :
    fitting max (p ++ rest) = [] ∧ ending max (p ++ rest) = .tooLong := by
  by_cases hne : p ++ rest = []
  · rw [(List.append_eq_nil_iff.1 hne).1] at hlen
    rw [hne]
    exact ⟨rfl, if_neg fun h => absurd h.2 (Int.not_le.2 hlen)⟩
  · obtain ⟨l, ls, hlines, hle⟩ := lines_long hp hne
    have hlong : ¬(l.length : Int) ≤ max := by omega
    refine ⟨?_, if_neg fun h => hlong (h.1 l (hlines ▸ List.mem_cons_self))⟩
    rw [fitting, hlines, List.takeWhile_cons_of_neg (by simpa using hlong)]

theorem fitting_error {e : LineError} {left : Text} (h : LineRead max s (.error e) left) :
    fitting max s = [] ∧ ending max s = e ∧ ∃ c, s = c ++ left ∧ '\n' ∉ c := by
  cases h with
  | @tooLong c p _ hc hp hlen =>
    obtain ⟨t, rfl⟩ := hp
    obtain ⟨hfit, hend⟩ := fitting_long max hc hlen t
    rw [List.append_assoc] at hfit hend
    exact ⟨hfit, hend, c, rfl, fun h => hc (List.mem_append_left _ h)⟩
  | eof hmax => exact ⟨rfl, if_pos ⟨by simp [lines], hmax⟩, [], rfl, List.not_mem_nil⟩

/-- What `n` calls of `readLine` can do, on a stream of which `s` is left. -/
structure LinesRead (s : Text) (n : Nat) (out : List Text × Option LineError × Reader Char) :
    Prop where
  inv : out.2.2.Inv
  lines : out.1 = (fitting max s).take n
  error : out.2.1 = if n ≤ (fitting max s).length then none else some (ending max s)
  left : ∃ left c, left <:+ s ∧ Irrd.lines left = (Irrd.lines s).drop out.1.length ∧
    left = c ++ out.2.2.content ∧ '\n' ∉ c ∧ (out.2.1 = none → c = [])

theorem readLines_spec (n : Nat) (hb : br.Inv) :
    LinesRead max br.content n (readLines max n br) := by
  induction n generalizing br with
  | zero =>
    exact ⟨hb, rfl, (if_pos (Nat.zero_le _)).symm, _, [], List.suffix_rfl, rfl, rfl,
      List.not_mem_nil, fun _ => rfl⟩
  | succ n ih =>
    have htaken := readLine_spec max hb
    rw [readLines]
    rcases hres : readLine max br with ⟨res, br₁⟩
    rw [hres] at htaken
    have hread : LineRead max br.content res br₁.content := htaken.read
    cases res with
    | error e =>
      obtain ⟨hfit, rfl, c, hc, hnl⟩ := fitting_error max hread
      refine ⟨htaken.inv, by rw [hfit]; rfl, ?_, _, c, List.suffix_rfl, rfl, hc, hnl, fun h => ?_⟩
      · rw [hfit]
        rfl
      · cases h
    | ok line =>
      obtain ⟨hlines, hfit, hend, hsuffix⟩ := fitting_ok max hread
      have hih := ih htaken.inv
      obtain ⟨left, c, hsuf, hl, hc, hnl, hnone⟩ := hih.left
      refine ⟨hih.inv, ?_, ?_, left, c, hsuf.trans hsuffix, ?_, hc, hnl, hnone⟩
      · rw [hfit, List.take_succ_cons, ← hih.lines]
      · rw [hfit, hend, List.length_cons, hih.error]
        simp only [Nat.add_le_add_iff_right]
      · rw [hl, hlines]
        rfl

/-- **A server's lines are those of the stream.** However the bytes are delivered and whatever the
size of the buffer, `n` calls of `readLine` return the first `n` lines or, where there are fewer or
one before is longer than `max`, those up to there and then the end or a refusal. What follows the
lines returned is left in the stream, but for a part of one refused; and a line is refused once
more than `max` bytes of it have been delivered, whatever is to come after them. -/
theorem readLines_stream (d : Delivery Char) (size : Nat) (n : Nat) :
    LinesRead max d.elems n (readLines max n (Reader.new d size)) ∧
      ((readLines max n (Reader.new d size)).2.1 = none →
        ∀ cs cs', (readLines max n (Reader.new d size)).2.2.rd.chunks = cs ++ cs' →
          let seen := (readLines max n (Reader.new d size)).2.2.unread ++ cs.flatMap Chunk.elems
          '\n' ∉ seen → max < seen.length →
          ∃ br', readLine max (readLines max n (Reader.new d size)).2.2 = (.error .tooLong, br') ∧
            cs' <:+ br'.rd.chunks) := by
  have hlines := readLines_spec max n (inv_new d size)
  refine ⟨hlines, fun _ cs cs' hcs hnl hlen => ?_⟩
  have htaken := readLine_spec max hlines.inv
  have hread := htaken.read
  rw [List.nil_append, content_delivery, Delivery.elems, hcs, List.flatMap_append,
    ← List.append_assoc] at hread
  obtain ⟨hfit, hend⟩ := fitting_long max hnl hlen (cs'.flatMap Chunk.elems)
  refine ⟨_, Prod.ext ?_ rfl, htaken.chunks cs cs' hcs (.inr hlen)⟩
  generalize (readLine max (readLines max n (Reader.new d size)).2.2).1 = res at hread ⊢
  cases res with
  | error e => rw [← (fitting_error max hread).2.1, hend]
  | ok line =>
    rw [(fitting_ok max hread).2.1] at hfit
    cases hfit

end Rpsl.Irrd
