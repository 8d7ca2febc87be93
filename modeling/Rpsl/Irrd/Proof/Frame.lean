import Rpsl.Irrd.Frame
import Rpsl.Irrdq.Proof.Answer
import Rpsl.Resolve.Proof.Trim
import Rpsl.Types.Proof.SetNameText

/-!
# IRRd's framing round trip

However a line is delivered, `readStatusLine` takes it off what is left (`readStatusLine_spec`), and
`readFrame` takes a data answer (`readFrame_dataAnswer`) or a refusal (`readFrame_tooLarge`),
whatever comes after. So successive calls read the replies that were written one after the other
(`readFrames_replies`).
-/

namespace Rpsl.Irrd

open Text Lib Reader Irrdq
open Resolve Policy
open SetNameTemplate (spaceLen_ascii)

/-! ## One line -/

variable {rest line : Text}

theorem append_of_newline {q left : Text} (hq : '\n' ∉ q)
    (h : q ++ rest = line ++ '\n' :: left) :
    ∃ line', line = q ++ line' ∧ rest = line' ++ '\n' :: left := by
  rcases List.append_eq_append_iff.1 h with ⟨line', hline, hrest⟩ | ⟨q', hq', hrest⟩
  · exact ⟨line', hline, hrest⟩
  · cases q' with
    | nil => exact ⟨[], by simpa using hq'.symm, by simpa using hrest.symm⟩
    | cons c q' =>
      cases hrest
      exact absurd (hq' ▸ List.mem_append_right _ List.mem_cons_self) hq

theorem readStatusLineFrom_spec (fuel : Nat) (before : Text) {br : Reader Char} (hb : br.Inv)
    (hline : '\n' ∉ line) (hcontent : br.content = line ++ '\n' :: rest)
    (hlen : before.length + line.length < maxStatusLine) (hfuel : br.content.length ≤ fuel) :
    ∃ br', readStatusLineFrom fuel before br = (.ok (trimEnd (before ++ line ++ ['\n'])), br') ∧
      br'.Inv ∧ br'.content = rest := by
  induction fuel using Nat.strong_induction_on generalizing before br line with
  | _ fuel ih =>
    have hread := readSlice_spec '\n' hb
    unfold readStatusLineFrom
    rcases hslice : br.readSlice '\n' with ⟨place, err, br'⟩
    rw [hslice] at hread
    have hinv := hread.inv
    have hwhole := hread.content
    have hends := hread.ends
    dsimp only at hinv hwhole hends ⊢
    rw [hcontent] at hwhole
    generalize br'.slice place = frag at hends hwhole ⊢
    generalize hleft : br'.content = left at hends hwhole
    cases hends with
    | @found q _ hq =>
      rw [List.append_assoc, List.singleton_append] at hwhole
      obtain ⟨rfl, rfl⟩ : q = line ∧ left = rest := by
        obtain ⟨line', rfl, hrest⟩ := append_of_newline hq hwhole
        cases line' with
        | nil => exact ⟨(List.append_nil q).symm, (List.cons.inj hrest).2⟩
        | cons c line' =>
          cases hrest
          exact absurd (List.mem_append_right _ List.mem_cons_self) hline
      rw [List.length_append, List.length_singleton, if_neg (by omega)]
      refine ⟨br', ?_, hinv, hleft⟩
      dsimp only
      rw [List.append_assoc]
    | eof hnot =>
      rw [List.append_nil] at hwhole
      exact absurd (hwhole ▸ List.mem_append_right _ List.mem_cons_self) hnot
    | failed _ _ _ hfails => exact False.elim hfails
    | full hnot hfull =>
      obtain ⟨line', rfl, hrest⟩ := append_of_newline hnot hwhole
      have hpos := hb.size_pos
      rw [List.length_append] at hlen
      rw [hcontent, List.append_assoc, List.length_append] at hfuel
      rw [if_neg (by omega)]
      obtain ⟨fuel, rfl⟩ : ∃ k, fuel = k + 1 := ⟨fuel - 1, by omega⟩
      have hfuel' : br'.content.length ≤ fuel := by
        rw [hleft, hrest]
        omega
      obtain ⟨br'', hline', hinv'', hcontent''⟩ := ih fuel (Nat.lt_succ_self _) (before ++ frag)
        hinv (fun h => hline (List.mem_append_right _ h)) (hleft.trans hrest)
        (by rw [List.length_append]; omega) hfuel'
      refine ⟨br'', ?_, hinv'', hcontent''⟩
      dsimp only
      rw [hline']
      simp only [List.append_assoc]

/-- **`readStatusLine` takes one line.** -/
theorem readStatusLine_spec {br : Reader Char} (hb : br.Inv)
    (hline : '\n' ∉ line) (hcontent : br.content = line ++ '\n' :: rest)
    (hlen : line.length < maxStatusLine) :
    ∃ br', readStatusLine br = (.ok (trimEnd (line ++ ['\n'])), br') ∧ br'.Inv ∧
      br'.content = rest :=
  readStatusLineFrom_spec _ [] hb hline hcontent (by simpa using hlen) (le_refl _)

theorem trimEnd_line (h : ∀ c ∈ line, c ≠ '\r' ∧ c ≠ '\n') :
    trimEnd (line ++ ['\n']) = line := by
  unfold trimEnd
  rw [List.rdropWhile_concat_pos _ _ _ (by simp)]
  rcases List.eq_nil_or_concat line with rfl | ⟨line, c, rfl⟩
  · rfl
  · rw [List.concat_eq_append] at h ⊢
    have hc := h c (List.mem_append_right _ List.mem_cons_self)
    exact List.rdropWhile_concat_neg _ _ _ (by simpa using hc)

/-! ## Numbers and messages -/

variable {n : Nat}

theorem length_ofNat_le (h : n < 2 ^ 63) : (ofNat n).length ≤ 19 :=
  Nat.toDigits_length 10 n 19 (by decide) (h.trans (by decide))

theorem ne_of_mem_ofNat {c d : Char} (hc : c ∈ ofNat n) (hd : d.isDigit = false) :
    c ≠ d := by
  intro h
  have hdigit := SetName.isDigit_of_mem_ofNat hc
  rw [h, hd] at hdigit
  cases hdigit

theorem atoi_ofNat (h : n < 2 ^ 63) : atoi (ofNat n) = some n := by
  have hparse := parseUint_ofNat h
  have hne : ∀ c ∈ ofNat n, c ≠ '-' ∧ c ≠ '+' := fun c hc =>
    ⟨ne_of_mem_ofNat hc (by decide), ne_of_mem_ofNat hc (by decide)⟩
  generalize ofNat n = s at hparse hne
  unfold atoi
  split
  · exact absurd rfl (hne _ List.mem_cons_self).1
  · exact absurd rfl (hne _ List.mem_cons_self).2
  · rw [hparse]
    rfl

theorem le_of_allSpace {w : Text} (hascii : ∀ c ∈ w, c.toNat < 128) (h : AllSpace w) :
    ∀ c ∈ w, c.toNat ≤ 32 := by
  induction w with
  | nil =>
    intro c hc
    cases hc
  | cons d w ih =>
    obtain ⟨hlen, hrest⟩ := (allSpace_iff (List.cons_ne_nil d w)).1 h
    rw [spaceLen_ascii (hascii d List.mem_cons_self)] at hlen hrest
    by_cases hblank : d = ' ' ∨ ('\t' ≤ d ∧ d ≤ '\r')
    · rw [if_pos hblank, List.drop_one, List.tail_cons] at hrest
      have hrest' := ih (fun c hc => hascii c (List.mem_cons_of_mem _ hc)) hrest
      refine List.forall_mem_cons.2 ⟨?_, hrest'⟩
      rcases hblank with rfl | ⟨-, hle⟩
      · decide
      · exact Nat.le_trans (show d.toNat ≤ 13 from hle) (by decide)
    · exact absurd (if_neg hblank) hlen

theorem trimRight_concat {s : Text} {d : Char} (hascii : ∀ c ∈ s ++ [d], c.toNat < 128)
    (hd : 32 < d.toNat) : trimRight (s ++ [d]) = s ++ [d] := by
  obtain ⟨w, hw, hspace⟩ := trimRight_append (s ++ [d])
  rcases List.eq_nil_or_concat w with rfl | ⟨w, c, rfl⟩
  · rw [List.append_nil] at hw
    exact hw.symm
  · rw [List.concat_eq_append] at hw hspace
    have hlast : d = c := by
      rw [← List.append_assoc] at hw
      exact (List.append_inj' hw rfl).2 |> List.singleton_inj.1
    have hle := le_of_allSpace (fun c hc => hascii c (hw ▸ List.mem_append_right _ hc)) hspace c
      (List.mem_append_right _ List.mem_cons_self)
    rw [← hlast] at hle
    exact absurd hd (Nat.not_lt.2 hle)

theorem ascii_tooLargeMsg (max : Nat) : ∀ c ∈ tooLargeMsg max, 32 ≤ c.toNat ∧ c.toNat < 128 := by
  have hbefore : ∀ c ∈ lit "Answer larger than ", 32 ≤ c.toNat ∧ c.toNat < 128 := by simp [lit]
  have hafter : ∀ c ∈ lit " bytes", 32 ≤ c.toNat ∧ c.toNat < 128 := by simp [lit]
  intro c hc
  rcases List.mem_append.1 hc with hc | hc
  · rcases List.mem_append.1 hc with hc | hc
    · exact hbefore c hc
    · have hdigit := Char.isDigit_iff_toNat.1 (SetName.isDigit_of_mem_ofNat hc)
      have hlo : 48 ≤ c.toNat := hdigit.1
      have hhi : c.toNat ≤ 57 := hdigit.2
      omega
  · exact hafter c hc

theorem trimSpace_tooLargeMsg (max : Nat) :
    trimSpace (' ' :: tooLargeMsg max) = tooLargeMsg max := by
  have hascii := fun c hc => (ascii_tooLargeMsg max c hc).2
  unfold tooLargeMsg at hascii ⊢
  generalize ofNat max = digits at hascii ⊢
  have hlast : lit "Answer larger than " ++ digits ++ lit " bytes" =
      lit "Answer larger than " ++ digits ++ lit " byte" ++ ['s'] := by
    simp [lit]
  have hleft : trimLeftFrom 0 (' ' :: (lit "Answer larger than " ++ digits ++ lit " bytes")) =
      lit "Answer larger than " ++ digits ++ lit " bytes" := by
    rw [trimLeftFrom, spaceLen_blank (.inl rfl)]
    exact trimLeftFrom_eq (spaceLen_ascii (c := 'A') (by decide) _)
  rw [trimSpace, hleft, hlast]
  apply trimRight_concat _ (by decide)
  rw [← hlast]
  exact hascii

/-! ## One response -/

section

variable {room : List Nat → Nat} {br : Reader Char} {max : Int64}

theorem readPayload_spec (hroom : ∀ lens, 0 < room lens) (hb : br.Inv) {payload : Text}
    (hcontent : br.content = payload ++ 'C' :: '\n' :: rest) :
    ∃ br', readPayload room payload.length br = (.ok payload, br') ∧ br'.Inv ∧
      br'.content = rest := by
  obtain ⟨br₁, hcopy, hinv₁, -, hcontent₁⟩ := copyN_spec hroom hb hcontent
  have hc : '\n' ∉ ['C'] := by decide
  obtain ⟨br₂, hline, hinv₂, hcontent₂⟩ := readStatusLine_spec hinv₁ hc hcontent₁ (by decide)
  refine ⟨br₂, ?_, hinv₂, hcontent₂⟩
  unfold readPayload
  rw [hcopy]
  dsimp only
  rw [hline, trimEnd_line (by simp)]
  rfl

/-- **A data answer gives its payload**, whatever is in it and whatever comes after. -/
theorem readFrame_dataAnswer (hroom : ∀ lens, 0 < room lens) (hb : br.Inv) {payload : Text}
    (hcontent : br.content = dataAnswer payload ++ rest) (hmax : payload.length ≤ max.toInt) :
    ∃ br', readFrame room max br = (.ok payload, br') ∧ br'.Inv ∧ br'.content = rest := by
  have hlt : payload.length < 2 ^ 63 := by
    have := max.toInt_lt
    omega
  have hne : ∀ c ∈ 'A' :: ofNat payload.length, c ≠ '\r' ∧ c ≠ '\n' := by
    refine List.forall_mem_cons.2 ⟨by decide, fun c hc => ⟨?_, ?_⟩⟩
    · exact ne_of_mem_ofNat hc (by decide)
    · exact ne_of_mem_ofNat hc (by decide)
  have hlen : ('A' :: ofNat payload.length).length < maxStatusLine := by
    have hdigits := length_ofNat_le hlt
    have hbound : 20 < maxStatusLine := by decide
    rw [List.length_cons]
    omega
  have hcontent' : br.content =
      'A' :: ofNat payload.length ++ '\n' :: (payload ++ 'C' :: '\n' :: rest) := by
    rw [hcontent, dataAnswer]
    generalize ofNat payload.length = digits
    simp [lit]
  obtain ⟨br₁, hline, hinv₁, hcontent₁⟩ := readStatusLine_spec hb
    (fun h => (hne _ h).2 rfl) hcontent' hlen
  obtain ⟨br₂, hpayload, hinv₂, hcontent₂⟩ := readPayload_spec hroom hinv₁ hcontent₁
  refine ⟨br₂, ?_, hinv₂, hcontent₂⟩
  unfold readFrame
  rw [hline, trimEnd_line hne]
  dsimp only [readAfter]
  rw [if_pos rfl, atoi_ofNat hlt]
  show (if _ then _ else if _ then _ else readPayload room _ br₁) = _
  rw [if_neg (by omega), if_neg (by omega), Int.toNat_natCast]
  exact hpayload

/-- **The refusal of an answer is read as one.** -/
theorem readFrame_tooLarge (hb : br.Inv) {budget : Nat} (hbudget : budget < 2 ^ 63)
    (hcontent : br.content = tooLarge budget ++ rest) :
    ∃ br', readFrame room max br = (.error (.refused (tooLargeMsg budget)), br') ∧ br'.Inv ∧
      br'.content = rest := by
  have hne : ∀ c ∈ 'F' :: ' ' :: tooLargeMsg budget, c ≠ '\r' ∧ c ≠ '\n' := by
    refine List.forall_mem_cons.2 ⟨by decide, List.forall_mem_cons.2 ⟨by decide, fun c hc => ?_⟩⟩
    have hlow := (ascii_tooLargeMsg budget c hc).1
    constructor
    · rintro rfl
      exact absurd hlow (by decide)
    · rintro rfl
      exact absurd hlow (by decide)
  have hlen : ('F' :: ' ' :: tooLargeMsg budget).length < maxStatusLine := by
    have hdigits := length_ofNat_le hbudget
    have hbound : 100 < maxStatusLine := by decide
    unfold tooLargeMsg
    generalize ofNat budget = digits at hdigits
    simp only [lit, List.length_cons, List.length_append]
    have h19 : "Answer larger than ".toList.length = 19 := rfl
    have h6 : " bytes".toList.length = 6 := rfl
    omega
  have hcontent' : br.content = 'F' :: ' ' :: tooLargeMsg budget ++ '\n' :: rest := by
    rw [hcontent, tooLarge, fail]
    generalize tooLargeMsg budget = msg
    simp [lit]
  obtain ⟨br₁, hline, hinv₁, hcontent₁⟩ := readStatusLine_spec hb
    (fun h => (hne _ h).2 rfl) hcontent' hlen
  refine ⟨br₁, ?_, hinv₁, hcontent₁⟩
  unfold readFrame
  rw [hline, trimEnd_line hne]
  dsimp only [readAfter]
  rw [if_neg (by decide), if_neg (by decide), if_neg (by decide), if_pos rfl,
    trimSpace_tooLargeMsg]

end

/-! ## Replies one after the other -/

/-- What is asked of a session under a budget: the calls that build its reply. -/
structure Query where
  budget : Int64
  calls : List Answer.Call

namespace Query

/-- The pieces, joined. -/
def payload (q : Query) : Text := q.calls.flatMap Answer.Call.text

/-- The reply that is written. -/
def reply (q : Query) : Text :=
  underBudget (maxReply q.budget)
    (q.calls.foldl Answer.call (newAnswer (maxReply q.budget))).frame

/-- The data answer of the pieces is within the budget. -/
def Within (q : Query) : Prop :=
  0 < maxReply q.budget → (dataAnswer q.payload).length ≤ maxReply q.budget

instance (q : Query) : Decidable q.Within := inferInstanceAs <| Decidable <|
  0 < maxReply q.budget → (dataAnswer q.payload).length ≤ maxReply q.budget

/-- What reading the reply is to give. -/
def result (q : Query) : Except FrameError Text :=
  if q.Within then .ok q.payload else .error (.refused (tooLargeMsg (maxReply q.budget)))

theorem reply_eq (q : Query) :
    q.reply = if q.Within then dataAnswer q.payload else tooLarge (maxReply q.budget) := by
  have hbuilt := Answer.foldl_call_built (maxReply q.budget) q.calls
  have hiff : (0 < maxReply q.budget ∧ maxReply q.budget < (dataAnswer q.payload).length) ↔
      ¬ q.Within := by
    rw [Within, Classical.not_imp, Nat.not_le]
  rw [reply, Answer.underBudget_frame hbuilt, Answer.frame_eq hbuilt]
  by_cases hwithin : q.Within
  · rw [if_pos hwithin]
    exact if_neg fun h => hiff.1 h hwithin
  · rw [if_neg hwithin]
    exact if_pos (hiff.2 hwithin)

/-- **Reading a reply consumes it and gives its result.** -/
theorem readFrame_reply (q : Query) {room : List Nat → Nat} (hroom : ∀ lens, 0 < room lens)
    {br : Reader Char} (hb : br.Inv) (hcontent : br.content = q.reply ++ rest)
    {max : Int64} (hmax : q.payload.length ≤ max.toInt) :
    ∃ br', readFrame room max br = (q.result, br') ∧ br'.Inv ∧ br'.content = rest := by
  rw [reply_eq] at hcontent
  unfold result
  by_cases hwithin : q.Within
  · rw [if_pos hwithin] at hcontent ⊢
    exact readFrame_dataAnswer hroom hb hcontent hmax
  · rw [if_neg hwithin] at hcontent ⊢
    apply readFrame_tooLarge hb _ hcontent
    have := q.budget.toInt_lt
    unfold maxReply
    omega

end Query

theorem readFrames_spec {room : List Nat → Nat} (hroom : ∀ lens, 0 < room lens) {max : Int64}
    {qs : List Query} (hmax : ∀ q ∈ qs, q.payload.length ≤ max.toInt) {br : Reader Char}
    (hb : br.Inv) (hcontent : br.content = qs.flatMap Query.reply) {k : Nat} (hk : k ≤ qs.length) :
    (readFrames room max k br).1 = (qs.take k).map Query.result ∧
      (readFrames room max k br).2.content = (qs.drop k).flatMap Query.reply := by
  induction k generalizing qs br with
  | zero => exact ⟨rfl, hcontent⟩
  | succ k ih =>
    cases qs with
    | nil => exact absurd hk (Nat.not_succ_le_zero k)
    | cons q qs =>
      obtain ⟨hq, hqs⟩ := List.forall_mem_cons.1 hmax
      obtain ⟨br', hframe, hinv, hrest⟩ := q.readFrame_reply hroom hb hcontent hq
      obtain ⟨hresults, hleft⟩ := ih hqs hinv hrest (Nat.le_of_succ_le_succ hk)
      rw [readFrames, hframe]
      dsimp only
      rw [hresults]
      exact ⟨rfl, hleft⟩

/-- **IRRd's framing round trips.** However the replies' texts, one after the other, are delivered,
`k` calls of `readFrame` consume the first `k` replies and give the pieces of each that is within
its budget and a refusal for each that is not; and no reply but a refusal is over its budget. -/
theorem readFrames_replies (qs : List Query) (d : Delivery Char)
    (hd : d.elems = qs.flatMap Query.reply) (size : Nat) (max : Int64)
    (hmax : ∀ q ∈ qs, q.payload.length ≤ max.toInt) (room : List Nat → Nat)
    (hroom : ∀ lens, 0 < room lens) :
    (∀ k ≤ qs.length,
      (readFrames room max k (Reader.new d size)).1 = (qs.take k).map Query.result ∧
        (readFrames room max k (Reader.new d size)).2.content =
          (qs.drop k).flatMap Query.reply) ∧
      ∀ q ∈ qs, 0 < maxReply q.budget →
        q.reply.length ≤ maxReply q.budget ∨ q.reply = tooLarge (maxReply q.budget) := by
  refine ⟨fun k hk => readFrames_spec hroom hmax (inv_new d size) hd hk, ?_⟩
  intro q _ hpos
  rw [q.reply_eq]
  by_cases hwithin : q.Within
  · rw [if_pos hwithin]
    exact .inl (hwithin hpos)
  · rw [if_neg hwithin]
    exact .inr rfl

/-- Two replies, the second over its budget, byte by byte. -/
def twoQueries : List Query :=
  [⟨0, [.add [lit "C\n", lit "D"], .addAS 65000]⟩, ⟨12, [.add [lit "10.0.0.0/8"]]⟩]

theorem readFrames_twoQueries :
    (readFrames (fun _ => 512) 100 2 (Reader.new
      ⟨(twoQueries.flatMap Query.reply).map (⟨0, ·, []⟩), 0, false⟩ 4096)).1 =
        [.ok (lit "C\nDAS65000"), .error (.refused (lit "Answer larger than 12 bytes"))] := by
  have hread := readFrames_replies twoQueries
    ⟨(twoQueries.flatMap Query.reply).map (⟨0, ·, []⟩), 0, false⟩ (by decide +kernel) 4096 100
    (by decide +kernel) (fun _ => 512) (fun _ => by decide)
  exact (hread.1 2 (by decide)).1.trans (by decide +kernel)

end Rpsl.Irrd
