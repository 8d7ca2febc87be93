import Rpsl.Resolve.Proof.PathMeaning
import Rpsl.Rtconfig.Proof.PathText

/-!
# IOS patterns match the paths of the regexp

`translatePath_ios`: what `translatePath` writes for IOS and IOS-XR is a pattern of the grammar, and
is found in the text of a path iff the regexp matches the path. By induction over the regexp, each
part is written as a text that is read as items (`Ere.Reads`) that mean what the part means
(`Means`).
-/

namespace Rpsl.Rtconfig

open Lib Policy Resolve Text

/-! ## The ASes of a position -/

variable {asns : List ASN} {a : ASN}

theorem mem_addASN {b : ASN} : b ∈ addASN asns a ↔ b ∈ asns ∨ b = a := by
  unfold addASN
  split
  · rename_i h
    exact ⟨.inl, fun hb => hb.elim id fun he => he ▸ h⟩
  · simp

theorem mem_foldl_addASN {as : List ASN} {b : ASN} :
    b ∈ as.foldl addASN asns ↔ b ∈ asns ∨ b ∈ as := by
  induction as generalizing asns with
  | nil => simp
  | cons a as ih => rw [List.foldl_cons, ih, mem_addASN, List.mem_cons, or_assoc]

theorem mem_asnsFrom {lo hi : ASN} (h : ¬ hi < lo) :
    a ∈ asnsFrom lo hi ↔ lo ≤ a ∧ a ≤ hi := by
  rw [UInt32.not_lt, UInt32.le_iff_toNat_le] at h
  simp only [asnsFrom, List.mem_map, List.mem_range, UInt32.le_iff_toNat_le]
  have hhi := hi.toNat_lt
  constructor
  · rintro ⟨i, hi', rfl⟩
    rw [UInt32.toNat_ofNat_of_lt' (by change _ < 2 ^ 32; omega)]
    omega
  · intro ha
    refine ⟨a.toNat - lo.toNat, by omega, ?_⟩
    rw [Nat.add_sub_cancel' ha.1]
    exact UInt32.ofNat_toNat

def ClassItems.Holds (c : ClassItems) (a : ASN) : Prop :=
  c.anyAS = true ∨ a ∈ c.asns ∨ ∃ r ∈ c.ranges, r.1 ≤ a ∧ a ≤ r.2

def Lists (sets : List (SetName × ASNSet)) (e : ASPathExpr) : Option (List ASN) → Prop
  | none => ∀ a, e.Has sets a
  | some l => ∀ a, e.Has sets a ↔ a ∈ l

namespace Translator

variable {t : Translator}

theorem addRanges_mem {l : List ASN} {rs : List (ASN × ASN)}
    (h : t.addRanges asns rs = .ok l) (a : ASN) :
    a ∈ l ↔ a ∈ asns ∨ ∃ r ∈ rs, r.1 ≤ a ∧ a ≤ r.2 := by
  induction rs generalizing asns with
  | nil =>
    cases h
    simp
  | cons r rs ih =>
    obtain ⟨lo, hi⟩ := r
    rw [addRanges] at h
    split at h
    · cases h
    · rename_i hle
      rw [ih h, mem_foldl_addASN, mem_asnsFrom fun hlt => hle (.inl hlt), List.exists_mem_cons_iff,
        or_assoc]

mutual

theorem members_lists : ∀ (e : ASPathExpr) {l : Option (List ASN)},
    t.members e = .ok l → Lists t.sets e l
  | .asn b, l, h => by
    cases h
    simp [Lists, ASPathExpr.Has]
  | .any, l, h => by
    cases h
    simp [Lists, ASPathExpr.Has]
  | .set n, l, h => by
    rw [members] at h
    split at h
    · rename_i hany
      cases h
      simp [Lists, ASPathExpr.Has, hany]
    · rename_i hany
      split at h
      · cases h
      · rename_i hset
        cases h
        simp [Lists, ASPathExpr.Has, hany, ASNSet.has, hset]
  | .cls negated items, l, h => by
    rw [members] at h
    split at h
    · cases h
    · rename_i hneg
      rw [Bool.not_eq_true] at hneg
      subst hneg
      obtain ⟨c, hc, h⟩ := bind_eq_ok.1 h
      have hitems := classItems_holds items hc
      simp only [ClassItems.Holds, Bool.false_eq_true, List.not_mem_nil, false_and, exists_false,
        false_or] at hitems
      split at h
      · rename_i hany
        cases h
        exact fun a => (hitems a).1 (.inl hany)
      · rename_i hany
        obtain ⟨asns, hasns, h⟩ := bind_eq_ok.1 h
        cases h
        intro a
        rw [List.mem_insertionSort, addRanges_mem hasns, ASPathExpr.Has, ← hitems a]
        simp [hany]
  | .alt _, l, h => by cases h
  | .seq _, l, h => by cases h
  | .rep _ _ _ _ _, l, h => by cases h
  | .template _, l, h => by cases h
  | .peerAS, l, h => by cases h
  | .start, l, h => by cases h
  | .end_, l, h => by cases h
  | .asnRange _ _, l, h => by cases h

theorem classItems_holds : ∀ (es : List ASPathExpr) {c c' : ClassItems},
    t.classItems es c = .ok c' →
      ∀ a, c'.Holds a ↔ c.Holds a ∨ ASPathExpr.HasAny t.sets es a
  | [], c, c', h, a => by
    cases h
    simp [ASPathExpr.HasAny]
  | e :: es, c, c', h, a => by
    unfold classItems at h
    split at h
    · rename_i heq
      cases heq
    · rename_i heq
      rw [List.cons.injEq] at heq
      obtain ⟨rfl, rfl⟩ := heq
      rw [classItems_holds es h, ASPathExpr.HasAny, ASPathExpr.Has, ← or_assoc]
      refine or_congr_left ?_
      simp only [ClassItems.Holds, List.mem_append, List.mem_singleton, or_and_right, exists_or,
        exists_eq_left, or_assoc]
    · rename_i heq
      rw [List.cons.injEq] at heq
      obtain ⟨rfl, rfl⟩ := heq
      obtain ⟨l, hl, h⟩ := bind_eq_ok.1 h
      have hlist := members_lists e hl
      cases l with
      | none =>
        rw [classItems_holds es h, ASPathExpr.HasAny]
        have := hlist a
        simp [ClassItems.Holds, this]
      | some l =>
        rw [classItems_holds es h, ASPathExpr.HasAny, ← or_assoc, hlist a]
        refine or_congr_left ?_
        simp only [ClassItems.Holds, mem_foldl_addASN, or_assoc]
        rw [or_comm (a := a ∈ l)]

end

/-! ## Texts and what they are read as -/

theorem reads_chars {w : Text} (h : ∀ c ∈ w, c.isDigit = true) :
    Ere.Reads w (w.map Ere.chr) := by
  induction w with
  | nil => exact .nil
  | cons c w ih =>
    have hrest := ih fun d hd => h d (List.mem_cons_of_mem _ hd)
    exact .append (.chr (h c (List.mem_cons_self ..))) hrest

theorem reads_num (a : ASN) : Ere.Reads (num a) ((num a).map Ere.chr) :=
  reads_chars fun _ => num_digits

variable {ss : List Text}

theorem reads_group {rss : List (List Ere)} (hne : ss ≠ [])
    (h : List.Forall₂ Ere.Reads ss rss) :
    Ere.Reads ('(' :: ['|'].intercalate ss ++ [')']) [Ere.altOf rss] := by
  have hlen := h.length_eq
  have hgroup := Ere.Reads.group (by
    intro hz
    have := congrArg List.length hz
    rw [List.length_zip, hlen, Nat.min_self, ← hlen] at this
    exact hne (List.length_eq_zero_iff.1 this)) fun a ha => List.forall₂_iff_zip.1 h |>.2 ha
  rwa [List.map_fst_zip hlen.le, List.map_snd_zip hlen.ge] at hgroup

theorem reads_flatten {rss : List (List Ere)} (h : List.Forall₂ Ere.Reads ss rss) :
    Ere.Reads ss.flatten rss.flatten := by
  induction h with
  | nil => exact .nil
  | cons h _ ih => exact .append h ih

theorem reads_replicate {s : Text} {rs : List Ere} (h : Ere.Reads s rs) (n : Nat) :
    Ere.Reads (List.replicate n s).flatten (List.replicate n rs).flatten := by
  refine reads_flatten ?_
  induction n with
  | zero => exact .nil
  | succ n ih => exact .cons h ih

def Writes (M : Place ASN → Place ASN → Prop) (s : Text) : Prop :=
  ∃ rs, Ere.Reads s rs ∧ Means M rs

variable {sets : List (SetName × ASNSet)}

theorem writes_atom {e : ASPathExpr} {l : Option (List ASN)}
    (h : Lists sets e l) :
    Writes (fun x y => ∃ a, e.Has sets a ∧ Place.Step a x y) (iosAtom l) := by
  cases l with
  | none =>
    refine ⟨_, .append .edge (Ere.Reads.last_plus .digit), means_any.congr fun x y => ?_⟩
    exact exists_congr fun a => (and_iff_right (h a)).symm
  | some l =>
    have hiff : ∀ x y : Place ASN, (∃ a ∈ l, Place.Step a x y) ↔
        ∃ a, e.Has sets a ∧ Place.Step a x y := fun x y =>
      exists_congr fun a => and_congr_left fun _ => (h a).symm
    match l with
    | [] =>
      refine ⟨_, .append .edge (.chr (by decide)), means_none.congr fun x y => ?_⟩
      rw [← hiff]
      simp
    | [a] =>
      refine ⟨_, .append .edge (reads_num a), (means_num a).congr fun x y => ?_⟩
      rw [← hiff]
      simp
    | a :: b :: as =>
      have hall : List.Forall₂ Ere.Reads ((a :: b :: as).map num)
          ((a :: b :: as).map fun a => (num a).map Ere.chr) := by
        rw [List.forall₂_map_left_iff, List.forall₂_map_right_iff]
        exact List.forall₂_same.2 fun a _ => reads_num a
      have hreads := Ere.Reads.append .edge (reads_group (by simp) hall)
      exact ⟨_, hreads, (means_nums (by simp)).congr hiff⟩

/-! ## Repetitions -/

theorem sameAS_iter {n : Nat} {x y : Place ASN}
    (h : Iter (ASPathExpr.Match sets (.asn a)) n x y) : ASPathExpr.SameAS x y := by
  suffices x.2 = List.replicate n a ++ y.2 from ⟨a, n, this⟩
  induction n generalizing x with
  | zero =>
    obtain rfl : x = y := h
    rfl
  | succ n ih =>
    obtain ⟨z, ⟨b, rfl, hz, -⟩, h⟩ := h
    rw [hz, ih h]
    rfl

theorem writes_repeat {M : Place ASN → Place ASN → Prop} {s s' : Text} (h : Writes M s)
    {op : RepeatOp} {min : Nat} {max : Option Nat} (hbounds : op = .range → ∀ m ∈ max, min ≤ m)
    (hs : t.iosRepeat s op min max = .ok s') :
    Writes (fun x y => ∃ n, ASPathExpr.Counts op min max n ∧ Iter M n x y) s' := by
  obtain ⟨rs, hreads, hmeans⟩ := h
  have hgroup : Ere.Reads ('(' :: s ++ [')']) [Ere.seqOf rs] := by
    have := reads_group (by simp) (.cons hreads .nil)
    rwa [List.intercalate_singleton] at this
  cases op with
  | star =>
    cases hs
    refine ⟨_, Ere.Reads.last_star hgroup, hmeans.star.congr fun x y => ?_⟩
    simp [ASPathExpr.Counts]
  | plus =>
    cases hs
    refine ⟨_, Ere.Reads.last_plus hgroup, hmeans.plus.congr fun x y => ⟨?_, ?_⟩⟩
    · rintro ⟨n, hn⟩
      exact ⟨n + 1, Nat.succ_le_succ n.zero_le, hn⟩
    · rintro ⟨n, hn, h⟩
      obtain ⟨m, rfl⟩ := Nat.exists_eq_add_of_le' (show 1 ≤ n from hn)
      exact ⟨m, h⟩
  | quest =>
    cases hs
    refine ⟨_, Ere.Reads.last_opt hgroup, hmeans.opt.congr fun x y => ⟨?_, ?_⟩⟩
    · rintro (h | h)
      · exact ⟨0, Nat.zero_le 1, h⟩
      · exact ⟨1, le_rfl, iter_one.2 h⟩
    · rintro ⟨n, hn, h⟩
      match n, (show n ≤ 1 from hn) with
      | 0, _ => exact .inl h
      | 1, _ => exact .inr (iter_one.1 h)
  | range =>
    unfold iosRepeat at hs
    dsimp only at hs
    split at hs
    · cases hs
    cases hs
    cases max with
    | none =>
      refine ⟨_, .append (reads_replicate hreads min) (Ere.Reads.last_star hgroup),
        ((hmeans.iter min).append hmeans.star).congr fun x y => ⟨?_, ?_⟩⟩
      · rintro ⟨z, hxz, n, hzy⟩
        exact ⟨min + n, ⟨Nat.le_add_right .., nofun⟩, hxz.append hzy⟩
      · rintro ⟨n, ⟨hn, -⟩, h⟩
        obtain ⟨m, rfl⟩ := Nat.exists_eq_add_of_le hn
        obtain ⟨z, hxz, hzy⟩ := h.split
        exact ⟨z, hxz, m, hzy⟩
    | some max =>
      have hle := hbounds rfl max rfl
      have hopts := reads_replicate (Ere.Reads.last_opt hgroup) (max - min)
      refine ⟨_, .append (reads_replicate hreads min) hopts,
        ((hmeans.iter min).append (hmeans.upTo (max - min))).congr fun x y => ⟨?_, ?_⟩⟩
      · rintro ⟨z, hxz, n, hn, hzy⟩
        refine ⟨min + n, ⟨Nat.le_add_right .., ?_⟩, hxz.append hzy⟩
        rintro m ⟨⟩
        omega
      · rintro ⟨n, ⟨hn, hmax⟩, h⟩
        obtain ⟨m, rfl⟩ := Nat.exists_eq_add_of_le hn
        have := hmax max rfl
        obtain ⟨z, hxz, hzy⟩ := h.split
        exact ⟨z, hxz, m, by omega, hzy⟩

/-! ## Whole regexps -/

theorem writes_seq {es : List ASPathExpr}
    (h : List.Forall₂ (fun e s => Writes (e.Match sets) s) es ss) :
    Writes (ASPathExpr.MatchSeq sets es) ss.flatten := by
  induction h with
  | nil => exact ⟨[], .nil, means_nil.congr fun x y => by rw [ASPathExpr.MatchSeq]⟩
  | cons h _ ih =>
    obtain ⟨rs, hreads, hmeans⟩ := h
    obtain ⟨ts, hreads', hmeans'⟩ := ih
    exact ⟨rs ++ ts, hreads.append hreads', (hmeans.append hmeans').congr fun x y => by
      rw [ASPathExpr.MatchSeq]⟩

theorem writes_alt {es : List ASPathExpr}
    (hne : es ≠ []) (h : List.Forall₂ (fun e s => Writes (e.Match sets) s) es ss) :
    Writes (ASPathExpr.MatchAny sets es) ('(' :: ['|'].intercalate ss ++ [')']) := by
  obtain ⟨rss, hreads, hmeans⟩ : ∃ rss, List.Forall₂ Ere.Reads ss rss ∧
      List.Forall₂ (fun e rs => Means (ASPathExpr.Match sets e) rs) es rss := by
    clear hne
    induction h with
    | nil => exact ⟨[], .nil, .nil⟩
    | cons h _ ih =>
      obtain ⟨rs, hr, hm⟩ := h
      obtain ⟨rss, hrs, hms⟩ := ih
      exact ⟨rs :: rss, .cons hr hrs, .cons hm hms⟩
  have hss : ss ≠ [] := by
    rintro rfl
    cases h
    exact hne rfl
  refine ⟨_, reads_group hss hreads, (means_alt hne hmeans).congr fun x y => ?_⟩
  exact ASPathExpr.matchAny_iff.symm

theorem writes_members {e : ASPathExpr} {s : Text}
    (hm : ∀ x y, e.Match t.sets x y ↔ ∃ a, e.Has t.sets a ∧ Place.Step a x y)
    (h : (t.members e >>= fun asns => .ok (iosAtom asns)) = .ok s) :
    Writes (e.Match t.sets) s := by
  obtain ⟨l, hl, h⟩ := bind_eq_ok.1 h
  cases h
  obtain ⟨rs, hreads, hmeans⟩ := writes_atom (members_lists e hl)
  exact ⟨rs, hreads, hmeans.congr fun x y => (hm x y).symm⟩

mutual

/-- **Each part is written as a text that means it.** -/
theorem ios_writes : ∀ (e : ASPathExpr) {s : Text}, t.ios e = .ok s → e.Parsed →
    Writes (e.Match t.sets) s
  | .start, s, h, _ => by
    cases h
    exact ⟨_, .bol, means_bol.congr fun x y => by rw [ASPathExpr.Match]⟩
  | .end_, s, h, _ => by
    cases h
    exact ⟨_, .eol, means_eol.congr fun x y => by rw [ASPathExpr.Match]⟩
  | .seq es, s, h, hp => by
    rw [ios] at h
    obtain ⟨ss, hss, h⟩ := bind_eq_ok.1 h
    cases h
    obtain ⟨rs, hreads, hmeans⟩ := writes_seq (iosAll_writes es hss hp)
    exact ⟨rs, hreads, hmeans.congr fun x y => by rw [ASPathExpr.Match]⟩
  | .alt es, s, h, hp => by
    rw [ios] at h
    obtain ⟨ss, hss, h⟩ := bind_eq_ok.1 h
    cases h
    rw [ASPathExpr.Parsed] at hp
    obtain ⟨rs, hreads, hmeans⟩ := writes_alt hp.1 (iosAll_writes es hss hp.2)
    exact ⟨rs, hreads, hmeans.congr fun x y => by rw [ASPathExpr.Match]⟩
  | .rep inner op min max same, s, h, hp => by
    rw [ios] at h
    split at h
    · cases h
    rename_i hsame
    obtain ⟨s', hs', h⟩ := bind_eq_ok.1 h
    rw [ASPathExpr.Parsed] at hp
    obtain ⟨rs, hreads, hmeans⟩ := writes_repeat (ios_writes inner hs' hp.1) hp.2 h
    refine ⟨rs, hreads, hmeans.congr fun x y => ?_⟩
    rw [ASPathExpr.Match]
    refine exists_congr fun n => and_congr_right fun _ => ⟨fun h => ⟨h, fun hs => ?_⟩, And.left⟩
    -- a same-AS repetition is of an AS number
    cases inner with
    | asn a => exact sameAS_iter h
    | _ => simp [hs, isASN] at hsame
  | .any, s, h, _ => writes_members (fun x y => by rw [ASPathExpr.Match] <;> nofun) h
  | .asn _, s, h, _ => writes_members (fun x y => by rw [ASPathExpr.Match] <;> nofun) h
  | .set _, s, h, _ => writes_members (fun x y => by rw [ASPathExpr.Match] <;> nofun) h
  | .template _, s, h, _ => by cases h
  | .peerAS, s, h, _ => by cases h
  | .cls _ _, s, h, _ => writes_members (fun x y => by rw [ASPathExpr.Match] <;> nofun) h
  | .asnRange _ _, s, h, _ => by cases h

theorem iosAll_writes : ∀ (es : List ASPathExpr) {ss : List Text}, t.iosAll es = .ok ss →
    ASPathExpr.ParsedAll es → List.Forall₂ (fun e s => Writes (e.Match t.sets) s) es ss
  | [], ss, h, _ => by
    cases h
    exact .nil
  | e :: es, ss, h, hp => by
    rw [iosAll] at h
    obtain ⟨s, hs, h⟩ := bind_eq_ok.1 h
    obtain ⟨ss', hss, h⟩ := bind_eq_ok.1 h
    cases h
    rw [ASPathExpr.ParsedAll] at hp
    exact .cons (ios_writes e hs hp.1) (iosAll_writes es hss hp.2)

end

/-! ## The match of a path -/

section
variable {M : Place ASN → Place ASN → Prop} {s : Text} {path : List ASN}

theorem Writes.found_end (h : Writes M s) (hlast : s.getLast? = some '$')
    (hz : ∀ a ∈ path, a ≠ 0) : ∃ r, Ere.parse s = some r ∧
      (r.Found (pathText path) ↔ ∃ x y, x.1 ++ x.2 = path ∧ M x y) := by
  obtain ⟨rs, hreads, hmeans⟩ := h
  obtain ⟨ts, rfl⟩ := hreads.last_eol.2 hlast
  refine ⟨_, hreads.parse_eq, ⟨?_, ?_⟩⟩
  · rintro ⟨u, w, hu, hm⟩
    have hend : textAt (path, []) = w := by
      obtain ⟨v, -, hv⟩ := Ere.match_seqOf_append.1 hm
      obtain ⟨rfl, hnil⟩ := Ere.match_seqOf_singleton.1 hv
      have hw := Ere.match_append hm
      rw [hu, hnil, List.append_nil] at hw
      exact Prod.ext hw (by rw [hnil, textAt_snd_nil])
    rw [← hend] at hm
    obtain ⟨x, -, hx, happ⟩ := hmeans.sound u (path, []) (by simpa [Nonzero] using hz) hm
    exact ⟨x, _, by simpa using happ, hx⟩
  · rintro ⟨x, y, hx, hxy⟩
    exact ⟨textAt x, textAt y, by rw [textAt_append, hx], hmeans.complete x y hxy⟩

theorem Writes.found_edge (h : Writes M s) (hz : ∀ a ∈ path, a ≠ 0) :
    ∃ r, Ere.parse (s ++ ['_']) = some r ∧
      (r.Found (pathText path) ↔ ∃ x y, x.1 ++ x.2 = path ∧ M x y) := by
  obtain ⟨rs, hreads, hmeans⟩ := h
  refine ⟨_, (hreads.append .edge).parse_eq, ⟨?_, ?_⟩⟩
  · rintro ⟨u, w, hu, hm⟩
    obtain ⟨v, hm, hv⟩ := Ere.match_seqOf_append.1 hm
    have huv := Ere.match_append hm
    rw [hu] at huv
    obtain ⟨y, hy, rfl⟩ := edge_place huv.symm (Ere.match_seqOf_singleton.1 hv)
    obtain ⟨x, -, hx, happ⟩ := hmeans.sound u y (by rwa [Nonzero, hy]) hm
    exact ⟨x, y, happ.trans hy, hx⟩
  · rintro ⟨x, y, hx, hxy⟩
    obtain ⟨w, hw⟩ := edge_textAt y
    exact ⟨textAt x, w, by rw [textAt_append, hx], Ere.match_seqOf_append.2
      ⟨textAt y, hmeans.complete x y hxy, Ere.match_seqOf_singleton.2 hw⟩⟩

end

end Translator

/-- **The pattern is found in a path's text iff the regexp matches the path.** -/
theorem translatePath_ios {v : Vendor} (hv : v = .ios ∨ v = .iosxr) {m : PathMatch} {term s : Text}
    (h : translatePath v m term = .ok s) (hparsed : m.re.body.Parsed) {path : List ASN}
    (hz : ∀ a ∈ path, a ≠ 0) :
    ∃ r, Ere.parse s = some r ∧ (r.Found (pathText path) ↔ m.Found path) := by
  have h : Translator.iosPath ⟨v, m.sets, term⟩ m.re.body = .ok s := by
    rcases hv with rfl | rfl
    · exact h
    · exact h
  obtain ⟨s, hs, h⟩ := bind_eq_ok.1 h
  cases h
  have hwrites := Translator.ios_writes m.re.body hs hparsed
  split
  · exact hwrites.found_end ‹_› hz
  · exact hwrites.found_edge hz

/-- `<^AS1 (AS2 | AS-X)+ AS3{0,2}$>`, with AS-X the ASes 10 and 11. -/
def sampleMatch : PathMatch :=
  let setX := (SetName.parse (lit "AS-X")).getD SetName.zero
  { negated := false
    re := ⟨.seq [.start, .asn 1, .rep (.alt [.asn 2, .set setX]) .plus 1 none false,
      .rep (.asn 3) .range 0 (some 2) false, .end_]⟩
    sets := [(setX, ⟨[10, 11], [], false⟩)] }

theorem translatePath_ios_sample :
    ∃ r, Ere.parse (lit "^_1((_2|_(10|11)))+(_3)?(_3)?$") = some r ∧
      (r.Found (pathText [1, 10, 2, 3]) ↔ sampleMatch.Found [1, 10, 2, 3]) :=
  translatePath_ios (.inl rfl)
    (show translatePath .ios sampleMatch [] = .ok _ by decide +kernel)
    (by simp [sampleMatch, ASPathExpr.Parsed, ASPathExpr.ParsedAll]) (by simp)

end Rpsl.Rtconfig
