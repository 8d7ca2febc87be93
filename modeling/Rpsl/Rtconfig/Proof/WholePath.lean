import Rpsl.Lib.PathPattern
import Rpsl.Rtconfig.Proof.Regex

/-!
# Junos and BIRD patterns match the paths of the regexp

Both dialects match a path as a whole. A part of the regexp that has no anchors matches between two
places as the words of a language are spelled between them (`SpelledBy`), and each part is written
as a text that is read as items of that language (`Dialect.Writes`). With what the top level adds
at the ends, the language of the whole text has the paths in which the regexp matches somewhere
(`found_iff`).
-/

namespace Rpsl.Rtconfig

open Lib Policy Resolve Text Token
open Policy.ASPathExpr (termsOf stripStart stripEnd)

/-! ## Positions in order -/

variable {asns : List ASN}

theorem nodup_addASN (h : asns.Nodup) (a : ASN) : (addASN asns a).Nodup := by
  unfold addASN
  split_ifs with ha
  · exact h
  · exact List.nodup_append.2 ⟨h, List.nodup_singleton a, by
      intro x hx y hy hxy
      rw [List.mem_singleton] at hy
      exact ha (hy ▸ hxy ▸ hx)⟩

theorem nodup_foldl_addASN {as : List ASN} (h : asns.Nodup) :
    (as.foldl addASN asns).Nodup := by
  induction as generalizing asns with
  | nil => exact h
  | cons a as ih => exact ih (nodup_addASN h a)

variable {l : List ASN}

theorem sorted_of_nodup (h : l.Nodup) :
    (l.insertionSort (· ≤ ·)).Pairwise (· < ·) := by
  have hsorted := List.pairwise_insertionSort (· ≤ ·) l
  have hnodup : (l.insertionSort (· ≤ ·)).Nodup := (List.perm_insertionSort _ l).nodup_iff.2 h
  exact (hsorted.and hnodup).imp fun h => UInt32.lt_of_le_of_ne h.1 h.2

namespace Translator

variable {t : Translator}

theorem addRanges_nodup {rs : List (ASN × ASN)} (hn : asns.Nodup)
    (h : t.addRanges asns rs = .ok l) : l.Nodup := by
  induction rs generalizing asns with
  | nil =>
    cases h
    exact hn
  | cons r rs ih =>
    obtain ⟨lo, hi⟩ := r
    rw [addRanges] at h
    split at h
    · cases h
    · exact ih (nodup_foldl_addASN hn) h

theorem classItems_nodup : ∀ (es : List ASPathExpr) {c c' : ClassItems},
    t.classItems es c = .ok c' → c.asns.Nodup → c'.asns.Nodup
  | [], c, c', h, hn => by
    cases h
    exact hn
  | e :: es, c, c', h, hn => by
    unfold classItems at h
    split at h
    · rename_i heq
      cases heq
    · rename_i heq
      rw [List.cons.injEq] at heq
      obtain ⟨rfl, rfl⟩ := heq
      exact classItems_nodup es h hn
    · rename_i heq
      rw [List.cons.injEq] at heq
      obtain ⟨rfl, rfl⟩ := heq
      obtain ⟨l, hl, h⟩ := bind_eq_ok.1 h
      cases l with
      | none => exact classItems_nodup es h hn
      | some l => exact classItems_nodup es h (nodup_foldl_addASN hn)

theorem members_sorted {e : ASPathExpr} (h : t.members e = .ok (some l)) :
    l.Pairwise (· < ·) := by
  cases e with
  | asn a =>
    cases h
    exact List.pairwise_singleton _ a
  | set n =>
    rw [members] at h
    split_ifs at h
    · cases h
    · cases h
      exact sorted_of_nodup (List.nodup_dedup _)
  | cls negated items =>
    rw [members] at h
    split_ifs at h
    obtain ⟨c, hc, h⟩ := bind_eq_ok.1 h
    split_ifs at h
    · cases h
    · obtain ⟨asns, hasns, h⟩ := bind_eq_ok.1 h
      cases h
      exact sorted_of_nodup (addRanges_nodup (classItems_nodup items hc List.nodup_nil) hasns)
  | _ => cases h

end Translator

/-! ## Runs -/

theorem follow_spec {a : ASN} {as : List ASN} (h : (a :: as).Pairwise (· < ·)) :
    a.toNat + Translator.runs.follow a as < 2 ^ 32 ∧
      ∀ x, x ∈ as.take (Translator.runs.follow a as) ↔
        a.toNat < x.toNat ∧ x.toNat ≤ a.toNat + Translator.runs.follow a as := by
  induction as generalizing a with
  | nil =>
    refine ⟨a.toNat_lt, fun x => ?_⟩
    simp [Translator.runs.follow]
  | cons b bs ih =>
    rw [Translator.runs.follow]
    split_ifs with hb
    · have hlt : a.toNat < b.toNat := UInt32.lt_iff_toNat_lt.1
        (List.rel_of_pairwise_cons h List.mem_cons_self)
      have hval : b.toNat = a.toNat + 1 := by
        rw [hb, UInt32.toNat_add] at hlt ⊢
        have := a.toNat_lt
        have : (1 : UInt32).toNat = 1 := rfl
        omega
      obtain ⟨hbound, hmem⟩ := ih (List.Pairwise.of_cons h)
      refine ⟨by omega, fun x => ?_⟩
      rw [List.take_succ_cons, List.mem_cons, hmem, ← UInt32.toNat_inj]
      omega
    · refine ⟨a.toNat_lt, fun x => ?_⟩
      simp

/-- **The runs of ASes in order hold them.** -/
theorem mem_runs (h : l.Pairwise (· < ·)) (x : ASN) :
    (∃ r ∈ Translator.runs l, r.1 ≤ x ∧ x ≤ r.2) ↔ x ∈ l := by
  induction l using Translator.runs.induct with
  | case1 =>
    rw [Translator.runs]
    simp
  | case2 a as more hmore ih =>
    obtain ⟨hbound, hmem⟩ := follow_spec h
    have hrest := ih ((List.Pairwise.of_cons h).sublist (List.drop_sublist _ _))
    rw [Translator.runs, if_pos hmore, List.exists_mem_cons_iff, hrest, List.mem_cons,
      ← List.take_append_drop (Translator.runs.follow a as) as, List.mem_append, hmem,
      List.take_append_drop, UInt32.le_iff_toNat_le, UInt32.le_iff_toNat_le,
      UInt32.toNat_ofNat_of_lt' hbound, ← or_assoc, ← UInt32.toNat_inj]
    refine or_congr_left ?_
    dsimp only
    omega
  | case3 a as more hmore ih =>
    rw [Translator.runs, if_neg hmore, List.exists_mem_cons_iff, ih (List.Pairwise.of_cons h),
      List.mem_cons, UInt32.le_iff_toNat_le, UInt32.le_iff_toNat_le, ← UInt32.toNat_inj]
    refine or_congr_left ?_
    dsimp only
    omega

theorem runs_ne_nil (h : l ≠ []) : Translator.runs l ≠ [] := by
  cases l with
  | nil => exact absurd rfl h
  | cons a as =>
    rw [Translator.runs]
    split_ifs <;> simp

/-! ## Relations and languages -/

/-- Where no AS is zero, `M` holds between the places the words of `L` are spelled between. -/
def SpelledBy (M : Place ASN → Place ASN → Prop) (L : Language ASN) : Prop :=
  ∀ x y, 0 ∉ x.2 → (M x y ↔ Spells L x y)

section

variable {M N : Place ASN → Place ASN → Prop} {L K : Language ASN}

theorem SpelledBy.congr (h : SpelledBy M L) (hiff : ∀ x y, N x y ↔ M x y) : SpelledBy N L :=
  fun x y hx => (hiff x y).trans (h x y hx)

theorem spelledBy_eq : SpelledBy Eq 1 := fun _ _ _ => spells_one.symm

theorem not_mem_of_spells {x y : Place ASN} (h : Spells L x y) (hx : 0 ∉ x.2) : 0 ∉ y.2 := by
  obtain ⟨w, -, hw, -⟩ := h
  rw [hw] at hx
  exact fun hy => hx (List.mem_append_right w hy)

theorem SpelledBy.mul (hM : SpelledBy M L) (hN : SpelledBy N K) :
    SpelledBy (fun x y => ∃ z, M x z ∧ N z y) (L * K) := by
  intro x y hx
  rw [spells_mul]
  refine exists_congr fun z => ?_
  rw [hM x z hx]
  exact and_congr_right fun hz => hN z y (not_mem_of_spells hz hx)

theorem SpelledBy.iter (hM : SpelledBy M L) (n : Nat) : SpelledBy (Iter M n) (L ^ n) := by
  induction n with
  | zero => exact spelledBy_eq
  | succ n ih =>
    rw [pow_succ']
    exact hM.mul ih

theorem SpelledBy.rep (hM : SpelledBy M L) {r : PathRegexp} (hr : r.lang UInt32.toNat = L)
    (min : Nat) (max : Option Nat) :
    SpelledBy (fun x y => ∃ n, (min ≤ n ∧ ∀ m ∈ max, n ≤ m) ∧ Iter M n x y)
      ((PathRegexp.rep r min max).lang UInt32.toNat) := by
  intro x y hx
  rw [PathRegexp.spells_rep, hr]
  refine exists_congr fun n => ?_
  rw [hM.iter n x y hx, spells_pow, and_assoc]

end

/-! ## Dialects -/

/-- How the words of a text are read as items, and the paths items match in order. -/
structure Dialect (ρ : Type) where
  reads : List Token → List ρ → Prop
  lang : List ρ → Language ASN
  reads_nil : reads [] []
  reads_append : ∀ {ts us rs qs}, reads ts rs → reads us qs → reads (ts ++ us) (rs ++ qs)
  lang_nil : lang [] = 1
  lang_append : ∀ rs qs, lang (rs ++ qs) = lang rs * lang qs

def junosDialect : Dialect PathRegexp where
  reads := PathRegexp.Reads
  lang rs := (PathRegexp.seqOf rs).lang UInt32.toNat
  reads_nil := .nil
  reads_append := .append
  lang_nil := rfl
  lang_append := PathRegexp.lang_seqOf_append

def birdDialect : Dialect PathMask.Item where
  reads := PathMask.Reads
  lang := PathMask.lang UInt32.toNat
  reads_nil := PathMask.reads_nil
  reads_append := .append
  lang_nil := rfl
  lang_append := PathMask.lang_append

namespace Dialect

variable {ρ : Type} {d : Dialect ρ}

variable (d) in
def Writes (s : Text) (L : Language ASN) : Prop :=
  ∃ ts rs, Lexes s ts ∧ d.reads ts rs ∧ d.lang rs = L

theorem writes_join {ss : List Text} {Ls : List (Language ASN)} (h : List.Forall₂ d.Writes ss Ls) :
    d.Writes ([' '].intercalate ss) Ls.prod := by
  obtain ⟨tss, hlex, rs, hreads, hlang⟩ : ∃ tss, List.Forall₂ Lexes ss tss ∧
      ∃ rs, d.reads tss.flatten rs ∧ d.lang rs = Ls.prod := by
    induction h with
    | nil => exact ⟨[], .nil, [], d.reads_nil, d.lang_nil⟩
    | cons hs _ ih =>
      obtain ⟨ts, rs, hs, hr, hl⟩ := hs
      obtain ⟨tss, hlex, qs, hq, hlq⟩ := ih
      refine ⟨ts :: tss, .cons hs hlex, rs ++ qs, d.reads_append hr hq, ?_⟩
      rw [d.lang_append, hl, hlq, List.prod_cons]
  exact ⟨tss.flatten, rs, lexes_join hlex, hreads, hlang⟩

end Dialect

/-! ## Junos -/

def JunosItem (s : Text) (r : PathRegexp) : Prop := ∃ ts, Lexes s ts ∧ PathRegexp.Reads ts [r]

variable {s : Text}

theorem JunosItem.writes {r : PathRegexp} (h : JunosItem s r) :
    junosDialect.Writes s (r.lang UInt32.toNat) := by
  obtain ⟨ts, hs, hr⟩ := h
  exact ⟨ts, [r], hs, hr, PathRegexp.lang_seqOf_singleton r⟩

theorem junosItem_num (a : ASN) : JunosItem (num a) (.num a.toNat) :=
  ⟨_, lexes_num _, .num _⟩

theorem closed_of_sign {c : Char} (h : (c.isDigit || c == ' ') = false) :
    Closed [c] [.sign c] := by
  rw [Bool.or_eq_false_iff] at h
  exact closed_sign h.1 (by simpa using h.2)

theorem junosItem_any : JunosItem ['.'] .any :=
  ⟨_, (closed_of_sign rfl).lexes, .any⟩

def runItem (r : ASN × ASN) : PathRegexp :=
  if r.1 = r.2 then .num r.1.toNat else .range r.1.toNat r.2.toNat

theorem junosItem_run (r : ASN × ASN) : JunosItem (Translator.runText ['-'] r) (runItem r) := by
  unfold Translator.runText runItem
  split_ifs with h
  · exact junosItem_num r.1
  · have hdash := (lexes_num r.1.toNat).append_closed (closed_of_sign (c := '-') rfl) (by simp)
      (stops_cons _ rfl)
    exact ⟨_, hdash.append_lexes (lexes_num r.2.toNat), .range _ _⟩

theorem spells_runItem {r : ASN × ASN} {x y : Place ASN} :
    Spells ((runItem r).lang UInt32.toNat) x y ↔ ∃ a, (r.1 ≤ a ∧ a ≤ r.2) ∧ Place.Step a x y := by
  unfold runItem
  split_ifs with h
  · refine spells_letters.trans (exists_congr fun a => and_congr_left fun _ => ?_)
    rw [← h, UInt32.le_iff_toNat_le, UInt32.le_iff_toNat_le]
    omega
  · refine spells_letters.trans (exists_congr fun a => and_congr_left fun _ => ?_)
    rw [UInt32.le_iff_toNat_le, UInt32.le_iff_toNat_le]

theorem junosItem_words {ss : List Text} {rs : List PathRegexp} (h : List.Forall₂ JunosItem ss rs) :
    ∃ tss, List.Forall₂ Lexes ss tss ∧ List.Forall₂ PathRegexp.Reads tss (rs.map fun r => [r]) ∧
      PathRegexp.Reads tss.flatten rs := by
  induction h with
  | nil => exact ⟨[], .nil, .nil, .nil⟩
  | cons h _ ih =>
    obtain ⟨ts, hs, hr⟩ := h
    obtain ⟨tss, hlex, hreads, hflat⟩ := ih
    exact ⟨ts :: tss, .cons hs hlex, .cons hr hreads, hr.append hflat⟩

theorem lexes_paren {ts : List Token} (h : Lexes s ts) :
    Lexes ('(' :: s ++ [')']) (.sign '(' :: ts ++ [.sign ')']) := by
  have hclose := h.append_closed (closed_of_sign (c := ')') rfl) (by simp) (stops_cons _ rfl)
  exact ((closed_of_sign (c := '(') rfl).append hclose).lexes

theorem junosItem_alts {ss : List Text} {rs : List PathRegexp} (hne : ss ≠ [])
    (h : List.Forall₂ JunosItem ss rs) :
    JunosItem ('(' :: ['|'].intercalate ss ++ [')'])
      (.group (PathRegexp.altOf (rs.map fun r => [r]))) := by
  obtain ⟨tss, hlex, hreads, -⟩ := junosItem_words h
  have hne' : tss ≠ [] := by
    intro hnil
    subst hnil
    cases hlex
    exact hne rfl
  have hbar : Lexes (['|'].intercalate ss) ([Token.sign '|'].intercalate tss) :=
    lexes_intercalate (closed_of_sign rfl) (by simp) (stops_cons _ rfl) hlex
  exact ⟨_, lexes_paren hbar, PathRegexp.reads_group hne' hreads⟩

theorem writes_paren {L : Language ASN} (h : junosDialect.Writes s L) :
    junosDialect.Writes ('(' :: s ++ [')']) L := by
  obtain ⟨ts, rs, hs, hr, hlang⟩ := h
  have hgroup := PathRegexp.reads_group (by simp) (.cons hr .nil)
  rw [List.intercalate_singleton] at hgroup
  exact ⟨_, _, lexes_paren hs, hgroup, (PathRegexp.lang_seqOf_singleton _).trans hlang⟩

theorem junosItem_seq {ss : List Text} {rs : List PathRegexp} (h : List.Forall₂ JunosItem ss rs) :
    JunosItem ('(' :: [' '].intercalate ss ++ [')']) (.group (PathRegexp.seqOf rs)) := by
  obtain ⟨tss, hlex, -, hflat⟩ := junosItem_words h
  have hgroup := PathRegexp.reads_group (by simp) (.cons hflat .nil)
  rw [List.intercalate_singleton] at hgroup
  exact ⟨_, lexes_paren (lexes_join hlex), hgroup⟩

theorem spells_alts {rs : List PathRegexp} (hne : rs ≠ []) {x y : Place ASN} :
    Spells ((PathRegexp.altOf (rs.map fun r => [r])).lang UInt32.toNat) x y ↔
      ∃ r ∈ rs, Spells (r.lang UInt32.toNat) x y := by
  rw [PathRegexp.spells_altOf (by simpa using hne)]
  simp [PathRegexp.lang_seqOf_singleton]

theorem junosItem_alt {sets : List (SetName × ASNSet)} {e : ASPathExpr}
    (h : Lists sets e (some l)) (hl : l.Pairwise (· < ·)) :
    ∃ r, JunosItem (Translator.junosAlt l) r ∧ r.isRep = false ∧
      SpelledBy (fun x y => ∃ a, e.Has sets a ∧ Place.Step a x y) (r.lang UInt32.toNat) := by
  unfold Translator.junosAlt
  split_ifs with hnil
  · -- zero is no AS of a path
    refine ⟨.num 0, junosItem_num 0, rfl, fun x y hx => ?_⟩
    have hno : ∀ a, ¬ e.Has sets a := by
      intro a ha
      have := (h a).1 ha
      rw [hnil] at this
      cases this
    constructor
    · intro hyp
      obtain ⟨a, ha, _⟩ := hyp
      exact absurd ha (hno a)
    · intro hs
      obtain ⟨a, ha, hstep, -⟩ := spells_letters.1 hs
      obtain rfl : a = 0 := UInt32.toNat_inj.1 ha
      rw [hstep] at hx
      exact absurd List.mem_cons_self hx
  · have hruns := runs_ne_nil hnil
    have hspell : ∀ x y, (∃ a, e.Has sets a ∧ Place.Step a x y) ↔
        ∃ r ∈ Translator.runs l, Spells ((runItem r).lang UInt32.toNat) x y := by
      intro x y
      constructor
      · intro hyp
        obtain ⟨a, ha, hstep⟩ := hyp
        obtain ⟨r, hr, hra⟩ := (mem_runs hl a).2 ((h a).1 ha)
        exact ⟨r, hr, spells_runItem.2 ⟨a, hra, hstep⟩⟩
      · intro hyp
        obtain ⟨r, hr, hs⟩ := hyp
        obtain ⟨a, hra, hstep⟩ := spells_runItem.1 hs
        exact ⟨a, (h a).2 ((mem_runs hl a).1 ⟨r, hr, hra⟩), hstep⟩
    generalize Translator.runs l = runs at hruns hspell
    split
    · rename_i part hpart
      obtain ⟨r, rs, hrs⟩ := List.exists_cons_of_ne_nil hruns
      subst hrs
      rw [List.map_cons, List.cons.injEq, List.map_eq_nil_iff] at hpart
      obtain ⟨rfl, rfl⟩ := hpart
      refine ⟨runItem r, junosItem_run r, ?_, fun x y _ => ?_⟩
      · unfold runItem
        split_ifs <;> rfl
      · refine (hspell x y).trans ?_
        simp
    · have hitems : List.Forall₂ JunosItem (runs.map (Translator.runText ['-']))
          (runs.map runItem) := by
        rw [List.forall₂_map_left_iff, List.forall₂_map_right_iff]
        exact List.forall₂_same.2 fun r _ => junosItem_run r
      refine ⟨_, junosItem_alts (by simpa using hruns) hitems, rfl, fun x y _ => ?_⟩
      refine (hspell x y).trans (Iff.trans ?_ (spells_alts (by simpa using hruns)).symm)
      simp

/-! ### Quantifiers -/

variable {min : Nat} {max : Option Nat}

theorem closed_quantifier {op : RepeatOp}
    (hbounds : op = .range → ∀ m ∈ max, min ≤ m) :
    ∃ q lo hi, Closed (Translator.quantifier op min max) q ∧ PathRegexp.Quantifier q lo hi ∧
      ∀ n, ASPathExpr.Counts op min max n ↔ lo ≤ n ∧ ∀ m ∈ hi, n ≤ m := by
  have hbrace : ∀ {s : Text} {ts : List Token}, Lexes s ts →
      Closed ('{' :: s ++ ['}']) (.sign '{' :: ts ++ [.sign '}']) := fun h =>
    (closed_of_sign (c := '{') rfl).append
      (h.append_closed (closed_of_sign (c := '}') rfl) (by simp) (stops_cons _ rfl))
  have hcomma := (lexes_num min).append_closed (closed_of_sign (c := ',') rfl) (by simp)
    (stops_cons _ rfl)
  cases op with
  | star =>
    refine ⟨_, 0, none, closed_of_sign rfl, .star, fun n => ?_⟩
    simp [ASPathExpr.Counts]
  | plus =>
    refine ⟨_, 1, none, closed_of_sign rfl, .plus, fun n => ?_⟩
    simp [ASPathExpr.Counts]
  | quest =>
    refine ⟨_, 0, some 1, closed_of_sign rfl, .quest, fun n => ?_⟩
    simp [ASPathExpr.Counts]
  | range =>
    cases max with
    | none =>
      have hclosed := hbrace hcomma.lexes
      refine ⟨_, min, none, ?_, .atLeast min, fun n => Iff.rfl⟩
      simpa [Translator.quantifier, Text.ofNat] using hclosed
    | some max =>
      have hle := hbounds rfl max rfl
      unfold Translator.quantifier
      dsimp only
      split_ifs with heq
      · subst heq
        exact ⟨_, max, some max, hbrace (lexes_num max), .exactly max, fun n => Iff.rfl⟩
      · have hclosed := hbrace (hcomma.append_lexes (lexes_num max))
        refine ⟨_, min, some max, ?_, .between hle, fun n => Iff.rfl⟩
        simpa [Text.ofNat] using hclosed

theorem stops_quantifier (op : RepeatOp) (min : Nat) (max : Option Nat) :
    Stops (Translator.quantifier op min max) ∧ Translator.quantifier op min max ≠ [] := by
  unfold Translator.quantifier
  cases op with
  | range =>
    cases max with
    | none => simp [Stops]
    | some max =>
      dsimp only
      split_ifs <;> simp [Stops]
  | _ => simp [Stops]

theorem last_quantifier (s : Text) (op : RepeatOp) (min : Nat) (max : Option Nat) :
    (s ++ Translator.quantifier op min max).getLast? ≠ some ')' := by
  obtain ⟨w, c, hw, hc⟩ : ∃ w c, Translator.quantifier op min max = w ++ [c] ∧ c ≠ ')' := by
    unfold Translator.quantifier
    cases op with
    | star => exact ⟨[], '*', rfl, by decide⟩
    | plus => exact ⟨[], '+', rfl, by decide⟩
    | quest => exact ⟨[], '?', rfl, by decide⟩
    | range =>
      cases max with
      | none => exact ⟨'{' :: ofNat min ++ [','], '}', by simp, by decide⟩
      | some max =>
        dsimp only
        split_ifs
        · exact ⟨'{' :: ofNat min, '}', rfl, by decide⟩
        · exact ⟨'{' :: ofNat min ++ ',' :: ofNat max, '}', rfl, by decide⟩
  rw [hw, ← List.append_assoc, List.getLast?_concat]
  simpa using hc

/-! ### Expressions -/

def isRepeat : ASPathExpr → Bool
  | .rep _ _ _ _ _ => true
  | _ => false

def JunosWrites (sets : List (SetName × ASNSet)) (e : ASPathExpr) (s : Text) : Prop :=
  ∃ r, JunosItem s r ∧ r.isRep = isRepeat e ∧ SpelledBy (e.Match sets) (r.lang UInt32.toNat)

variable {es : List ASPathExpr}

theorem spelledBy_seq {sets : List (SetName × ASNSet)}
    {Ls : List (Language ASN)} (h : List.Forall₂ (fun e L => SpelledBy (e.Match sets) L) es Ls) :
    SpelledBy (ASPathExpr.MatchSeq sets es) Ls.prod := by
  induction h with
  | nil => exact spelledBy_eq.congr fun x y => by rw [ASPathExpr.MatchSeq]
  | cons h _ ih =>
    rw [List.prod_cons]
    exact (h.mul ih).congr fun x y => by rw [ASPathExpr.MatchSeq]

theorem prod_langs (rs : List PathRegexp) :
    (rs.map fun r => r.lang UInt32.toNat).prod = (PathRegexp.seqOf rs).lang UInt32.toNat := by
  induction rs with
  | nil => rfl
  | cons r rs ih => rw [List.map_cons, List.prod_cons, ih, PathRegexp.lang_seqOf_cons]

theorem junosWrites_items {sets : List (SetName × ASNSet)} {ss : List Text}
    (h : List.Forall₂ (JunosWrites sets) es ss) :
    ∃ rs, List.Forall₂ JunosItem ss rs ∧
      List.Forall₂ (fun e r => SpelledBy (e.Match sets) (r.lang UInt32.toNat)) es rs := by
  induction h with
  | nil => exact ⟨[], .nil, .nil⟩
  | cons h _ ih =>
    obtain ⟨r, hr, -, hm⟩ := h
    obtain ⟨rs, hrs, hms⟩ := ih
    exact ⟨r :: rs, .cons hr hrs, .cons hm hms⟩

namespace Translator

variable {t : Translator}

theorem junosWrites_members {e : ASPathExpr} (hrep : isRepeat e = false)
    (hm : ∀ x y, e.Match t.sets x y ↔ ∃ a, e.Has t.sets a ∧ Place.Step a x y)
    (h : (t.members e >>= fun l => match l with
      | none => .ok ['.']
      | some asns => .ok (junosAlt asns)) = .ok s) : JunosWrites t.sets e s := by
  obtain ⟨l, hl, h⟩ := bind_eq_ok.1 h
  have hlists := members_lists e hl
  cases l with
  | none =>
    cases h
    refine ⟨.any, junosItem_any, hrep.symm, fun x y _ => (hm x y).trans ?_⟩
    refine (exists_congr fun a => ?_).trans spells_letters.symm
    rw [and_iff_right (hlists a), true_and]
  | some l =>
    cases h
    obtain ⟨r, hr, hnot, hspelled⟩ := junosItem_alt hlists (members_sorted hl)
    exact ⟨r, hr, hnot.trans hrep.symm, hspelled.congr hm⟩

theorem junosWrites_rep {inner : ASPathExpr} (h : JunosWrites t.sets inner s)
    {op : RepeatOp} {same : Bool}
    (hbounds : op = .range → ∀ m ∈ max, min ≤ m) (hsame : ¬ (same && !isASN inner) = true)
    (hlast : isRepeat inner = true → s.getLast? ≠ some ')') :
    JunosWrites t.sets (.rep inner op min max same)
      ((if !singleAtom inner && !(s.head? = some '(' && s.getLast? = some ')') then
        '(' :: s ++ [')'] else s) ++ quantifier op min max) := by
  obtain ⟨r, hr, hrep, hspelled⟩ := h
  obtain ⟨q, lo, hi, hclosed, hq, hcounts⟩ := closed_quantifier hbounds
  obtain ⟨hstop, hne⟩ := stops_quantifier op min max
  -- the item the quantifier binds to
  obtain ⟨r', ⟨ts, hts, hreads⟩, hnot, hlang⟩ : ∃ r', JunosItem (if !singleAtom inner &&
      !(s.head? = some '(' && s.getLast? = some ')') then '(' :: s ++ [')'] else s) r' ∧
      r'.isRep = false ∧ r'.lang UInt32.toNat = r.lang UInt32.toNat := by
    split_ifs with hcond
    · have hgroup := junosItem_seq (.cons hr .nil)
      rw [List.intercalate_singleton] at hgroup
      exact ⟨_, hgroup, rfl, PathRegexp.lang_seqOf_singleton r⟩
    · refine ⟨r, hr, ?_, rfl⟩
      rw [hrep]
      cases hi' : isRepeat inner with
      | false => rfl
      | true =>
        refine absurd ?_ hcond
        have hatom : singleAtom inner = false := by
          cases inner with
          | rep _ _ _ _ _ => rfl
          | _ => cases hi'
        simp [hatom, hlast hi']
  refine ⟨.rep r' lo hi, ⟨_, (hts.append_closed hclosed hne hstop).lexes, .rep hreads hnot hq⟩, rfl,
    (hspelled.rep hlang lo hi).congr fun x y => ?_⟩
  rw [ASPathExpr.Match]
  refine exists_congr fun n => ?_
  rw [hcounts n]
  refine and_congr_right fun _ => ⟨And.left, fun h => ⟨h, fun hs => ?_⟩⟩
  -- a same-AS repetition is of an AS number
  cases inner with
  | asn a => exact sameAS_iter h
  | _ => simp [hs, isASN] at hsame

mutual

/-- **Each part is written as an item that matches as it does.** -/
theorem junosExpr_writes : ∀ (e : ASPathExpr) {s : Text}, t.junosExpr e = .ok s → e.Parsed →
    JunosWrites t.sets e s
  | .start, s, h, _ => by cases h
  | .end_, s, h, _ => by cases h
  | .seq es, s, h, hp => by
    rw [junosExpr] at h
    obtain ⟨ss, hss, h⟩ := bind_eq_ok.1 h
    cases h
    obtain ⟨rs, hitems, hspelled⟩ := junosWrites_items (junosExprs_writes es hss hp)
    refine ⟨_, junosItem_seq hitems, rfl, ?_⟩
    have hseq : SpelledBy (ASPathExpr.MatchSeq t.sets es)
        (rs.map fun r => r.lang UInt32.toNat).prod :=
      spelledBy_seq (List.forall₂_map_right_iff.2 hspelled)
    rw [prod_langs] at hseq
    exact hseq.congr fun x y => by rw [ASPathExpr.Match]
  | .alt es, s, h, hp => by
    rw [junosExpr] at h
    obtain ⟨ss, hss, h⟩ := bind_eq_ok.1 h
    cases h
    rw [ASPathExpr.Parsed] at hp
    obtain ⟨rs, hitems, hspelled⟩ := junosWrites_items (junosExprs_writes es hss hp.2)
    have hss' : ss ≠ [] := by
      intro hnil
      have hlen := hitems.length_eq.trans hspelled.length_eq.symm
      rw [hnil] at hlen
      exact hp.1 (List.length_eq_zero_iff.1 hlen.symm)
    have hrs : rs ≠ [] := by
      intro hnil
      have hlen := hitems.length_eq
      rw [hnil] at hlen
      exact hss' (List.length_eq_zero_iff.1 hlen)
    obtain ⟨hto, hfrom⟩ := forall₂_mem hspelled
    refine ⟨_, junosItem_alts hss' hitems, rfl, fun x y hx => ?_⟩
    rw [ASPathExpr.Match, ASPathExpr.matchAny_iff]
    refine Iff.trans ?_ (spells_alts hrs).symm
    constructor
    · intro hyp
      obtain ⟨e, he, hm⟩ := hyp
      obtain ⟨r, hr, hs⟩ := hto e he
      exact ⟨r, hr, (hs x y hx).1 hm⟩
    · intro hyp
      obtain ⟨r, hr, hm⟩ := hyp
      obtain ⟨e, he, hs⟩ := hfrom r hr
      exact ⟨e, he, (hs x y hx).2 hm⟩
  | .rep inner op min max same, s, h, hp => by
    rw [junosExpr] at h
    split at h
    · cases h
    rename_i hsame
    obtain ⟨s', hs', h⟩ := bind_eq_ok.1 h
    rw [ASPathExpr.Parsed] at hp
    cases h
    refine junosWrites_rep (junosExpr_writes inner hs' hp.1) hp.2 hsame fun hrep => ?_
    cases inner with
    | rep inner' op' min' max' same' =>
      rw [junosExpr] at hs'
      split at hs'
      · cases hs'
      obtain ⟨s'', -, hs'⟩ := bind_eq_ok.1 hs'
      cases hs'
      exact last_quantifier _ _ _ _
    | _ => cases hrep
  | .any, s, h, _ => junosWrites_members rfl (fun x y => by rw [ASPathExpr.Match] <;> nofun) h
  | .asn _, s, h, _ => junosWrites_members rfl (fun x y => by rw [ASPathExpr.Match] <;> nofun) h
  | .set _, s, h, _ => junosWrites_members rfl (fun x y => by rw [ASPathExpr.Match] <;> nofun) h
  | .template _, s, h, _ => by cases h
  | .peerAS, s, h, _ => by cases h
  | .cls _ _, s, h, _ => junosWrites_members rfl (fun x y => by rw [ASPathExpr.Match] <;> nofun) h
  | .asnRange _ _, s, h, _ => by cases h

theorem junosExprs_writes : ∀ (es : List ASPathExpr) {ss : List Text}, t.junosExprs es = .ok ss →
    ASPathExpr.ParsedAll es → List.Forall₂ (JunosWrites t.sets) es ss
  | [], ss, h, _ => by
    cases h
    exact .nil
  | e :: es, ss, h, hp => by
    rw [junosExprs] at h
    obtain ⟨s, hs, h⟩ := bind_eq_ok.1 h
    obtain ⟨ss', hss, h⟩ := bind_eq_ok.1 h
    cases h
    rw [ASPathExpr.ParsedAll] at hp
    exact .cons (junosExpr_writes e hs hp.1) (junosExprs_writes es hss hp.2)

end

/-! ## The top level -/

section

variable {sets : List (SetName × ASNSet)} {x y : Place ASN}

theorem topLevel_eq (body : ASPathExpr) : topLevel body =
    ((stripEnd (stripStart (termsOf body)).1).1, (stripStart (termsOf body)).2,
      (stripEnd (stripStart (termsOf body)).1).2) := by
  cases body with
  | seq terms =>
    cases terms with
    | nil => rfl
    | cons e es =>
      unfold topLevel stripEnd termsOf
      cases e <;> dsimp only [stripStart] <;> generalize List.getLast? _ = l <;>
        rcases l with _ | e' <;> first | rfl | (cases e' <;> rfl)
  | _ => rfl

theorem match_topLevel {body : ASPathExpr} {terms : List ASPathExpr} {start end_ : Bool}
    (h : topLevel body = (terms, start, end_)) :
    body.Match sets x y ↔ (start = true → x.1 = []) ∧ (end_ = true → y.2 = []) ∧
      ASPathExpr.MatchSeq sets terms x y := by
  rw [topLevel_eq, Prod.mk.injEq, Prod.mk.injEq] at h
  obtain ⟨rfl, rfl, rfl⟩ := h
  rw [ASPathExpr.match_termsOf, ASPathExpr.match_stripStart, ← ASPathExpr.match_stripEnd]

theorem parsed_topLevel {body : ASPathExpr} {terms : List ASPathExpr} {start end_ : Bool}
    (h : topLevel body = (terms, start, end_)) (hp : body.Parsed) :
    ASPathExpr.ParsedAll terms := by
  rw [topLevel_eq, Prod.mk.injEq] at h
  obtain ⟨rfl, -⟩ := h
  have hall : ∀ e ∈ termsOf body, e.Parsed := by
    cases body with
    | seq terms =>
      rw [ASPathExpr.Parsed, ASPathExpr.parsedAll_iff] at hp
      exact hp
    | _ => simpa [termsOf] using hp
  have hsub : ∀ e ∈ (stripEnd (stripStart (termsOf body)).1).1, e ∈ termsOf body := by
    intro e he
    have hstart : e ∈ (stripStart (termsOf body)).1 := by
      unfold stripEnd at he
      split at he
      · exact List.mem_of_mem_dropLast he
      · exact he
    unfold stripStart at hstart
    split at hstart
    · rename_i heq
      rw [heq]
      exact List.mem_cons_of_mem _ hstart
    · exact hstart
  exact ASPathExpr.parsedAll_iff.2 fun e he => hall e (hsub e he)

end

def edge (anchored : Bool) : Language ASN := if anchored then 1 else ⊤

theorem mem_edge {anchored : Bool} {w : List ASN} :
    w ∈ edge anchored ↔ (anchored = true → w = []) := by
  unfold edge
  cases anchored with
  | true => simp [Language.mem_one]
  | false => exact ⟨fun _ h => absurd h Bool.false_ne_true, fun _ => Set.mem_univ w⟩

/-- **The regexp matches somewhere in the path.** -/
theorem found_iff {m : PathMatch} {terms : List ASPathExpr} {start end_ : Bool}
    (htop : topLevel m.re.body = (terms, start, end_)) {L : Language ASN}
    (hL : SpelledBy (ASPathExpr.MatchSeq m.sets terms) L) {path : List ASN} (hz : 0 ∉ path) :
    path ∈ edge start * L * edge end_ ↔ m.Found path := by
  constructor
  · intro h
    obtain ⟨uw, huw, v, hv, rfl⟩ := Language.mem_mul.1 h
    obtain ⟨u, hu, w, hw, rfl⟩ := Language.mem_mul.1 huw
    rw [mem_edge] at hu hv
    have hz' : 0 ∉ w ++ v := by
      rw [List.append_assoc] at hz
      exact fun h => hz (List.mem_append_right u h)
    refine ⟨(u, w ++ v), (u ++ w, v), (List.append_assoc u w v).symm, ?_⟩
    exact (match_topLevel htop).2 ⟨hu, hv, (hL _ _ hz').2 ⟨w, hw, rfl, rfl⟩⟩
  · intro hyp
    obtain ⟨x, y, hpath, hm⟩ := hyp
    obtain ⟨hstart, hend, hm⟩ := (match_topLevel htop).1 hm
    have hz' : 0 ∉ x.2 := fun h => hz (hpath ▸ List.mem_append_right x.1 h)
    obtain ⟨w, hw, h₂, h₁⟩ := (hL x y hz').1 hm
    rw [← hpath, h₂, ← List.append_assoc]
    exact Language.append_mem_mul (Language.append_mem_mul (mem_edge.2 hstart) hw)
      (mem_edge.2 hend)

theorem lang_anyRun : (PathRegexp.rep .any 0 none).lang UInt32.toNat = (⊤ : Language ASN) :=
  top_unique fun w _ => PathRegexp.mem_anyRun w

theorem writes_junosRun : junosDialect.Writes (lit ".*") ⊤ := by
  have hitem : JunosItem (lit ".*") (.rep .any 0 none) :=
    ⟨_, ((closed_of_sign (c := '.') rfl).append (closed_of_sign (c := '*') rfl)).lexes,
      .rep .any rfl .star⟩
  exact lang_anyRun ▸ hitem.writes

theorem writes_edge {ρ : Type} {d : Dialect ρ} (h : d.Writes s ⊤) (anchored : Bool) :
    ∃ Ls, List.Forall₂ d.Writes (if anchored then [] else [s]) Ls ∧ Ls.prod = edge anchored := by
  cases anchored with
  | true => exact ⟨[], .nil, rfl⟩
  | false => exact ⟨[⊤], .cons h .nil, List.prod_singleton⟩

theorem writes_topLevel {ρ : Type} {d : Dialect ρ} (h : d.Writes s ⊤)
    (start end_ : Bool) {ss : List Text} {Ls : List (Language ASN)}
    (hss : List.Forall₂ d.Writes ss Ls) :
    d.Writes ([' '].intercalate ((if start then [] else [s]) ++ ss ++ if end_ then [] else [s]))
      (edge start * Ls.prod * edge end_) := by
  obtain ⟨As, hA, hAp⟩ := writes_edge h start
  obtain ⟨Bs, hB, hBp⟩ := writes_edge h end_
  have hjoin := Dialect.writes_join (List.rel_append (List.rel_append hA hss) hB)
  rwa [List.prod_append, List.prod_append, hAp, hBp] at hjoin

/-! ## BIRD -/

def BirdWrites (sets : List (SetName × ASNSet)) (e : ASPathExpr) (s : Text) : Prop :=
  ∃ L, birdDialect.Writes s L ∧ SpelledBy (e.Match sets) L

theorem writes_birdItem {ts : List Token} {i : PathMask.Item} (hs : Lexes s ts)
    (hi : PathMask.Reads ts [i]) : birdDialect.Writes s (i.lang UInt32.toNat) :=
  ⟨ts, [i], hs, hi, PathMask.lang_singleton i⟩

theorem writes_birdRun : birdDialect.Writes ['*'] ⊤ :=
  writes_birdItem (closed_of_sign rfl).lexes PathMask.reads_run

theorem writes_birdAny : birdDialect.Writes ['?'] (letters fun _ => True) :=
  writes_birdItem (closed_of_sign rfl).lexes PathMask.reads_any

def runRange (r : ASN × ASN) : Nat × Nat := (r.1.toNat, r.2.toNat)

theorem lexes_birdRun (r : ASN × ASN) :
    Lexes (runText (lit "..") r) (PathMask.rangeWords (runRange r)) := by
  unfold runText PathMask.rangeWords runRange
  by_cases h : r.1 = r.2
  · rw [if_pos h, if_pos (congrArg UInt32.toNat h)]
    exact lexes_num r.1.toNat
  · rw [if_neg h, if_neg fun hn => h (UInt32.toNat_inj.1 hn)]
    have hdots : Closed (lit "..") [.sign '.', .sign '.'] :=
      (closed_of_sign (c := '.') rfl).append (closed_of_sign (c := '.') rfl)
    exact ((lexes_num r.1.toNat).append_closed hdots (by decide) (stops_cons _ rfl)).append_lexes
      (lexes_num r.2.toNat)

theorem writes_birdSet {rs : List (ASN × ASN)} (hne : rs ≠ []) :
    birdDialect.Writes ('[' :: (lit ", ").intercalate (rs.map (runText (lit ".."))) ++ [']'])
      (letters fun a => ∃ r ∈ rs, r.1 ≤ a ∧ a ≤ r.2) := by
  have hcomma : Closed (lit ", ") [.sign ','] := (closed_of_sign (c := ',') rfl).append closed_blank
  have hruns : List.Forall₂ Lexes (rs.map (runText (lit "..")))
      ((rs.map runRange).map PathMask.rangeWords) := by
    rw [List.map_map, List.forall₂_map_left_iff, List.forall₂_map_right_iff]
    exact List.forall₂_same.2 fun r _ => lexes_birdRun r
  have hlex := lexes_intercalate hcomma (by decide) (stops_cons _ rfl) hruns
  have hclose := hlex.append_closed (closed_of_sign (c := ']') rfl) (by simp) (stops_cons _ rfl)
  have hall := ((closed_of_sign (c := '[') rfl).append hclose).lexes
  have hset := writes_birdItem hall (PathMask.reads_set (by simpa using hne))
  have hlang : (PathMask.Item.set (rs.map runRange)).lang UInt32.toNat =
      letters fun a : ASN => ∃ r ∈ rs, r.1 ≤ a ∧ a ≤ r.2 := by
    simp [PathMask.Item.lang, runRange, UInt32.le_iff_toNat_le]
  rw [hlang] at hset
  exact hset

theorem birdWrites_members {e : ASPathExpr}
    (hm : ∀ x y, e.Match t.sets x y ↔ ∃ a, e.Has t.sets a ∧ Place.Step a x y)
    (h : (t.members e >>= fun asns => .ok (birdAtom asns)) = .ok s) : BirdWrites t.sets e s := by
  obtain ⟨l, hl, h⟩ := bind_eq_ok.1 h
  cases h
  have hlists := members_lists e hl
  cases l with
  | none =>
    refine ⟨_, writes_birdAny, fun x y _ => (hm x y).trans ?_⟩
    refine (exists_congr fun a => ?_).trans spells_letters.symm
    rw [and_iff_right (hlists a), true_and]
  | some l =>
    match l, hl, hlists with
    | [], _, hlists =>
      refine ⟨_, writes_birdItem (lexes_num 0) (PathMask.reads_num 0), fun x y hx => ?_⟩
      refine (hm x y).trans ⟨fun hs => ?_, fun hs => ?_⟩
      · obtain ⟨a, ha, -⟩ := hs
        cases (hlists a).1 ha
      · obtain ⟨a, ha, hstep, -⟩ := spells_letters.1 hs
        obtain rfl : a = 0 := UInt32.toNat_inj.1 ha
        rw [hstep] at hx
        exact absurd List.mem_cons_self hx
    | [b], _, hlists =>
      refine ⟨_, writes_birdItem (lexes_num b.toNat) (PathMask.reads_num b.toNat), fun x y _ => ?_⟩
      refine (hm x y).trans (Iff.trans ?_ spells_letters.symm)
      refine exists_congr fun a => and_congr_left fun _ => ?_
      rw [hlists a, List.mem_singleton, UInt32.toNat_inj]
    | b :: c :: as, hl, hlists =>
      refine ⟨_, writes_birdSet (runs_ne_nil (by simp)), fun x y _ => ?_⟩
      refine (hm x y).trans (Iff.trans ?_ spells_letters.symm)
      refine exists_congr fun a => and_congr_left fun _ => ?_
      rw [hlists a, mem_runs (members_sorted hl)]

theorem spelledBy_any (sets : List (SetName × ASNSet)) :
    SpelledBy (ASPathExpr.any.Match sets) (letters fun _ => True) := by
  intro x y _
  rw [ASPathExpr.Match]
  · refine (exists_congr fun a => and_congr_left fun _ => ?_).trans spells_letters.symm
    rw [ASPathExpr.Has]
  all_goals nofun

theorem spelledBy_anyRun (sets : List (SetName × ASNSet)) :
    SpelledBy (fun x y => ∃ n, Iter (ASPathExpr.any.Match sets) n x y) ⊤ := by
  have hany : SpelledBy (ASPathExpr.any.Match sets) (PathRegexp.any.lang UInt32.toNat) :=
    spelledBy_any sets
  rw [← lang_anyRun]
  refine (hany.rep rfl 0 none).congr fun x y => exists_congr fun n => ?_
  simp

theorem birdWrites_star {sets : List (SetName × ASNSet)} :
    BirdWrites sets (.rep .any .star min max false) ['*'] := by
  refine ⟨⊤, writes_birdRun, (spelledBy_anyRun sets).congr fun x y => ?_⟩
  rw [ASPathExpr.Match]
  refine exists_congr fun n => ?_
  simp [ASPathExpr.Counts]

theorem birdWrites_plus {sets : List (SetName × ASNSet)} :
    BirdWrites sets (.rep .any .plus min max false) (lit "? *") := by
  have hwrites := Dialect.writes_join (.cons writes_birdAny (.cons writes_birdRun .nil))
  rw [List.prod_cons, List.prod_singleton] at hwrites
  refine ⟨_, hwrites, ((spelledBy_any sets).mul (spelledBy_anyRun sets)).congr fun x y => ?_⟩
  rw [ASPathExpr.Match]
  constructor
  · intro hyp
    obtain ⟨n, hn, hiter, _⟩ := hyp
    obtain ⟨k, rfl⟩ := Nat.exists_eq_add_of_le' (show 1 ≤ n from hn)
    obtain ⟨z, hz, hiter⟩ := hiter
    exact ⟨z, hz, k, hiter⟩
  · intro hyp
    obtain ⟨z, hz, k, hiter⟩ := hyp
    exact ⟨k + 1, Nat.le_add_left 1 k, ⟨z, hz, hiter⟩, fun h => by cases h⟩

theorem birdWrites_parts {sets : List (SetName × ASNSet)} {ss : List Text}
    (h : List.Forall₂ (BirdWrites sets) es ss) :
    ∃ Ls, List.Forall₂ birdDialect.Writes ss Ls ∧
      SpelledBy (ASPathExpr.MatchSeq sets es) Ls.prod := by
  obtain ⟨Ls, hw, hs⟩ : ∃ Ls, List.Forall₂ birdDialect.Writes ss Ls ∧
      List.Forall₂ (fun e L => SpelledBy (e.Match sets) L) es Ls := by
    induction h with
    | nil => exact ⟨[], .nil, .nil⟩
    | cons h _ ih =>
      obtain ⟨L, hw, hs⟩ := h
      obtain ⟨Ls, hws, hss⟩ := ih
      exact ⟨L :: Ls, .cons hw hws, .cons hs hss⟩
  exact ⟨Ls, hw, spelledBy_seq hs⟩

mutual

/-- **Each term is written as items that match as it does.** -/
theorem birdTerm_writes : ∀ (e : ASPathExpr) {s : Text}, t.birdTerm e = .ok s →
    BirdWrites t.sets e s
  | .rep inner op min max same, s, h => by
    unfold birdTerm at h
    split at h
    · rename_i heq
      cases heq
      cases h
      exact birdWrites_star
    · rename_i heq
      cases heq
      cases h
      exact birdWrites_plus
    · cases h
    · rename_i heq
      cases heq
    · rename_i hno _
      exact absurd rfl (hno inner op min max same)
  | .seq es, s, h => by
    rw [birdTerm] at h
    obtain ⟨ss, hss, h⟩ := bind_eq_ok.1 h
    cases h
    obtain ⟨Ls, hws, hspelled⟩ := birdWrites_parts (birdTerms_writes es hss)
    refine ⟨_, Dialect.writes_join hws, hspelled.congr fun x y => ?_⟩
    rw [ASPathExpr.Match]
  | .any, s, h => birdWrites_members (fun x y => by rw [ASPathExpr.Match] <;> nofun) h
  | .asn _, s, h => birdWrites_members (fun x y => by rw [ASPathExpr.Match] <;> nofun) h
  | .set _, s, h => birdWrites_members (fun x y => by rw [ASPathExpr.Match] <;> nofun) h
  | .cls _ _, s, h => birdWrites_members (fun x y => by rw [ASPathExpr.Match] <;> nofun) h
  | .alt _, s, h => by cases h
  | .start, s, h => by cases h
  | .end_, s, h => by cases h
  | .template _, s, h => by cases h
  | .peerAS, s, h => by cases h
  | .asnRange _ _, s, h => by cases h

theorem birdTerms_writes : ∀ (es : List ASPathExpr) {ss : List Text}, t.birdTerms es = .ok ss →
    List.Forall₂ (BirdWrites t.sets) es ss
  | [], ss, h => by
    cases h
    exact .nil
  | e :: es, ss, h => by
    rw [birdTerms] at h
    obtain ⟨s, hs, h⟩ := bind_eq_ok.1 h
    obtain ⟨ss', hss, h⟩ := bind_eq_ok.1 h
    cases h
    exact .cons (birdTerm_writes e hs) (birdTerms_writes es hss)

end

/-! ## Whole patterns -/

theorem junos_writes {body : ASPathExpr} (h : t.junos body = .ok s)
    (hp : body.Parsed) : ∃ terms start end_ L, topLevel body = (terms, start, end_) ∧
      SpelledBy (ASPathExpr.MatchSeq t.sets terms) L ∧
      junosDialect.Writes s (edge start * L * edge end_) := by
  unfold junos at h
  generalize htop : topLevel body = top at h
  obtain ⟨terms, start, end_⟩ := top
  obtain ⟨ss, hss, h⟩ := bind_eq_ok.1 h
  obtain ⟨rs, hitems, hspelled⟩ :=
    junosWrites_items (junosExprs_writes terms hss (parsed_topLevel htop hp))
  have hseq : SpelledBy (ASPathExpr.MatchSeq t.sets terms)
      (rs.map fun r => r.lang UInt32.toNat).prod :=
    spelledBy_seq (List.forall₂_map_right_iff.2 hspelled)
  refine ⟨terms, start, end_, _, rfl, hseq, ?_⟩
  have hparts := writes_topLevel writes_junosRun start end_
    (List.forall₂_map_right_iff.2 (hitems.imp fun _ _ => JunosItem.writes))
  generalize (if start then [] else [lit ".*"]) ++ ss ++ (if end_ then [] else [lit ".*"]) = parts
    at h hparts
  change (if parts = [] then Except.ok (lit "()") else .ok ([' '].intercalate parts)) = .ok s at h
  split_ifs at h with hnil
  · -- the text of an anchored regexp without terms
    cases h
    rw [hnil] at hparts
    exact writes_paren hparts
  · cases h
    exact hparts

theorem bird_writes {body : ASPathExpr} (h : t.bird body = .ok s) :
    ∃ terms start end_ L s', topLevel body = (terms, start, end_) ∧
      SpelledBy (ASPathExpr.MatchSeq t.sets terms) L ∧ s = ['[', '='] ++ s' ++ ['=', ']'] ∧
      birdDialect.Writes s' (edge start * L * edge end_) := by
  unfold bird at h
  generalize htop : topLevel body = top at h
  obtain ⟨terms, start, end_⟩ := top
  obtain ⟨ss, hss, h⟩ := bind_eq_ok.1 h
  obtain ⟨Ls, hws, hspelled⟩ := birdWrites_parts (birdTerms_writes terms hss)
  have hparts := writes_topLevel writes_birdRun start end_ hws
  generalize (if start then [] else [['*']]) ++ ss ++ (if end_ then [] else [['*']]) = parts
    at h hparts
  obtain ⟨ts, rs, hlex, hreads, hlang⟩ := hparts
  change (if parts = [] then Except.ok (lit "[= =]")
    else .ok (lit "[= " ++ [' '].intercalate parts ++ lit " =]")) = .ok s at h
  split_ifs at h with hnil
  · cases h
    rw [hnil] at hlex
    refine ⟨terms, start, end_, _, [' '], rfl, hspelled, rfl, ts, rs, ?_, hreads, hlang⟩
    have := closed_blank.append_lexes hlex
    exact this
  · cases h
    refine ⟨terms, start, end_, _, ' ' :: [' '].intercalate parts ++ [' '], rfl, hspelled, ?_, ts,
      rs, ?_, hreads, hlang⟩
    · simp [lit]
    · have hclosed := hlex.append_closed closed_blank (by simp) (stops_cons [] rfl)
      have := (closed_blank.append hclosed).lexes
      rwa [List.nil_append, List.append_nil] at this

end Translator

/-- **Junos and BIRD patterns match a path iff the regexp does.** -/
theorem translatePath_whole {m : PathMatch} (hparsed : m.re.body.Parsed) (term : Text)
    {path : List ASN} (hz : ∀ a ∈ path, a ≠ 0) :
    (∀ s, translatePath .junos m term = .ok s →
      ∃ r, PathRegexp.parse s = some r ∧ (path ∈ r.lang UInt32.toNat ↔ m.Found path)) ∧
    ∀ s, translatePath .bird2 m term = .ok s →
      ∃ mask, PathMask.parse s = some mask ∧
        (path ∈ PathMask.lang UInt32.toNat mask ↔ m.Found path) := by
  have hz' : 0 ∉ path := fun h => hz 0 h rfl
  refine ⟨fun s hs => ?_, fun s hs => ?_⟩
  · obtain ⟨terms, start, end_, L, htop, hL, ts, rs, hlex, hreads, hlang⟩ :=
      Translator.junos_writes (t := ⟨.junos, m.sets, term⟩) hs hparsed
    refine ⟨_, hreads.parse_eq hlex, ?_⟩
    change path ∈ junosDialect.lang rs ↔ _
    rw [hlang]
    exact Translator.found_iff htop hL hz'
  · obtain ⟨terms, start, end_, L, s', htop, hL, rfl, ts, rs, hlex, hreads, hlang⟩ :=
      Translator.bird_writes (t := ⟨.bird2, m.sets, term⟩) hs
    refine ⟨_, hreads.parse_eq hlex, ?_⟩
    change path ∈ birdDialect.lang rs ↔ _
    rw [hlang]
    exact Translator.found_iff htop hL hz'

/-- `<^AS1 [AS12-AS14 AS-X] .*>`, with AS-X the ASes 11 and 16. -/
def classMatch : PathMatch :=
  let setX := (SetName.parse (lit "AS-X")).getD SetName.zero
  { negated := false
    re := ⟨.seq [.start, .asn 1, .cls false [.asnRange 12 14, .set setX],
      .rep .any .star 0 none false]⟩
    sets := [(setX, ⟨[16, 11], [], false⟩)] }

theorem translatePath_whole_class :
    (∃ r, PathRegexp.parse (lit "1 (11-14|16) .* .*") = some r ∧
      ([1, 13, 7] ∈ r.lang UInt32.toNat ↔ classMatch.Found [1, 13, 7])) ∧
    ∃ mask, PathMask.parse (lit "[= 1 [11..14, 16] * * =]") = some mask ∧
      ([1, 13, 7] ∈ PathMask.lang UInt32.toNat mask ↔ classMatch.Found [1, 13, 7]) :=
  have h := translatePath_whole (m := classMatch)
    (by simp [classMatch, ASPathExpr.Parsed, ASPathExpr.ParsedAll]) []
    (show ∀ a ∈ ([1, 13, 7] : List ASN), a ≠ 0 by simp)
  ⟨h.1 _ (by decide +kernel), h.2 _ (by decide +kernel)⟩

end Rpsl.Rtconfig
