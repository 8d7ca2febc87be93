import Rpsl.Lib.Outcome
import Rpsl.Rtconfig.Regex

/-!
# Paths as text

A path is written as its AS numbers with a space between two (`pathText`). `textAt` takes a place of
the path to one of its text: before the space. From there a boundary and then a word of digits lead
to such a place again just over the number of the next AS (`edge_word`): no word matches part of a
number, and no number is matched by part of one.

`Means`: the items of a pattern match between the places of the text as a relation does between
those of the path, and no match that ends at such a place starts elsewhere. It composes as regexps
do.
-/

namespace Rpsl.Rtconfig

open Lib Policy Text

/-- A path as text. -/
def pathText (p : List ASN) : Text := [' '].intercalate (p.map num)

def spaced (p : List ASN) : Text := p.flatMap fun a => ' ' :: num a

theorem num_ne_nil (a : ASN) : num a ≠ [] := Nat.toDigits_ne_nil

theorem num_digits {a : ASN} {c : Char} (h : c ∈ num a) : c.isDigit = true :=
  Nat.isDigit_of_mem_toDigits (by decide) (by decide) h

theorem space_not_mem {w : Text} (hw : ∀ c ∈ w, c.isDigit = true) : ' ' ∉ w := fun h =>
  absurd (hw _ h) (by decide)

theorem num_injective {a b : ASN} (h : num a = num b) : a = b := by
  have := congrArg (Nat.ofDigitChars 10 · 0) h
  simp only [num, ofNat] at this
  rw [Nat.ofDigitChars_toDigits (by decide) (by decide),
    Nat.ofDigitChars_toDigits (by decide) (by decide)] at this
  exact UInt32.toNat_inj.1 this

@[simp] theorem pathText_nil : pathText [] = [] := rfl

theorem pathText_cons (a : ASN) (p : List ASN) : pathText (a :: p) = num a ++ spaced p := by
  induction p generalizing a with
  | nil => simp [pathText, spaced]
  | cons b p ih =>
    have := ih b
    rw [pathText] at this ⊢
    rw [List.map_cons, List.intercalate_cons_of_ne_nil (by simp), this]
    simp [spaced]

theorem spaced_cons (a : ASN) (p : List ASN) : spaced (a :: p) = ' ' :: pathText (a :: p) := by
  rw [pathText_cons]
  simp [spaced]

variable {p : List ASN}

theorem pathText_append (hp : p ≠ []) (q : List ASN) :
    pathText (p ++ q) = pathText p ++ spaced q := by
  obtain ⟨a, p, rfl⟩ := List.exists_cons_of_ne_nil hp
  rw [List.cons_append, pathText_cons, pathText_cons, spaced, List.flatMap_append,
    List.append_assoc]
  rfl

theorem pathText_eq_nil : pathText p = [] ↔ p = [] := by
  cases p with
  | nil => simp
  | cons a p => simp [pathText_cons, num_ne_nil]

def textAt (x : Place ASN) : Place Char :=
  (pathText x.1, if x.1 = [] then pathText x.2 else spaced x.2)

theorem textAt_append (x : Place ASN) : (textAt x).1 ++ (textAt x).2 = pathText (x.1 ++ x.2) := by
  unfold textAt
  split
  · rename_i h
    simp [h]
  · rename_i h
    rw [pathText_append h]

variable {x : Place ASN}

theorem textAt_fst_nil : (textAt x).1 = [] ↔ x.1 = [] := pathText_eq_nil

theorem textAt_snd_nil : (textAt x).2 = [] ↔ x.2 = [] := by
  unfold textAt
  split
  · exact pathText_eq_nil
  · cases x.2 <;> simp [spaced]

theorem pathText_last {u w : Text} (hw : ∀ c ∈ w, c.isDigit = true)
    (h : pathText p = u ++ ' ' :: w) :
    ∃ q b, q ≠ [] ∧ p = q ++ [b] ∧ pathText q = u ∧ num b = w := by
  rcases List.eq_nil_or_concat' p with rfl | ⟨q, b, rfl⟩
  · simp at h
  by_cases hq : q = []
  · subst hq
    rw [List.nil_append, pathText_cons] at h
    exact absurd (show ' ' ∈ num b by
      rw [show num b = u ++ ' ' :: w by simpa [spaced] using h]
      simp) (space_not_mem fun c => num_digits)
  · rw [pathText_append hq] at h
    have h : pathText q ++ ' ' :: num b = u ++ ' ' :: w := by simpa [spaced] using h
    rcases List.append_eq_append_iff.1 h with ⟨as, rfl, has⟩ | ⟨as, has, has'⟩
    · cases as with
      | nil => exact ⟨q, b, hq, rfl, by simp, by simpa using has⟩
      | cons c as =>
        rw [List.cons_append, List.cons.injEq] at has
        exact absurd (show ' ' ∈ num b by rw [has.2]; simp) (space_not_mem fun c => num_digits)
    · cases as with
      | nil => exact ⟨q, b, hq, rfl, by simpa using has, by simpa using has'.symm⟩
      | cons c as =>
        rw [List.cons_append, List.cons.injEq] at has'
        exact absurd (show ' ' ∈ w by rw [has'.2]; simp) (space_not_mem hw)

variable {y : Place ASN}

/-- **A boundary and a word that end at a place of the path go over one AS.** -/
theorem edge_word {u z : Place Char} {w : Text} (hne : w ≠ [])
    (hw : ∀ c ∈ w, c.isDigit = true) (hedge : Ere.edge.Match u z)
    (h₂ : z.2 = w ++ (textAt y).2) (h₁ : (textAt y).1 = z.1 ++ w) :
    ∃ b x, u = textAt x ∧ Place.Step b x y ∧ num b = w := by
  rcases hedge with ⟨hs, hz⟩ | ⟨rfl, hz | hz⟩
  · -- after a space
    rw [hz, List.append_assoc] at h₁
    obtain ⟨q, b, hq, hy, hqu, hb⟩ := pathText_last hw h₁
    refine ⟨b, (q, b :: y.2), ?_, ⟨rfl, hy⟩, hb⟩
    have hyne : y.1 ≠ [] := by simp [hy]
    rw [h₂] at hs
    refine Prod.ext hqu.symm ?_
    rw [hs]
    simp [textAt, hyne, hq, spaced, hb]
  · -- at the start of the text
    rw [hz, List.nil_append] at h₁
    rcases List.eq_nil_or_concat' y.1 with hy | ⟨q, b, hy⟩
    · rw [textAt, hy] at h₁
      exact absurd h₁.symm hne
    by_cases hq : q = []
    · subst hq
      rw [List.nil_append] at hy
      have hb : num b = w := by simpa [textAt, hy, pathText_cons, spaced] using h₁
      refine ⟨b, ([], b :: y.2), Prod.ext (by rw [hz]; rfl) ?_, ⟨rfl, hy⟩, hb⟩
      rw [h₂]
      simp [textAt, hy, pathText_cons, hb]
    · have hsp : ' ' ∈ w := by
        rw [← h₁]
        simp [textAt, hy, pathText_append hq, spaced]
      exact absurd hsp (space_not_mem hw)
  · rw [hz] at h₂
    simp [hne] at h₂

theorem edge_num {b : ASN} (h : Place.Step b x y) :
    ∃ z, Ere.edge.Match (textAt x) z ∧
    z.2 = num b ++ (textAt y).2 ∧ (textAt y).1 = z.1 ++ num b := by
  obtain ⟨hx, hy⟩ := h
  have hyne : y.1 ≠ [] := by simp [hy]
  by_cases hq : x.1 = []
  · refine ⟨textAt x, .inr ⟨rfl, .inl (textAt_fst_nil.2 hq)⟩, ?_, ?_⟩
    · simp [textAt, hq, hx, hyne, pathText_cons]
    · simp [textAt, hq, hy, pathText_cons, spaced]
  · refine ⟨(pathText x.1 ++ [' '], num b ++ spaced y.2), .inl ⟨?_, rfl⟩, ?_, ?_⟩
    · simp [textAt, hq, hx, spaced]
    · simp [textAt, hyne]
    · simp [textAt, hy, pathText_append hq, spaced]

theorem pathText_space {u r : Text} (h : pathText p = u ++ ' ' :: r) :
    ∃ q q', p = q ++ q' ∧ q ≠ [] ∧ pathText q = u ∧ spaced q' = ' ' :: r := by
  induction p generalizing u with
  | nil => simp at h
  | cons a p ih =>
    rw [pathText_cons] at h
    rcases List.append_eq_append_iff.1 h with ⟨as, rfl, has⟩ | ⟨as, has, has'⟩
    · cases as with
      | nil => exact ⟨[a], p, rfl, by simp, by simp [pathText_cons, spaced], by simpa using has⟩
      | cons c as =>
        cases p with
        | nil => simp [spaced] at has
        | cons b p =>
          rw [spaced_cons, List.cons_append, List.cons.injEq] at has
          obtain ⟨q, q', hp, hq, hqa, hr⟩ := ih has.2
          refine ⟨a :: q, q', by rw [hp, List.cons_append], by simp, ?_, hr⟩
          obtain ⟨d, q, rfl⟩ := List.exists_cons_of_ne_nil hq
          rw [pathText_cons, spaced_cons, hqa, has.1]
    · cases as with
      | nil =>
        exact ⟨[a], p, rfl, by simp, by simpa [pathText_cons, spaced] using has,
          by simpa using has'.symm⟩
      | cons c as =>
        rw [List.cons_append, List.cons.injEq] at has'
        exact absurd (show ' ' ∈ num a by rw [has, has'.1]; simp)
          (space_not_mem fun c => num_digits)

theorem edge_place {path : List ASN} {v w : Place Char} (hv : v.1 ++ v.2 = pathText path)
    (h : Ere.edge.Match v w) : ∃ y : Place ASN, y.1 ++ y.2 = path ∧ v = textAt y := by
  rcases h with ⟨hs, -⟩ | ⟨-, h | h⟩
  · rw [hs] at hv
    obtain ⟨q, q', hp, hq, hqu, hr⟩ := pathText_space hv.symm
    exact ⟨(q, q'), hp.symm, Prod.ext hqu.symm (by rw [hs, textAt, if_neg hq, hr])⟩
  · rw [h, List.nil_append] at hv
    exact ⟨([], path), rfl, Prod.ext h hv⟩
  · rw [h, List.append_nil] at hv
    exact ⟨(path, []), List.append_nil _, Prod.ext hv (by rw [h, textAt_snd_nil.2 rfl])⟩

theorem edge_textAt (y : Place ASN) : ∃ w, Ere.edge.Match (textAt y) w := by
  by_cases h₁ : y.1 = []
  · exact ⟨_, .inr ⟨rfl, .inl (textAt_fst_nil.2 h₁)⟩⟩
  by_cases h₂ : y.2 = []
  · exact ⟨_, .inr ⟨rfl, .inr (textAt_snd_nil.2 h₂)⟩⟩
  obtain ⟨b, r, hr⟩ := List.exists_cons_of_ne_nil h₂
  exact ⟨(pathText y.1 ++ [' '], num b ++ spaced r), .inl ⟨by simp [textAt, h₁, hr, spaced], rfl⟩⟩

/-! ## Patterns and relations -/

def Nonzero (x : Place ASN) : Prop := ∀ a ∈ x.1 ++ x.2, a ≠ 0

structure Means (M : Place ASN → Place ASN → Prop) (rs : List Ere) : Prop where
  complete : ∀ x y, M x y → (Ere.seqOf rs).Match (textAt x) (textAt y)
  sound : ∀ u y, Nonzero y → (Ere.seqOf rs).Match u (textAt y) →
    ∃ x, u = textAt x ∧ M x y ∧ x.1 ++ x.2 = y.1 ++ y.2

section
variable {M N : Place ASN → Place ASN → Prop} {rs ts : List Ere}

theorem Means.congr (h : Means M rs) (hiff : ∀ x y, M x y ↔ N x y) : Means N rs where
  complete x y hxy := h.complete x y ((hiff x y).2 hxy)
  sound u y hy hm := by
    obtain ⟨x, hu, hx, happ⟩ := h.sound u y hy hm
    exact ⟨x, hu, (hiff x y).1 hx, happ⟩

theorem means_nil : Means Eq [] where
  complete _ _ h := congrArg textAt h
  sound _ y _ h := ⟨y, h, rfl, rfl⟩

theorem Means.append (h₁ : Means M rs) (h₂ : Means N ts) :
    Means (fun x y => ∃ z, M x z ∧ N z y) (rs ++ ts) where
  complete x y := by
    rintro ⟨z, hxz, hzy⟩
    exact Ere.match_seqOf_append.2 ⟨_, h₁.complete x z hxz, h₂.complete z y hzy⟩
  sound u y hy h := by
    obtain ⟨v, hv, h⟩ := Ere.match_seqOf_append.1 h
    obtain ⟨z, rfl, hz, hzy⟩ := h₂.sound v y hy h
    obtain ⟨x, hu, hx, hxz⟩ := h₁.sound u z (fun a ha => hy a (hzy ▸ ha)) hv
    exact ⟨x, hu, ⟨z, hx, hz⟩, hxz.trans hzy⟩

theorem Means.opt (h : Means M rs) : Means (fun x y => x = y ∨ M x y) [.opt (Ere.seqOf rs)] where
  complete x y hxy := Ere.match_seqOf_singleton.2 (hxy.imp (congrArg textAt) (h.complete x y))
  sound u y hy hm := by
    rcases Ere.match_seqOf_singleton.1 hm with rfl | hm
    · exact ⟨y, rfl, .inl rfl, rfl⟩
    · obtain ⟨x, hu, hx, happ⟩ := h.sound u y hy hm
      exact ⟨x, hu, .inr hx, happ⟩

theorem Means.iter (h : Means M rs) (n : Nat) :
    Means (Iter M n) (List.replicate n rs).flatten := by
  induction n with
  | zero => exact means_nil
  | succ n ih => exact h.append ih

theorem Means.sound_iter (h : Means M rs) {n : Nat} {u : Place Char}
    (hy : Nonzero y) (hm : Iter (Ere.seqOf rs).Match n u (textAt y)) :
    ∃ x, u = textAt x ∧ Iter M n x y ∧ x.1 ++ x.2 = y.1 ++ y.2 := by
  induction n generalizing u with
  | zero => exact ⟨y, hm, rfl, rfl⟩
  | succ n ih =>
    obtain ⟨v, hv, hm⟩ := hm
    obtain ⟨z, rfl, hz, hzy⟩ := ih hm
    obtain ⟨x, hu, hx, hxz⟩ := h.sound u z (fun a ha => hy a (hzy ▸ ha)) hv
    exact ⟨x, hu, ⟨z, hx, hz⟩, hxz.trans hzy⟩

theorem Means.complete_iter (h : Means M rs) {n : Nat} (hm : Iter M n x y) :
    Iter (Ere.seqOf rs).Match n (textAt x) (textAt y) := by
  induction n generalizing x with
  | zero => exact congrArg textAt hm
  | succ n ih =>
    obtain ⟨z, hz, hm⟩ := hm
    exact ⟨textAt z, h.complete x z hz, ih hm⟩

theorem Means.star (h : Means M rs) :
    Means (fun x y => ∃ n, Iter M n x y) [.star (Ere.seqOf rs)] where
  complete x y := by
    rintro ⟨n, hn⟩
    exact Ere.match_seqOf_singleton.2 (reflTransGen_iff_iter.2 ⟨n, h.complete_iter hn⟩)
  sound u y hy hm := by
    obtain ⟨n, hn⟩ := reflTransGen_iff_iter.1 (Ere.match_seqOf_singleton.1 hm)
    obtain ⟨x, hu, hx, happ⟩ := h.sound_iter hy hn
    exact ⟨x, hu, ⟨n, hx⟩, happ⟩

theorem Means.plus (h : Means M rs) :
    Means (fun x y => ∃ n, Iter M (n + 1) x y) [.plus (Ere.seqOf rs)] where
  complete x y := by
    rintro ⟨n, hn⟩
    exact Ere.match_seqOf_singleton.2 (transGen_iff_iter.2 ⟨n, h.complete_iter hn⟩)
  sound u y hy hm := by
    obtain ⟨n, hn⟩ := transGen_iff_iter.1 (Ere.match_seqOf_singleton.1 hm)
    obtain ⟨x, hu, hx, happ⟩ := h.sound_iter hy hn
    exact ⟨x, hu, ⟨n, hx⟩, happ⟩

theorem Means.upTo (h : Means M rs) (n : Nat) : Means (fun x y => ∃ k ≤ n, Iter M k x y)
    (List.replicate n [Ere.opt (Ere.seqOf rs)]).flatten := by
  induction n with
  | zero =>
    refine means_nil.congr fun x y => ⟨fun h => ⟨0, le_rfl, h⟩, ?_⟩
    rintro ⟨k, hk, h⟩
    obtain rfl := Nat.le_zero.1 hk
    exact h
  | succ n ih =>
    refine (h.opt.append ih).congr fun x y => ⟨?_, ?_⟩
    · rintro ⟨z, rfl | hz, k, hk, hzy⟩
      · exact ⟨k, hk.trans n.le_succ, hzy⟩
      · exact ⟨k + 1, Nat.succ_le_succ hk, z, hz, hzy⟩
    · rintro ⟨k, hk, hxy⟩
      cases k with
      | zero => exact ⟨x, .inl rfl, 0, Nat.zero_le _, hxy⟩
      | succ k =>
        obtain ⟨z, hz, hzy⟩ := hxy
        exact ⟨z, .inr hz, k, Nat.le_of_succ_le_succ hk, hzy⟩

end

theorem means_alt {α : Type} {M : α → Place ASN → Place ASN → Prop} {es : List α}
    {rss : List (List Ere)} (hne : es ≠ []) (h : List.Forall₂ (fun e rs => Means (M e) rs) es rss) :
    Means (fun x y => ∃ e ∈ es, M e x y) [Ere.altOf rss] := by
  have hrss : rss ≠ [] := by
    rintro rfl
    cases h
    exact hne rfl
  refine ⟨fun x y => ?_, fun u y hy hm => ?_⟩
  · rintro ⟨e, he, hxy⟩
    obtain ⟨rs, hrs, hm⟩ := (forall₂_mem h).1 e he
    exact Ere.match_seqOf_singleton.2 ((Ere.match_altOf hrss).2 ⟨rs, hrs, hm.complete x y hxy⟩)
  · obtain ⟨rs, hrs, hm⟩ := (Ere.match_altOf hrss).1 (Ere.match_seqOf_singleton.1 hm)
    obtain ⟨e, he, hmeans⟩ := (forall₂_mem h).2 rs hrs
    obtain ⟨x, hu, hx, happ⟩ := hmeans.sound u y hy hm
    exact ⟨x, hu, ⟨e, he, hx⟩, happ⟩

/-! ## One position -/

theorem means_num (a : ASN) : Means (Place.Step a) (.edge :: (num a).map .chr) where
  complete x y h := by
    obtain ⟨z, hz, h₂, h₁⟩ := edge_num h
    exact ⟨z, hz, Ere.match_chars.2 ⟨h₂, h₁⟩⟩
  sound u y _ hm := by
    obtain ⟨z, hz, hm⟩ := hm
    obtain ⟨h₂, h₁⟩ := Ere.match_chars.1 hm
    obtain ⟨b, x, hu, hx, hb⟩ := edge_word (num_ne_nil a) (fun c => num_digits) hz h₂ h₁
    obtain rfl := num_injective hb
    exact ⟨x, hu, hx, Place.step_append hx⟩

theorem means_any : Means (fun x y => ∃ a, Place.Step a x y) [.edge, .plus .digit] where
  complete x y := by
    rintro ⟨a, h⟩
    obtain ⟨z, hz, h₂, h₁⟩ := edge_num h
    exact ⟨z, hz, Ere.match_seqOf_singleton.2
      (Ere.match_digits.2 ⟨num a, num_ne_nil a, fun c => num_digits, h₂, h₁⟩)⟩
  sound u y _ hm := by
    obtain ⟨z, hz, hm⟩ := hm
    obtain ⟨w, hne, hw, h₂, h₁⟩ := Ere.match_digits.1 (Ere.match_seqOf_singleton.1 hm)
    obtain ⟨b, x, hu, hx, -⟩ := edge_word hne hw hz h₂ h₁
    exact ⟨x, hu, ⟨b, hx⟩, Place.step_append hx⟩

theorem means_none : Means (fun _ _ => False) [.edge, .chr '0'] where
  complete _ _ := False.elim
  sound u y hy hm := by
    have hm := (means_num 0).sound u y hy hm
    obtain ⟨x, -, ⟨hx, -⟩, happ⟩ := hm
    exact absurd rfl (hy 0 (by rw [← happ, hx]; simp))

theorem means_nums {as : List ASN} (hne : as ≠ []) :
    Means (fun x y => ∃ a ∈ as, Place.Step a x y)
      [.edge, Ere.altOf (as.map fun a => (num a).map .chr)] := by
  have halts : as.map (fun a => (num a).map Ere.chr) ≠ [] := by simpa using hne
  refine ⟨fun x y => ?_, fun u y hy hm => ?_⟩
  · rintro ⟨a, ha, h⟩
    obtain ⟨z, hz, hm⟩ := (means_num a).complete x y h
    refine ⟨z, hz, Ere.match_seqOf_singleton.2 ((Ere.match_altOf halts).2 ⟨_, ?_, hm⟩)⟩
    exact List.mem_map.2 ⟨a, ha, rfl⟩
  · obtain ⟨z, hz, hm⟩ := hm
    obtain ⟨rs, hrs, hm⟩ := (Ere.match_altOf halts).1 (Ere.match_seqOf_singleton.1 hm)
    obtain ⟨a, ha, rfl⟩ := List.mem_map.1 hrs
    obtain ⟨x, hu, hx, happ⟩ := (means_num a).sound u y hy ⟨z, hz, hm⟩
    exact ⟨x, hu, ⟨a, ha, hx⟩, happ⟩

theorem means_bol : Means (fun x y => x = y ∧ x.1 = []) [.bol] where
  complete x y := by
    rintro ⟨rfl, h⟩
    exact Ere.match_seqOf_singleton.2 ⟨rfl, textAt_fst_nil.2 h⟩
  sound u y _ hm := by
    obtain ⟨rfl, h⟩ := Ere.match_seqOf_singleton.1 hm
    exact ⟨y, rfl, ⟨rfl, textAt_fst_nil.1 h⟩, rfl⟩

theorem means_eol : Means (fun x y => x = y ∧ x.2 = []) [.eol] where
  complete x y := by
    rintro ⟨rfl, h⟩
    exact Ere.match_seqOf_singleton.2 ⟨rfl, textAt_snd_nil.2 h⟩
  sound u y _ hm := by
    obtain ⟨rfl, h⟩ := Ere.match_seqOf_singleton.1 hm
    exact ⟨y, rfl, ⟨rfl, textAt_snd_nil.1 h⟩, rfl⟩

end Rpsl.Rtconfig
