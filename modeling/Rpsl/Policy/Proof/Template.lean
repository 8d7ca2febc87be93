import Rpsl.Policy.Template
import Rpsl.Types.Proof.SetNameText

/-!
# Templates and peers

A template that is read with AS1 for the peer is read with any peer's number in its place, component
by component (`parseComponents_substitute`), unless the longer spelling is past `ParseSetName`'s
cap; then `Instantiate` returns the zero name.
-/

namespace Rpsl.Policy.SetNameTemplate

open Text
open Resolve (trimSpace trimRight trimLeftFrom)

/-! ## Trimmed text -/

theorem spaceLen_of_isBlank {c : Char} (h : isBlank c = true) (s : Text) :
    spaceLen (c :: s) = 1 := by
  simp only [isBlank, Bool.or_eq_true, beq_iff_eq] at h
  rcases h with rfl | rfl <;> rfl

structure Trimmed (s : Text) : Prop where
  head : ∀ c, s.head? = some c → isBlank c = false
  last : ∀ c, s.getLast? = some c → isBlank c = false

theorem Trimmed.trimBlank_eq {s : Text} (h : Trimmed s) : trimBlank s = s := by
  have hdrop : ∀ {l : Text}, (∀ c, l.head? = some c → isBlank c = false) →
      l.dropWhile isBlank = l := by
    intro l hl
    cases l with
    | nil => rfl
    | cons c l => rw [List.dropWhile_cons_of_neg (by simp [hl c rfl])]
  rw [trimBlank, hdrop h.head, List.rdropWhile, hdrop, List.reverse_reverse]
  intro c hc
  rw [List.head?_reverse] at hc
  exact h.last c hc

theorem trimLeft_head (skip : Nat) (s : Text) {c : Char}
    (h : (trimLeftFrom skip s).head? = some c) : isBlank c = false := by
  induction s generalizing skip with
  | nil => cases h
  | cons d s ih =>
    cases skip with
    | succ skip => exact ih skip h
    | zero =>
      unfold trimLeftFrom at h
      simp only at h
      split at h
      next hlen =>
        simp only [List.head?_cons, Option.some.injEq] at h
        subst h
        rw [Bool.eq_false_iff]
        intro hb
        rw [spaceLen_of_isBlank hb] at hlen
        cases hlen
      next n _ => exact ih n h

theorem trimRight_head {s : Text} {c : Char} (h : (trimRight s).head? = some c) :
    s.head? = some c := by
  cases s with
  | nil => cases h
  | cons d s =>
    unfold trimRight at h
    split at h
    · cases h
    · simpa using h

theorem trimRight_last (s : Text) {c : Char} (h : (trimRight s).getLast? = some c) :
    isBlank c = false := by
  induction s with
  | nil => cases h
  | cons d s ih =>
    unfold trimRight at h
    split at h
    · cases h
    next hf =>
      cases hs : trimRight s with
      | cons e t =>
        rw [hs, List.getLast?_cons_cons, ← hs] at h
        exact ih h
      | nil =>
        rw [hs] at h
        simp only [List.getLast?_singleton, Option.some.injEq] at h
        subst h
        rw [Bool.eq_false_iff]
        intro hb
        -- nothing but spaces follow, so a blank here would have been dropped too
        have hrest : fieldsFrom 0 [] s = [] := by
          cases s with
          | nil => rfl
          | cons e t =>
            unfold trimRight at hs
            split at hs
            next hempty => exact List.isEmpty_iff.1 hempty
            · cases hs
        apply hf
        unfold fieldsFrom
        simp only [spaceLen_of_isBlank hb]
        simp [hrest]

theorem trimmed_trimSpace (s : Text) : Trimmed (trimSpace s) :=
  ⟨fun _ h => trimLeft_head 0 s (trimRight_head h), fun _ h => trimRight_last _ h⟩

/-- What `spaceLen` looks at: a first byte and the two after it, as far as there are any. -/
def spaceAt (c : Char) (d x : Option Char) : Nat :=
  if c = '\xc2' ∧ (d = some '\x85' ∨ d = some '\xa0') then 2
  else if (c = '\xe1' ∧ d = some '\x9a' ∧ x = some '\x80') ∨
      (c = '\xe2' ∧ d = some '\x81' ∧ x = some '\x9f') ∨
      (c = '\xe3' ∧ d = some '\x80' ∧ x = some '\x80') ∨
      (c = '\xe2' ∧ d = some '\x80' ∧
        ∃ y ∈ x, ('\x80' ≤ y ∧ y ≤ '\x8a') ∨ y = '\xa8' ∨ y = '\xa9' ∨ y = '\xaf') then 3
  else if c = ' ' ∨ ('\t' ≤ c ∧ c ≤ '\r') then 1 else 0

theorem spaceLen_cons (c : Char) (s : Text) : spaceLen (c :: s) = spaceAt c s[0]? s[1]? := by
  unfold spaceLen spaceAt
  split <;> rename_i heq <;> cases heq
  case h_7 h1 h2 h3 h4 h5 h6 =>
    symm
    rcases s with _ | ⟨d, _ | ⟨x, s⟩⟩
    · simp
    · have h1 := h1 []
      have h2 := h2 []
      rw [if_neg (by simp_all), if_neg (by simp)]
    · have h3 := h3 s
      have h4 := h4 s
      have h5 := h5 s
      have h6 := h6 x s
      rw [if_neg (by simp_all), if_neg (by simp_all)]
  all_goals simp

theorem ne_of_ascii {c e : Char} (hc : c.toNat < 128) (he : 128 ≤ e.toNat) : c ≠ e := by
  intro h
  exact absurd (h ▸ hc) (Nat.not_lt.2 he)

theorem spaceLen_ascii {c : Char} (hc : c.toNat < 128) (s : Text) :
    spaceLen (c :: s) = if c = ' ' ∨ ('\t' ≤ c ∧ c ≤ '\r') then 1 else 0 := by
  have hne : c ≠ '\xc2' ∧ c ≠ '\xe1' ∧ c ≠ '\xe2' ∧ c ≠ '\xe3' := by
    refine ⟨?_, ?_, ?_, ?_⟩ <;> exact ne_of_ascii hc (by decide)
  simp [spaceLen_cons, spaceAt, hne]

theorem spaceLen_eq_zero {c : Char} (hlo : 32 < c.toNat) (hhi : c.toNat < 128) (s : Text) :
    spaceLen (c :: s) = 0 := by
  rw [spaceLen_ascii hhi, if_neg]
  intro h
  rcases h with rfl | h
  · exact absurd hlo (by decide)
  · exact absurd (Nat.lt_of_lt_of_le hlo (show c.toNat ≤ 13 from h.2)) (by decide)

theorem fieldsFrom_ne_nil {cur : Text} (h : cur ≠ []) (skip : Nat) (s : Text) :
    fieldsFrom skip cur s ≠ [] := by
  induction s generalizing skip cur with
  | nil => simp [fieldsFrom, h]
  | cons c s ih =>
    cases skip with
    | succ skip => exact ih h skip
    | zero =>
      unfold fieldsFrom
      simp only
      split
      · exact ih (by simp) 0
      · simp [h]

theorem trimSpace_eq {s : Text} (h : ∀ c ∈ s, 32 < c.toNat ∧ c.toNat < 128) : trimSpace s = s := by
  have hlen : ∀ c ∈ s, ∀ t, spaceLen (c :: t) = 0 := fun c hc t =>
    spaceLen_eq_zero (h c hc).1 (h c hc).2 t
  have hleft : trimLeftFrom 0 s = s := by
    cases s with
    | nil => rfl
    | cons c s =>
      unfold trimLeftFrom
      simp only [hlen c List.mem_cons_self]
  rw [trimSpace, hleft]
  clear h hleft
  induction s with
  | nil => rfl
  | cons c s ih =>
    have hfields : fieldsFrom 0 [] (c :: s) ≠ [] := by
      unfold fieldsFrom
      simp only [hlen c List.mem_cons_self]
      exact fieldsFrom_ne_nil (by simp) 0 s
    rw [trimRight, if_neg (by simp [hfields]), ih fun d hd => hlen d (List.mem_cons_of_mem c hd)]

/-! ## Substitution -/

def fill (a : ASN) (c : Text) : Text := if isPeerAS c then a.text else c

/-- A component of the instance: the peer's number, or the canonical form. -/
def fillCanon (a : ASN) (c : Text) : Text := if isPeerAS c then a.text else (SetName.part c).text

theorem substitutePeerAS_eq (s : Text) (a : ASN) :
    substitutePeerAS s a = [':'].intercalate ((s.splitOn ':').map (fill a)) := rfl

variable {a : ASN}

theorem not_isBlank_asn {c : Char} (h : c ∈ a.text) : isBlank c = false :=
  isBlank_of_isNameChar (Bool.and_eq_true_iff.1 (SetName.isPartChar_asn h)).1

theorem fill_cases (a : ASN) (c : Text) :
    fill a c = c ∨ (c ≠ [] ∧ fill a c = a.text) := by
  unfold fill
  split
  next h =>
    refine .inr ⟨?_, rfl⟩
    rintro rfl
    simp [isPeerAS, fold] at h
  · exact .inl rfl

variable {ps : List Text}

theorem head_precede {c : Char} (h : (Lib.precede [':'] ps).head? = some c) :
    c = ':' := by
  cases ps with
  | nil => cases h
  | cons p ps => simpa [Lib.precede, eq_comm] using h

theorem head_fill {p : Text} {c : Char}
    (hp : ∀ c, p.head? = some c → isBlank c = false)
    (h : (fill a p ++ Lib.precede [':'] (ps.map (fill a))).head? = some c) :
    isBlank c = false := by
  rw [List.head?_append, Option.or_eq_some_iff] at h
  rcases h with h | ⟨-, h⟩
  · rcases fill_cases a p with hf | ⟨-, hf⟩
    · rw [hf] at h
      exact hp c h
    · rw [hf] at h
      exact not_isBlank_asn (List.mem_of_mem_head? h)
  · rw [head_precede h]
    decide

theorem last_fill {p : Text}
    (h : ∀ c, (p ++ Lib.precede [':'] ps).getLast? = some c → isBlank c = false) {c : Char}
    (hc : (fill a p ++ Lib.precede [':'] (ps.map (fill a))).getLast? = some c) :
    isBlank c = false := by
  induction ps generalizing p with
  | nil =>
    simp only [Lib.precede, List.map_nil, List.flatMap_nil, List.append_nil] at h hc
    rcases fill_cases a p with hf | ⟨-, hf⟩
    · rw [hf] at hc
      exact h c hc
    · rw [hf] at hc
      exact not_isBlank_asn (List.mem_of_getLast? hc)
  | cons q ps ih =>
    -- a later component decides, or the colon before it
    have hlast : ∀ (x : Text) (y : Text), (x ++ ':' :: y).getLast? = y.getLast?.or (some ':') := by
      intro x y
      rw [List.getLast?_append, List.getLast?_cons]
      cases y.getLast? <;> rfl
    have hsplit : ∀ (f : Text → Text) (x : Text),
        x ++ Lib.precede [':'] ((q :: ps).map f) =
          x ++ ':' :: (f q ++ Lib.precede [':'] (ps.map f)) := by
      intro f x
      simp [Lib.precede]
    have hid := hsplit id p
    rw [List.map_id, List.map_id] at hid
    rw [hid, hlast] at h
    rw [hsplit (fill a), hlast] at hc
    rcases Option.or_eq_some_iff.1 hc with hc | ⟨-, hc⟩
    · refine ih (p := q) (fun d hd => h d ?_) hc
      exact Option.or_eq_some_iff.2 (.inl hd)
    · cases hc
      decide

theorem trimmed_fill (h : Trimmed ([':'].intercalate ps)) (a : ASN) :
    Trimmed ([':'].intercalate (ps.map (fill a))) := by
  cases ps with
  | nil => exact h
  | cons p ps =>
    rw [Lib.intercalate_cons] at h
    rw [List.map_cons, Lib.intercalate_cons]
    refine ⟨fun c hc => head_fill (fun d hd => h.head d ?_) hc, fun c hc => last_fill h.last hc⟩
    rw [List.head?_append, hd]
    rfl

theorem trimBlank_substitute {s : Text} (h : Trimmed s) (a : ASN) :
    trimBlank (substitutePeerAS s a) = substitutePeerAS s a := by
  refine (trimmed_fill ?_ a).trimBlank_eq
  rw [List.intercalate_splitOn]
  exact h

theorem splitOn_substitute (s : Text) (a : ASN) :
    (substitutePeerAS s a).splitOn ':' = (s.splitOn ':').map (fill a) := by
  rw [substitutePeerAS_eq]
  refine List.splitOn_intercalate ':' (fun p hp => ?_) (by simp [List.splitOn_ne_nil])
  obtain ⟨c, hc, rfl⟩ := List.mem_map.1 hp
  rcases fill_cases a c with hf | ⟨-, hf⟩
  · rw [hf]
    exact Lib.not_mem_of_mem_splitOn hc
  · rw [hf]
    exact SetName.colon_not_mem fun d hd => SetName.isPartChar_asn hd

theorem parseComponent_asn (a : ASN) :
    SetName.parseComponent a.text = some (a.text, .unknown) := by
  have hne : a.text.isEmpty = false := rfl
  unfold SetName.parseComponent
  simp only [hne, SetName.componentClass_asn, ASN.parse_text, SetName.validASNComponent_text,
    Bool.false_eq_true, if_false, if_true, Option.bind_some]

theorem parseComponents_substitute {ts : List Text} {k k' : SetClass}
    (h : SetName.parseComponents (ps.map (fill a)) k = some (ts, k')) (b : ASN) :
    SetName.parseComponents (ps.map (fill b)) k = some (ps.map (fillCanon b), k') := by
  induction ps generalizing ts k with
  | nil => cases h; rfl
  | cons p ps ih =>
    rw [List.map_cons] at h ⊢
    obtain ⟨t, c, us, hp, hclash, hps, rfl⟩ := SetName.parseComponents_cons.1 h
    rw [SetName.parseComponents_cons]
    cases hpeer : isPeerAS p with
    | true =>
      have hfill : ∀ a, fill a p = a.text := fun a => if_pos hpeer
      rw [hfill, parseComponent_asn, Option.some.injEq, Prod.mk.injEq] at hp
      obtain ⟨-, rfl⟩ := hp
      refine ⟨b.text, .unknown, ps.map (fillCanon b), ?_, hclash, ih hps, ?_⟩
      · rw [hfill]
        exact parseComponent_asn b
      · rw [List.map_cons, fillCanon, if_pos hpeer]
    | false =>
      have hfill : ∀ a, fill a p = p := fun a => if_neg (by simp [hpeer])
      rw [hfill] at hp
      refine ⟨t, c, ps.map (fillCanon b), by rw [hfill]; exact hp, hclash, ih hps, ?_⟩
      rw [List.map_cons, fillCanon, if_neg (by simp [hpeer]), SetName.parseComponent_text hp]

/-! ## Instances -/

theorem parse_eq_some {s : Text} {t : SetNameTemplate} (h : parse s = some t) :
    t.text = trimSpace s := by
  unfold parse at h
  dsimp only at h
  split at h
  · split at h
    · cases h
    · cases h
      rfl
  · cases h

theorem parse_of_isSome {s : Text} (hp : ((trimSpace s).splitOn ':').any isPeerAS = true)
    (hn : (SetName.parse (substitutePeerAS (trimSpace s) 1)).isSome = true) :
    ∃ t, parse s = some t := by
  unfold parse
  dsimp only
  rw [dif_pos hp]
  split
  next hnone =>
    rw [hnone] at hn
    cases hn
  · exact ⟨_, rfl⟩

/-- The instance for a peer is a name of the template's class, with the peer's number in the place
of each PeerAS and the other components canonical. -/
def IsInstance (t : SetNameTemplate) (a : ASN) (n : SetName) : Prop :=
  n.isZero = false ∧ n.cls = t.cls ∧ n.components = (t.text.splitOn ':').map (fillCanon a)

/-- The spelling with the peer's number is short enough to be read. -/
def Fits (t : SetNameTemplate) (a : ASN) : Prop :=
  (substitutePeerAS t.text a).length ≤ SetName.maxLen

section

variable {s : Text} {t : SetNameTemplate}

theorem isInstance_of_fits (h : parse s = some t) (hfit : Fits t a) :
    IsInstance t a (t.instantiate a) := by
  have htrim : ∀ b, trimBlank (substitutePeerAS t.text b) = substitutePeerAS t.text b :=
    trimBlank_substitute (parse_eq_some h ▸ trimmed_trimSpace s)
  obtain ⟨n, hn, hcls⟩ := Option.map_eq_some_iff.1 t.parsed
  obtain ⟨hne, -, ts, hps, hk, -⟩ := SetName.parse_eq_some.1 hn
  rw [htrim, splitOn_substitute, hcls] at hps
  rw [hcls] at hk
  have hps' := parseComponents_substitute hps a
  have hread := hps'
  rw [← splitOn_substitute, ← htrim] at hread
  have hparts := SetName.parseComponents_ne_nil hps' (by simp [List.splitOn_ne_nil])
  -- the name `ParseSetName` builds
  let m : SetName := ⟨[':'].intercalate ((t.text.splitOn ':').map (fillCanon a)), t.cls,
    SetName.intercalate_chars (SetName.parseComponents_chars hps'), SetName.parse_named hps'⟩
  have hm : SetName.parse (substitutePeerAS t.text a) = some m := by
    refine SetName.parse_eq_some.2 ⟨?_, by rw [htrim]; exact hfit, _, hread, hk, rfl⟩
    intro hnil
    rw [hnil] at hread
    have hnil' : ([] : Text).splitOn ':' = [[]] := rfl
    rw [hnil'] at hread
    obtain ⟨_, _, _, hempty, -⟩ := SetName.parseComponents_cons.1 hread
    cases hempty
  have hinst : t.instantiate a = m := by rw [instantiate, hm]; rfl
  have hcanon := SetName.canon_ne_nil hm
  rw [hinst]
  refine ⟨List.isEmpty_eq_false_iff.2 hcanon, rfl, ?_⟩
  rw [SetName.components, if_neg hcanon]
  exact SetName.splitOn_canon hps' hparts

theorem instantiate_eq_zero (h : parse s = some t) (hfit : ¬Fits t a) :
    t.instantiate a = SetName.zero := by
  have hnone : SetName.parse (substitutePeerAS t.text a) = none := by
    rw [Option.eq_none_iff_forall_not_mem]
    intro n hn
    obtain ⟨-, hlen, -⟩ := SetName.parse_eq_some.1 hn
    rw [trimBlank_substitute (parse_eq_some h ▸ trimmed_trimSpace s)] at hlen
    exact hfit hlen
  rw [instantiate, hnone]
  rfl

theorem isInstance_iff (h : parse s = some t) (a : ASN) :
    IsInstance t a (t.instantiate a) ↔ Fits t a := by
  refine ⟨fun hi => ?_, isInstance_of_fits h⟩
  by_contra hfit
  have hz := hi.1
  rw [instantiate_eq_zero h hfit] at hz
  cases hz

theorem eq_of_isInstance {b : ASN} {n : SetName} (ha : IsInstance t a n)
    (hb : IsInstance t b n) : a = b := by
  have hcomps := ha.2.2.symm.trans hb.2.2
  obtain ⟨c, hc, hpeer⟩ := List.any_eq_true.1 t.peer
  have hfill := List.map_inj_left.1 hcomps c hc
  rw [fillCanon, fillCanon, if_pos hpeer, if_pos hpeer] at hfill
  exact ASN.text_injective hfill

theorem fits_of_eq (h : parse s = some t) {b : ASN} (ha : Fits t a)
    (heq : t.instantiate a = t.instantiate b) : Fits t b := by
  by_contra hfit
  have hz := (isInstance_of_fits h ha).1
  rw [heq, instantiate_eq_zero h hfit] at hz
  cases hz

/-- **Templates instantiate for the peers whose spelling fits**: those and no others, and then
injectively. So a template does for every peer exactly when it fits every peer. -/
theorem instantiate_total_iff (h : parse s = some t) :
    (∀ a, IsInstance t a (t.instantiate a) ↔ Fits t a) ∧
      (∀ a b, Fits t a → t.instantiate a = t.instantiate b → a = b) ∧
      (((∀ a, IsInstance t a (t.instantiate a)) ∧ Function.Injective t.instantiate) ↔
        ∀ a, Fits t a) := by
  have hinj : ∀ a b, Fits t a → t.instantiate a = t.instantiate b → a = b := by
    intro a b ha heq
    have hb := isInstance_of_fits h (fits_of_eq h ha heq)
    rw [← heq] at hb
    exact eq_of_isInstance (isInstance_of_fits h ha) hb
  refine ⟨isInstance_iff h, hinj, fun hall a => ?_, fun hfit => ⟨fun a => ?_, fun a b => ?_⟩⟩
  · exact (isInstance_iff h a).1 (hall.1 a)
  · exact isInstance_of_fits h (hfit a)
  · exact hinj a b (hfit a)

end

/-- "AS8821:AS-CUSTOMERS:PeerAS" for the peer AS65001. -/
theorem instantiate_total_iff_customers :
    ∃ t, parse (lit "AS8821:AS-CUSTOMERS:PeerAS") = some t ∧
      IsInstance t 65001 (t.instantiate 65001) := by
  obtain ⟨t, ht⟩ : ∃ t, parse (lit "AS8821:AS-CUSTOMERS:PeerAS") = some t :=
    Option.isSome_iff_exists.1 (by decide +kernel)
  have hfit : (parse (lit "AS8821:AS-CUSTOMERS:PeerAS")).all (fun t =>
      (substitutePeerAS t.text 65001).length ≤ SetName.maxLen) = true := by decide +kernel
  rw [ht, Option.all_some, decide_eq_true_eq] at hfit
  exact ⟨t, ht, ((instantiate_total_iff ht).1 65001).2 hfit⟩

/-- "PeerAS:AS-" with 1017 more letters: 1024 bytes with AS1 for the peer. -/
def longTemplate : Text := lit "PeerAS:AS-" ++ List.replicate 1017 'A'

theorem trimSpace_longTemplate : trimSpace longTemplate = longTemplate := by
  refine trimSpace_eq fun c hc => ?_
  rcases List.mem_append.1 hc with hc | hc
  · fin_cases hc <;> decide
  · rw [(List.mem_replicate.1 hc).2]
    decide

/-- A template that is read, and has no name for the peer AS10. -/
theorem longTemplate_instantiate_zero :
    ∃ t, parse longTemplate = some t ∧ (t.instantiate 10).isZero = true := by
  have hpeer : (longTemplate.splitOn ':').any isPeerAS = true := by decide +kernel
  have hname : (SetName.parse (substitutePeerAS longTemplate 1)).isSome = true := by
    decide +kernel
  rw [← trimSpace_longTemplate] at hpeer hname
  obtain ⟨t, ht⟩ := parse_of_isSome hpeer hname
  have hfit : ¬Fits t 10 := by
    rw [Fits, parse_eq_some ht, trimSpace_longTemplate]
    decide +kernel
  refine ⟨t, ht, ?_⟩
  rw [instantiate_eq_zero ht hfit]
  rfl

end Rpsl.Policy.SetNameTemplate
