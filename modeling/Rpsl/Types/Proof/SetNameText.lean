import Rpsl.Lib.Outcome
import Rpsl.Types.SetRef

/-!
# Set names are canonical values

The text of a name is read back component by component: what a component is written as reads as
itself (`parseComponent_canonical`), so a name's text names it, unless it is longer than
`ParseSetName` takes. The cap is put on the spelling and not on the canonical form, and "AS9.9" is
written "AS589833".

Two spellings are one name exactly when their components agree as `Part`s: upper-cased set
components and AS numbers.
-/

namespace Rpsl

open Text

/-! ## Numbers -/

theorem Text.parseUint_ofNat {n bits : Nat} (h : n < 2 ^ bits) :
    parseUint (ofNat n) bits = some n := by
  have hdigit : ∀ c ∈ ofNat n, c.isDigit = true := fun c hc => SetName.isDigit_of_mem_ofNat hc
  have hne : ofNat n ≠ [] := Nat.toDigits_ne_nil
  have hval : (ofNat n).foldl (fun n c => 10 * n + (c.toNat - '0'.toNat)) 0 = n :=
    Nat.ofDigitChars_toDigits (by decide) (by decide)
  unfold parseUint
  rw [if_neg]
  · simp only [hval, h, if_true]
  · simp [hne]
    exact hdigit

variable {s : Text}

theorem Text.trimBlank_eq (h : ∀ c ∈ s, isBlank c = false) : trimBlank s = s := by
  have hdrop : ∀ {l : Text}, (∀ c ∈ l, isBlank c = false) → l.dropWhile isBlank = l := by
    intro l hl
    cases l with
    | nil => rfl
    | cons c l => rw [List.dropWhile_cons_of_neg (by simp [hl c List.mem_cons_self])]
  rw [trimBlank, hdrop h, List.rdropWhile, hdrop (fun c hc => h c (List.mem_reverse.1 hc)),
    List.reverse_reverse]

theorem isBlank_of_isNameChar {c : Char} (h : isNameChar c = true) : isBlank c = false := by
  rw [Bool.eq_false_iff]
  intro hb
  simp only [isBlank, Bool.or_eq_true, beq_iff_eq] at hb
  rcases hb with rfl | rfl <;> revert h <;> decide

theorem ASN.parse_text (a : ASN) : ASN.parse a.text = some a := by
  have htrim : trimBlank a.text = a.text := trimBlank_eq fun c hc =>
    isBlank_of_isNameChar (Bool.and_eq_true_iff.1 (SetName.isPartChar_asn hc)).1
  have hlen : 1 ≤ (ofNat a.toNat).length := List.length_pos_iff.2 Nat.toDigits_ne_nil
  have hdot : '.' ∉ ofNat a.toNat := fun h => absurd (SetName.isDigit_of_mem_ofNat h) (by decide)
  have htext : a.text = 'A' :: 'S' :: ofNat a.toNat := rfl
  have hparse : parseUint (ofNat a.toNat) 32 = some a.toNat := parseUint_ofNat a.toNat_lt
  rw [ASN.parse, htrim, htext]
  rw [if_neg]
  · simp [hdot, hparse]
  · simp only [List.length_cons, List.take_succ_cons, List.take_zero, Bool.or_eq_true,
      decide_eq_true_eq, bne_iff_ne, not_or, not_lt, Decidable.not_not]
    exact ⟨by omega, rfl⟩

theorem ASN.text_injective : Function.Injective ASN.text := by
  intro a b h
  have hb := ASN.parse_text a
  rw [h, ASN.parse_text] at hb
  exact (Option.some.inj hb).symm

/-! ## Components -/

theorem Text.upper_upper (s : Text) : upper (upper s) = upper s := by simp [upper]

theorem isAlnum_toUpper (c : Char) (h : isAlnum c = true) : isAlnum c.toUpper = true := by
  rcases hl : c.isLower with _ | _
  · rw [Char.toUpper_eq_of_not_isLower (by simp [hl])]
    exact h
  · have ha : c.isAlpha = true := by simp [Char.isAlpha, hl]
    simp [isAlnum, ha]

theorem toUpper_of_symbol {c : Char} (h : (c == '_' || c == '-') = true) : c.toUpper = c := by
  simp only [Bool.or_eq_true, beq_iff_eq] at h
  rcases h with rfl | rfl <;> decide

namespace SetName

variable {p : Text}

theorem validSetComponent_upper (h : validSetComponent p = true) :
    validSetComponent (upper p) = true := by
  rw [validSetComponent, Bool.and_eq_true, List.all_eq_true] at h ⊢
  refine ⟨fun c hc => ?_, ?_⟩
  · obtain ⟨b, hb, rfl⟩ := List.mem_map.1 hc
    have hv := h.1 b hb
    rcases ha : isAlnum b with _ | _
    · rw [ha, Bool.false_or] at hv
      rw [toUpper_of_symbol hv]
      simp [ha, hv]
    · simp [isAlnum_toUpper b ha]
  · rw [upper, List.getLast?_map]
    rcases hl : p.getLast? with _ | b
    · simp [hl] at h
    · have hb : isAlnum b = true := by simpa [hl] using h.2
      simp [isAlnum_toUpper b hb]

theorem validASNComponent_text (a : ASN) : validASNComponent a.text = true := by
  rw [validASNComponent, List.all_eq_true]
  intro c hc
  rw [ASN.text, List.mem_append] at hc
  rcases hc with hc | hc
  · fin_cases hc <;> decide
  · simp [isAlnum, isDigit_of_mem_ofNat hc]

/-- A component is a set component, upper-cased, or an AS number. -/
inductive Part
  | set (name : Text)
  | asn (a : ASN)
deriving DecidableEq

def part (p : Text) : Part :=
  match componentClass p with
  | some _ => .set (upper p)
  | none => .asn ((ASN.parse p).getD 0)

def Part.text : Part → Text
  | set name => name
  | asn a => a.text

variable {k : SetClass}

theorem parseComponent_cases {t : Text} (h : parseComponent p = some (t, k)) :
    (part p = .set (upper p) ∧ t = upper p ∧ componentClass p = some k ∧
      validSetComponent p = true ∧ p ≠ []) ∨
    ∃ a, part p = .asn a ∧ t = a.text ∧ k = .unknown := by
  unfold parseComponent at h
  split at h
  · cases h
  next hne =>
    split at h
    next k' hk =>
      split at h
      next hv =>
        cases h
        exact .inl ⟨by rw [part, hk], rfl, hk, hv, by simpa using hne⟩
      · cases h
    next hk =>
      obtain ⟨a, ha, h⟩ := Option.bind_eq_some_iff.1 h
      split at h
      · cases h
        exact .inr ⟨a, by rw [part, hk, ha]; rfl, rfl, rfl⟩
      · cases h

theorem parseComponent_text {t : Text} (h : parseComponent p = some (t, k)) :
    t = (part p).text := by
  rcases parseComponent_cases h with ⟨hp, rfl, -⟩ | ⟨a, hp, rfl, -⟩
  · rw [hp]; rfl
  · rw [hp]; rfl

theorem parseComponent_canonical {t : Text} (h : parseComponent p = some (t, k)) :
    parseComponent t = some (t, k) := by
  rcases parseComponent_cases h with ⟨-, rfl, hk, hv, hne⟩ | ⟨a, -, rfl, rfl⟩
  · have hup : (upper p).isEmpty = false := by simpa [upper] using hne
    unfold parseComponent
    simp only [hup, componentClass_upper, hk, validSetComponent_upper hv, upper_upper,
      Bool.false_eq_true, if_false, if_true]
  · have hne : a.text.isEmpty = false := rfl
    unfold parseComponent
    simp only [hne, componentClass_asn, ASN.parse_text, validASNComponent_text,
      Bool.false_eq_true, if_false, if_true, Option.bind_some]

theorem part_injective {q t u : Text} {l : SetClass} (hp : parseComponent p = some (t, k))
    (hq : parseComponent q = some (u, l)) (h : t = u) : part p = part q := by
  subst h
  rcases parseComponent_cases hp with ⟨hpart, rfl, hk, -⟩ | ⟨a, hpart, rfl, -⟩ <;>
    rcases parseComponent_cases hq with ⟨hpart', heq, hk', -⟩ | ⟨b, hpart', heq, -⟩
  · rw [hpart, hpart', heq]
  · have hcls := componentClass_upper p
    rw [heq, componentClass_asn, hk] at hcls
    cases hcls
  · have hcls := componentClass_upper q
    rw [← heq, componentClass_asn, hk'] at hcls
    cases hcls
  · rw [hpart, hpart', ASN.text_injective heq]

theorem parseComponent_ne_nil {t : Text} (h : parseComponent p = some (t, k)) :
    t ≠ [] := by
  rcases parseComponent_cases h with ⟨-, rfl, -, -, hne⟩ | ⟨a, -, rfl, -⟩
  · simpa [upper] using hne
  · exact List.cons_ne_nil _ _

/-! ## Lists of components -/

variable {ps : List Text} {k' : SetClass}

theorem parseComponents_cons {ts : List Text} :
    parseComponents (p :: ps) k = some (ts, k') ↔
      ∃ t c us, parseComponent p = some (t, c) ∧ ¬(c ≠ .unknown ∧ k ≠ .unknown ∧ c ≠ k) ∧
        parseComponents ps (if c = .unknown then k else c) = some (us, k') ∧ ts = t :: us := by
  constructor
  · intro h
    obtain ⟨⟨t, c⟩, hp, h⟩ := Option.bind_eq_some_iff.1 h
    simp only at h
    split at h
    · cases h
    next hclash =>
      obtain ⟨⟨us, l⟩, hps, e⟩ := Option.map_eq_some_iff.1 h
      cases e
      exact ⟨t, c, us, hp, hclash, hps, rfl⟩
  · rintro ⟨t, c, us, hp, hclash, hps, rfl⟩
    simp only [parseComponents, hp, Option.bind_some, if_neg hclash, hps, Option.map_some]

theorem parseComponents_forall₂ {ts : List Text}
    (h : parseComponents ps k = some (ts, k')) :
    List.Forall₂ (fun p t => ∃ c, parseComponent p = some (t, c)) ps ts := by
  induction ps generalizing ts k with
  | nil => cases h; exact .nil
  | cons p ps ih =>
    obtain ⟨t, c, us, hp, -, hps, rfl⟩ := parseComponents_cons.1 h
    exact .cons ⟨c, hp⟩ (ih hps)

theorem parseComponents_canonical {ts : List Text}
    (h : parseComponents ps k = some (ts, k')) : parseComponents ts k = some (ts, k') := by
  induction ps generalizing ts k with
  | nil => cases h; rfl
  | cons p ps ih =>
    obtain ⟨t, c, us, hp, hclash, hps, rfl⟩ := parseComponents_cons.1 h
    exact parseComponents_cons.2 ⟨t, c, us, parseComponent_canonical hp, hclash, ih hps, rfl⟩

/-- The components of a spelling. -/
def parts (s : Text) : List Part := ((trimBlank s).splitOn ':').map part

theorem parseComponents_parts {ts : List Text}
    (h : parseComponents ps k = some (ts, k')) : ts = (ps.map part).map Part.text := by
  have hall := parseComponents_forall₂ h
  clear h
  induction hall with
  | nil => rfl
  | cons hp _ ih =>
    obtain ⟨c, hp⟩ := hp
    rw [List.map_cons, List.map_cons, ← parseComponent_text hp, ← ih]

theorem parts_injective {qs ts : List Text} {l l' : SetClass}
    (hp : parseComponents ps k = some (ts, k')) (hq : parseComponents qs l = some (ts, l')) :
    ps.map part = qs.map part := by
  have hall := parseComponents_forall₂ hp
  have hall' := parseComponents_forall₂ hq
  clear hp hq
  induction hall generalizing qs with
  | nil => cases hall'; rfl
  | cons h _ ih =>
    cases hall' with
    | cons h' hrest =>
      obtain ⟨c, h⟩ := h
      obtain ⟨c', h'⟩ := h'
      rw [List.map_cons, List.map_cons, part_injective h h' rfl, ih hrest]

/-! ## Names -/

theorem parse_eq_some {n : SetName} :
    parse s = some n ↔ trimBlank s ≠ [] ∧ (trimBlank s).length ≤ maxLen ∧
      ∃ ts, parseComponents ((trimBlank s).splitOn ':') .unknown = some (ts, n.cls) ∧
        n.cls ≠ .unknown ∧ n.canon = [':'].intercalate ts := by
  unfold parse
  dsimp only
  constructor
  · intro h
    split at h
    · cases h
    next hlen =>
      simp only [Bool.or_eq_true, List.isEmpty_iff, decide_eq_true_eq, not_or, not_lt] at hlen
      split at h
      · cases h
      next ts k hps =>
        split at h
        · cases h
        next hk =>
          cases h
          exact ⟨hlen.1, hlen.2, ts, hps, hk, rfl⟩
  · rintro ⟨hne, hlen, ts, hps, hk, hcanon⟩
    rw [if_neg (by simp [hne, hlen])]
    split
    next hnone => rw [hps] at hnone; cases hnone
    next us k hsome =>
      rw [hps] at hsome
      cases hsome
      rw [if_neg hk]
      exact congrArg some (ext_canon hcanon.symm)

theorem splitOn_canon {ts : List Text}
    (h : parseComponents ps k = some (ts, k')) (hne : ts ≠ []) :
    ([':'].intercalate ts).splitOn ':' = ts :=
  List.splitOn_intercalate ':' (fun t ht => colon_not_mem (parseComponents_chars h t ht)) hne

theorem parseComponents_ne_nil {ts : List Text}
    (h : parseComponents ps k = some (ts, k')) (hne : ps ≠ []) : ts ≠ [] := by
  rintro rfl
  cases ps with
  | nil => exact hne rfl
  | cons p ps =>
    obtain ⟨t, c, us, -, -, -, h⟩ := parseComponents_cons.1 h
    cases h

theorem trimBlank_canon (n : SetName) : trimBlank n.canon = n.canon :=
  trimBlank_eq fun c hc => isBlank_of_isNameChar (n.chars c hc)

theorem canon_ne_nil {n : SetName} (h : parse s = some n) : n.canon ≠ [] := by
  obtain ⟨-, -, ts, hps, hk, hcanon⟩ := parse_eq_some.1 h
  intro hnil
  rw [n.named, hnil] at hk
  exact hk (by decide +kernel)

theorem parse_canon_iff {n : SetName} (h : parse s = some n) :
    parse n.text = some n ↔ n.text.length ≤ maxLen := by
  obtain ⟨-, -, ts, hps, hk, hcanon⟩ := parse_eq_some.1 h
  have hts := parseComponents_ne_nil hps (List.splitOn_ne_nil _ _)
  rw [parse_eq_some, SetName.text, trimBlank_canon]
  constructor
  · exact fun h => h.2.1
  · intro hlen
    refine ⟨canon_ne_nil h, hlen, ts, ?_, hk, hcanon⟩
    rw [hcanon, splitOn_canon hps hts]
    exact parseComponents_canonical hps

theorem parse_eq_iff {s' : Text} {n n' : SetName} (h : parse s = some n)
    (h' : parse s' = some n') : n = n' ↔ parts s = parts s' := by
  obtain ⟨-, -, ts, hps, -, hcanon⟩ := parse_eq_some.1 h
  obtain ⟨-, -, ts', hps', -, hcanon'⟩ := parse_eq_some.1 h'
  constructor
  · rintro rfl
    have hts : ts = ts' := by
      rw [← splitOn_canon hps (parseComponents_ne_nil hps (List.splitOn_ne_nil _ _)), ← hcanon,
        hcanon', splitOn_canon hps' (parseComponents_ne_nil hps' (List.splitOn_ne_nil _ _))]
    subst hts
    exact parts_injective hps hps'
  · intro hparts
    refine ext_canon ?_
    rw [hcanon, hcanon', parseComponents_parts hps, parseComponents_parts hps']
    exact congrArg (fun l => [':'].intercalate (List.map Part.text l)) hparts

end SetName

/-! ## References -/

theorem cutScope_append {w : Text} (hw : ':' ∉ w) :
    cutScope (w ++ s) = (cutScope s).map fun (src, rest) => (w ++ src, rest) := by
  induction w with
  | nil => simp
  | cons c w ih =>
    rw [List.mem_cons, not_or] at hw
    have hc : c ≠ ':' := fun h => hw.1 h.symm
    have hstep : cutScope (c :: (w ++ s)) =
        (cutScope (w ++ s)).map fun (src, rest) => (c :: src, rest) := by
      cases w ++ s with
      | nil => rfl
      | cons d t => rw [cutScope, if_neg fun h => hc h.1]
    rw [List.cons_append, hstep, ih hw.2, Option.map_map]
    rfl

theorem cutScope_intercalate {ts : List Text} (h : ∀ t ∈ ts, t ≠ [] ∧ ':' ∉ t) :
    cutScope ([':'].intercalate ts) = none := by
  induction ts with
  | nil => rfl
  | cons t ts ih =>
    have htail := ih fun u hu => h u (List.mem_cons_of_mem t hu)
    cases ts with
    | nil =>
      have hcut := cutScope_append (s := []) (h t List.mem_cons_self).2
      simpa [cutScope] using hcut
    | cons u ts =>
      have hu := h u (by simp)
      rw [List.intercalate_cons_cons, List.append_assoc,
        cutScope_append (h t List.mem_cons_self).2]
      obtain ⟨c, u', rfl⟩ := List.exists_cons_of_ne_nil hu.1
      have hc : c ≠ ':' := fun e => hu.2 (e ▸ List.mem_cons_self)
      rw [Lib.intercalate_cons] at htail ⊢
      have hcut : cutScope (':' :: c :: (u' ++ Lib.precede [':'] ts)) = none := by
        rw [cutScope, if_neg fun h => hc h.2]
        exact congrArg _ htail
      exact congrArg _ hcut

theorem SetName.cutScope_canon {n : SetName} (h : parse s = some n) :
    cutScope n.canon = none := by
  obtain ⟨-, -, ts, hps, -, hcanon⟩ := parse_eq_some.1 h
  rw [hcanon]
  refine cutScope_intercalate fun t ht => ?_
  obtain ⟨p, -, c, hp⟩ := (Lib.forall₂_mem (parseComponents_forall₂ hps)).2 t ht
  exact ⟨parseComponent_ne_nil hp, colon_not_mem (parseComponent_chars hp)⟩

theorem parseSourceName_canonical {t : Text} (h : parseSourceName s = some t) :
    t = upper s ∧ parseSourceName t = some t ∧ t ≠ [] ∧
      ∀ c ∈ t, isNameChar c = true ∧ c ≠ ':' := by
  unfold parseSourceName at h
  split_ifs at h with hlen hall
  cases h
  rw [List.all_eq_true] at hall
  have hne : s ≠ [] := by
    rintro rfl
    simp at hlen
  have hchar : ∀ c ∈ upper s, SetName.isPartChar c = true := by
    intro c hc
    obtain ⟨b, hb, rfl⟩ := List.mem_map.1 hc
    refine SetName.isPartChar_toUpper ?_
    have := hall b hb
    simp only [Bool.or_eq_true] at this ⊢
    tauto
  have hvalid : (upper s).all (fun c => isAlnum c || c == '-' || c == '_') = true := by
    rw [List.all_eq_true]
    intro c hc
    obtain ⟨b, hb, rfl⟩ := List.mem_map.1 hc
    have hv := hall b hb
    rcases ha : isAlnum b with _ | _
    · rw [ha, Bool.false_or] at hv
      rw [toUpper_of_symbol (by rw [Bool.or_comm]; exact hv)]
      simp [ha, hv]
    · simp [isAlnum_toUpper b ha]
  refine ⟨rfl, ?_, by simpa [upper] using hne, fun c hc => ?_⟩
  · have hlen' : (upper s).isEmpty = s.isEmpty ∧ (upper s).length = s.length := by
      simp [upper]
    rw [parseSourceName, hlen'.1, hlen'.2, if_neg hlen, if_pos hvalid, upper_upper]
  · have := hchar c hc
    simp only [SetName.isPartChar, Bool.and_eq_true, bne_iff_ne, ne_eq] at this
    exact this

namespace SetRef

theorem new_name {src : Text} {n : SetName} {r : SetRef} (h : new src n = some r) :
    r.name = n := by
  unfold new at h
  split_ifs at h
  · cases h
    rfl
  · obtain ⟨t, -, rfl⟩ := Option.map_eq_some_iff.1 h
    rfl

theorem parse_cases {r : SetRef} (h : parse s = some r) :
    (cutScope (trimBlank s) = none ∧ r.source = [] ∧
      SetName.parse (trimBlank s) = some r.name) ∨
    ∃ src rest, cutScope (trimBlank s) = some (src, rest) ∧ parseSourceName src = some r.source ∧
      SetName.parse rest = some r.name := by
  unfold parse at h
  split at h
  next hcut =>
    obtain ⟨n, hn, rfl⟩ := Option.map_eq_some_iff.1 h
    exact .inl ⟨hcut, rfl, hn⟩
  next src rest hcut =>
    split at h
    · cases h
    · obtain ⟨n, hn, h⟩ := Option.bind_eq_some_iff.1 h
      split at h
      · cases h
      next hsrc =>
        unfold new at h
        split_ifs at h with hz
        obtain ⟨t, ht, rfl⟩ := Option.map_eq_some_iff.1 h
        exact .inr ⟨src, rest, hcut, ht, hn⟩

/-- The registry and the components of a spelling. -/
def refParts (s : Text) : Text × List SetName.Part :=
  match cutScope (trimBlank s) with
  | none => ([], SetName.parts (trimBlank s))
  | some (src, rest) => (upper src, SetName.parts rest)

theorem parse_parts {r : SetRef} (h : parse s = some r) :
    ∃ t, SetName.parse t = some r.name ∧ refParts s = (r.source, SetName.parts t) := by
  rcases parse_cases h with ⟨hcut, hsrc, hn⟩ | ⟨src, rest, hcut, hsrc, hn⟩
  · exact ⟨trimBlank s, hn, by rw [refParts, hcut, hsrc]⟩
  · refine ⟨rest, hn, ?_⟩
    rw [refParts, hcut, (parseSourceName_canonical hsrc).1]

theorem parse_eq_iff {s' : Text} {r r' : SetRef} (h : parse s = some r)
    (h' : parse s' = some r') : r = r' ↔ refParts s = refParts s' := by
  obtain ⟨t, ht, hparts⟩ := parse_parts h
  obtain ⟨t', ht', hparts'⟩ := parse_parts h'
  rw [hparts, hparts', Prod.mk.injEq, ← SetName.parse_eq_iff ht ht']
  obtain ⟨src, n⟩ := r
  obtain ⟨src', n'⟩ := r'
  rw [SetRef.mk.injEq]

theorem parse_text_iff {r : SetRef} (h : parse s = some r) :
    parse r.text = some r ↔ r.name.text.length ≤ SetName.maxLen := by
  obtain ⟨src, n⟩ := r
  rcases parse_cases h with ⟨-, hsrc, hn⟩ | ⟨src', rest, -, hsrc, hn⟩
  · obtain rfl : src = [] := hsrc
    have htext : (⟨[], n⟩ : SetRef).text = n.canon := rfl
    rw [← SetName.parse_canon_iff hn, htext, parse, SetName.trimBlank_canon,
      SetName.cutScope_canon hn]
    change (SetName.parse n.text).map SetName.ref = some n.ref ↔ _
    rw [Option.map_eq_some_iff]
    constructor
    · rintro ⟨m, hm, heq⟩
      cases heq
      exact hm
    · exact fun hm => ⟨n, hm, rfl⟩
  · obtain ⟨-, hcanon, hne, hchars⟩ := parseSourceName_canonical hsrc
    have hempty : src.isEmpty = false := by simpa using hne
    have htext : (⟨src, n⟩ : SetRef).text = src ++ ':' :: ':' :: n.canon := by
      rw [SetRef.text, if_neg (by simp [hempty])]
      exact List.append_assoc ..
    have htrim : trimBlank (src ++ ':' :: ':' :: n.canon) = src ++ ':' :: ':' :: n.canon := by
      refine trimBlank_eq fun c hc => isBlank_of_isNameChar ?_
      rcases List.mem_append.1 hc with hc | hc
      · exact (hchars c hc).1
      · rcases List.mem_cons.1 hc with rfl | hc
        · decide
        rcases List.mem_cons.1 hc with rfl | hc
        · decide
        · exact n.chars c hc
    have hcut : cutScope (src ++ ':' :: ':' :: n.canon) = some (src, n.canon) := by
      rw [cutScope_append fun hc => (hchars _ hc).2 rfl]
      simp [cutScope]
    have hhead : n.canon.head?.all isBlank = false := by
      obtain ⟨c, cs, hc⟩ := List.exists_cons_of_ne_nil (SetName.canon_ne_nil hn)
      have hmem : c ∈ n.canon := hc ▸ List.mem_cons_self
      rw [hc]
      exact isBlank_of_isNameChar (n.chars c hmem)
    have hnew : new src n = some ⟨src, n⟩ := by
      have hz : n.isZero = false := List.isEmpty_eq_false_iff.2 (SetName.canon_ne_nil hn)
      have hread : parseSourceName src = some src := hcanon
      rw [new, if_neg (by simp [hz]), if_neg (by simp [hempty]), hread]
      rfl
    rw [← SetName.parse_canon_iff hn, htext, parse, htrim, hcut]
    simp only [hhead, Bool.false_eq_true, if_false, hempty]
    constructor
    · intro h
      obtain ⟨m, hm, h⟩ := Option.bind_eq_some_iff.1 h
      obtain rfl : n = m := new_name h
      exact hm
    · intro hm
      change (SetName.parse n.text).bind (new src) = _
      rw [hm]
      exact hnew

end SetRef

/-! ## Round trips -/

/-- **Set names are canonical values, but for their length**: a name's text and a reference's name
what they were read from exactly when the name's canonical form is no longer than a spelling may
be. Two spellings are one value when their components are. -/
theorem setName_roundtrip_iff {s' t t' : Text} {n n' : SetName} {r r' : SetRef}
    (hs : SetName.parse s = some n) (hs' : SetName.parse s' = some n')
    (ht : SetRef.parse t = some r) (ht' : SetRef.parse t' = some r') :
    (SetName.parse n.text = some n ↔ n.text.length ≤ SetName.maxLen) ∧
      (SetRef.parse r.text = some r ↔ r.name.text.length ≤ SetName.maxLen) ∧
      (n = n' ↔ SetName.parts s = SetName.parts s') ∧
      (r = r' ↔ SetRef.refParts t = SetRef.refParts t') :=
  ⟨SetName.parse_canon_iff hs, SetRef.parse_text_iff ht, SetName.parse_eq_iff hs hs',
    SetRef.parse_eq_iff ht ht'⟩

/-- "as007:as-x" and "AS7:AS-X" are one name, and scoped to "ripe" and "RIPE" one reference. -/
theorem setName_roundtrip_iff_as7 :
    ∃ (n n' : SetName) (r r' : SetRef), SetName.parse (lit "as007:as-x") = some n ∧
      SetName.parse (lit "AS7:AS-X") = some n' ∧ SetRef.parse (lit "ripe::as007:as-x") = some r ∧
      SetRef.parse (lit "RIPE::AS7:AS-X") = some r' ∧ SetName.parse n.text = some n ∧
      SetRef.parse r.text = some r ∧ n = n' ∧ r = r' := by
  have hshort : ((SetName.parse (lit "as007:as-x")).all (·.text.length ≤ SetName.maxLen) &&
      (SetRef.parse (lit "ripe::as007:as-x")).all
        (·.name.text.length ≤ SetName.maxLen)) = true := by
    decide +kernel
  obtain ⟨n, hn⟩ : ∃ n, SetName.parse (lit "as007:as-x") = some n :=
    Option.isSome_iff_exists.1 (by decide +kernel)
  obtain ⟨n', hn'⟩ : ∃ n, SetName.parse (lit "AS7:AS-X") = some n :=
    Option.isSome_iff_exists.1 (by decide +kernel)
  obtain ⟨r, hr⟩ : ∃ r, SetRef.parse (lit "ripe::as007:as-x") = some r :=
    Option.isSome_iff_exists.1 (by decide +kernel)
  obtain ⟨r', hr'⟩ : ∃ r, SetRef.parse (lit "RIPE::AS7:AS-X") = some r :=
    Option.isSome_iff_exists.1 (by decide +kernel)
  simp only [hn, hr, Option.all_some, Bool.and_eq_true, decide_eq_true_eq] at hshort
  obtain ⟨hname, href, heq, heq'⟩ := setName_roundtrip_iff hn hn' hr hr'
  exact ⟨n, n', r, r', hn, hn', hr, hr', hname.2 hshort.1, href.2 hshort.2,
    heq.2 (by decide +kernel), heq'.2 (by decide +kernel)⟩

/-- "AS-A" with 170 components "AS9.9": 1024 bytes. -/
def longName : Text := lit "AS-A" ++ (List.replicate 170 (lit ":AS9.9")).flatten

/-- A name that is read and whose text is not. -/
theorem longName_not_read_back :
    ∃ n, SetName.parse longName = some n ∧ SetName.parse n.text = none := by
  have h : (SetName.parse longName).map (fun n => SetName.parse n.text) = some none := by
    decide +kernel
  exact Option.map_eq_some_iff.1 h

end Rpsl
