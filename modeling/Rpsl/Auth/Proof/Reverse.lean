import Rpsl.Auth.Proof.RouteCreation
import Rpsl.Lib.Digits
import Rpsl.Lib.Outcome
import Rpsl.Lib.PrefixFree
import Rpsl.Types.Proof.RangeParse
import Rpsl.Types.Proof.SetNameText

/-!
# The addresses of a reverse zone

A reverse zone's labels are the low end of an address written backwards: the octets of an IPv4
address or the nibbles of an IPv6 one, the least significant first (`reversed`). `ReadExactly` says
that `reverseRange` accepts the names of such zones and no others, and gives the addresses that end
in their labels. It does for the names whose labels have no sign: `parseOctet` reads its digits with
`strconv.Atoi`, which takes one (`readExactly_iff`).
-/

namespace Rpsl.Auth

open Text Lib
open Nat (ofDigits)

/-! ## The meaning -/

/-- The number of values of one label: of an octet, or of a nibble. -/
def base : Family → Nat
  | .v4 => 256
  | .v6 => 16

/-- The labels of a whole address. -/
def places : Family → Nat
  | .v4 => 4
  | .v6 => 32

/-- The zone that the labels of a family stand under. -/
def zoneSuffix : Family → Text
  | .v4 => lit ".in-addr.arpa"
  | .v6 => lit ".ip6.arpa"

/-- The octets or nibbles of an address, the least significant first. -/
def reversed (a : Addr) : List Nat := lowDigits (base a.fam) (places a.fam) a.val.toNat

/-- An octet in decimal, without leading zeros; a nibble as a hexadecimal digit. -/
def labelText : Family → Nat → Text
  | .v4, d => ofNat d
  | .v6, d => [d.digitChar]

def Names (f : Family) (l : Text) (d : Nat) : Prop := d < base f ∧ l = labelText f d

/-- The range form, "0-127". -/
def NamesRange (l : Text) (x y : Nat) : Prop :=
  x ≤ y ∧ y < base .v4 ∧ l = ofNat x ++ '-' :: ofNat y

/-- The label stands for the octet or nibble. -/
def Allows (f : Family) (l : Text) (d : Nat) : Prop :=
  Names f l d ∨ f = .v4 ∧ ∃ x y, NamesRange l x y ∧ x ≤ d ∧ d ≤ y

/-- The labels of a reverse zone: a range stands only for the last octet of a full address. -/
structure IsZone (f : Family) (labels : List Text) : Prop where
  pos : 1 ≤ labels.length
  fits : labels.length ≤ places f
  label : ∀ i l, labels[i]? = some l → (∃ d, Names f l d) ∨
    f = .v4 ∧ i = 0 ∧ labels.length = 4 ∧ ∃ x y, NamesRange l x y

/-- The name, without case and a trailing dot, is these labels under the zone of a family. -/
structure Under (name : Text) (f : Family) (labels : List Text) : Prop where
  name_eq : reverseName name = ['.'].intercalate labels ++ zoneSuffix f
  label : ∀ l ∈ labels, '.' ∉ l
  ne_nil : labels ≠ []

def EndsIn (a : Addr) (labels : List Text) : Prop :=
  ∃ low high, reversed a = low ++ high ∧ labels.Forall₂ (Allows a.fam) high

/-- The name is read as what it says: it is accepted when it is a reverse zone, and the addresses
are those that end in its labels. -/
structure ReadExactly (name : Text) : Prop where
  accepts : (reverseRange name).isSome = true ↔ ∃ f labels, Under name f labels ∧ IsZone f labels
  range : ∀ lo hi, reverseRange name = some (lo, hi) → ∀ f labels, Under name f labels →
    ∀ a, Between lo hi a ↔ a.fam = f ∧ EndsIn a labels

/-- A number of the label is written with a sign. -/
def Signed (l : Text) : Prop := '+' ∈ l ∨ 2 ≤ l.count '-'

/-- A sign and one or two digits; below zero it counts from 256 down. -/
def SignedOctet (l : Text) (d : Nat) : Prop :=
  ∃ ds n, ds.length ≤ 2 ∧ parseUint ds 8 = some n ∧
    (l = '+' :: ds ∧ d = n ∨ l = '-' :: ds ∧ d = (256 - n) % 256)

def Octet (l : Text) (d : Nat) : Prop := Names .v4 l d ∨ SignedOctet l d

/-- An octet or, where a range may stand, two around the first dash. -/
def OctetLabel (range : Prop) (l : Text) : Prop :=
  '-' ∉ l ∧ (∃ d, Octet l d) ∨
    range ∧ ∃ a b x y, l = a ++ '-' :: b ∧ '-' ∉ a ∧ Octet a x ∧ Octet b y ∧ x ≤ y

/-- Labels of an IPv4 zone but for the signs in front of their numbers. -/
structure SignedZone (labels : List Text) : Prop where
  pos : 1 ≤ labels.length
  fits : labels.length ≤ 4
  label : ∀ i l, labels[i]? = some l → OctetLabel (i = 0 ∧ labels.length = 4) l
  signed : ∃ l ∈ labels, Signed l

/-! ## Numbers -/

theorem digitChar_of_isDigit {c : Char} (h : c.isDigit = true) :
    (c.toNat - '0'.toNat).digitChar = c := by
  have hbounds := Char.isDigit_iff_toNat.1 h
  have hall : ∀ n, 48 ≤ n → n ≤ 57 → (n - '0'.toNat).digitChar = Char.ofNat n := by
    intro n h1 h2
    interval_cases n <;> rfl
  rw [hall _ hbounds.1 hbounds.2, Char.ofNat_toNat]

theorem ofNat_value {l : Text} (hne : l ≠ []) (hdigit : ∀ c ∈ l, c.isDigit = true)
    (hzero : 1 < l.length → l.head? ≠ some '0') :
    ofNat (l.foldl (fun n c => 10 * n + (c.toNat - '0'.toNat)) 0) = l := by
  induction l using List.reverseRecOn with
  | nil => exact absurd rfl hne
  | append_singleton l c ih =>
    have hc := digitChar_of_isDigit (hdigit c (by simp))
    have hlt : c.toNat - '0'.toNat < 10 := by
      have hbounds : 48 ≤ c.toNat ∧ c.toNat ≤ 57 :=
        Char.isDigit_iff_toNat.1 (hdigit c (by simp))
      show c.toNat - 48 < 10
      omega
    have hlast : ofNat (c.toNat - '0'.toNat) = [c] := by
      rw [ofNat, Nat.toDigits_of_lt_base hlt, hc]
    rw [List.foldl_append, List.foldl_cons, List.foldl_nil]
    by_cases hl : l = []
    · rw [hl, List.foldl_nil, Nat.mul_zero, Nat.zero_add, hlast, List.nil_append]
    · have hhead : l.head? ≠ some '0' := by
        have hlen : 1 < (l ++ [c]).length := by
          have := List.length_pos_iff.2 hl
          simp
          omega
        rw [← List.head?_append_of_ne_nil l hl]
        exact hzero hlen
      have hvalue := ih hl (fun d hd => hdigit d (by simp [hd])) fun _ => hhead
      have hpos : 0 < l.foldl (fun n c => 10 * n + (c.toNat - '0'.toNat)) 0 := by
        apply Nat.pos_of_ne_zero
        intro h0
        rw [h0] at hvalue
        apply hhead
        rw [← hvalue]
        rfl
      rw [ofNat, ← Nat.toDigits_append_toDigits (by decide) hpos hlt]
      show ofNat _ ++ ofNat _ = l ++ [c]
      rw [hvalue, hlast]

variable {d : Nat}

theorem length_ofNat_le (h : d < 256) : (ofNat d).length ≤ 3 :=
  Nat.toDigits_length 10 d 3 (by decide) (by omega)

theorem head_ofNat (h : d < 256) (hlen : 1 < (ofNat d).length) :
    (ofNat d).head? ≠ some '0' := by
  have hall : ∀ d : Fin 256, 1 < (ofNat d).length → (ofNat d).head? ≠ some '0' := by decide +kernel
  exact hall ⟨d, h⟩ hlen

theorem parseOctet_unsigned {l : Text} (hplus : l.head? ≠ some '+') (hminus : l.head? ≠ some '-') :
    parseOctet l = some d ↔ Names .v4 l d := by
  have hunsigned : parseOctet l =
      if l = [] ∨ 3 < l.length ∨ (1 < l.length ∧ l.head? = some '0') then none
      else parseUint l 8 := by
    unfold parseOctet
    split
    · rfl
    · split
      · simp at hminus
      · simp at hplus
      · rfl
  rw [hunsigned]
  constructor
  · intro h
    split at h
    · cases h
    rename_i hshape
    push Not at hshape
    unfold parseUint at h
    dsimp only at h
    split at h
    · cases h
    rename_i hdigits
    split at h
    · rename_i hlt
      cases h
      have hdigit : ∀ c ∈ l, c.isDigit = true := by simpa [hshape.1] using hdigits
      exact ⟨hlt, (ofNat_value hshape.1 hdigit hshape.2.2).symm⟩
    · cases h
  · intro h
    obtain ⟨hd, rfl⟩ := h
    have hne : ofNat d ≠ [] := Nat.toDigits_ne_nil
    rw [labelText, if_neg, parseUint_ofNat hd]
    push Not
    exact ⟨hne, length_ofNat_le hd, head_ofNat hd⟩

theorem signedOctet_cons {c : Char} {ds : Text} : SignedOctet (c :: ds) d ↔
    ds.length ≤ 2 ∧ ∃ n, parseUint ds 8 = some n ∧
      (c = '+' ∧ d = n ∨ c = '-' ∧ d = (256 - n) % 256) := by
  unfold SignedOctet
  simp only [List.cons.injEq]
  grind

theorem octet_sign {c : Char} {ds : Text} (hc : c.isDigit = false) :
    Octet (c :: ds) d ↔ SignedOctet (c :: ds) d := by
  apply or_iff_right
  intro h
  have heq : c :: ds = ofNat d := h.2
  exact not_mem_ofNat hc d (heq ▸ List.mem_cons_self)

/-- **Octets as they are read**: a number that names one, or one with a sign. -/
theorem parseOctet_iff {l : Text} : parseOctet l = some d ↔ Octet l d := by
  have hlen : ∀ {c : Char} {ds : Text}, c ≠ '0' →
      ((c :: ds = [] ∨ 3 < (c :: ds).length ∨
        (1 < (c :: ds).length ∧ (c :: ds).head? = some '0')) ↔ ¬ ds.length ≤ 2) := by
    intro c ds hc
    simp only [List.length_cons, List.head?_cons, Option.some.injEq, hc, and_false, or_false,
      reduceCtorEq, false_or]
    omega
  by_cases hplus : l.head? = some '+'
  · obtain ⟨ds, rfl⟩ := List.head?_eq_some_iff.1 hplus
    rw [octet_sign (by decide), signedOctet_cons, parseOctet]
    simp only [hlen (c := '+') (by decide)]
    by_cases h : ds.length ≤ 2 <;> simp [h, eq_comm]
  · by_cases hminus : l.head? = some '-'
    · obtain ⟨ds, rfl⟩ := List.head?_eq_some_iff.1 hminus
      rw [octet_sign (by decide), signedOctet_cons, parseOctet]
      simp only [hlen (c := '-') (by decide)]
      by_cases h : ds.length ≤ 2 <;> simp [h, eq_comm]
    · rw [parseOctet_unsigned hplus hminus, Octet, or_iff_left]
      intro h
      obtain ⟨ds, n, -, -, h | h⟩ := h
      · exact hplus (by rw [h.1, List.head?_cons])
      · exact hminus (by rw [h.1, List.head?_cons])

theorem octet_of_not_mem {l : Text} (hplus : '+' ∉ l) (hminus : '-' ∉ l) :
    Octet l d ↔ Names .v4 l d := by
  rw [← parseOctet_iff]
  apply parseOctet_unsigned
  · exact fun h => hplus (List.mem_of_mem_head? h)
  · exact fun h => hminus (List.mem_of_mem_head? h)

theorem parseNibble_iff {l : Text} : parseNibble l = some d ↔ Names .v6 l d := by
  have hread : ∀ d : Fin 16, parseNibble [(d : Nat).digitChar] = some d := by decide
  constructor
  · intro h
    unfold parseNibble at h
    split at h
    · rename_i c
      split at h
      · rename_i hc
        cases h
        have hbounds : 48 ≤ c.toNat ∧ c.toNat ≤ 57 := Char.isDigit_iff_toNat.1 hc
        refine ⟨?_, ?_⟩
        · show c.toNat - 48 < 16
          omega
        · exact congrArg (fun c => [c]) (digitChar_of_isDigit hc).symm
      · split at h
        · rename_i hc
          cases h
          have hbounds : 97 ≤ c.toNat ∧ c.toNat ≤ 102 := hc
          have hall : ∀ n, 97 ≤ n → n ≤ 102 → (n - 87).digitChar = Char.ofNat n := by
            intro n h1 h2
            interval_cases n <;> rfl
          refine ⟨?_, ?_⟩
          · show c.toNat - 87 < 16
            omega
          · rw [labelText, hall _ hbounds.1 hbounds.2, Char.ofNat_toNat]
        · cases h
    · cases h
  · intro h
    obtain ⟨hd, rfl⟩ := h
    exact hread ⟨d, hd⟩

/-! ## Labels -/

theorem labelText_injective {f : Family} {e : Nat} (hd : d < base f) (he : e < base f)
    (h : labelText f d = labelText f e) : d = e := by
  cases f with
  | v4 => exact ofNat_injective h
  | v6 =>
    have hread : ∀ d : Nat, d < base .v6 → parseNibble (labelText .v6 d) = some d := fun d hd =>
      parseNibble_iff.2 ⟨hd, rfl⟩
    have heq := hread d hd
    rw [h, hread e he] at heq
    exact (Option.some.inj heq).symm

theorem cutDash_eq (l : Text) : cutDash l = cutAt '-' l := rfl

theorem parseLabel_of_not_mem {l : Text} (h : '-' ∉ l) (range : Bool) :
    parseLabel range l = (parseOctet l).map fun x => (x, x) := by
  unfold parseLabel
  rw [cutDash_eq, cutAt_of_not_mem h]

theorem exists_cut {l : Text} (h : '-' ∈ l) : ∃ a b, l = a ++ '-' :: b ∧ '-' ∉ a := by
  obtain ⟨a, b, rfl, ha⟩ := List.eq_append_cons_of_mem h
  exact ⟨a, b, rfl, ha⟩

theorem parseLabel_append {a : Text} (h : '-' ∉ a) (b : Text) {range : Bool} {x y : Nat} :
    parseLabel range (a ++ '-' :: b) = some (x, y) ↔
      range = true ∧ Octet a x ∧ Octet b y ∧ x ≤ y := by
  rw [← parseOctet_iff, ← parseOctet_iff]
  unfold parseLabel
  rw [cutDash_eq, cutAt_append h]
  dsimp only
  cases range with
  | false => simp
  | true =>
    cases ha : parseOctet a with
    | none => simp
    | some x' =>
      cases hb : parseOctet b with
      | none => simp
      | some y' =>
        simp only [Bool.not_true, Bool.false_eq_true, if_false, Option.some.injEq, true_and]
        split <;> simp <;> omega

/-- **A label without a sign** is read as the octet or the range it names. -/
theorem parseLabel_iff {l : Text} (h : ¬ Signed l) {range : Bool} {x y : Nat} :
    parseLabel range l = some (x, y) ↔
      Names .v4 l x ∧ y = x ∨ range = true ∧ NamesRange l x y := by
  have hplus : '+' ∉ l := fun hp => h (.inl hp)
  by_cases hdash : '-' ∈ l
  · obtain ⟨a, b, rfl, ha⟩ := exists_cut hdash
    have hb : '-' ∉ b := by
      intro hb
      apply h
      refine .inr ?_
      have := List.one_le_count_iff.2 hb
      rw [List.count_append, List.count_cons_self]
      omega
    have hpa : '+' ∉ a := fun hp => hplus (List.mem_append_left _ hp)
    have hpb : '+' ∉ b := fun hp => hplus (List.mem_append_right _ (List.mem_cons_of_mem _ hp))
    rw [parseLabel_append ha, octet_of_not_mem hpa ha, octet_of_not_mem hpb hb]
    constructor
    · intro hr
      obtain ⟨hr, ⟨-, rfl⟩, ⟨hy, rfl⟩, hle⟩ := hr
      exact .inr ⟨hr, hle, hy, rfl⟩
    · intro hr
      rcases hr with hr | hr
      · obtain ⟨⟨-, heq⟩, -⟩ := hr
        exact absurd (heq ▸ hdash) (not_mem_ofNat (by decide) x)
      · obtain ⟨hr, hle, hy, heq⟩ := hr
        have hax := append_mark_inj ha (not_mem_ofNat (by decide) x) heq
        rw [hax, List.append_cancel_left_eq, List.cons.injEq] at heq
        exact ⟨hr, ⟨hle.trans_lt hy, hax⟩, ⟨hy, heq.2⟩, hle⟩
  · rw [parseLabel_of_not_mem hdash, Option.map_eq_some_iff]
    constructor
    · intro hr
      obtain ⟨d, hd, heq⟩ := hr
      cases heq
      exact .inl ⟨(octet_of_not_mem hplus hdash).1 (parseOctet_iff.1 hd), rfl⟩
    · intro hr
      rcases hr with hr | hr
      · obtain ⟨hn, rfl⟩ := hr
        exact ⟨_, parseOctet_iff.2 ((octet_of_not_mem hplus hdash).2 hn), rfl⟩
      · obtain ⟨-, -, -, rfl⟩ := hr
        exact absurd (by simp) hdash

theorem isSome_parseLabel {l : Text} {range : Bool} :
    (parseLabel range l).isSome = true ↔ OctetLabel (range = true) l := by
  rw [Option.isSome_iff_exists]
  by_cases hdash : '-' ∈ l
  · obtain ⟨a, b, rfl, ha⟩ := exists_cut hdash
    constructor
    · intro h
      obtain ⟨⟨x, y⟩, h⟩ := h
      obtain ⟨hr, hx, hy, hle⟩ := (parseLabel_append ha b).1 h
      exact .inr ⟨hr, a, b, x, y, rfl, ha, hx, hy, hle⟩
    · intro h
      rcases h with h | h
      · exact absurd hdash h.1
      · obtain ⟨hr, a', b', x, y, heq, ha', hx, hy, hle⟩ := h
        rw [heq]
        exact ⟨(x, y), (parseLabel_append ha' b').2 ⟨hr, hx, hy, hle⟩⟩
  · rw [parseLabel_of_not_mem hdash]
    constructor
    · intro h
      obtain ⟨_, h⟩ := h
      obtain ⟨d, hd, -⟩ := Option.map_eq_some_iff.1 h
      exact .inl ⟨hdash, d, parseOctet_iff.1 hd⟩
    · intro h
      rcases h with h | h
      · obtain ⟨-, d, hd⟩ := h
        exact ⟨(d, d), by rw [parseOctet_iff.2 hd]; rfl⟩
      · obtain ⟨-, a, b, _, _, rfl, _⟩ := h
        exact absurd (by simp) hdash

theorem not_signed_of_names {l : Text} (h : (∃ d, Names .v4 l d) ∨ ∃ x y, NamesRange l x y) :
    ¬ Signed l := by
  have hplus := fun d => not_mem_ofNat (c := '+') (by decide) d
  have hminus := fun d => List.count_eq_zero.2 (not_mem_ofNat (c := '-') (by decide) d)
  intro hs
  rcases h with h | h
  · obtain ⟨d, -, rfl⟩ := h
    rcases hs with hs | hs
    · exact hplus d hs
    · rw [labelText, hminus d] at hs
      omega
  · obtain ⟨x, y, -, -, rfl⟩ := h
    rcases hs with hs | hs
    · rcases List.mem_append.1 hs with hs | hs
      · exact hplus x hs
      · exact hplus y ((List.mem_cons.1 hs).resolve_left (by decide))
    · rw [List.count_append, List.count_cons_self, hminus x, hminus y] at hs
      omega

/-! ## The digits of a zone -/

theorem exists_forall₂ {α β : Type} {R : α → β → Prop} {as : List α} :
    (∃ bs, as.Forall₂ R bs) ↔ ∀ a ∈ as, ∃ b, R a b := by
  induction as with
  | nil => exact ⟨fun _ a ha => absurd ha List.not_mem_nil, fun _ => ⟨[], .nil⟩⟩
  | cons a as ih =>
    rw [List.forall_mem_cons, ← ih]
    constructor
    · intro h
      obtain ⟨_, hall⟩ := h
      cases hall with
      | cons hb hrest => exact ⟨⟨_, hb⟩, _, hrest⟩
    · intro h
      obtain ⟨⟨b, hb⟩, bs, hrest⟩ := h
      exact ⟨b :: bs, .cons hb hrest⟩

/-- What the labels say of the octets or nibbles of an address: one from `x` to `y`, those of `hs`
above it. -/
def Reads (f : Family) (labels : List Text) (x y : Nat) (hs : List Nat) : Prop :=
  ∃ l ls, labels = l :: ls ∧ ls.length < places f ∧
    (Names f l x ∧ y = x ∨ f = .v4 ∧ ls.length = 3 ∧ NamesRange l x y) ∧ ls.Forall₂ (Names f) hs

def blockEnd (f : Family) (fill x : Nat) (hs : List Nat) : Addr :=
  ⟨f, BitVec.ofNat f.width
    (ofDigits (base f) (List.replicate (places f - (hs.length + 1)) fill ++ x :: hs))⟩

theorem base_pow_places (f : Family) : base f ^ places f = 2 ^ f.width := by
  cases f <;> norm_num [base, places, Family.width]

theorem one_lt_base (f : Family) : 1 < base f := by cases f <;> decide

section Block

variable {f : Family} {labels : List Text} {x y : Nat} {hs : List Nat}

theorem Reads.bounds (h : Reads f labels x y hs) :
    x < base f ∧ y < base f ∧ x ≤ y ∧ hs.length < places f ∧ ∀ d ∈ hs, d < base f := by
  obtain ⟨l, ls, -, hlen, hfirst, hrest⟩ := h
  refine ⟨?_, ?_, ?_, hrest.length_eq ▸ hlen, ?_⟩
  · rcases hfirst with h | h
    · exact h.1.1
    · obtain ⟨rfl, -, hr⟩ := h
      exact hr.1.trans_lt hr.2.1
  · rcases hfirst with h | h
    · exact h.2 ▸ h.1.1
    · obtain ⟨rfl, -, hr⟩ := h
      exact hr.2.1
  · rcases hfirst with h | h
    · exact h.2.ge
    · exact h.2.2.1
  · intro d hd
    obtain ⟨l, -, hl⟩ := (forall₂_mem hrest).2 d hd
    exact hl.1

theorem toNat_blockEnd {fill : Nat} (hfill : fill < base f) (hx : x < base f)
    (hlen : hs.length < places f) (hhs : ∀ d ∈ hs, d < base f) :
    (blockEnd f fill x hs).val.toNat =
      ofDigits (base f) (List.replicate (places f - (hs.length + 1)) fill ++ x :: hs) := by
  show (BitVec.ofNat f.width _).toNat = _
  rw [BitVec.toNat_ofNat]
  apply Nat.mod_eq_of_lt
  rw [← base_pow_places]
  refine (Nat.ofDigits_lt_base_pow_length (one_lt_base f) ?_).trans_eq ?_
  · intro d hd
    rcases List.mem_append.1 hd with hd | hd
    · rwa [List.eq_of_mem_replicate hd]
    · rcases List.mem_cons.1 hd with rfl | hd
      · exact hx
      · exact hhs d hd
  · congr 1
    rw [List.length_append, List.length_replicate, List.length_cons]
    omega

theorem ofDigits_reversed (a : Addr) : ofDigits (base a.fam) (reversed a) = a.val.toNat := by
  apply ofDigits_lowDigits
  rw [base_pow_places]
  exact a.val.isLt

/-- **The addresses between the ends of a block** are those whose high digits are the given ones. -/
theorem between_block (h : Reads f labels x y hs) (a : Addr) :
    Between (blockEnd f 0 x hs) (blockEnd f (base f - 1) y hs) a ↔
      a.fam = f ∧ ∃ low d, reversed a = low ++ d :: hs ∧ x ≤ d ∧ d ≤ y := by
  obtain ⟨hx, hy, -, hlen, hhs⟩ := h.bounds
  have hb := one_lt_base f
  unfold Between
  rw [toNat_blockEnd (by omega) hx hlen hhs, toNat_blockEnd (by omega) hy hlen hhs]
  by_cases hfam : a.fam = f
  · subst hfam
    have hrev : (reversed a).length = places a.fam := length_lowDigits _ _ _
    have hwidth : (reversed a).length = places a.fam - (hs.length + 1) + 1 + hs.length := by omega
    have hblock := ofDigits_block (x := x) (y := y) hb hwidth
      (fun d hd => lt_of_mem_lowDigits (by omega) hd) hhs hy
    rw [ofDigits_reversed] at hblock
    constructor
    · intro hbetween
      obtain ⟨low, d, heq, -, hd⟩ := hblock.1 ⟨hbetween.1.2, hbetween.2.2⟩
      exact ⟨rfl, low, d, heq, hd⟩
    · intro hends
      obtain ⟨-, low, d, heq, hd⟩ := hends
      have hlow : low.length = places a.fam - (hs.length + 1) := by
        rw [heq, List.length_append, List.length_cons] at hrev
        clear hblock
        omega
      have hle := hblock.2 ⟨low, d, heq, hlow, hd⟩
      exact ⟨⟨rfl, hle.1⟩, ⟨rfl, hle.2⟩⟩
  · constructor
    · intro hbetween
      exact absurd hbetween.1.1.symm hfam
    · intro hends
      exact absurd hends.1 hfam

theorem allows_iff_of_names {l : Text} {e : Nat} (h : Names f l d) : Allows f l e ↔ e = d := by
  constructor
  · intro ha
    rcases ha with ha | ha
    · exact labelText_injective ha.1 h.1 (ha.2.symm.trans h.2)
    · obtain ⟨rfl, u, v, hr, -⟩ := ha
      have hdash : '-' ∈ labelText .v4 d := by
        rw [← h.2, hr.2.2]
        simp
      exact absurd hdash (not_mem_ofNat (by decide) d)
  · intro heq
    exact .inl (heq ▸ h)

theorem allows_iff_of_range {l : Text} (h : NamesRange l x y) :
    Allows .v4 l d ↔ x ≤ d ∧ d ≤ y := by
  constructor
  · intro ha
    rcases ha with ha | ha
    · have hdash : '-' ∈ labelText .v4 d := by
        rw [← ha.2, h.2.2]
        simp
      exact absurd hdash (not_mem_ofNat (by decide) d)
    · obtain ⟨-, u, v, hr, hd⟩ := ha
      have heq := h.2.2.symm.trans hr.2.2
      have hxu := append_mark_inj (not_mem_ofNat (by decide) x) (not_mem_ofNat (by decide) u) heq
      rw [hxu, List.append_cancel_left_eq, List.cons.injEq] at heq
      rw [ofNat_injective hxu, ofNat_injective heq.2]
      exact hd
  · intro hd
    exact .inr ⟨rfl, x, y, h, hd⟩

theorem forall₂_allows_iff {ls : List Text} (h : ls.Forall₂ (Names f) hs) {ds : List Nat} :
    ls.Forall₂ (Allows f) ds ↔ ds = hs := by
  induction h generalizing ds with
  | nil => simp
  | cons hl _ ih =>
    cases ds with
    | nil => simp
    | cons d ds => rw [List.forall₂_cons, ih, allows_iff_of_names hl, List.cons.injEq]

theorem Reads.endsIn_iff (h : Reads f labels x y hs) {a : Addr} (hfam : a.fam = f) :
    EndsIn a labels ↔ ∃ low d, reversed a = low ++ d :: hs ∧ x ≤ d ∧ d ≤ y := by
  obtain ⟨l, ls, rfl, -, hfirst, hrest⟩ := h
  have hallows : ∀ d, Allows f l d ↔ x ≤ d ∧ d ≤ y := by
    intro d
    rcases hfirst with hn | hr
    · rw [allows_iff_of_names hn.1, hn.2]
      omega
    · obtain ⟨rfl, -, hr⟩ := hr
      exact allows_iff_of_range hr
  unfold EndsIn
  rw [hfam]
  constructor
  · intro he
    obtain ⟨low, high, heq, hall⟩ := he
    cases high with
    | nil => cases hall
    | cons d ds =>
      rw [List.forall₂_cons, forall₂_allows_iff hrest] at hall
      exact ⟨low, d, hall.2 ▸ heq, (hallows d).1 hall.1⟩
  · intro he
    obtain ⟨low, d, heq, hd⟩ := he
    exact ⟨low, d :: hs, heq, .cons ((hallows d).2 hd) ((forall₂_allows_iff hrest).2 rfl)⟩

theorem isZone_iff : IsZone f labels ↔ ∃ x y hs, Reads f labels x y hs := by
  constructor
  · intro h
    cases labels with
    | nil => exact absurd h.pos (by simp)
    | cons l ls =>
      have hfits := h.fits
      rw [List.length_cons] at hfits
      obtain ⟨hs, hrest⟩ := exists_forall₂ (R := Names f).2 fun m hm => by
        obtain ⟨i, hi⟩ := List.mem_iff_getElem?.1 hm
        rcases h.label (i + 1) m hi with hn | hr
        · exact hn
        · exact absurd hr.2.1 (by simp)
      rcases h.label 0 l rfl with hn | hr
      · obtain ⟨d, hd⟩ := hn
        exact ⟨d, d, hs, l, ls, rfl, by omega, .inl ⟨hd, rfl⟩, hrest⟩
      · obtain ⟨rfl, -, hlen, x, y, hr⟩ := hr
        rw [List.length_cons] at hlen
        exact ⟨x, y, hs, l, ls, rfl, by omega, .inr ⟨rfl, by omega, hr⟩, hrest⟩
  · intro h
    obtain ⟨x, y, hs, l, ls, rfl, hlen, hfirst, hrest⟩ := h
    refine ⟨by simp, by simpa using hlen, ?_⟩
    intro i m hm
    cases i with
    | zero =>
      cases hm
      rcases hfirst with hn | hr
      · exact .inl ⟨x, hn.1⟩
      · exact .inr ⟨hr.1, rfl, by simp [hr.2.1], x, y, hr.2.2⟩
    | succ i => exact .inl (exists_forall₂.1 ⟨hs, hrest⟩ m (List.mem_of_getElem? hm))

end Block

/-! ## Reading the labels -/

theorem mapM_eq_some_iff {α β : Type} {f : α → Option β} {l : List α} {r : List β} :
    l.mapM f = some r ↔ l.Forall₂ (fun a b => f a = some b) r := by
  induction l generalizing r with
  | nil => simp [eq_comm]
  | cons a l ih =>
    rw [List.mapM_cons]
    constructor
    · intro h
      obtain ⟨b, hb, h⟩ := Option.bind_eq_some_iff.1 h
      obtain ⟨bs, hbs, h⟩ := Option.bind_eq_some_iff.1 h
      cases h
      exact .cons hb (ih.1 hbs)
    · intro h
      cases h with
      | cons hb hbs =>
        rw [hb, ih.2 hbs]
        rfl

theorem mapM_labels (range : Bool) (ls : List Text) (k : Nat) (hk : 0 < k) :
    ((List.range' k ls.length).zip ls).mapM (fun p => parseLabel (p.1 = 0 && range) p.2) =
      ls.mapM (parseLabel false) := by
  induction ls generalizing k with
  | nil => rfl
  | cons l ls ih =>
    have hne : (decide (k = 0) && range) = false := by
      rw [decide_eq_false (by omega), Bool.false_and]
    rw [List.length_cons, List.range'_succ, List.zip_cons_cons, List.mapM_cons, List.mapM_cons,
      ih (k + 1) (by omega), hne]

theorem foldl_eq_ofDigits (b : Nat) (ds : List Nat) :
    ds.foldl (fun n d => n * b + d) 0 = ofDigits b ds.reverse := by
  rw [Nat.ofDigits_eq_foldr, List.foldr_reverse]
  congr 1
  funext n d
  rw [Nat.cast_id, Nat.mul_comm, Nat.add_comm]

theorem ofOctets_fill (os : List Nat) (k fill : Nat) :
    ofOctets (os.reverse ++ List.replicate k fill) =
      ofDigits 256 (List.replicate k fill ++ os) := by
  rw [ofOctets, foldl_eq_ofDigits, List.reverse_append, List.reverse_reverse,
    List.reverse_replicate]

theorem reverseV4_cons (l : Text) (ls : List Text) :
    reverseV4 (l :: ls) = if 3 < ls.length then none else
      (parseLabel (ls.length = 3) l).bind fun p => (ls.mapM (parseLabel false)).bind fun ps =>
        some (blockEnd .v4 0 p.1 (ps.map Prod.fst), blockEnd .v4 255 p.2 (ps.map Prod.snd)) := by
  unfold reverseV4
  by_cases hlen : 3 < ls.length
  · rw [if_pos hlen, if_pos (by rw [List.length_cons]; omega)]
  rw [if_neg hlen, if_neg (by rw [List.length_cons]; omega), List.length_cons, List.range_eq_range',
    List.range'_succ, List.zip_cons_cons, List.mapM_cons]
  have hrange : (decide (0 = 0) && decide (ls.length + 1 = 4)) = decide (ls.length = 3) := by simp
  have hrest := mapM_labels (ls.length + 1 = 4) ls 1 (by decide)
  rw [Nat.zero_add, hrest]
  dsimp only
  rw [hrange]
  cases parseLabel (decide (ls.length = 3)) l with
  | none => rfl
  | some p =>
    cases hps : ls.mapM (parseLabel false) with
    | none => rfl
    | some ps =>
      have hlen' : ls.length = ps.length := (mapM_eq_some_iff.1 hps).length_eq
      have hk : 4 - (ls.length + 1) = places .v4 - (ps.length + 1) := by rw [hlen', places]
      show some _ = some _
      simp only [blockEnd, List.map_reverse, ofOctets_fill, hk, List.map_cons, List.length_map,
        base]
      rfl

theorem forall₂_parseLabel {ls : List Text} (h : ∀ l ∈ ls, ¬ Signed l) {ps : List (Nat × Nat)} :
    ls.Forall₂ (fun l p => parseLabel false l = some p) ps ↔
      ∃ hs, ls.Forall₂ (Names .v4) hs ∧ ps = hs.map fun d => (d, d) := by
  induction ls generalizing ps with
  | nil =>
    constructor
    · intro hps
      cases hps
      exact ⟨[], .nil, rfl⟩
    · intro hps
      obtain ⟨_, hs, rfl⟩ := hps
      cases hs
      exact .nil
  | cons l ls ih =>
    have hl := h l List.mem_cons_self
    have hls : ∀ m ∈ ls, ¬ Signed m := fun m hm => h m (List.mem_cons_of_mem _ hm)
    constructor
    · intro hps
      cases hps with
      | @cons _ p _ ps hp hps =>
        obtain ⟨hs, hrest, rfl⟩ := (ih hls).1 hps
        rcases (parseLabel_iff hl).1 hp with hn | hr
        · exact ⟨p.1 :: hs, .cons hn.1 hrest, congrArg (· :: _) (Prod.ext rfl hn.2)⟩
        · cases hr.1
    · intro hps
      obtain ⟨_, hs, rfl⟩ := hps
      cases hs with
      | cons hd hrest =>
        rw [List.map_cons]
        exact .cons ((parseLabel_iff hl).2 (.inl ⟨hd, rfl⟩)) ((ih hls).2 ⟨_, hrest, rfl⟩)

variable {lo hi : Addr}

theorem reverseV4_iff {labels : List Text} (h : ∀ l ∈ labels, ¬ Signed l) :
    reverseV4 labels = some (lo, hi) ↔ ∃ x y hs, Reads .v4 labels x y hs ∧
      lo = blockEnd .v4 0 x hs ∧ hi = blockEnd .v4 255 y hs := by
  cases labels with
  | nil =>
    constructor
    · intro hr
      cases hr
    · intro hr
      obtain ⟨_, _, _, ⟨_, _, heq, _⟩, _⟩ := hr
      cases heq
  | cons l ls =>
    have hl := h l List.mem_cons_self
    have hls : ∀ m ∈ ls, ¬ Signed m := fun m hm => h m (List.mem_cons_of_mem _ hm)
    have hmap : ∀ hs : List Nat, (hs.map fun d => (d, d)).map Prod.fst = hs ∧
        (hs.map fun d => (d, d)).map Prod.snd = hs := by
      intro hs
      constructor <;> rw [List.map_map] <;> exact List.map_id hs
    rw [reverseV4_cons]
    constructor
    · intro hr
      split at hr
      · cases hr
      rename_i hlen
      obtain ⟨p, hp, hr⟩ := Option.bind_eq_some_iff.1 hr
      obtain ⟨ps, hps, hr⟩ := Option.bind_eq_some_iff.1 hr
      obtain ⟨hs, hrest, rfl⟩ := (forall₂_parseLabel hls).1 (mapM_eq_some_iff.1 hps)
      rw [(hmap hs).1, (hmap hs).2] at hr
      cases hr
      refine ⟨p.1, p.2, hs, ⟨l, ls, rfl, ?_, ?_, hrest⟩, rfl, rfl⟩
      · show ls.length < 4
        omega
      · rcases (parseLabel_iff hl).1 hp with hn | hr
        · exact .inl hn
        · exact .inr ⟨rfl, of_decide_eq_true hr.1, hr.2⟩
    · intro hr
      obtain ⟨x, y, hs, ⟨_, _, heq, hlen, hfirst, hrest⟩, rfl, rfl⟩ := hr
      cases heq
      have hp : parseLabel (ls.length = 3) l = some (x, y) := by
        apply (parseLabel_iff hl).2
        rcases hfirst with hn | hr
        · exact .inl hn
        · exact .inr ⟨decide_eq_true hr.2.1, hr.2.2⟩
      have hps : ls.mapM (parseLabel false) = some (hs.map fun d => (d, d)) :=
        mapM_eq_some_iff.2 ((forall₂_parseLabel hls).2 ⟨hs, hrest, rfl⟩)
      have hle : ¬ 3 < ls.length := by
        have : ls.length < 4 := hlen
        omega
      rw [if_neg hle, hp, hps, Option.bind_some, Option.bind_some, (hmap hs).1, (hmap hs).2]

theorem isSome_reverseV4 {labels : List Text} : (reverseV4 labels).isSome = true ↔
    1 ≤ labels.length ∧ labels.length ≤ 4 ∧
      ∀ i l, labels[i]? = some l → OctetLabel (i = 0 ∧ labels.length = 4) l := by
  cases labels with
  | nil => simp [reverseV4]
  | cons l ls =>
    rw [reverseV4_cons, Option.isSome_iff_exists]
    constructor
    · intro h
      obtain ⟨r, hr⟩ := h
      split at hr
      · cases hr
      rename_i hlen
      obtain ⟨p, hp, hr⟩ := Option.bind_eq_some_iff.1 hr
      obtain ⟨ps, hps, hr⟩ := Option.bind_eq_some_iff.1 hr
      refine ⟨by simp, by rw [List.length_cons]; omega, ?_⟩
      intro i m hm
      cases i with
      | zero =>
        cases hm
        have hl := isSome_parseLabel.1 (Option.isSome_iff_exists.2 ⟨p, hp⟩)
        simpa [OctetLabel] using hl
      | succ i =>
        have hm' := exists_forall₂.1 ⟨ps, mapM_eq_some_iff.1 hps⟩ m (List.mem_of_getElem? hm)
        have hl := isSome_parseLabel.1 (Option.isSome_iff_exists.2 hm')
        simpa [OctetLabel] using hl
    · intro h
      obtain ⟨-, hlen, hall⟩ := h
      rw [List.length_cons] at hlen
      have hl : (parseLabel (ls.length = 3) l).isSome = true := by
        apply isSome_parseLabel.2
        simpa [OctetLabel] using hall 0 l rfl
      have hls : ∀ m ∈ ls, ∃ p, parseLabel false m = some p := by
        intro m hm
        obtain ⟨i, hi⟩ := List.mem_iff_getElem?.1 hm
        rw [← Option.isSome_iff_exists, isSome_parseLabel]
        simpa [OctetLabel] using hall (i + 1) m hi
      obtain ⟨p, hp⟩ := Option.isSome_iff_exists.1 hl
      obtain ⟨ps, hps⟩ := exists_forall₂.2 hls
      rw [if_neg (by omega), hp, mapM_eq_some_iff.2 hps]
      exact ⟨_, rfl⟩

theorem blockEnd_v6 (x : Nat) (hs : List Nat) {k : Nat} (hk : k = 32 - (hs.length + 1)) :
    (⟨.v6, BitVec.ofNat 128 ((x :: hs).reverse.foldl (fun n d => n * 16 + d) 0 * 2 ^ (4 * k))⟩ :
        Addr) = blockEnd .v6 0 x hs ∧
      (⟨.v6, BitVec.ofNat 128 ((x :: hs).reverse.foldl (fun n d => n * 16 + d) 0 * 2 ^ (4 * k) +
        (2 ^ (4 * k) - 1))⟩ : Addr) = blockEnd .v6 15 x hs := by
  have hpow : 2 ^ (4 * k) = 16 ^ k := by rw [Nat.pow_mul]
  have hfill : ofDigits 16 (List.replicate k 15) + 1 = 16 ^ k :=
    ofDigits_replicate_pred (by decide) k
  have hlow : places .v6 - (hs.length + 1) = k := hk.symm
  rw [foldl_eq_ofDigits, List.reverse_reverse, hpow]
  constructor
  · rw [blockEnd, hlow, Nat.ofDigits_append, Nat.ofDigits_replicate_zero, List.length_replicate,
      Nat.zero_add, Nat.mul_comm]
    rfl
  · rw [blockEnd, hlow, Nat.ofDigits_append, List.length_replicate, ← hfill, Nat.add_sub_cancel,
      Nat.mul_comm, Nat.add_comm, hfill]
    rfl

theorem reverseV6_iff {labels : List Text} :
    reverseV6 labels = some (lo, hi) ↔ ∃ x y hs, Reads .v6 labels x y hs ∧
      lo = blockEnd .v6 0 x hs ∧ hi = blockEnd .v6 15 y hs := by
  have hnames : (fun l d => parseNibble l = some d) = Names .v6 := by
    funext l d
    exact propext parseNibble_iff
  unfold reverseV6
  constructor
  · intro hr
    split at hr
    · cases hr
    rename_i hlen
    obtain ⟨ns, hns, hr⟩ := Option.bind_eq_some_iff.1 hr
    rw [mapM_eq_some_iff, hnames] at hns
    cases hns with
    | nil => exact absurd (by decide) hlen
    | @cons l x ls hs hx hrest =>
      have hends := blockEnd_v6 x hs (k := 32 - (ls.length + 1)) (by rw [hrest.length_eq])
      have hr' := Option.some.inj hr
      rw [Prod.mk.injEq, List.length_cons, hends.1, hends.2] at hr'
      refine ⟨x, x, hs, ⟨l, ls, rfl, ?_, .inl ⟨hx, rfl⟩, hrest⟩, hr'.1.symm, hr'.2.symm⟩
      rw [List.length_cons] at hlen
      show ls.length < 32
      omega
  · intro hr
    obtain ⟨x, y, hs, ⟨l, ls, rfl, hlen, hfirst, hrest⟩, rfl, rfl⟩ := hr
    rcases hfirst with hn | hr
    · obtain ⟨hx, hy⟩ := hn
      subst y
      have hends := blockEnd_v6 x hs (k := 32 - (ls.length + 1)) (by rw [hrest.length_eq])
      have hns : (l :: ls).mapM parseNibble = some (x :: hs) := by
        rw [mapM_eq_some_iff, hnames]
        exact .cons hx hrest
      have hle : ¬ ((l :: ls).length < 1 ∨ 32 < (l :: ls).length) := by
        have : ls.length < 32 := hlen
        rw [List.length_cons]
        omega
      rw [if_neg hle, hns]
      show some _ = some _
      rw [List.length_cons, hends.1, hends.2]
    · cases hr.1

/-! ## Names -/

def reverseLabels : Family → List Text → Option (Addr × Addr)
  | .v4 => reverseV4
  | .v6 => reverseV6

theorem reverseRange_eq (name : Text) :
    reverseRange name =
      let name := reverseName name
      if (zoneSuffix .v4).isSuffixOf name then
        reverseLabels .v4 ((trimSuffix name (zoneSuffix .v4)).splitOn '.')
      else if (zoneSuffix .v6).isSuffixOf name then
        reverseLabels .v6 ((trimSuffix name (zoneSuffix .v6)).splitOn '.')
      else none := rfl

theorem trimSuffix_append (s t : Text) : trimSuffix (s ++ t) t = s := by
  have hsuffix : t.isSuffixOf (s ++ t) = true :=
    List.isSuffixOf_iff_suffix.2 (List.suffix_append s t)
  rw [trimSuffix, if_pos hsuffix, List.length_append, Nat.add_sub_cancel, List.take_left']
  rfl

theorem zoneSuffix_unique {f g : Family} {s t : Text} (h : s ++ zoneSuffix f = t ++ zoneSuffix g) :
    f = g := by
  by_contra hne
  have hsuffix := List.suffix_or_suffix_of_suffix (List.suffix_append s (zoneSuffix f))
    (h ▸ List.suffix_append t (zoneSuffix g))
  have hnone : ∀ f g : Family, f ≠ g → ¬ (zoneSuffix f <:+ zoneSuffix g) := by
    intro f g hne
    cases f <;> cases g <;> first | exact absurd rfl hne | decide +kernel
  rcases hsuffix with hs | hs
  · exact hnone f g hne hs
  · exact hnone g f (Ne.symm hne) hs

variable {name : Text}

theorem Under.unique {f g : Family} {labels labels' : List Text}
    (h : Under name f labels) (h' : Under name g labels') : f = g ∧ labels = labels' := by
  have heq := h.name_eq.symm.trans h'.name_eq
  obtain rfl := zoneSuffix_unique heq
  rw [List.append_cancel_right_eq] at heq
  refine ⟨rfl, ?_⟩
  rw [← List.splitOn_intercalate '.' h.label h.ne_nil, heq,
    List.splitOn_intercalate '.' h'.label h'.ne_nil]

theorem under_splitOn {s : Text} {f : Family} (h : reverseName name = s ++ zoneSuffix f) :
    Under name f (s.splitOn '.') where
  name_eq := by rw [List.intercalate_splitOn, h]
  label := fun _ hl => not_mem_of_mem_splitOn hl
  ne_nil := List.splitOn_ne_nil _ _

theorem Under.reverseRange_eq {f : Family} {labels : List Text}
    (h : Under name f labels) : reverseRange name = reverseLabels f labels := by
  have hsplit := List.splitOn_intercalate '.' h.label h.ne_nil
  have hzone : ∀ g, (zoneSuffix g).isSuffixOf (reverseName name) = true → g = f := by
    intro g hg
    obtain ⟨t, ht⟩ := List.isSuffixOf_iff_suffix.1 hg
    exact zoneSuffix_unique (ht.trans h.name_eq)
  have hsuffix : (zoneSuffix f).isSuffixOf (reverseName name) = true := by
    rw [h.name_eq, List.isSuffixOf_iff_suffix]
    exact List.suffix_append _ _
  rw [Auth.reverseRange_eq]
  dsimp only
  cases f with
  | v4 => rw [if_pos hsuffix, h.name_eq, trimSuffix_append, hsplit]
  | v6 =>
    have h4 : ¬ (zoneSuffix .v4).isSuffixOf (reverseName name) = true := by
      intro h4
      cases hzone .v4 h4
    rw [if_neg h4, if_pos hsuffix, h.name_eq, trimSuffix_append, hsplit]

theorem exists_under (h : (reverseRange name).isSome = true) :
    ∃ f labels, Under name f labels := by
  have hof : ∀ f, (zoneSuffix f).isSuffixOf (reverseName name) = true →
      ∃ f labels, Under name f labels := by
    intro f hf
    obtain ⟨s, hs⟩ := List.isSuffixOf_iff_suffix.1 hf
    exact ⟨f, _, under_splitOn hs.symm⟩
  rw [reverseRange_eq] at h
  dsimp only at h
  split at h
  · rename_i h4
    exact hof .v4 h4
  · split at h
    · rename_i h6
      exact hof .v6 h6
    · cases h

theorem reverseLabels_iff {f : Family} {labels : List Text}
    (h : f = .v4 → ∀ l ∈ labels, ¬ Signed l) :
    reverseLabels f labels = some (lo, hi) ↔ ∃ x y hs, Reads f labels x y hs ∧
      lo = blockEnd f 0 x hs ∧ hi = blockEnd f (base f - 1) y hs := by
  cases f with
  | v4 => exact reverseV4_iff (h rfl)
  | v6 => exact reverseV6_iff

theorem IsZone.not_signed {labels : List Text} (h : IsZone .v4 labels) :
    ∀ l ∈ labels, ¬ Signed l := by
  intro l hl
  obtain ⟨i, hi⟩ := List.mem_iff_getElem?.1 hl
  apply not_signed_of_names
  rcases h.label i l hi with hn | hr
  · exact .inl hn
  · exact .inr hr.2.2.2

/-- The name is a reverse zone of IPv4 with a sign in front of a number. -/
def AcceptsSign (name : Text) : Prop := ∃ labels, Under name .v4 labels ∧ SignedZone labels

theorem AcceptsSign.not_exact (h : AcceptsSign name) : ¬ ReadExactly name := by
  intro hexact
  obtain ⟨labels, hunder, hsigned⟩ := h
  have hsome : (reverseRange name).isSome = true := by
    rw [hunder.reverseRange_eq]
    exact isSome_reverseV4.2 ⟨hsigned.pos, hsigned.fits, hsigned.label⟩
  obtain ⟨f, labels', hunder', hzone⟩ := hexact.accepts.1 hsome
  obtain ⟨rfl, rfl⟩ := hunder.unique hunder'
  obtain ⟨l, hl, hs⟩ := hsigned.signed
  exact hzone.not_signed l hl hs

/-- **Reverse zones are read exactly, signs apart**: a name is accepted if and only if it is a
reverse zone, and its range is the addresses that end in its labels, unless it is a zone of octets
one of which has a sign. -/
theorem readExactly_iff (name : Text) : ReadExactly name ↔ ¬ AcceptsSign name := by
  constructor
  · intro h hsign
    exact hsign.not_exact h
  · intro hsign
    have hunsigned : (reverseRange name).isSome = true → ∀ f labels, Under name f labels →
        f = .v4 → ∀ l ∈ labels, ¬ Signed l := by
      intro hsome f labels hunder hf l hl hs
      subst hf
      rw [hunder.reverseRange_eq] at hsome
      obtain ⟨hpos, hfits, hlabel⟩ := isSome_reverseV4.1 hsome
      exact hsign ⟨labels, hunder, hpos, hfits, hlabel, l, hl, hs⟩
    refine ⟨⟨?_, ?_⟩, ?_⟩
    · intro hsome
      obtain ⟨f, labels, hunder⟩ := exists_under hsome
      obtain ⟨⟨lo, hi⟩, hr⟩ := Option.isSome_iff_exists.1 hsome
      rw [hunder.reverseRange_eq] at hr
      obtain ⟨x, y, hs, hreads, -⟩ := (reverseLabels_iff (hunsigned hsome f labels hunder)).1 hr
      exact ⟨f, labels, hunder, isZone_iff.2 ⟨x, y, hs, hreads⟩⟩
    · intro hzone
      obtain ⟨f, labels, hunder, hzone⟩ := hzone
      obtain ⟨x, y, hs, hreads⟩ := isZone_iff.1 hzone
      have hlabels : f = .v4 → ∀ l ∈ labels, ¬ Signed l := by
        intro hf
        subst hf
        exact hzone.not_signed
      rw [hunder.reverseRange_eq, (reverseLabels_iff hlabels).2 ⟨x, y, hs, hreads, rfl, rfl⟩]
      rfl
    · intro lo hi hr f labels hunder a
      have hsome : (reverseRange name).isSome = true := by rw [hr]; rfl
      rw [hunder.reverseRange_eq, reverseLabels_iff (hunsigned hsome f labels hunder)] at hr
      obtain ⟨x, y, hs, hreads, rfl, rfl⟩ := hr
      rw [between_block hreads]
      constructor
      · intro h
        exact ⟨h.1, (hreads.endsIn_iff h.1).2 h.2⟩
      · intro h
        exact ⟨h.1, (hreads.endsIn_iff h.1).1 h.2⟩

/-- The last octet of 192.0.2.5 with a plus sign is a zone of one address. -/
theorem not_readExactly_plus : ¬ ReadExactly (lit "+5.2.0.192.in-addr.arpa") := by
  apply AcceptsSign.not_exact
  have hzone : (reverseV4 [lit "+5", lit "2", lit "0", lit "192"]).isSome = true := by
    decide +kernel
  obtain ⟨hpos, hfits, hlabel⟩ := isSome_reverseV4.1 hzone
  refine ⟨[lit "+5", lit "2", lit "0", lit "192"], ⟨?_, ?_, ?_⟩, hpos, hfits, hlabel, lit "+5", ?_⟩
  · decide +kernel
  · decide +kernel
  · simp
  · exact ⟨by simp, .inl (by decide +kernel)⟩

end Rpsl.Auth
