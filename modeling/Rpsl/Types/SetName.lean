import Rpsl.Lib.PrefixFree
import Rpsl.Types.PrefixRange

/-!
# AS numbers and set names

`types/asn.go`, `types/setname.go` and `types/setref.go`. A set name is held in canonical form
only: set components upper-cased, AS components in plain decimal, so that every spelling of a name
is one value.
-/

namespace Rpsl

/-- A Go string: its bytes, each written as the character of that code. -/
abbrev Text := List Char

namespace Text

/-- A string literal's bytes; the literals of the source are ASCII. -/
abbrev lit (s : String) : Text := s.toList

def isBlank (c : Char) : Bool := c == ' ' || c == '\t'

/-- `strings.Trim(s, " \t")`. -/
def trimBlank (s : Text) : Text := (s.dropWhile isBlank).rdropWhile isBlank

def lower (s : Text) : Text := s.map Char.toLower
def upper (s : Text) : Text := s.map Char.toUpper

/-- `strconv.Itoa`, `strconv.FormatUint` of a number that is not negative. -/
def ofNat (n : Nat) : Text := Nat.toDigits 10 n

/-- `strconv.ParseUint(s, 10, bits)`. -/
def parseUint (s : Text) (bits : Nat) : Option Nat :=
  if s.isEmpty || !s.all Char.isDigit then none
  else
    let n := s.foldl (fun n c => 10 * n + (c.toNat - '0'.toNat)) 0
    if n < 2 ^ bits then some n else none

end Text

open Text

abbrev ASN := UInt32

namespace ASN

/-- `ASN.String`. -/
def text (a : ASN) : Text := lit "AS" ++ Text.ofNat a.toNat

/-- `ParseASN`: "AS65001" or dotted "AS1.10", in any case. -/
def parse (s : Text) : Option ASN :=
  let t := trimBlank s
  if t.length < 3 || lower (t.take 2) != lit "as" then none
  else
    let num := t.drop 2
    if num.contains '.' then do
      let hi ← parseUint (num.takeWhile (· != '.')) 16
      let lo ← parseUint ((num.dropWhile (· != '.')).drop 1) 16
      some (UInt32.ofNat (hi * 2 ^ 16 + lo))
    else (parseUint num 32).map UInt32.ofNat

end ASN

inductive SetClass
  | unknown
  | asSet
  | routeSet
  | rtrSet
  | filterSet
  | peeringSet
deriving DecidableEq, Repr

namespace SetClass

/-- `SetClass.String`. -/
def text : SetClass → Text
  | asSet => lit "as-set"
  | routeSet => lit "route-set"
  | rtrSet => lit "rtr-set"
  | filterSet => lit "filter-set"
  | peeringSet => lit "peering-set"
  | unknown => lit "unknown"

end SetClass

def isAlnum (c : Char) : Bool := c.isAlpha || c.isDigit

/-- What a canonical set name is written with. -/
def isNameChar (c : Char) : Bool := c.isUpper || c.isDigit || c == '_' || c == '-' || c == ':'

namespace SetName

/-- `componentClass`: the set class a component's first letters imply. -/
def componentClass (c : Text) : Option SetClass :=
  let lc := lower c
  if (lit "as-").isPrefixOf lc then some .asSet
  else if (lit "rs-").isPrefixOf lc then some .routeSet
  else if (lit "rtrs-").isPrefixOf lc then some .rtrSet
  else if (lit "fltr-").isPrefixOf lc then some .filterSet
  else if (lit "prng-").isPrefixOf lc then some .peeringSet
  else none

/-- The class shared by the set components of a name. -/
def classOf (canon : Text) : SetClass :=
  ((canon.splitOn ':').findSome? componentClass).getD .unknown

end SetName

/-- `types.SetName`: no name carries white space, commas, '^' or control bytes, and a name's
components give its class. The zero value has an empty `canon` and no class. -/
structure SetName where
  canon : Text
  cls : SetClass
  chars : ∀ c ∈ canon, isNameChar c
  named : cls = SetName.classOf canon
deriving DecidableEq

namespace SetName

theorem ext_canon {n m : SetName} (h : n.canon = m.canon) : n = m := by
  obtain ⟨c, k, _, hk⟩ := n
  obtain ⟨c', k', _, hk'⟩ := m
  cases h
  cases hk.trans hk'.symm
  rfl

def zero : SetName := ⟨[], .unknown, by simp, by decide +kernel⟩

def text (n : SetName) : Text := n.canon
def isZero (n : SetName) : Bool := n.canon.isEmpty

/-- `SetName.IsAny`: the names that denote the whole IRR rather than a set. -/
def isAny (n : SetName) : Bool :=
  [lit "AS-ANY", lit "RS-ANY", lit "RTRS-ANY", lit "PRNG-ANY", lit "FLTR-ANY"].contains n.canon

/-- `validSetComponent`: letters, digits, '_' and '-', ending in a letter or digit. -/
def validSetComponent (c : Text) : Bool :=
  c.all (fun b => isAlnum b || b == '_' || b == '-') && c.getLast?.any isAlnum

def validASNComponent (c : Text) : Bool := c.all fun b => isAlnum b || b == '.'

/-- One turn of `ParseSetName`'s loop: the canonical form of component `p`, and its class when it
is a set component. -/
def parseComponent (p : Text) : Option (Text × SetClass) :=
  if p.isEmpty then none
  else
    match componentClass p with
    | some k => if validSetComponent p then some (upper p, k) else none
    | none =>
      (ASN.parse p).bind fun a => if validASNComponent p then some (a.text, .unknown) else none

/-- `ParseSetName`'s loop over the components; `k` is the class of those before. -/
def parseComponents : List Text → SetClass → Option (List Text × SetClass)
  | [], k => some ([], k)
  | p :: ps, k =>
    (parseComponent p).bind fun (t, c) =>
      if c ≠ .unknown ∧ k ≠ .unknown ∧ c ≠ k then none
      else
        (parseComponents ps (if c = .unknown then k else c)).map fun (ts, k') => (t :: ts, k')

/-- `MaxSetNameLen`. -/
def maxLen : Nat := 1024

theorem toNat_lt_of_isAlnum {c : Char} (h : isAlnum c) : c.toNat < 128 := by
  simp only [isAlnum, Char.isAlpha, Char.isUpper, Char.isLower, Char.isDigit, Bool.or_eq_true,
    Bool.and_eq_true, decide_eq_true_eq, ge_iff_le, UInt32.le_iff_toNat_le] at h
  change c.val.toNat < 128
  have e : 'Z'.val.toNat = 90 ∧ 'z'.val.toNat = 122 ∧ '9'.val.toNat = 57 := ⟨rfl, rfl, rfl⟩
  omega

theorem isDigit_of_mem_ofNat {n : Nat} {c : Char} (h : c ∈ Text.ofNat n) : c.isDigit :=
  Nat.isDigit_of_mem_toDigits (by decide) (by decide) h

/-- What a component is written with. -/
def isPartChar (c : Char) : Bool := isNameChar c && c != ':'

theorem isPartChar_digit {c : Char} (h : c.isDigit) : isPartChar c := by
  have hne : c ≠ ':' := fun e => absurd h (by rw [e]; decide)
  simp [isPartChar, isNameChar, h, hne]

theorem isPartChar_asn {a : ASN} {c : Char} (h : c ∈ a.text) : isPartChar c := by
  rw [ASN.text, List.mem_append] at h
  rcases h with h | h
  · fin_cases h <;> decide
  · exact isPartChar_digit (isDigit_of_mem_ofNat h)

theorem isPartChar_toUpper {c : Char} (h : isAlnum c || c == '_' || c == '-') :
    isPartChar c.toUpper := by
  have hlt : c.toNat < 128 := by
    simp only [Bool.or_eq_true, beq_iff_eq] at h
    obtain (h | rfl) | rfl := h
    · exact toNat_lt_of_isAlnum h
    · decide
    · decide
  have all : ∀ n < 128, (isAlnum (Char.ofNat n) || Char.ofNat n == '_' || Char.ofNat n == '-') →
      isPartChar (Char.ofNat n).toUpper := by decide
  rw [← Char.ofNat_toNat c] at h ⊢
  exact all _ hlt h

variable {p t : Text} {k : SetClass}

theorem parseComponent_chars (h : parseComponent p = some (t, k)) :
    ∀ c ∈ t, isPartChar c := by
  intro c hc
  unfold parseComponent at h
  split at h
  · cases h
  split at h
  · split at h
    case isFalse => cases h
    case isTrue hv =>
    cases h
    obtain ⟨b, hb, rfl⟩ := List.mem_map.1 hc
    exact isPartChar_toUpper (List.all_eq_true.1 (Bool.and_eq_true_iff.1 hv).1 b hb)
  · obtain ⟨a, -, h⟩ := Option.bind_eq_some_iff.1 h
    split at h
    · cases h
      exact isPartChar_asn hc
    · cases h

variable {ps ts : List Text} {k' : SetClass}

theorem parseComponents_chars
    (h : parseComponents ps k = some (ts, k')) : ∀ t ∈ ts, ∀ c ∈ t, isPartChar c := by
  induction ps generalizing ts k with
  | nil => cases h; simp
  | cons p ps ih =>
    obtain ⟨⟨t, cl⟩, hp, h⟩ := Option.bind_eq_some_iff.1 h
    simp only at h
    split_ifs at h
    · obtain ⟨⟨us, k''⟩, hps, e⟩ := Option.map_eq_some_iff.1 h
      cases e
      exact List.forall_mem_cons.2 ⟨parseComponent_chars hp, ih hps⟩
    · obtain ⟨⟨us, k''⟩, hps, e⟩ := Option.map_eq_some_iff.1 h
      cases e
      exact List.forall_mem_cons.2 ⟨parseComponent_chars hp, ih hps⟩

theorem intercalate_chars (h : ∀ t ∈ ts, ∀ c ∈ t, isPartChar c) :
    ∀ c ∈ [':'].intercalate ts, isNameChar c := by
  intro c hc
  rcases Lib.mem_intercalate hc with hc | ⟨t, ht, hc⟩
  · cases List.mem_singleton.1 hc
    decide
  · exact (Bool.and_eq_true_iff.1 (h t ht c hc)).1

theorem lower_upper (s : Text) : lower (upper s) = lower s := by
  have all : ∀ n < 128, (Char.ofNat n).toUpper.toLower = (Char.ofNat n).toLower := by decide
  have h : ∀ c : Char, c.toUpper.toLower = c.toLower := by
    intro c
    by_cases hc : c.toNat < 128
    · rw [← Char.ofNat_toNat c]
      exact all _ hc
    · have hup : c.toUpper = c := by
        unfold Char.toUpper
        rw [dif_neg]
        intro ⟨_, h⟩
        have : c.val.toNat ≤ 122 := h
        exact hc (lt_of_le_of_lt this (by decide))
      rw [hup]
  simp [lower, upper, h]

theorem componentClass_upper (c : Text) : componentClass (upper c) = componentClass c := by
  unfold componentClass
  rw [lower_upper]

theorem componentClass_asn (a : ASN) : componentClass a.text = none := by
  have htext : lower a.text = 'a' :: 's' :: lower (Text.ofNat a.toNat) := rfl
  have hdash : ∀ c ∈ Text.ofNat a.toNat, c.toLower ≠ '-' := by
    intro c hc
    have hd := isDigit_of_mem_ofNat hc
    have hlt : c.toNat < 128 := toNat_lt_of_isAlnum (by simp [isAlnum, hd])
    have all : ∀ n < 128, (Char.ofNat n).isDigit → (Char.ofNat n).toLower ≠ '-' := by decide
    rw [← Char.ofNat_toNat c] at hd ⊢
    exact all _ hlt hd
  have hlit : lit "as-" = ['a', 's', '-'] ∧ lit "rs-" = ['r', 's', '-'] ∧
      lit "rtrs-" = ['r', 't', 'r', 's', '-'] ∧ lit "fltr-" = ['f', 'l', 't', 'r', '-'] ∧
      lit "prng-" = ['p', 'r', 'n', 'g', '-'] := ⟨rfl, rfl, rfl, rfl, rfl⟩
  unfold componentClass
  simp only [htext, hlit]
  cases h : Text.ofNat a.toNat with
  | nil => simp [lower]
  | cons c cs => simp [lower, (hdash c (by simp [h])).symm]

theorem componentClass_ne_unknown {c : Text} (h : componentClass c = some k) :
    k ≠ .unknown := by
  unfold componentClass at h
  grind

theorem parseComponent_class (h : parseComponent p = some (t, k)) :
    componentClass t = if k = .unknown then none else some k := by
  unfold parseComponent at h
  split at h
  · cases h
  split at h
  · rename_i k' hk
    split at h
    · cases h
      rw [componentClass_upper, hk, if_neg (componentClass_ne_unknown hk)]
    · cases h
  · obtain ⟨a, -, h⟩ := Option.bind_eq_some_iff.1 h
    split at h
    · cases h
      exact componentClass_asn a
    · cases h

theorem parseComponents_class
    (h : parseComponents ps k = some (ts, k')) :
    k' = if k = .unknown then (ts.findSome? componentClass).getD .unknown else k := by
  induction ps generalizing ts k with
  | nil =>
    cases h
    split <;> simp_all
  | cons p ps ih =>
    obtain ⟨⟨t, c⟩, hp, h⟩ := Option.bind_eq_some_iff.1 h
    have hc := parseComponent_class hp
    simp only at h
    split at h
    · cases h
    · rename_i hclash
      obtain ⟨⟨us, k''⟩, hps, e⟩ := Option.map_eq_some_iff.1 h
      cases e
      rw [ih hps, List.findSome?_cons]
      grind

theorem colon_not_mem (h : ∀ c ∈ t, isPartChar c) : ':' ∉ t := fun hc =>
  absurd (h _ hc) (by decide)

theorem parse_named
    (h : parseComponents ps .unknown = some (ts, k)) : k = classOf ([':'].intercalate ts) := by
  rw [parseComponents_class h, if_pos rfl, classOf]
  cases ts with
  | nil => decide +kernel
  | cons t ts => 
    rw [List.splitOn_intercalate ':'
      (fun t ht => colon_not_mem (parseComponents_chars h t ht)) (by simp)]

/-- `ParseSetName`. -/
def parse (s : Text) : Option SetName :=
  let t := trimBlank s
  if t.isEmpty || decide (maxLen < t.length) then none
  else
    match h : parseComponents (t.splitOn ':') .unknown with
    | none => none
    | some (ts, k) =>
      if k = .unknown then none
      else some ⟨[':'].intercalate ts, k, intercalate_chars (parseComponents_chars h),
        parse_named h⟩

/-- What a name is spelled with, in any spelling. -/
def isSpelling (c : Char) : Bool :=
  isAlnum c || c == '_' || c == '-' || c == '.' || c == ':' || isBlank c

theorem parseComponent_spelling (h : parseComponent p = some (t, k)) :
    ∀ c ∈ p, isSpelling c := by
  intro c hc
  unfold parseComponent at h
  split at h
  · cases h
  split at h
  · split at h
    · rename_i hv
      have := List.all_eq_true.1 (Bool.and_eq_true_iff.1 hv).1 c hc
      simp only [Bool.or_eq_true] at this
      simp only [isSpelling, Bool.or_eq_true]
      tauto
    · cases h
  · obtain ⟨a, -, h⟩ := Option.bind_eq_some_iff.1 h
    split at h
    · rename_i hv
      have := List.all_eq_true.1 hv c hc
      simp only [Bool.or_eq_true] at this
      simp only [isSpelling, Bool.or_eq_true]
      tauto
    · cases h

theorem parseComponents_spelling
    (h : parseComponents ps k = some (ts, k')) : ∀ p ∈ ps, ∀ c ∈ p, isSpelling c := by
  induction ps generalizing ts k k' with
  | nil => simp
  | cons p ps ih =>
    obtain ⟨⟨t, cl⟩, hp, h⟩ := Option.bind_eq_some_iff.1 h
    simp only at h
    split at h
    · cases h
    · obtain ⟨⟨us, k''⟩, hps, -⟩ := Option.map_eq_some_iff.1 h
      exact List.forall_mem_cons.2 ⟨parseComponent_spelling hp, ih hps⟩

theorem mem_trimBlank {s : Text} {c : Char} (h : c ∈ s) (hb : isBlank c = false) :
    c ∈ trimBlank s := by
  have hdrop : ∀ {l : Text}, c ∈ l → c ∈ l.dropWhile isBlank := by
    intro l hl
    rw [← List.takeWhile_append_dropWhile (p := isBlank) (l := l)] at hl
    rcases List.mem_append.1 hl with hl | hl
    · rw [List.mem_takeWhile_imp hl] at hb
      cases hb
    · exact hl
  unfold trimBlank List.rdropWhile
  exact List.mem_reverse.2 (hdrop (List.mem_reverse.2 (hdrop h)))

theorem parse_spelling {s : Text} {n : SetName} (h : parse s = some n) :
    ∀ c ∈ s, isSpelling c := by
  intro c hc
  cases hb : isBlank c with
  | true => simp [isSpelling, hb]
  | false =>
    have hmem := mem_trimBlank hc hb
    unfold parse at h
    dsimp only at h
    split at h
    · cases h
    split at h
    · cases h
    · rename_i ts k hps
      rw [← (trimBlank s).intercalate_splitOn ':'] at hmem
      rcases Lib.mem_intercalate hmem with hmem | ⟨p, hp, hmem⟩
      · rw [List.mem_singleton.1 hmem]
        decide
      · exact parseComponents_spelling hps p hp c hmem

end SetName

end Rpsl
