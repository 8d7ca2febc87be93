import Rpsl.Types.Proof.SetNameText

/-!
# Set names in any case

`ParseSetName` reads a name and its upper-case spelling as one name (`parse_upper`): the tests it
makes of a character are of letters as a whole, or of one that is no letter.
-/

namespace Rpsl

open Text

section

variable {f : Char → Bool} {b : Bool}

theorem toUpper_congr (h : ∀ c : Char, c.isAlpha = true → f c = b) (c : Char) :
    f c.toUpper = f c := by
  by_cases hc : c.isAlpha = true
  · rw [h c hc, h c.toUpper (by rw [Char.isAlpha_toUpper_eq_isAlpha, hc])]
  · rw [Char.toUpper_eq_of_not_isLower]
    intro hl
    exact hc (by simp [Char.isAlpha, hl])

theorem toUpper_congr_of_not_alpha (h : ∀ c : Char, f c = true → c.isAlpha = false) (c : Char) :
    f c.toUpper = f c := by
  apply toUpper_congr (b := false)
  intro d hd
  rw [Bool.eq_false_iff]
  intro hf
  rw [h d hf] at hd
  cases hd

end

theorem isBlank_toUpper (c : Char) : isBlank c.toUpper = isBlank c := by
  apply toUpper_congr_of_not_alpha
  intro d hd
  simp only [isBlank, Bool.or_eq_true, beq_iff_eq] at hd
  rcases hd with rfl | rfl <;> decide

theorem not_isAlpha_of_isDigit {c : Char} (h : c.isDigit = true) : c.isAlpha = false := by
  have hlt : c.toNat < 128 := SetName.toNat_lt_of_isAlnum (by rw [isAlnum, h, Bool.or_true])
  have all : ∀ n < 128, (Char.ofNat n).isDigit = true → (Char.ofNat n).isAlpha = false := by decide
  rw [← Char.ofNat_toNat c] at h ⊢
  exact all _ hlt h

theorem isDigit_toUpper (c : Char) : c.toUpper.isDigit = c.isDigit :=
  toUpper_congr_of_not_alpha (f := Char.isDigit) (fun _ => not_isAlpha_of_isDigit) c

theorem beq_toUpper {d : Char} (hd : d.isAlpha = false) (c : Char) :
    (c.toUpper == d) = (c == d) := by
  apply toUpper_congr_of_not_alpha (f := (· == d))
  intro e he
  rw [beq_iff_eq] at he
  rw [he, hd]

theorem toUpper_of_isDigit {c : Char} (h : c.isDigit = true) : c.toUpper = c := by
  apply Char.toUpper_eq_of_not_isLower
  intro hl
  have hc := not_isAlpha_of_isDigit h
  rw [Char.isAlpha, hl, Bool.or_true] at hc
  cases hc

namespace Text

theorem upper_dropWhile {p : Char → Bool} (h : ∀ c : Char, p c.toUpper = p c) (s : Text) :
    (upper s).dropWhile p = upper (s.dropWhile p) := by
  have hp : p ∘ Char.toUpper = p := funext h
  rw [upper, List.dropWhile_map, hp, upper]

theorem upper_takeWhile {p : Char → Bool} (h : ∀ c : Char, p c.toUpper = p c) (s : Text) :
    (upper s).takeWhile p = upper (s.takeWhile p) := by
  have hp : p ∘ Char.toUpper = p := funext h
  rw [upper, List.takeWhile_map, hp, upper]

theorem upper_reverse (s : Text) : (upper s).reverse = upper s.reverse := by
  rw [upper, upper, List.map_reverse]

theorem trimBlank_upper (s : Text) : trimBlank (upper s) = upper (trimBlank s) := by
  unfold trimBlank List.rdropWhile
  rw [upper_dropWhile isBlank_toUpper, upper_reverse, upper_dropWhile isBlank_toUpper,
    upper_reverse]

theorem parseUint_upper (s : Text) (bits : Nat) : parseUint (upper s) bits = parseUint s bits := by
  have hall : (upper s).all Char.isDigit = s.all Char.isDigit := by
    rw [upper, List.all_map]
    exact congrArg s.all (funext isDigit_toUpper)
  have hempty : (upper s).isEmpty = s.isEmpty := by cases s <;> rfl
  unfold parseUint
  rw [hall, hempty]
  split
  · rfl
  · rename_i hdigits
    have hs : upper s = s := by
      rw [Bool.not_eq_true, Bool.or_eq_false_iff] at hdigits
      have hdigit : ∀ c ∈ s, c.isDigit = true := by simpa using hdigits.2
      refine (List.map_congr_left ?_).trans (List.map_id s)
      intro c hc
      exact toUpper_of_isDigit (hdigit c hc)
    rw [hs]

end Text

theorem ASN.parse_upper (s : Text) : ASN.parse (upper s) = ASN.parse s := by
  have hdot : ∀ c : Char, (c.toUpper != '.') = (c != '.') := fun c => by
    rw [bne, bne, beq_toUpper (by decide)]
  have htake : ∀ (t : Text) n, (upper t).take n = upper (t.take n) := fun t n => by
    rw [upper, upper, List.map_take]
  have hdrop : ∀ (t : Text) n, (upper t).drop n = upper (t.drop n) := fun t n => by
    rw [upper, upper, List.map_drop]
  have hlen : ∀ t : Text, (upper t).length = t.length := fun t => by rw [upper, List.length_map]
  have hcontains : ∀ t : Text, (upper t).contains '.' = t.contains '.' := fun t => by
    induction t with
    | nil => rfl
    | cons c t ih =>
      rw [upper, List.map_cons, List.contains_cons, List.contains_cons, BEq.comm,
        beq_toUpper (by decide), BEq.comm]
      exact congrArg _ ih
  unfold ASN.parse
  dsimp only
  rw [trimBlank_upper, hlen, htake, hdrop, SetName.lower_upper, hcontains,
    upper_takeWhile hdot, upper_dropWhile hdot, hdrop, parseUint_upper, parseUint_upper,
    parseUint_upper]

namespace SetName

theorem isAlnum_toUpper_eq (c : Char) : isAlnum c.toUpper = isAlnum c := by
  apply toUpper_congr (b := true)
  intro d hd
  rw [isAlnum, hd, Bool.true_or]

theorem all_upper {p : Char → Bool} (h : ∀ c : Char, p c.toUpper = p c) (s : Text) :
    (upper s).all p = s.all p := by
  rw [upper, List.all_map]
  exact congrArg s.all (funext h)

theorem validSetComponent_upper_eq (p : Text) :
    validSetComponent (upper p) = validSetComponent p := by
  have hlast : (upper p).getLast?.any isAlnum = p.getLast?.any isAlnum := by
    rw [upper, List.getLast?_map, Option.any_map]
    exact congrArg p.getLast?.any (funext isAlnum_toUpper_eq)
  unfold validSetComponent
  rw [hlast, all_upper]
  intro c
  rw [isAlnum_toUpper_eq, beq_toUpper (by decide), beq_toUpper (by decide)]

theorem validASNComponent_upper (p : Text) :
    validASNComponent (upper p) = validASNComponent p := by
  unfold validASNComponent
  rw [all_upper]
  intro c
  rw [isAlnum_toUpper_eq, beq_toUpper (by decide)]

theorem parseComponent_upper (p : Text) : parseComponent (upper p) = parseComponent p := by
  have hempty : (upper p).isEmpty = p.isEmpty := by cases p <;> rfl
  unfold parseComponent
  rw [hempty, componentClass_upper, validSetComponent_upper_eq, validASNComponent_upper,
    ASN.parse_upper, upper_upper]

theorem parseComponents_upper (ps : List Text) (k : SetClass) :
    parseComponents (ps.map upper) k = parseComponents ps k := by
  induction ps generalizing k with
  | nil => rfl
  | cons p ps ih =>
    rw [List.map_cons, parseComponents, parseComponents, parseComponent_upper]
    simp only [ih]

theorem splitOn_upper (s : Text) : (upper s).splitOn ':' = (s.splitOn ':').map upper := by
  have hmap : ∀ ps : List Text,
      upper ([':'].intercalate ps) = [':'].intercalate (ps.map upper) := by
    intro ps
    induction ps with
    | nil => rfl
    | cons p ps ih =>
      cases ps with
      | nil => simp
      | cons q ps =>
        rw [List.intercalate_cons_cons, List.map_cons, List.map_cons, List.intercalate_cons_cons,
          ← List.map_cons, ← ih]
        simp [upper]
  conv_lhs => rw [← s.intercalate_splitOn ':', hmap]
  apply List.splitOn_intercalate
  · intro t ht
    obtain ⟨p, hp, rfl⟩ := List.mem_map.1 ht
    intro hc
    obtain ⟨c, hc, hup⟩ := List.mem_map.1 hc
    have hcolon : (c.toUpper == ':') = true := beq_iff_eq.2 hup
    rw [beq_toUpper (by decide), beq_iff_eq] at hcolon
    exact Lib.not_mem_of_mem_splitOn hp (hcolon ▸ hc)
  · rw [ne_eq, List.map_eq_nil_iff]
    exact List.splitOn_ne_nil _ _

/-- **A name is read in any case.** -/
theorem parse_upper (s : Text) : parse (upper s) = parse s := by
  have hiff : ∀ n, parse (upper s) = some n ↔ parse s = some n := by
    intro n
    rw [parse_eq_some, parse_eq_some, trimBlank_upper, splitOn_upper, parseComponents_upper]
    simp [upper]
  cases h : parse s with
  | some n => exact (hiff n).2 h
  | none =>
    cases h' : parse (upper s) with
    | none => rfl
    | some n => cases h.symm.trans ((hiff n).1 h')

end SetName

end Rpsl
