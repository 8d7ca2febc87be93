import Rpsl.Lib.Ere
import Rpsl.Lib.Token

/-!
# Patterns for whole paths

Two dialects of patterns over paths of numbers, both of which match a path as a whole.

`PathRegexp`: regexps whose items are numbers, ranges "a-b" and "." for any number, with blanks
between them, the usual quantifiers and groups. A quantifier binds to one item, and does not
follow another one. `PathRegexp.Reads` is the grammar: what is read of a text built from parts
(`Reads.parse`).

`PathMask`: masks "[= ... =]" of numbers, "?" for any number, "*" for any run of numbers, and sets
"[a, b..c]".
-/

namespace Lib

open scoped Computability

/-! ## Words between places -/

/-- From a place to another over a word of the language. -/
def Spells {α : Type*} (L : Language α) (x y : Place α) : Prop :=
  ∃ w ∈ L, x.2 = w ++ y.2 ∧ y.1 = x.1 ++ w

section

variable {α : Type*} {L M : Language α} {x y : Place α}

theorem spells_one : Spells (1 : Language α) x y ↔ x = y := by
  constructor
  · intro hyp
    obtain ⟨w, hw, h₂, h₁⟩ := hyp
    rw [Language.mem_one] at hw
    subst hw
    exact Prod.ext (h₁.trans (List.append_nil _)).symm h₂
  · intro h
    subst h
    exact ⟨[], Language.nil_mem_one, rfl, (List.append_nil _).symm⟩

theorem spells_add : Spells (L + M) x y ↔ Spells L x y ∨ Spells M x y := by
  constructor
  · intro hyp
    obtain ⟨w, hw, h⟩ := hyp
    exact ((Language.mem_add L M w).1 hw).imp (fun hw => ⟨w, hw, h⟩) fun hw => ⟨w, hw, h⟩
  · intro h
    rcases h with ⟨w, hw, h⟩ | ⟨w, hw, h⟩
    · exact ⟨w, (Language.mem_add L M w).2 (.inl hw), h⟩
    · exact ⟨w, (Language.mem_add L M w).2 (.inr hw), h⟩

theorem spells_mul : Spells (L * M) x y ↔ ∃ z, Spells L x z ∧ Spells M z y := by
  constructor
  · intro hyp
    obtain ⟨w, hw, h₂, h₁⟩ := hyp
    obtain ⟨u, hu, v, hv, rfl⟩ := Language.mem_mul.1 hw
    refine ⟨(x.1 ++ u, v ++ y.2), ⟨u, hu, ?_, rfl⟩, v, hv, rfl, ?_⟩
    · rw [h₂, List.append_assoc]
    · rw [h₁, List.append_assoc]
  · intro hyp
    obtain ⟨z, ⟨u, hu, hz₂, hz₁⟩, v, hv, hy₂, hy₁⟩ := hyp
    refine ⟨u ++ v, Language.append_mem_mul hu hv, ?_, ?_⟩
    · rw [hz₂, hy₂, List.append_assoc]
    · rw [hy₁, hz₁, List.append_assoc]

theorem spells_pow {n : Nat} : Spells (L ^ n) x y ↔ Iter (Spells L) n x y := by
  induction n generalizing x with
  | zero => exact spells_one
  | succ n ih =>
    rw [pow_succ', spells_mul]
    exact exists_congr fun z => and_congr_right fun _ => ih

/-- The words of one letter that `p` allows. -/
def letters (p : α → Prop) : Language α := {w | ∃ a, p a ∧ w = [a]}

theorem spells_letters {p : α → Prop} : Spells (letters p) x y ↔ ∃ a, p a ∧ Place.Step a x y := by
  constructor
  · intro hyp
    obtain ⟨w, ⟨a, ha, hw⟩, h₂, h₁⟩ := hyp
    subst hw
    exact ⟨a, ha, h₂, h₁⟩
  · intro hyp
    obtain ⟨a, ha, h₂, h₁⟩ := hyp
    exact ⟨[a], ⟨a, ha, rfl⟩, h₂, h₁⟩

end

/-! ## Regexps -/

inductive PathRegexp
  | num (n : Nat)
  | range (lo hi : Nat)
  | any
  | eps
  | cat (r s : PathRegexp)
  | alt (r s : PathRegexp)
  | group (r : PathRegexp)
  | rep (r : PathRegexp) (min : Nat) (max : Option Nat)
deriving DecidableEq, Repr

namespace PathRegexp

section

variable {α : Type*} (val : α → Nat)

/-- The paths that a regexp matches. -/
def lang : PathRegexp → Language α
  | num n => letters fun a => val a = n
  | range lo hi => letters fun a => lo ≤ val a ∧ val a ≤ hi
  | any => letters fun _ => True
  | eps => 1
  | cat r s => r.lang * s.lang
  | alt r s => r.lang + s.lang
  | group r => r.lang
  | rep r min max => {w | ∃ n, min ≤ n ∧ (∀ m ∈ max, n ≤ m) ∧ w ∈ r.lang ^ n}

end

/-- One after the other. -/
def seqOf (rs : List PathRegexp) : PathRegexp := rs.foldr cat eps

/-- One or the other. -/
def altOf : List (List PathRegexp) → PathRegexp
  | [] => eps
  | [rs] => seqOf rs
  | rs :: rss => alt (seqOf rs) (altOf rss)

def isRep : PathRegexp → Bool
  | rep _ _ _ => true
  | _ => false

/-- An open group: its alternatives so far, and the items of the one in progress. -/
structure Frame where
  alts : List (List PathRegexp) := []
  items : List PathRegexp := []

namespace Frame

def push (f : Frame) (rs : List PathRegexp) : Frame := { f with items := f.items ++ rs }

def nextAlt (f : Frame) : Frame := ⟨f.alts ++ [f.items], []⟩

def close (f : Frame) : PathRegexp := altOf (f.alts ++ [f.items])

/-- Another item in place of the last one. -/
def replaceLast (f : Frame) (op : PathRegexp → Option PathRegexp) : Option Frame :=
  f.items.getLast?.bind fun r => (op r).map fun r' => { f with items := f.items.dropLast ++ [r'] }

end Frame

/-- A quantifier after an item. -/
def quantify (min : Nat) (max : Option Nat) (r : PathRegexp) : Option PathRegexp :=
  if r.isRep || max.any (· < min) then none else some (rep r min max)

/-- "-" and a number after an item. -/
def upTo (hi : Nat) : PathRegexp → Option PathRegexp
  | num lo => some (range lo hi)
  | _ => none

open Token

/-- Reads a regexp, with the group in progress and those around it. -/
def parseFrom : Frame → List Frame → List Token → Option PathRegexp
  | f, [], [] => some f.close
  | _, _ :: _, [] => none
  | f, st, .num n :: ts => parseFrom (f.push [num n]) st ts
  | f, st, .sign '.' :: ts => parseFrom (f.push [any]) st ts
  | f, st, .sign '-' :: .num hi :: ts => (f.replaceLast (upTo hi)).bind fun f => parseFrom f st ts
  | f, st, .sign '(' :: ts => parseFrom {} (f :: st) ts
  | f, st, .sign '|' :: ts => parseFrom f.nextAlt st ts
  | f, g :: st, .sign ')' :: ts => parseFrom (g.push [group f.close]) st ts
  | f, st, .sign '*' :: ts => (f.replaceLast (quantify 0 none)).bind fun f => parseFrom f st ts
  | f, st, .sign '+' :: ts => (f.replaceLast (quantify 1 none)).bind fun f => parseFrom f st ts
  | f, st, .sign '?' :: ts =>
    (f.replaceLast (quantify 0 (some 1))).bind fun f => parseFrom f st ts
  | f, st, .sign '{' :: .num m :: .sign '}' :: ts =>
    (f.replaceLast (quantify m (some m))).bind fun f => parseFrom f st ts
  | f, st, .sign '{' :: .num m :: .sign ',' :: .sign '}' :: ts =>
    (f.replaceLast (quantify m none)).bind fun f => parseFrom f st ts
  | f, st, .sign '{' :: .num m :: .sign ',' :: .num n :: .sign '}' :: ts =>
    (f.replaceLast (quantify m (some n))).bind fun f => parseFrom f st ts
  | _, _, _ => none

def parse (s : List Char) : Option PathRegexp := parseFrom {} [] (words s)

/-! ### The grammar -/

/-- A quantifier's words and its bounds. -/
inductive Quantifier : List Token → Nat → Option Nat → Prop
  | star : Quantifier [.sign '*'] 0 none
  | plus : Quantifier [.sign '+'] 1 none
  | quest : Quantifier [.sign '?'] 0 (some 1)
  | exactly (m : Nat) : Quantifier [.sign '{', .num m, .sign '}'] m (some m)
  | atLeast (m : Nat) : Quantifier [.sign '{', .num m, .sign ',', .sign '}'] m none
  | between {m n : Nat} : m ≤ n →
      Quantifier [.sign '{', .num m, .sign ',', .num n, .sign '}'] m (some n)

/-- Words and the items they are read as. -/
inductive Reads : List Token → List PathRegexp → Prop
  | nil : Reads [] []
  | append {ts us : List Token} {rs qs : List PathRegexp} :
      Reads ts rs → Reads us qs → Reads (ts ++ us) (rs ++ qs)
  | num (n : Nat) : Reads [.num n] [num n]
  | range (lo hi : Nat) : Reads [.num lo, .sign '-', .num hi] [range lo hi]
  | any : Reads [.sign '.'] [any]
  | group {alts : List (List Token × List PathRegexp)} : alts ≠ [] →
      (∀ a ∈ alts, Reads a.1 a.2) →
      Reads (.sign '(' :: [.sign '|'].intercalate (alts.map Prod.fst) ++ [.sign ')'])
        [group (altOf (alts.map Prod.snd))]
  | rep {ts q : List Token} {r : PathRegexp} {min : Nat} {max : Option Nat} :
      Reads ts [r] → r.isRep = false → Quantifier q min max → Reads (ts ++ q) [rep r min max]

@[simp] theorem Frame.push_nil (f : Frame) : f.push [] = f := by
  simp [Frame.push]

@[simp] theorem Frame.push_push (f : Frame) (rs qs : List PathRegexp) :
    (f.push rs).push qs = f.push (rs ++ qs) := by
  simp [Frame.push]

theorem Frame.replaceLast_push (f : Frame) (r : PathRegexp)
    (op : PathRegexp → Option PathRegexp) :
    (f.push [r]).replaceLast op = (op r).map fun r' => f.push [r'] := by
  simp [Frame.push, Frame.replaceLast]

theorem parseFrom_quantifier {q : List Token} {min : Nat} {max : Option Nat}
    (hq : Quantifier q min max) {r : PathRegexp} (hr : r.isRep = false) (f : Frame)
    (st : List Frame) (rest : List Token) :
    parseFrom (f.push [r]) st (q ++ rest) = parseFrom (f.push [rep r min max]) st rest := by
  cases hq with
  | between h => simp [parseFrom, Frame.replaceLast_push, quantify, hr, Nat.not_lt.2 h]
  | _ => simp [parseFrom, Frame.replaceLast_push, quantify, hr]

theorem altOf_cons (rs : List PathRegexp) {rss : List (List PathRegexp)} (h : rss ≠ []) :
    altOf (rs :: rss) = .alt (seqOf rs) (altOf rss) := by
  cases rss with
  | nil => exact absurd rfl h
  | cons qs rss => rfl

/-- **Words of the grammar are read as their items.** -/
theorem Reads.parse {ts : List Token} {rs : List PathRegexp} (h : Reads ts rs) (f : Frame)
    (st : List Frame) (rest : List Token) :
    parseFrom f st (ts ++ rest) = parseFrom (f.push rs) st rest := by
  induction h generalizing f st rest with
  | nil => rw [Frame.push_nil, List.nil_append]
  | append _ _ ih₁ ih₂ => rw [List.append_assoc, ih₁, ih₂, Frame.push_push]
  | num n => simp only [List.singleton_append, parseFrom]
  | range lo hi =>
    simp only [List.cons_append, List.nil_append, parseFrom, Frame.replaceLast_push, upTo,
      Option.map_some, Option.bind_some]
  | any => simp only [List.singleton_append, parseFrom]
  | rep _ hr hq ih => rw [List.append_assoc, ih, parseFrom_quantifier hq hr]
  | @group alts hne _ ih =>
    -- the alternatives one by one, those read so far closed
    have halts : ∀ (done : List (List PathRegexp)) (todo : List (List Token × List PathRegexp)),
        todo ≠ [] →
        (∀ a ∈ todo, ∀ (f : Frame) (st : List Frame) (rest : List Token),
          parseFrom f st (a.1 ++ rest) = parseFrom (f.push a.2) st rest) →
        parseFrom ⟨done, []⟩ (f :: st)
            ([Token.sign '|'].intercalate (todo.map Prod.fst) ++ .sign ')' :: rest) =
          parseFrom (f.push [.group (altOf (done ++ todo.map Prod.snd))]) st rest := by
      intro done todo
      induction todo generalizing done with
      | nil => exact fun h => absurd rfl h
      | cons a todo iht =>
        intro _ hread
        cases todo with
        | nil =>
          simp only [List.map_cons, List.map_nil, List.intercalate_singleton,
            hread a List.mem_cons_self]
          rw [parseFrom]
          rfl
        | cons b todo =>
          have hrest := iht (done ++ [a.2]) (by simp)
            fun c hc => hread c (List.mem_cons_of_mem _ hc)
          rw [List.map_cons, List.map_cons, List.intercalate_cons_cons, List.append_assoc,
            List.append_assoc, hread a List.mem_cons_self, List.singleton_append, parseFrom]
          simpa [Frame.nextAlt, Frame.push] using hrest
    have hall := halts [] alts hne ih
    rw [List.nil_append] at hall
    rw [← hall, List.append_assoc, List.cons_append, parseFrom]
    rfl

theorem Reads.parse_eq {s : List Char} {ts : List Token} {rs : List PathRegexp}
    (hs : Lexes s ts) (h : Reads ts rs) : PathRegexp.parse s = some (seqOf rs) := by
  have := h.parse {} [] []
  rw [List.append_nil] at this
  rw [PathRegexp.parse, hs.words_eq, this, parseFrom]
  rfl

theorem reads_group {tss : List (List Token)} {rss : List (List PathRegexp)} (hne : tss ≠ [])
    (h : List.Forall₂ Reads tss rss) :
    Reads (.sign '(' :: [.sign '|'].intercalate tss ++ [.sign ')']) [.group (altOf rss)] := by
  have hlen := h.length_eq
  have hzip : tss.zip rss ≠ [] := by
    intro hz
    have hl := congrArg List.length hz
    rw [List.length_zip, hlen, Nat.min_self, ← hlen] at hl
    exact hne (List.length_eq_zero_iff.1 hl)
  have hgroup := Reads.group hzip fun a ha => (List.forall₂_iff_zip.1 h).2 ha
  rwa [List.map_fst_zip hlen.le, List.map_snd_zip hlen.ge] at hgroup

/-! ### Matching -/

section

variable {α : Type*} {val : α → Nat} {x y : Place α}

@[simp] theorem lang_seqOf_nil : (seqOf []).lang val = 1 := rfl

theorem lang_seqOf_cons (r : PathRegexp) (rs : List PathRegexp) :
    (seqOf (r :: rs)).lang val = r.lang val * (seqOf rs).lang val := rfl

theorem lang_seqOf_append (rs qs : List PathRegexp) :
    (seqOf (rs ++ qs)).lang val = (seqOf rs).lang val * (seqOf qs).lang val := by
  induction rs with
  | nil => rw [List.nil_append, lang_seqOf_nil, one_mul]
  | cons r rs ih => rw [List.cons_append, lang_seqOf_cons, lang_seqOf_cons, ih, mul_assoc]

theorem lang_seqOf_singleton (r : PathRegexp) : (seqOf [r]).lang val = r.lang val := mul_one _

theorem spells_altOf {rss : List (List PathRegexp)} (hne : rss ≠ []) :
    Spells ((altOf rss).lang val) x y ↔ ∃ rs ∈ rss, Spells ((seqOf rs).lang val) x y := by
  induction rss with
  | nil => exact absurd rfl hne
  | cons rs rss ih =>
    by_cases h : rss = []
    · simp [h, altOf]
    · rw [altOf_cons _ h, List.exists_mem_cons_iff, ← ih h]
      exact spells_add

theorem spells_rep {r : PathRegexp} {min : Nat} {max : Option Nat} :
    Spells ((rep r min max).lang val) x y ↔
      ∃ n, min ≤ n ∧ (∀ m ∈ max, n ≤ m) ∧ Iter (Spells (r.lang val)) n x y := by
  constructor
  · intro hyp
    obtain ⟨w, ⟨n, hmin, hmax, hw⟩, h⟩ := hyp
    exact ⟨n, hmin, hmax, spells_pow.1 ⟨w, hw, h⟩⟩
  · intro hyp
    obtain ⟨n, hmin, hmax, h⟩ := hyp
    obtain ⟨w, hw, h⟩ := spells_pow.2 h
    exact ⟨w, ⟨n, hmin, hmax, hw⟩, h⟩

theorem mem_anyRun (w : List α) : w ∈ (rep any 0 none).lang val := by
  refine ⟨w.length, Nat.zero_le _, nofun, ?_⟩
  induction w with
  | nil => exact Language.nil_mem_one
  | cons a w ih =>
    rw [List.length_cons, pow_succ']
    exact Language.append_mem_mul (a := [a]) ⟨a, trivial, rfl⟩ ih

end

end PathRegexp

/-! ## Masks -/

namespace PathMask

open Token

inductive Item
  | run
  | any
  | num (n : Nat)
  | set (ranges : List (Nat × Nat))
deriving DecidableEq, Repr

section

variable {α : Type*} (val : α → Nat)

/-- The paths an item matches. -/
def Item.lang : Item → Language α
  | run => ⊤
  | any => letters fun _ => True
  | num n => letters fun a => val a = n
  | set ranges => letters fun a => ∃ r ∈ ranges, r.1 ≤ val a ∧ val a ≤ r.2

/-- The paths a mask matches. -/
def lang (mask : List Item) : Language α := (mask.map (Item.lang val)).prod

end

mutual

/-- The items up to the end of the mask. -/
def items : List Token → Option (List Item)
  | [.sign '=', .sign ']'] => some []
  | .sign '*' :: ts => (items ts).map (.run :: ·)
  | .sign '?' :: ts => (items ts).map (.any :: ·)
  | .num n :: ts => (items ts).map (.num n :: ·)
  | .sign '[' :: ts => ranges [] ts
  | _ => none

/-- The ranges of a set up to its end, and the items after it. -/
def ranges (rs : List (Nat × Nat)) : List Token → Option (List Item)
  | .num a :: .sign ',' :: ts => ranges (rs ++ [(a, a)]) ts
  | .num a :: .sign ']' :: ts => (items ts).map (.set (rs ++ [(a, a)]) :: ·)
  | .num a :: .sign '.' :: .sign '.' :: .num b :: .sign ',' :: ts => ranges (rs ++ [(a, b)]) ts
  | .num a :: .sign '.' :: .sign '.' :: .num b :: .sign ']' :: ts =>
    (items ts).map (.set (rs ++ [(a, b)]) :: ·)
  | _ => none

end

def parse (s : List Char) : Option (List Item) :=
  match words s with
  | .sign '[' :: .sign '=' :: ts => items ts
  | _ => none

/-- Words and the items they are read as. -/
def Reads (ts : List Token) (mask : List Item) : Prop :=
  ∀ rest, items (ts ++ rest) = (items rest).map (mask ++ ·)

theorem reads_nil : Reads [] [] := by
  intro rest
  simp

theorem Reads.append {ts us : List Token} {m n : List Item} (h₁ : Reads ts m) (h₂ : Reads us n) :
    Reads (ts ++ us) (m ++ n) := by
  intro rest
  rw [List.append_assoc, h₁, h₂, Option.map_map]
  congr 1
  funext l
  exact (List.append_assoc m n l).symm

theorem reads_run : Reads [.sign '*'] [.run] := by
  intro rest
  rw [List.singleton_append, items]
  rfl

theorem reads_any : Reads [.sign '?'] [.any] := by
  intro rest
  rw [List.singleton_append, items]
  rfl

theorem reads_num (n : Nat) : Reads [.num n] [.num n] := by
  intro rest
  rw [List.singleton_append, items]
  rfl

/-- The words of a range: a number, or both ends. -/
def rangeWords (r : Nat × Nat) : List Token :=
  if r.1 = r.2 then [.num r.1] else [.num r.1, .sign '.', .sign '.', .num r.2]

theorem reads_set {rs : List (Nat × Nat)} (hne : rs ≠ []) :
    Reads (.sign '[' :: [.sign ','].intercalate (rs.map rangeWords) ++ [.sign ']']) [.set rs] := by
  have hranges : ∀ (done todo : List (Nat × Nat)), todo ≠ [] → ∀ rest,
      ranges done ([Token.sign ','].intercalate (todo.map rangeWords) ++ .sign ']' :: rest) =
        (items rest).map (.set (done ++ todo) :: ·) := by
    intro done todo
    induction todo generalizing done with
    | nil => exact fun h => absurd rfl h
    | cons r todo ih =>
      intro _ rest
      obtain ⟨a, b⟩ := r
      cases todo with
      | nil =>
        rw [List.map_singleton, List.intercalate_singleton, rangeWords]
        split_ifs with hab
        · obtain rfl : a = b := hab
          rw [List.singleton_append, ranges]
        · rw [List.cons_append, List.cons_append, List.cons_append, List.singleton_append, ranges]
      | cons q todo =>
        have hrest := ih (done ++ [(a, b)]) (by simp) rest
        rw [List.append_assoc, List.singleton_append] at hrest
        rw [List.map_cons, List.map_cons, List.intercalate_cons_cons, ← List.map_cons, rangeWords,
          ← hrest, List.append_assoc]
        split_ifs with hab
        · obtain rfl : a = b := hab
          rw [List.append_assoc, List.singleton_append, List.singleton_append, ranges]
        · rw [List.append_assoc, List.cons_append, List.cons_append, List.cons_append,
            List.singleton_append, List.singleton_append, ranges]
  intro rest
  rw [List.append_assoc, List.cons_append, items]
  exact hranges [] rs hne rest

theorem Reads.parse_eq {s : List Char} {ts : List Token} {mask : List Item} (hs : Lexes s ts)
    (h : Reads ts mask) : parse (['[', '='] ++ s ++ ['=', ']']) = some mask := by
  have hopen : Closed ['[', '='] [.sign '[', .sign '='] :=
    (closed_sign (c := '[') (by decide) (by decide)).append
      (closed_sign (c := '=') (by decide) (by decide))
  have hclose : Closed ['=', ']'] [.sign '=', .sign ']'] :=
    (closed_sign (c := '=') (by decide) (by decide)).append
      (closed_sign (c := ']') (by decide) (by decide))
  have hall := hopen.append (hs.append_closed hclose (by simp) (stops_cons _ rfl))
  have hwords := hall.lexes.words_eq
  rw [parse, List.append_assoc, hwords, List.cons_append, List.cons_append]
  change items (ts ++ [.sign '=', .sign ']']) = _
  rw [h, items, Option.map_some, List.append_nil]

section

variable {α : Type*} {val : α → Nat}

theorem lang_append (m n : List Item) : lang val (m ++ n) = lang val m * lang val n := by
  rw [lang, List.map_append, List.prod_append]
  rfl

theorem lang_singleton (i : Item) : lang val [i] = i.lang val := mul_one _

end

end PathMask

end Lib
