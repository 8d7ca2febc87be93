import Mathlib.Logic.Relation
import Mathlib.Data.List.Basic

/-!
# Extended regexps

POSIX extended regexps over digits, as routers read them: "_" stands for a space or for either end
of the text. `Ere.parse` reads a pattern, `Ere.Match` says from which place of a text to which one
matches, and `Ere.Found` that one matches somewhere. `Reads` is the grammar: what is read of a text
built from parts that are read on their own (`Reads.parse`).
-/

namespace Lib

/-- A place in a list: what is before it and what is after. -/
abbrev Place (α : Type*) := List α × List α

/-- From a place over `a` to the next. -/
def Place.Step {α : Type*} (a : α) (x y : Place α) : Prop := x.2 = a :: y.2 ∧ y.1 = x.1 ++ [a]

theorem Place.step_append {α : Type*} {a : α} {x y : Place α} (h : Place.Step a x y) :
    x.1 ++ x.2 = y.1 ++ y.2 := by
  rw [h.1, h.2]
  simp

/-- `n` steps of a relation. -/
def Iter {α : Type*} (R : α → α → Prop) : Nat → α → α → Prop
  | 0, x, y => x = y
  | n + 1, x, y => ∃ z, R x z ∧ Iter R n z y

section
variable {α : Type*} {R : α → α → Prop} {x y z : α}

theorem Iter.append {m n : Nat} (h₁ : Iter R m x y) (h₂ : Iter R n y z) : Iter R (m + n) x z := by
  induction m generalizing x with
  | zero =>
    obtain rfl : x = y := h₁
    rwa [Nat.zero_add]
  | succ m ih =>
    obtain ⟨w, hw, h⟩ := h₁
    rw [Nat.succ_add]
    exact ⟨w, hw, ih h⟩

theorem Iter.split {m n : Nat} (h : Iter R (m + n) x z) : ∃ y, Iter R m x y ∧ Iter R n y z := by
  induction m generalizing x with
  | zero =>
    rw [Nat.zero_add] at h
    exact ⟨x, rfl, h⟩
  | succ m ih =>
    rw [Nat.succ_add] at h
    obtain ⟨w, hw, h⟩ := h
    obtain ⟨y, hy, h⟩ := ih h
    exact ⟨y, ⟨w, hw, hy⟩, h⟩

theorem iter_one : Iter R 1 x y ↔ R x y :=
  ⟨fun ⟨_, h, he⟩ => (he : _ = y) ▸ h, fun h => ⟨y, h, rfl⟩⟩

theorem reflTransGen_iff_iter : Relation.ReflTransGen R x y ↔ ∃ n, Iter R n x y := by
  constructor
  · intro h
    induction h with
    | refl => exact ⟨0, rfl⟩
    | tail _ hz ih =>
      obtain ⟨n, hn⟩ := ih
      exact ⟨n + 1, hn.append (iter_one.2 hz)⟩
  · rintro ⟨n, hn⟩
    induction n generalizing x with
    | zero =>
      obtain rfl : x = y := hn
      exact .refl
    | succ n ih =>
      obtain ⟨z, hz, hn⟩ := hn
      exact .head hz (ih hn)

theorem transGen_iff_iter : Relation.TransGen R x y ↔ ∃ n, Iter R (n + 1) x y := by
  rw [Relation.TransGen.head'_iff]
  constructor
  · rintro ⟨z, hz, h⟩
    obtain ⟨n, hn⟩ := reflTransGen_iff_iter.1 h
    exact ⟨n, z, hz, hn⟩
  · rintro ⟨n, z, hz, hn⟩
    exact ⟨z, hz, reflTransGen_iff_iter.2 ⟨n, hn⟩⟩

end

/-! ## Patterns -/

inductive Ere
  | chr (c : Char)
  | digit
  | bol
  | eol
  | edge
  | eps
  | cat (r s : Ere)
  | alt (r s : Ere)
  | star (r : Ere)
  | plus (r : Ere)
  | opt (r : Ere)

namespace Ere

/-- A match from one place of a text to another. -/
def Match : Ere → Place Char → Place Char → Prop
  | chr c, x, y => Place.Step c x y
  | digit, x, y => ∃ c : Char, c.isDigit = true ∧ Place.Step c x y
  | bol, x, y => x = y ∧ x.1 = []
  | eol, x, y => x = y ∧ x.2 = []
  | edge, x, y => Place.Step ' ' x y ∨ (x = y ∧ (x.1 = [] ∨ x.2 = []))
  | eps, x, y => x = y
  | cat r s, x, y => ∃ z, r.Match x z ∧ s.Match z y
  | alt r s, x, y => r.Match x y ∨ s.Match x y
  | star r, x, y => Relation.ReflTransGen r.Match x y
  | plus r, x, y => Relation.TransGen r.Match x y
  | opt r, x, y => x = y ∨ r.Match x y

/-- A match anywhere in the text. -/
def Found (r : Ere) (w : List Char) : Prop := ∃ x y, x.1 ++ x.2 = w ∧ r.Match x y

/-- One after the other. -/
def seqOf (rs : List Ere) : Ere := rs.foldr cat eps

/-- One or the other. -/
def altOf : List (List Ere) → Ere
  | [] => eps
  | [rs] => seqOf rs
  | rs :: rss => alt (seqOf rs) (altOf rss)

/-- An open group: its alternatives so far, and the items of the one in progress. -/
structure Frame where
  alts : List (List Ere) := []
  items : List Ere := []

namespace Frame

def push (f : Frame) (rs : List Ere) : Frame := { f with items := f.items ++ rs }

def nextAlt (f : Frame) : Frame := ⟨f.alts ++ [f.items], []⟩

def close (f : Frame) : Ere := altOf (f.alts ++ [f.items])

/-- A duplication symbol after the last item; none without one. -/
def repeatLast (f : Frame) (op : Ere → Ere) : Option Frame :=
  f.items.getLast?.map fun r => { f with items := f.items.dropLast ++ [op r] }

end Frame

/-- Reads a pattern, with the group in progress and those around it. -/
def parseFrom : Frame → List Frame → List Char → Option Ere
  | f, [], [] => some f.close
  | _, _ :: _, [] => none
  | f, st, '(' :: s => parseFrom {} (f :: st) s
  | f, st, '|' :: s => parseFrom f.nextAlt st s
  | f, g :: st, ')' :: s => parseFrom (g.push [f.close]) st s
  | _, [], ')' :: _ => none
  | f, st, '*' :: s => (f.repeatLast star).bind fun f => parseFrom f st s
  | f, st, '+' :: s => (f.repeatLast plus).bind fun f => parseFrom f st s
  | f, st, '?' :: s => (f.repeatLast opt).bind fun f => parseFrom f st s
  | f, st, '^' :: s => parseFrom (f.push [bol]) st s
  | f, st, '$' :: s => parseFrom (f.push [eol]) st s
  | f, st, '_' :: s => parseFrom (f.push [edge]) st s
  | f, st, '[' :: '0' :: '-' :: '9' :: ']' :: s => parseFrom (f.push [digit]) st s
  | f, st, c :: s => if c.isDigit then parseFrom (f.push [chr c]) st s else none

def parse (s : List Char) : Option Ere := parseFrom {} [] s

/-! ## The grammar -/

/-- A text and the items it is read as. -/
inductive Reads : List Char → List Ere → Prop
  | nil : Reads [] []
  | append {s t : List Char} {rs ts : List Ere} :
      Reads s rs → Reads t ts → Reads (s ++ t) (rs ++ ts)
  | bol : Reads ['^'] [bol]
  | eol : Reads ['$'] [eol]
  | edge : Reads ['_'] [edge]
  | chr {c : Char} : c.isDigit = true → Reads [c] [chr c]
  | digit : Reads ['[', '0', '-', '9', ']'] [digit]
  | group {alts : List (List Char × List Ere)} : alts ≠ [] → (∀ a ∈ alts, Reads a.1 a.2) →
      Reads ('(' :: ['|'].intercalate (alts.map Prod.fst) ++ [')']) [altOf (alts.map Prod.snd)]
  | star {s : List Char} {rs : List Ere} {r : Ere} :
      Reads s (rs ++ [r]) → Reads (s ++ ['*']) (rs ++ [star r])
  | plus {s : List Char} {rs : List Ere} {r : Ere} :
      Reads s (rs ++ [r]) → Reads (s ++ ['+']) (rs ++ [plus r])
  | opt {s : List Char} {rs : List Ere} {r : Ere} :
      Reads s (rs ++ [r]) → Reads (s ++ ['?']) (rs ++ [opt r])

namespace Reads

variable {s : List Char} {r : Ere}

theorem last_star (h : Reads s [r]) : Reads (s ++ ['*']) [r.star] := by
  rw [← List.nil_append [r.star]]
  exact .star h

theorem last_plus (h : Reads s [r]) : Reads (s ++ ['+']) [r.plus] := by
  rw [← List.nil_append [r.plus]]
  exact .plus h

theorem last_opt (h : Reads s [r]) : Reads (s ++ ['?']) [r.opt] := by
  rw [← List.nil_append [r.opt]]
  exact .opt h

end Reads

@[simp] theorem Frame.push_nil (f : Frame) : f.push [] = f := by
  simp [Frame.push]

@[simp] theorem Frame.push_push (f : Frame) (rs ts : List Ere) :
    (f.push rs).push ts = f.push (rs ++ ts) := by
  simp [Frame.push]

theorem Frame.repeatLast_push (f : Frame) (rs : List Ere) (r : Ere) (op : Ere → Ere) :
    (f.push (rs ++ [r])).repeatLast op = some (f.push (rs ++ [op r])) := by
  simp [Frame.push, Frame.repeatLast, ← List.append_assoc]

theorem parseFrom_digit {c : Char} (h : c.isDigit = true) (f : Frame) (st : List Frame)
    (s : List Char) : parseFrom f st (c :: s) = parseFrom (f.push [.chr c]) st s := by
  have hne : ∀ d : Char, d.isDigit = false → c ≠ d := by
    rintro d hd rfl
    rw [hd] at h
    cases h
  rw [parseFrom.eq_def]
  split <;> simp_all

theorem altOf_cons (rs : List Ere) {rss : List (List Ere)} (h : rss ≠ []) :
    altOf (rs :: rss) = .alt (seqOf rs) (altOf rss) := by
  cases rss with
  | nil => exact absurd rfl h
  | cons ts rss => rfl

/-- **A text of the grammar is read as its items.** -/
theorem Reads.parse {s : List Char} {rs : List Ere} (h : Reads s rs) (f : Frame)
    (st : List Frame) (rest : List Char) :
    parseFrom f st (s ++ rest) = parseFrom (f.push rs) st rest := by
  induction h generalizing f st rest with
  | nil => rw [Frame.push_nil, List.nil_append]
  | append _ _ ih₁ ih₂ => rw [List.append_assoc, ih₁, ih₂, Frame.push_push]
  | bol => simp only [List.singleton_append, parseFrom]
  | eol => simp only [List.singleton_append, parseFrom]
  | edge => simp only [List.singleton_append, parseFrom]
  | chr hc => exact parseFrom_digit hc f st rest
  | digit => simp only [List.cons_append, List.nil_append, parseFrom]
  | star _ ih =>
    rw [List.append_assoc, ih]
    simp only [List.singleton_append, parseFrom, Frame.repeatLast_push, Option.bind_some]
  | plus _ ih =>
    rw [List.append_assoc, ih]
    simp only [List.singleton_append, parseFrom, Frame.repeatLast_push, Option.bind_some]
  | opt _ ih =>
    rw [List.append_assoc, ih]
    simp only [List.singleton_append, parseFrom, Frame.repeatLast_push, Option.bind_some]
  | @group alts hne _ ih =>
    -- the alternatives one by one, those read so far closed
    have halts : ∀ (done : List (List Ere)) (todo : List (List Char × List Ere)), todo ≠ [] →
        (∀ a ∈ todo, ∀ (f : Frame) (st : List Frame) (rest : List Char),
          parseFrom f st (a.1 ++ rest) = parseFrom (f.push a.2) st rest) →
        parseFrom ⟨done, []⟩ (f :: st) (['|'].intercalate (todo.map Prod.fst) ++ ')' :: rest) =
          parseFrom (f.push [altOf (done ++ todo.map Prod.snd)]) st rest := by
      intro done todo
      induction todo generalizing done with
      | nil => exact fun h => absurd rfl h
      | cons a todo iht =>
        intro _ hread
        cases todo with
        | nil =>
          simp only [List.map_cons, List.map_nil, List.intercalate_singleton,
            hread a (List.mem_cons_self ..)]
          rfl
        | cons b todo =>
          have hrest := iht (done ++ [a.2]) (by simp)
            fun c hc => hread c (List.mem_cons_of_mem _ hc)
          rw [List.map_cons, List.intercalate_cons_of_ne_nil (by simp), List.append_assoc,
            List.append_assoc, hread a (List.mem_cons_self ..), List.singleton_append]
          rw [parseFrom]
          simpa [Frame.nextAlt, Frame.push] using hrest
    have := halts [] alts hne ih
    rw [List.nil_append] at this
    rw [← this, List.append_assoc, List.cons_append, parseFrom]
    rfl

theorem Reads.parse_eq {s : List Char} {rs : List Ere} (h : Reads s rs) :
    Ere.parse s = some (seqOf rs) := by
  have := h.parse {} [] []
  rw [List.append_nil] at this
  rw [Ere.parse, this, parseFrom]
  rfl

theorem Reads.last_eol {s : List Char} {rs : List Ere} (h : Reads s rs) :
    (s = [] → rs = []) ∧ (s.getLast? = some '$' → ∃ ts, rs = ts ++ [.eol]) := by
  induction h with
  | nil => exact ⟨fun _ => rfl, nofun⟩
  | @append s t rs ts _ _ ih₁ ih₂ =>
    refine ⟨fun h => ?_, fun h => ?_⟩
    · rw [List.append_eq_nil_iff] at h
      rw [ih₁.1 h.1, ih₂.1 h.2, List.append_nil]
    · by_cases ht : t = []
      · rw [ih₂.1 ht, List.append_nil]
        rw [ht, List.append_nil] at h
        exact ih₁.2 h
      · rw [List.getLast?_append_of_ne_nil _ ht] at h
        obtain ⟨us, rfl⟩ := ih₂.2 h
        exact ⟨rs ++ us, by simp⟩
  | bol => exact ⟨nofun, nofun⟩
  | eol => exact ⟨nofun, fun _ => ⟨[], rfl⟩⟩
  | edge => exact ⟨nofun, nofun⟩
  | chr hc =>
    refine ⟨nofun, fun h => ?_⟩
    cases h
    cases hc
  | digit => exact ⟨nofun, nofun⟩
  | group =>
    refine ⟨nofun, fun h => ?_⟩
    rw [List.getLast?_concat] at h
    cases h
  | star => exact ⟨by simp, by simp⟩
  | plus => exact ⟨by simp, by simp⟩
  | opt => exact ⟨by simp, by simp⟩

/-! ## Matching -/

theorem match_append {r : Ere} {x y : Place Char} (h : r.Match x y) :
    x.1 ++ x.2 = y.1 ++ y.2 := by
  induction r generalizing x y with
  | chr c => exact Place.step_append h
  | digit =>
    obtain ⟨c, -, h⟩ := h
    exact Place.step_append h
  | bol => rw [h.1]
  | eol => rw [h.1]
  | edge =>
    rcases h with h | ⟨rfl, -⟩
    · exact Place.step_append h
    · rfl
  | eps => rw [show x = y from h]
  | cat r s ihr ihs =>
    obtain ⟨z, hr, hs⟩ := h
    exact (ihr hr).trans (ihs hs)
  | alt r s ihr ihs => exact h.elim ihr ihs
  | star r ih =>
    induction h with
    | refl => rfl
    | tail _ h ihx => exact ihx.trans (ih h)
  | plus r ih =>
    induction h with
    | single h => exact ih h
    | tail _ h ihx => exact ihx.trans (ih h)
  | opt r ih =>
    rcases h with rfl | h
    · rfl
    · exact ih h

@[simp] theorem match_seqOf_nil {x y : Place Char} : (seqOf []).Match x y ↔ x = y := Iff.rfl

theorem match_seqOf_cons {r : Ere} {rs : List Ere} {x y : Place Char} :
    (seqOf (r :: rs)).Match x y ↔ ∃ z, r.Match x z ∧ (seqOf rs).Match z y := Iff.rfl

theorem match_seqOf_append {rs ts : List Ere} {x y : Place Char} :
    (seqOf (rs ++ ts)).Match x y ↔ ∃ z, (seqOf rs).Match x z ∧ (seqOf ts).Match z y := by
  induction rs generalizing x with
  | nil => simp
  | cons r rs ih =>
    rw [List.cons_append, match_seqOf_cons]
    simp only [match_seqOf_cons, ih]
    constructor
    · rintro ⟨z, hr, w, hrs, hts⟩
      exact ⟨w, ⟨z, hr, hrs⟩, hts⟩
    · rintro ⟨w, ⟨z, hr, hrs⟩, hts⟩
      exact ⟨z, hr, w, hrs, hts⟩

theorem match_seqOf_singleton {r : Ere} {x y : Place Char} :
    (seqOf [r]).Match x y ↔ r.Match x y :=
  ⟨fun ⟨_, h, he⟩ => (he : _ = y) ▸ h, fun h => ⟨y, h, rfl⟩⟩

theorem match_altOf {alts : List (List Ere)} (hne : alts ≠ []) {x y : Place Char} :
    (altOf alts).Match x y ↔ ∃ rs ∈ alts, (seqOf rs).Match x y := by
  induction alts with
  | nil => exact absurd rfl hne
  | cons rs rss ih =>
    by_cases h : rss = []
    · simp [h, altOf]
    · rw [altOf_cons _ h, List.exists_mem_cons_iff, ← ih h]
      exact Iff.rfl

theorem match_chars {w : List Char} {x y : Place Char} :
    (seqOf (w.map Ere.chr)).Match x y ↔ x.2 = w ++ y.2 ∧ y.1 = x.1 ++ w := by
  induction w generalizing x with
  | nil =>
    rw [List.map_nil, match_seqOf_nil, List.nil_append, List.append_nil]
    exact ⟨fun h => h ▸ ⟨rfl, rfl⟩, fun h => Prod.ext h.2.symm h.1⟩
  | cons c w ih =>
    rw [List.map_cons, match_seqOf_cons]
    simp only [ih]
    constructor
    · rintro ⟨z, ⟨h₁, h₂⟩, h₃, h₄⟩
      rw [h₁, h₃, h₄, h₂]
      simp
    · rintro ⟨h₁, h₂⟩
      exact ⟨(x.1 ++ [c], w ++ y.2), ⟨h₁, rfl⟩, rfl, by simp [h₂]⟩

theorem match_digits {x y : Place Char} : (Ere.plus .digit).Match x y ↔
    ∃ w : List Char, w ≠ [] ∧ (∀ c ∈ w, c.isDigit = true) ∧ x.2 = w ++ y.2 ∧ y.1 = x.1 ++ w := by
  constructor
  · intro h
    induction h using Relation.TransGen.head_induction_on with
    | single h =>
      obtain ⟨c, hc, h₁, h₂⟩ := h
      exact ⟨[c], by simp, by simpa using hc, h₁, h₂⟩
    | head h _ ih =>
      obtain ⟨c, hc, h₁, h₂⟩ := h
      obtain ⟨w, -, hw, h₃, h₄⟩ := ih
      exact ⟨c :: w, by simp, by simpa using ⟨hc, hw⟩, by simp [h₁, h₃], by simp [h₄, h₂]⟩
  · rintro ⟨w, hne, hw, h₁, h₂⟩
    induction w generalizing x with
    | nil => exact absurd rfl hne
    | cons c w ih =>
      have hc := hw c (List.mem_cons_self ..)
      have hstep : Ere.digit.Match x (x.1 ++ [c], w ++ y.2) := ⟨c, hc, h₁, rfl⟩
      by_cases hnil : w = []
      · subst hnil
        have : (x.1 ++ [c], ([] : List Char) ++ y.2) = y := Prod.ext h₂.symm rfl
        exact .single (this ▸ hstep)
      · exact .head hstep (ih hnil (fun d hd => hw d (List.mem_cons_of_mem _ hd)) rfl
          (by simp [h₂]))

end Ere

end Lib
