import Mathlib

/-!
# Numbers and signs

A text as its words: a run of digits is a number, blanks separate, and every other character is a
sign of its own. A text that ends in a digit gives its words only before something else than a
digit (`Lexes`); one that does not gives them before anything (`Closed`).
-/

namespace Lib

inductive Token
  | num (n : Nat)
  | sign (c : Char)
deriving DecidableEq, Repr

namespace Token

/-- The number of the digits read, if there are any. -/
def flush (ds : List Char) : List Token :=
  if ds = [] then [] else [.num (Nat.ofDigitChars 10 ds 0)]

/-- The words of a text, with the digits that stand right before it. -/
def wordsFrom (ds : List Char) : List Char → List Token
  | [] => flush ds
  | c :: s =>
    if c.isDigit then wordsFrom (ds ++ [c]) s
    else if c = ' ' then flush ds ++ wordsFrom [] s
    else flush ds ++ .sign c :: wordsFrom [] s

def words (s : List Char) : List Token := wordsFrom [] s

/-- Not the start of a number, or of more of one. -/
def Stops (s : List Char) : Prop := ∀ c ∈ s.head?, c.isDigit = false

theorem stops_cons {c : Char} (s : List Char) (h : c.isDigit = false) : Stops (c :: s) := by
  intro d hd
  cases hd
  exact h

/-- The words of `s`, where no digit follows. -/
def Lexes (s : List Char) (ts : List Token) : Prop :=
  ∀ rest, Stops rest → words (s ++ rest) = ts ++ words rest

/-- The words of `s`, whatever follows. -/
def Closed (s : List Char) (ts : List Token) : Prop :=
  ∀ rest, words (s ++ rest) = ts ++ words rest

theorem wordsFrom_stop (ds : List Char) {s : List Char} (h : Stops s) :
    wordsFrom ds s = flush ds ++ words s := by
  cases s with
  | nil => exact (List.append_nil _).symm
  | cons c s =>
    have hc : c.isDigit = false := h c rfl
    unfold words wordsFrom
    rw [hc]
    by_cases hb : c = ' ' <;> simp [hb, flush]

theorem wordsFrom_digits {w : List Char} (hw : ∀ c ∈ w, c.isDigit = true) (ds rest : List Char) :
    wordsFrom ds (w ++ rest) = wordsFrom (ds ++ w) rest := by
  induction w generalizing ds with
  | nil => rw [List.nil_append, List.append_nil]
  | cons c w ih =>
    rw [List.cons_append, wordsFrom, if_pos (hw c List.mem_cons_self),
      ih (fun d hd => hw d (List.mem_cons_of_mem c hd)), List.append_assoc]
    rfl

theorem lexes_num (n : Nat) : Lexes (Nat.toDigits 10 n) [.num n] := by
  intro rest hrest
  have hdigits : ∀ c ∈ Nat.toDigits 10 n, c.isDigit = true := fun c hc =>
    Nat.isDigit_of_mem_toDigits (by decide) (by decide) hc
  rw [words, wordsFrom_digits hdigits, List.nil_append, wordsFrom_stop _ hrest, flush,
    if_neg Nat.toDigits_ne_nil, Nat.ofDigitChars_toDigits (by decide) (by decide)]

theorem closed_sign {c : Char} (hd : c.isDigit = false) (hb : c ≠ ' ') : Closed [c] [.sign c] := by
  intro rest
  rw [List.singleton_append, words, wordsFrom, hd, if_neg (by simp), if_neg hb]
  rfl

theorem closed_blank : Closed [' '] [] := by
  intro rest
  rw [List.singleton_append, words, wordsFrom, if_neg (by decide), if_pos rfl]
  rfl

theorem lexes_nil : Lexes [] [] := fun _ _ => rfl

section

variable {s t : List Char} {ts us : List Token}

theorem Closed.lexes (h : Closed s ts) : Lexes s ts := fun rest _ => h rest

theorem Lexes.words_eq (h : Lexes s ts) : words s = ts := by
  have := h [] (by simp [Stops])
  rw [List.append_nil] at this
  rw [this]
  exact List.append_nil ts

theorem Closed.append (hs : Closed s ts) (ht : Closed t us) : Closed (s ++ t) (ts ++ us) := by
  intro rest
  rw [List.append_assoc, hs, ht, List.append_assoc]

theorem Closed.append_lexes (hs : Closed s ts) (ht : Lexes t us) : Lexes (s ++ t) (ts ++ us) := by
  intro rest hrest
  rw [List.append_assoc, hs, ht rest hrest, List.append_assoc]

theorem Lexes.append_closed (hs : Lexes s ts) (ht : Closed t us) (hne : t ≠ []) (hstop : Stops t) :
    Closed (s ++ t) (ts ++ us) := by
  intro rest
  have hstop' : Stops (t ++ rest) := by
    cases t with
    | nil => exact absurd rfl hne
    | cons c t => exact hstop
  rw [List.append_assoc, hs _ hstop', ht, List.append_assoc]

end

theorem lexes_intercalate {sep : List Char} {us : List Token} (hsep : Closed sep us)
    (hne : sep ≠ []) (hstop : Stops sep) {ss : List (List Char)} {tss : List (List Token)}
    (h : List.Forall₂ Lexes ss tss) : Lexes (sep.intercalate ss) (us.intercalate tss) := by
  induction h with
  | nil => exact lexes_nil
  | @cons s ts ss tss hs hrest ih =>
    cases hrest with
    | nil =>
      rw [List.intercalate_singleton, List.intercalate_singleton]
      exact hs
    | cons ht hrest =>
      rw [List.intercalate_cons_cons, List.intercalate_cons_cons]
      exact (hs.append_closed hsep hne hstop).append_lexes ih

theorem lexes_join {ss : List (List Char)} {tss : List (List Token)}
    (h : List.Forall₂ Lexes ss tss) : Lexes ([' '].intercalate ss) tss.flatten := by
  have hnil : ([] : List Token).intercalate tss = tss.flatten := by
    clear h
    induction tss with
    | nil => rfl
    | cons ts tss ih =>
      cases tss with
      | nil => simp
      | cons us tss =>
        rw [List.intercalate_cons_cons, ih, List.append_nil]
        rfl
  rw [← hnil]
  exact lexes_intercalate closed_blank (by simp) (stops_cons [] rfl) h

end Token

end Lib
