import Mathlib.Data.List.Sort
import Rpsl.Types.SetName

/-!
# AS-path regexps

`policy/regexp.go`, `policy/regexp_ops.go` and `policy/template.go`: a parsed AS-path regexp, its
canonical text, and its binding to a peer. A regexp is never evaluated against a path; what tells
two of them apart is their text.
-/

namespace Rpsl.Policy

open Text

namespace SetNameTemplate

/-- The case folding `strings.EqualFold` compares "peeras" under: besides the ASCII letters, the
long s (U+017F, two bytes) folds to "s". -/
def fold : Text → Text
  | [] => []
  | c :: s =>
    if c = '\xc5' ∧ s.head? = some '\xbf' then 's' :: fold (s.drop 1) else c.toLower :: fold s
termination_by s => s.length

def isPeerAS (c : Text) : Bool := fold c = lit "peeras"

/-- `substitutePeerAS`; whether there was a component to replace is `isPeerAS` of one. -/
def substitutePeerAS (s : Text) (a : ASN) : Text :=
  [':'].intercalate ((s.splitOn ':').map fun c => if isPeerAS c then a.text else c)

end SetNameTemplate

/-- `SetNameTemplate`: a set name with one or more PeerAS components, in its original spelling,
which forms a set name once PeerAS is replaced by an AS number (`ParseSetNameTemplate`). -/
structure SetNameTemplate where
  text : Text
  cls : SetClass
  peer : (text.splitOn ':').any SetNameTemplate.isPeerAS = true
  parsed : (SetName.parse (SetNameTemplate.substitutePeerAS text 1)).map SetName.cls = some cls
deriving DecidableEq

namespace SetNameTemplate

def instantiate (t : SetNameTemplate) (peer : ASN) : SetName :=
  (SetName.parse (substitutePeerAS t.text peer)).getD SetName.zero

theorem mem_fold {s : Text} {c : Char} (h : c ∈ s) :
    c = '\xc5' ∨ c = '\xbf' ∨ c.toLower ∈ fold s := by
  induction s using fold.induct with
  | case1 => cases h
  | case2 d s hd ih =>
    rw [fold, if_pos hd]
    obtain ⟨rfl, hs⟩ := hd
    cases s with
    | nil => cases hs
    | cons b s =>
      cases hs
      rcases List.mem_cons.1 h with h | h
      · exact .inl h
      rcases List.mem_cons.1 h with h | h
      · exact .inr (.inl h)
      · exact (ih h).imp_right fun h => h.imp_right (List.mem_cons_of_mem _)
  | case3 d s hd ih =>
    rw [fold, if_neg hd]
    rcases List.mem_cons.1 h with rfl | h
    · exact .inr (.inr List.mem_cons_self)
    · exact (ih h).imp_right fun h => h.imp_right (List.mem_cons_of_mem _)

theorem isAlpha_of_toLower {c : Char} (h : c.toLower ∈ lit "peeras") : c.isAlpha = true := by
  unfold Char.toLower at h
  split at h
  · rename_i hup
    have : c.isUpper = true := decide_eq_true hup
    simp [Char.isAlpha, this]
  · have hall : ∀ c ∈ ['p', 'e', 'e', 'r', 'a', 's'], c.isAlpha = true :=
      List.all_eq_true.1 (by decide)
    exact hall c h

theorem spelling (t : SetNameTemplate) {c : Char} (h : c ∈ t.text) :
    SetName.isSpelling c ∨ c = '\xc5' ∨ c = '\xbf' := by
  obtain ⟨n, hn, -⟩ := Option.map_eq_some_iff.1 t.parsed
  rw [← t.text.intercalate_splitOn ':'] at h
  rcases Lib.mem_intercalate h with h | ⟨p, hp, h⟩
  · rw [List.mem_singleton.1 h]
    exact .inl (by decide)
  cases hpeer : isPeerAS p with
  | true =>
    rcases mem_fold h with h | h | h
    · exact .inr (.inl h)
    · exact .inr (.inr h)
    · rw [isPeerAS, decide_eq_true_eq] at hpeer
      rw [hpeer] at h
      exact .inl (by simp [SetName.isSpelling, isAlnum, isAlpha_of_toLower h])
  | false =>
    refine .inl (SetName.parse_spelling hn c (Lib.mem_intercalate_of_mem _ ?_ h))
    exact List.mem_map.2 ⟨p, hp, by simp [hpeer]⟩

end SetNameTemplate

inductive RepeatOp
  | star
  | plus
  | quest
  | range
deriving DecidableEq, Repr

/-- `ASPathExpr`. A repeat's `max` is none where the source has -1, unbounded. -/
inductive ASPathExpr
  | alt (alts : List ASPathExpr)
  | seq (terms : List ASPathExpr)
  | rep (inner : ASPathExpr) (op : RepeatOp) (min : Nat) (max : Option Nat) (same : Bool)
  | any
  | asn (a : ASN)
  | set (name : SetName)
  | template (t : SetNameTemplate)
  | peerAS
  | start
  | end_
  | cls (negated : Bool) (items : List ASPathExpr)
  | asnRange (lo hi : ASN)

structure ASPathRE where
  body : ASPathExpr

namespace ASPathExpr

/-! ## Rendering -/

def precAlt : Nat := 0
def precSeq : Nat := 1
def precAtom : Nat := 2

def reParen (s : Text) (prec want : Nat) : Text := if prec < want then '(' :: s ++ [')'] else s

def repeatString (op : RepeatOp) (min : Nat) (max : Option Nat) (same : Bool) : Text :=
  let s : Text :=
    match op with
    | .star => ['*']
    | .plus => ['+']
    | .quest => ['?']
    | .range =>
      match max with
      | none => '{' :: ofNat min ++ [',', '}']
      | some max =>
        if max = min then '{' :: ofNat min ++ ['}']
        else '{' :: ofNat min ++ ',' :: ofNat max ++ ['}']
  if same then '~' :: s else s

mutual

def reString : ASPathExpr → Nat → Text
  | alt alts, want => reParen ((lit " | ").intercalate (reStrings alts precSeq)) precAlt want
  | seq [], _ => lit "()"
  | seq (t :: ts), want =>
    reParen ([' '].intercalate (reStrings (t :: ts) precAtom)) precSeq want
  | rep inner op min max same, _ => reString inner precAtom ++ repeatString op min max same
  | any, _ => ['.']
  | asn a, _ => a.text
  | set name, _ => name.text
  | template t, _ => t.text
  | peerAS, _ => lit "PeerAS"
  | start, _ => ['^']
  | end_, _ => ['$']
  | cls negated items, _ =>
    '[' :: (if negated then ['^'] else []) ++ [' '].intercalate (reStrings items precAtom) ++ [']']
  | asnRange lo hi, _ => lo.text ++ lit " - " ++ hi.text

def reStrings : List ASPathExpr → Nat → List Text
  | [], _ => []
  | e :: es, want => reString e want :: reStrings es want

end

/-! ## Binding -/

mutual

def bindRE (peer : ASN) : ASPathExpr → ASPathExpr
  | alt alts => alt (bindREs peer alts)
  | seq terms => seq (bindREs peer terms)
  | rep inner op min max same => rep (bindRE peer inner) op min max same
  | cls negated items => cls negated (bindREs peer items)
  | peerAS => asn peer
  | template t => set (t.instantiate peer)
  | e => e

def bindREs (peer : ASN) : List ASPathExpr → List ASPathExpr
  | [] => []
  | e :: es => bindRE peer e :: bindREs peer es

end

end ASPathExpr

namespace ASPathRE

/-- `ASPathRE.String`. -/
def text (r : ASPathRE) : Text := r.body.reString ASPathExpr.precAlt

/-- `ASPathRE.Bind`: a zero peer leaves the regexp as it is. -/
def bind (r : ASPathRE) (peer : ASN) : ASPathRE := if peer = 0 then r else ⟨r.body.bindRE peer⟩

end ASPathRE

end Rpsl.Policy
