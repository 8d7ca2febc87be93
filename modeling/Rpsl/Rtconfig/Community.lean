import Mathlib.Data.List.Sort
import Rpsl.Resolve.Claims
import Rpsl.Rtconfig.Vendor

/-!
# Communities

`rtconfig/community.go`: standard BGP communities (RFC 1997) as RPSL writes them and as the vendors
do.
-/

namespace Rpsl.Rtconfig

open Text Resolve

/-- `community`: high and low 16 bits. -/
structure Community where
  hi : UInt16
  lo : UInt16
deriving DecidableEq

/-- `strings.ToLower`, of what can be compared with ASCII afterwards: U+0130 is the one letter
outside ASCII whose lower case is a letter of a community's name. -/
def toLower : Text → Text
  | '\xc4' :: '\xb0' :: s => 'i' :: toLower s
  | c :: s => c.toLower :: toLower s
  | [] => []

namespace Community

def noExport : Community := ⟨0xFFFF, 0xFF01⟩
def noAdvertise : Community := ⟨0xFFFF, 0xFF02⟩
def noExportSubconfed : Community := ⟨0xFFFF, 0xFF03⟩

/-- `parseCommunity`. -/
def parse (s : Text) : Option Community :=
  let t := toLower (trimSpace s)
  if t = lit "no_export" then some noExport
  else if t = lit "no_advertise" then some noAdvertise
  else if t = lit "no_export_subconfed" then some noExportSubconfed
  else if ':' ∈ t then do
    let hi ← parseUint (t.takeWhile (· != ':')) 16
    let lo ← parseUint ((t.dropWhile (· != ':')).drop 1) 16
    some ⟨UInt16.ofNat hi, UInt16.ofNat lo⟩
  else do
    let v ← parseUint t 32
    some ⟨UInt16.ofNat (v >>> 16), UInt16.ofNat v⟩

/-- The order `parseCommunities` sorts by. -/
def le (c d : Community) : Prop := c.hi < d.hi ∨ (c.hi = d.hi ∧ c.lo ≤ d.lo)

instance : DecidableRel le := fun _ _ => inferInstanceAs (Decidable (_ ∨ (_ ∧ _)))

end Community

/-- The loop of `parseCommunities`: each value once. -/
def readCommunities : List Text → List Community → Option (List Community)
  | [], out => some out
  | s :: vals, out => do
    let c ← Community.parse s
    readCommunities vals (if c ∈ out then out else out ++ [c])

def parseCommunities (v : Vendor) (vals : List Text) (term : Text) :
    Except UnsupportedError (List Community) :=
  match readCommunities vals [] with
  | none => .error ⟨v, .communityForm, term⟩
  | some cs => .ok (cs.insertionSort Community.le)

def union (a b : List Community) : List Community :=
  (a ++ b).foldl (fun out c => if c ∈ out then out else out ++ [c]) []

def without (a b : List Community) : List Community := a.filter (· ∉ b)

/-! ## What the lists hold -/

theorem mem_union {a b : List Community} {c : Community} : c ∈ union a b ↔ c ∈ a ∨ c ∈ b := by
  have step : ∀ (l out : List Community),
      c ∈ l.foldl (fun out c => if c ∈ out then out else out ++ [c]) out ↔ c ∈ out ∨ c ∈ l := by
    intro l
    induction l with
    | nil => simp
    | cons d l ih =>
      intro out
      rw [List.foldl_cons, ih]
      by_cases hd : d ∈ out <;> simp [hd] <;> grind
  rw [union, step]
  simp

theorem mem_readCommunities {vals : List Text} {out cs : List Community}
    (h : readCommunities vals out = some cs) (c : Community) :
    c ∈ cs ↔ c ∈ out ∨ ∃ s ∈ vals, Community.parse s = some c := by
  induction vals generalizing out with
  | nil =>
    simp only [readCommunities, Option.some.injEq] at h
    simp [h]
  | cons s vals ih =>
    simp only [readCommunities, Option.bind_eq_bind, Option.bind_eq_some_iff] at h
    obtain ⟨d, hd, h⟩ := h
    rw [ih h]
    by_cases hm : d ∈ out <;> simp [hm, hd] <;> grind

theorem mem_parseCommunities {v : Vendor} {vals : List Text} {term : Text} {cs : List Community}
    (h : parseCommunities v vals term = .ok cs) (c : Community) :
    c ∈ cs ↔ ∃ s ∈ vals, Community.parse s = some c := by
  rw [parseCommunities] at h
  rcases hr : readCommunities vals [] with _ | out
  · simp [hr] at h
  · simp only [hr, Except.ok.injEq] at h
    rw [← h, List.mem_insertionSort, mem_readCommunities hr]
    simp

end Rpsl.Rtconfig
