import Rpsl.Types.Proof.Order
import Rpsl.Types.Proof.SpaceRanges

/-!
# The canonical decomposition of a space

`PrefixSpace.Ranges` of a canonical trie lists disjoint ranges in order (`Follows`): the runs of one
node's mask are apart, a node's lengths are not held below it, and its children part at a bit. What
is held determines the trie, so it determines the list. `PrefixSpace.Example` is the shortest prefix
of the family that comes first, and of those the one with the lowest address.
-/

namespace Rpsl

namespace PrefixRange

/-- IPv4 first, then the base's address, the shorter base, the low length. -/
def Before (r s : PrefixRange) : Prop :=
  ∃ p q, r.pfx = some p ∧ s.pfx = some q ∧ (p.less q = true ∨ (p = q ∧ r.lo < s.lo))

/-- No prefix is of both. -/
def Disjoint (r s : PrefixRange) : Prop := ∀ q, ¬ (r.contains q = true ∧ s.contains q = true)

/-- `s` may be listed after `r`: it comes later, shares no prefix with it, and is not the next
window of the same base. -/
structure Follows (r s : PrefixRange) : Prop where
  before : r.Before s
  disjoint : r.Disjoint s
  apart : r.pfx = s.pfx → r.hi + 1 < s.lo

end PrefixRange

namespace SpaceNode

open PrefixRange

/-! ## The ranges of one node -/

theorem runEnd_stop (m : LenMask) (rem hi : Nat) :
    runEnd m rem hi = hi + rem ∨ m.has (runEnd m rem hi + 1) = false := by
  induction rem generalizing hi with
  | zero => exact .inl rfl
  | succ rem ih =>
    unfold runEnd
    split
    · rw [← Nat.add_assoc, Nat.add_right_comm]
      exact ih (hi + 1)
    · rename_i hm
      exact .inr (Bool.eq_false_iff.2 hm)

variable {m : LenMask} {l : Nat}

theorem runs_has {width fuel : Nat} (hf : width < l + fuel) {w : Nat × Nat}
    (hw : w ∈ runs m width fuel l) {x : Nat} (h1 : w.1 ≤ x) (h2 : x ≤ w.2) : m.has x = true :=
  ((mem_runs m width fuel l x hf).1 ⟨w, hw, h1, h2⟩).2.2

theorem runs_pairwise (m : LenMask) (width fuel l : Nat) (hf : width < l + fuel) :
    (runs m width fuel l).Pairwise fun w w' => w.2 + 1 < w'.1 := by
  induction fuel generalizing l with
  | zero => exact .nil
  | succ fuel ih =>
    unfold runs
    split
    · exact .nil
    split
    · exact ih (l + 1) (by omega)
    · rename_i hwidth _
      obtain ⟨h1, h2, -⟩ := runEnd_spec m (width - l) l
      dsimp only
      apply List.Pairwise.cons
      · intro w' hw'
        obtain ⟨hl, hle, hhi⟩ := runs_bounds _ _ _ _ w' hw'
        have hfirst := runs_has (by omega) hw' (Nat.le_refl w'.1) hle
        rcases runEnd_stop m (width - l) l with hend | hend
        · omega
        · have hne : w'.1 ≠ runEnd m (width - l) l + 1 := by
            intro heq
            rw [heq, hend] at hfirst
            cases hfirst
          omega
      · exact ih _ (by omega)

def nodeRanges (f : Family) (m : LenMask) (bs : List Bool) : List PrefixRange :=
  (runs m f.width (f.width + 1) bs.length).filterMap fun w =>
    (prefixAt f bs).bind fun p => PrefixRange.new p w.1 w.2

theorem walkRanges_node (f : Family) (m : LenMask) (c0 c1 : SpaceNode) (bs : List Bool) :
    (node m c0 c1).walkRanges f bs =
      nodeRanges f m bs ++ (c0.walkRanges f (bs ++ [false]) ++ c1.walkRanges f (bs ++ [true])) :=
  rfl

variable {bs : List Bool} {r : PrefixRange}

theorem new_of_run {f : Family} {w : Nat × Nat}
    (hw : w ∈ runs m f.width (f.width + 1) bs.length)
    (hr : ((prefixAt f bs).bind fun p => PrefixRange.new p w.1 w.2) = some r) :
    (∃ h, r.pfx = some (Prefix.ofPath f bs h)) ∧ r.lo = w.1 ∧ r.hi = w.2 := by
  obtain ⟨p, hp, hr⟩ := Option.bind_eq_some_iff.1 hr
  unfold prefixAt at hp
  split at hp
  · rename_i hlen
    cases hp
    obtain ⟨h1, h2, h3⟩ := runs_bounds _ _ _ _ w hw
    obtain ⟨hpfx, hlo, hhi⟩ := PrefixRange.new_eq_some hr
    rw [Prefix.ofPath_masked] at hpfx
    rw [Prefix.ofPath_bits] at hlo
    have hbl : (Prefix.ofPath f bs hlen).bitLen = f.width := rfl
    rw [hbl] at hhi
    exact ⟨⟨hlen, hpfx⟩, by omega, by omega⟩
  · cases hp

theorem mem_nodeRanges {f : Family}
    (h : r ∈ nodeRanges f m bs) :
    (∃ h, r.pfx = some (Prefix.ofPath f bs h)) ∧ r.lo ≤ r.hi ∧
      ∀ l, r.lo ≤ l → l ≤ r.hi → m.has l = true := by
  obtain ⟨w, hw, hr⟩ := List.mem_filterMap.1 h
  obtain ⟨hpfx, hlo, hhi⟩ := new_of_run hw hr
  obtain ⟨-, hle, -⟩ := runs_bounds _ _ _ _ w hw
  rw [hlo, hhi]
  exact ⟨hpfx, hle, fun l h1 h2 => runs_has (by omega) hw h1 h2⟩

theorem disjoint_of_lengths {s : PrefixRange} (h : ∀ l, r.lo ≤ l → l ≤ r.hi → s.lo ≤ l →
    l ≤ s.hi → False) : r.Disjoint s := by
  intro q hq
  obtain ⟨⟨_, _, hlo, hhi, _⟩, ⟨_, _, hlo', hhi', _⟩⟩ :=
    And.intro (contains_iff.1 hq.1) (contains_iff.1 hq.2)
  exact h q.bits hlo hhi hlo' hhi'

theorem nodeRanges_pairwise (f : Family) (m : LenMask) (bs : List Bool) :
    (nodeRanges f m bs).Pairwise Follows := by
  have hruns := runs_pairwise m f.width (f.width + 1) bs.length (by omega)
  apply List.Pairwise.filterMap _ _ (List.Pairwise.and_mem.1 hruns)
  intro w w' hww r hr r' hr'
  obtain ⟨hw, hw', hlt⟩ := hww
  obtain ⟨⟨h, hpfx⟩, hlo, hhi⟩ := new_of_run hw hr
  obtain ⟨⟨h', hpfx'⟩, hlo', hhi'⟩ := new_of_run hw' hr'
  obtain ⟨-, hle, -⟩ := runs_bounds _ _ _ _ w hw
  refine ⟨⟨_, _, hpfx, hpfx', .inr ⟨rfl, by omega⟩⟩, disjoint_of_lengths ?_, fun _ => by omega⟩
  intro l _ _ _ _
  omega

/-! ## The ranges of a trie -/

/-- A range of the subtree has its base under the node, and no length an ancestor holds. -/
structure Under (f : Family) (bs : List Bool) (anc : LenMask) (r : PrefixRange) : Prop where
  base : ∃ path, ∃ h : path.length ≤ f.width, r.pfx = some (Prefix.ofPath f path h) ∧ bs <+: path
  nonempty : r.lo ≤ r.hi
  lengths : ∀ l, r.lo ≤ l → l ≤ r.hi → anc.has l = false

variable {anc : LenMask}

theorem Under.isEmpty {f : Family}
    (h : Under f bs anc r) : r.isEmpty = false := by
  obtain ⟨path, hlen, hpfx, -⟩ := h.base
  exact isEmpty_eq_false_iff.2 ⟨_, hpfx, h.nonempty⟩

theorem Under.of_kid {f : Family} {b : Bool}
    (h : Under f (bs ++ [b]) (anc ||| m) r) : Under f bs anc r := by
  obtain ⟨path, hlen, hpfx, hpre⟩ := h.base
  refine ⟨⟨path, hlen, hpfx, (List.prefix_append bs [b]).trans hpre⟩, h.nonempty, ?_⟩
  intro l h1 h2
  have hor := h.lengths l h1 h2
  rw [LenMask.has_or, Bool.or_eq_false_iff] at hor
  exact hor.1

theorem walkRanges_under {f : Family} {n : SpaceNode}
    (hn : Canon f.width n bs.length anc) : ∀ r ∈ n.walkRanges f bs, Under f bs anc r := by
  induction n generalizing bs anc with
  | nil => exact fun r hr => absurd hr List.not_mem_nil
  | node m c0 c1 ih0 ih1 =>
    intro r hr
    rw [walkRanges_node, List.mem_append, List.mem_append] at hr
    rcases hr with hr | hr | hr
    · obtain ⟨⟨hlen, hpfx⟩, hle, hm⟩ := mem_nodeRanges hr
      refine ⟨⟨bs, hlen, hpfx, List.prefix_rfl⟩, hle, ?_⟩
      intro l h1 h2
      exact (hn.1 l (hm l h1 h2)).2.2
    · have h0 : Canon f.width c0 (bs ++ [false]).length (anc ||| m) := by
        simpa using hn.2.2.2.1
      exact (ih0 h0 r hr).of_kid
    · have h1 : Canon f.width c1 (bs ++ [true]).length (anc ||| m) := by
        simpa using hn.2.2.2.2
      exact (ih1 h1 r hr).of_kid

theorem follows_below {f : Family} {b : Bool}
    {s : PrefixRange} (hr : r ∈ nodeRanges f m bs) (hs : Under f (bs ++ [b]) (anc ||| m) s) :
    r.Follows s := by
  obtain ⟨⟨hlen, hpfx⟩, -, hm⟩ := mem_nodeRanges hr
  obtain ⟨path, hlen', hpfx', hpre⟩ := hs.base
  have hlt : bs.length < path.length := by simpa using hpre.length_le
  refine ⟨⟨_, _, hpfx, hpfx', .inl ?_⟩, disjoint_of_lengths ?_, ?_⟩
  · apply Prefix.less_of_covers (Prefix.ofPath_masked ..)
    · refine ⟨rfl, ?_⟩
      rw [Prefix.ofPath_path, Prefix.ofPath_path]
      exact (List.prefix_append bs [b]).trans hpre
    · rw [Prefix.ofPath_bits, Prefix.ofPath_bits]
      exact hlt
  · intro l h1 h2 h3 h4
    have hor := hs.lengths l h3 h4
    rw [LenMask.has_or, hm l h1 h2, Bool.or_true] at hor
    cases hor
  · intro heq
    rw [hpfx, hpfx'] at heq
    have hbits := congrArg Prefix.bits (Option.some.inj heq)
    rw [Prefix.ofPath_bits, Prefix.ofPath_bits] at hbits
    omega

theorem follows_beside {f : Family} {s : PrefixRange}
    (hr : Under f (bs ++ [false]) anc r) (hs : Under f (bs ++ [true]) anc s) : r.Follows s := by
  obtain ⟨path, hlen, hpfx, hpre⟩ := hr.base
  obtain ⟨path', hlen', hpfx', hpre'⟩ := hs.base
  have hless : (Prefix.ofPath f path hlen).less (Prefix.ofPath f path' hlen') = true := by
    refine Prefix.less_of_part (p := .ofPath f path hlen) (s := bs) rfl ?_ ?_
    · rwa [Prefix.ofPath_path]
    · rwa [Prefix.ofPath_path]
  refine ⟨⟨_, _, hpfx, hpfx', .inl hless⟩, ?_, ?_⟩
  · intro q hq
    obtain ⟨b, hb, -, -, hcov⟩ := contains_iff.1 hq.1
    obtain ⟨b', hb', -, -, hcov'⟩ := contains_iff.1 hq.2
    rw [hpfx] at hb
    rw [hpfx'] at hb'
    cases hb
    cases hb'
    -- both would be the bit of the prefix after the node's own
    have h0 : bs ++ [false] <+: q.path := hpre.trans (by simpa using hcov.2)
    have h1 : bs ++ [true] <+: q.path := hpre'.trans (by simpa using hcov'.2)
    have heq := List.prefix_of_prefix_length_le h0 h1 (by simp)
    rw [List.prefix_append_right_inj] at heq
    simp at heq
  · intro heq
    rw [hpfx, hpfx'] at heq
    rw [Option.some.inj heq, Prefix.less_irrefl] at hless
    cases hless

theorem walkRanges_pairwise {f : Family} {n : SpaceNode}
    (hn : Canon f.width n bs.length anc) : (n.walkRanges f bs).Pairwise Follows := by
  induction n generalizing bs anc with
  | nil => exact .nil
  | node m c0 c1 ih0 ih1 =>
    have hn0 : Canon f.width c0 (bs ++ [false]).length (anc ||| m) := by simpa using hn.2.2.2.1
    have hn1 : Canon f.width c1 (bs ++ [true]).length (anc ||| m) := by simpa using hn.2.2.2.2
    rw [walkRanges_node, List.pairwise_append, List.pairwise_append]
    refine ⟨nodeRanges_pairwise f m bs, ⟨ih0 hn0, ih1 hn1, ?_⟩, ?_⟩
    · intro r hr s hs
      exact follows_beside (walkRanges_under hn0 r hr) (walkRanges_under hn1 s hs)
    · intro r hr s hs
      rcases List.mem_append.1 hs with hs | hs
      · exact follows_below hr (walkRanges_under hn0 s hs)
      · exact follows_below hr (walkRanges_under hn1 s hs)

/-! ## The first prefix of the least length -/

def HasLen : SpaceNode → Nat → Prop
  | nil, _ => False
  | node m c0 c1, l => m.has l = true ∨ HasLen c0 l ∨ HasLen c1 l

theorem hasLen_of_holds {n : SpaceNode} {d : Nat} (h : n.holds d bs = true) :
    n.HasLen (d + bs.length) := by
  induction bs generalizing n d with
  | nil =>
    cases n with
    | nil => cases h
    | node m c0 c1 =>
      rw [holds_empty] at h
      exact .inl h
  | cons b bs ih =>
    cases n with
    | nil => cases h
    | node m c0 c1 =>
      rw [holds_cons, Bool.or_eq_true] at h
      rw [List.length_cons, ← Nat.add_assoc, Nat.add_right_comm]
      rcases h with h | h
      · rw [Nat.add_right_comm]
        exact .inl h
      · cases b with
        | false => exact .inr (.inl (ih h))
        | true => exact .inr (.inr (ih h))

theorem lowest_spec (m : LenMask) :
    (∀ l, m.lowest = some l → m.has l = true ∧ ∀ k, m.has k = true → l ≤ k) ∧
      (m.lowest = none → ∀ k, m.has k = false) := by
  unfold LenMask.lowest
  constructor
  · intro l hl
    rw [List.find?_range_eq_some] at hl
    refine ⟨hl.1, fun k hk => ?_⟩
    by_contra hlt
    have := hl.2.2 k (by omega)
    rw [hk] at this
    cases this
  · intro hnone k
    rw [Bool.eq_false_iff]
    intro hk
    have := List.find?_eq_none.1 hnone k (List.mem_range.2 (LenMask.has_lt hk))
    exact this hk

def Least (P : Nat → Prop) (best : Option Nat) : Prop :=
  (∀ l, best = some l → P l ∧ ∀ k, P k → l ≤ k) ∧ (best = none → ∀ k, ¬ P k)

def lesser : Option Nat → Option Nat → Option Nat
  | none, l => l
  | some b, none => some b
  | some b, some l => some (if l < b then l else b)

theorem Least.or {P Q : Nat → Prop} {a b : Option Nat} (ha : Least P a) (hb : Least Q b) :
    Least (fun k => P k ∨ Q k) (lesser a b) := by
  cases a with
  | none =>
    have hP := ha.2 rfl
    refine ⟨fun l hl => ?_, fun hnone k hk => ?_⟩
    · obtain ⟨hl, hleast⟩ := hb.1 l hl
      exact ⟨.inr hl, fun k hk => hleast k (hk.resolve_left (hP k))⟩
    · exact hb.2 hnone k (hk.resolve_left (hP k))
  | some x =>
    obtain ⟨hx, hxle⟩ := ha.1 x rfl
    cases b with
    | none =>
      have hQ := hb.2 rfl
      refine ⟨fun l hl => ?_, by simp [lesser]⟩
      cases hl
      exact ⟨.inl hx, fun k hk => hxle k (hk.resolve_right (hQ k))⟩
    | some y =>
      obtain ⟨hy, hyle⟩ := hb.1 y rfl
      refine ⟨fun l hl => ?_, by simp [lesser]⟩
      cases hl
      split_ifs with hlt
      · refine ⟨.inr hy, fun k hk => ?_⟩
        rcases hk with hk | hk
        · exact (Nat.le_of_lt hlt).trans (hxle k hk)
        · exact hyle k hk
      · refine ⟨.inl hx, fun k hk => ?_⟩
        rcases hk with hk | hk
        · exact hxle k hk
        · exact (Nat.not_lt.1 hlt).trans (hyle k hk)

theorem shortest_least (n : SpaceNode) : Least n.HasLen n.shortest := by
  induction n with
  | nil => exact ⟨by simp [shortest], fun _ _ h => h⟩
  | node m c0 c1 ih0 ih1 =>
    have hlow : Least (fun k => m.has k = true) m.lowest := by
      refine ⟨(lowest_spec m).1, fun hnone k => ?_⟩
      show ¬ m.has k = true
      rw [(lowest_spec m).2 hnone k]
      exact Bool.false_ne_true
    have hfold : (node m c0 c1).shortest = lesser (lesser m.lowest c0.shortest) c1.shortest := by
      rw [shortest]
      generalize m.lowest = a, c0.shortest = b, c1.shortest = c
      cases a <;> cases b <;> cases c <;> rfl
    have hall := (hlow.or ih0).or ih1
    simp only [or_assoc] at hall
    rw [hfold]
    exact hall

/-- What `firstWith` returns is in the subtree and has no greater address than any other prefix of
the length that is. -/
structure First (f : Family) (l : Nat) (n : SpaceNode) (bs : List Bool) (p : Prefix) : Prop where
  fam : p.fam = f
  masked : p.masked = p
  bits : p.bits = l
  mem : ∃ suf, p.path = bs ++ suf ∧ n.holds bs.length suf = true
  least : ∀ q : Prefix, q.fam = f → q.bits = l → ∀ suf, q.path = bs ++ suf →
    n.holds bs.length suf = true → p.addr.val.toNat ≤ q.addr.val.toNat

theorem masked_ofBits {f : Family} (hle : bs.length ≤ l)
    (hl : l ≤ f.width) : ∃ h, Prefix.masked ⟨Addr.ofBits f bs, l, hl⟩ =
      Prefix.ofPath f (bs ++ List.replicate (l - bs.length) false) h := by
  have hlen : (bs ++ List.replicate (l - bs.length) false).length = l := by
    rw [List.length_append, List.length_replicate]
    omega
  refine ⟨by omega, ?_⟩
  unfold Prefix.masked Prefix.ofPath
  congr 1
  · show (Addr.ofBits f bs).mask l = Addr.ofBits f (bs ++ List.replicate (l - bs.length) false)
    refine Addr.ext_bitAt rfl fun d => ?_
    rw [Addr.bitAt_mask _ hl, Addr.bitAt_ofBits, Addr.bitAt_ofBits]
    rcases Nat.lt_or_ge d bs.length with hd | hd
    · simp [hd, Nat.lt_of_lt_of_le hd hle, List.getElem?_append_left hd]
    · have hzero : (List.replicate (l - bs.length) false)[d - bs.length]?.getD false = false := by
        rw [List.getElem?_replicate]
        split_ifs <;> rfl
      simp [hd, List.getElem?_append_right hd, hzero]
  · exact hlen.symm

variable {q : Prefix}

theorem val_padded_le {f : Family} {zeros suf : List Bool} {h} (hz : ∀ b ∈ zeros, b = false)
    (hq : q.fam = f) (hpath : q.path = bs ++ suf) :
    (Prefix.ofPath f (bs ++ zeros) h).addr.val.toNat ≤ q.addr.val.toNat := by
  refine Addr.val_le_of_bits hq.symm ?_
  intro d hd
  change (Addr.ofBits f (bs ++ zeros)).bitAt d = true at hd
  rw [Addr.bitAt_ofBits, Bool.and_eq_true, List.getD_eq_getElem?_getD] at hd
  rcases Nat.lt_or_ge d bs.length with hlt | hge
  · have hbits : d < q.bits := by
      rw [← q.path_length, hpath, List.length_append]
      omega
    have hget := q.path_getElem? hbits
    rw [hpath, List.getElem?_append_left hlt] at hget
    rw [List.getElem?_append_left hlt, hget] at hd
    exact hd.2
  · rw [List.getElem?_append_right hge] at hd
    cases hget : zeros[d - bs.length]? with
    | none => simp [hget] at hd
    | some b => simp [hget, hz b (List.mem_of_getElem? hget)] at hd

theorem val_le_of_part {p : Prefix} (hf : p.fam = q.fam) (hbits : p.bits = q.bits)
    {s : List Bool} (hp : s ++ [false] <+: p.path) (hq : s ++ [true] <+: q.path) :
    p.addr.val.toNat ≤ q.addr.val.toNat := by
  have hless := Prefix.less_of_part hf hp hq
  unfold Prefix.less at hless
  simp only [hbits, Nat.lt_irrefl, decide_false, Bool.and_false, Bool.or_false] at hless
  exact Nat.le_of_lt ((Addr.lt_iff hf).1 hless)

theorem firstWith_own {f : Family} {c0 c1 : SpaceNode}
    (hm : m.has l = true) (hle : bs.length ≤ l) (hl : l ≤ f.width) :
    ∃ p, (node m c0 c1).firstWith f l bs = some p ∧ First f l (node m c0 c1) bs p := by
  obtain ⟨h, hpad⟩ := masked_ofBits hle hl
  have hlen : bs.length + (List.replicate (l - bs.length) false).length = l := by
    rw [List.length_replicate]
    omega
  refine ⟨_, by rw [firstWith, if_pos hm, dif_pos hl, hpad], rfl, Prefix.ofPath_masked .., ?_,
    ⟨List.replicate (l - bs.length) false, Prefix.ofPath_path .., ?_⟩, ?_⟩
  · rw [Prefix.ofPath_bits, List.length_append]
    exact hlen
  · unfold holds
    rw [hlen, hm, Bool.true_or]
  · intro q hq _ suf hpath _
    exact val_padded_le (fun b hb => (List.mem_replicate.1 hb).2) hq hpath

theorem holds_below {c0 c1 : SpaceNode} {suf : List Bool}
    (hm : m.has q.bits = false) (hpath : q.path = bs ++ suf)
    (h : (node m c0 c1).holds bs.length suf = true) :
    ∃ b suf', q.path = (bs ++ [b]) ++ suf' ∧
      ((node m c0 c1).kid b).holds (bs ++ [b]).length suf' = true := by
  have hbits : q.bits = bs.length + suf.length := by
    rw [← q.path_length, hpath, List.length_append]
  cases suf with
  | nil =>
    rw [holds_empty, mask_node] at h
    rw [hbits, List.length_nil, Nat.add_zero, h] at hm
    cases hm
  | cons b suf =>
    rw [List.length_cons, ← Nat.add_assoc] at hbits
    rw [holds_cons, mask_node, ← hbits, hm, Bool.false_or] at h
    exact ⟨b, suf, by simpa using hpath, by simpa using h⟩

/-- **`firstWith` finds the lowest prefix of the length, where there is one.** -/
theorem firstWith_first {f : Family} {n : SpaceNode}
    (hn : Canon f.width n bs.length anc) (l : Nat) :
    (n.HasLen l → ∃ p, n.firstWith f l bs = some p ∧ First f l n bs p) ∧
      (¬ n.HasLen l → n.firstWith f l bs = none) := by
  induction n generalizing bs anc with
  | nil => exact ⟨False.elim, fun _ => rfl⟩
  | node m c0 c1 ih0 ih1 =>
    cases hm : m.has l with
    | true =>
      obtain ⟨hle, hl, -⟩ := hn.1 l hm
      exact ⟨fun _ => firstWith_own hm hle hl, fun hno => absurd (.inl hm) hno⟩
    | false =>
      have hstep : (node m c0 c1).firstWith f l bs =
          (c0.firstWith f l (bs ++ [false])).or (c1.firstWith f l (bs ++ [true])) := by
        rw [firstWith, if_neg (by simp [hm])]
      have hc0 : Canon f.width c0 (bs ++ [false]).length (anc ||| m) := by
        simpa using hn.2.2.2.1
      have hc1 : Canon f.width c1 (bs ++ [true]).length (anc ||| m) := by
        simpa using hn.2.2.2.2
      have h0 := ih0 hc0
      have h1 := ih1 hc1
      rw [hstep]
      by_cases hl0 : c0.HasLen l
      · refine ⟨fun _ => ?_, fun hno => absurd (.inr (.inl hl0)) hno⟩
        obtain ⟨p, hp, hfirst⟩ := h0.1 hl0
        obtain ⟨suf, hpath, hholds⟩ := hfirst.mem
        refine ⟨p, by rw [hp, Option.some_or], hfirst.fam, hfirst.masked, hfirst.bits,
          ⟨false :: suf, by simpa using hpath, ?_⟩, ?_⟩
        · rw [holds_cons, kid_node_false, Bool.or_eq_true]
          exact .inr (by simpa using hholds)
        · intro q hq hbits suf' hpath' hholds'
          obtain ⟨b, suf', hpath', hholds'⟩ := holds_below (by rw [hbits, hm]) hpath' hholds'
          cases b with
          | false => exact hfirst.least q hq hbits suf' hpath' hholds'
          | true =>
            -- the other child's prefixes have a 1 where this one has a 0
            refine val_le_of_part (s := bs) (hfirst.fam.trans hq.symm)
              (hfirst.bits.trans hbits.symm) ?_ ?_
            · rw [hpath]
              exact List.prefix_append ..
            · rw [hpath']
              exact List.prefix_append ..
      · rw [h0.2 hl0, Option.none_or]
        refine ⟨fun hlen => ?_, fun hno => h1.2 fun hl1 => hno (.inr (.inr hl1))⟩
        have hl1 : c1.HasLen l := by
          rcases hlen with hlen | hlen | hlen
          · rw [hm] at hlen
            cases hlen
          · exact absurd hlen hl0
          · exact hlen
        obtain ⟨p, hp, hfirst⟩ := h1.1 hl1
        obtain ⟨suf, hpath, hholds⟩ := hfirst.mem
        refine ⟨p, hp, hfirst.fam, hfirst.masked, hfirst.bits,
          ⟨true :: suf, by simpa using hpath, ?_⟩, ?_⟩
        · rw [holds_cons, kid_node_true, Bool.or_eq_true]
          exact .inr (by simpa using hholds)
        · intro q hq hbits suf' hpath' hholds'
          obtain ⟨b, suf', hpath', hholds'⟩ := holds_below (by rw [hbits, hm]) hpath' hholds'
          cases b with
          | false =>
            have hlen' := hasLen_of_holds hholds'
            rw [← List.length_append, ← hpath', q.path_length, hbits] at hlen'
            exact absurd hlen' hl0
          | true => exact hfirst.least q hq hbits suf' hpath' hholds'

end SpaceNode

namespace PrefixSpace

open SpaceNode PrefixRange

variable {s t : PrefixSpace}

theorem Canonical.ranges_isEmpty (hs : s.Canonical) : ∀ r ∈ s.ranges, r.isEmpty = false := by
  intro r hr
  rcases List.mem_append.1 hr with hr | hr
  · exact (walkRanges_under (hs .v4) r hr).isEmpty
  · exact (walkRanges_under (hs .v6) r hr).isEmpty

theorem Canonical.ranges_pairwise (hs : s.Canonical) : s.ranges.Pairwise Follows := by
  unfold ranges
  rw [List.pairwise_append]
  refine ⟨walkRanges_pairwise (hs .v4), walkRanges_pairwise (hs .v6), ?_⟩
  intro r hr r' hr'
  obtain ⟨path, hlen, hpfx, -⟩ := (walkRanges_under (hs .v4) r hr).base
  obtain ⟨path', hlen', hpfx', -⟩ := (walkRanges_under (hs .v6) r' hr').base
  have hless : (Prefix.ofPath .v4 path hlen).less (Prefix.ofPath .v6 path' hlen') = true := rfl
  refine ⟨⟨_, _, hpfx, hpfx', .inl hless⟩, ?_, ?_⟩
  · intro q hq
    have h4 := walkRanges_fam .v4 _ _ r hr q hq.1
    rw [walkRanges_fam .v6 _ _ r' hr' q hq.2] at h4
    cases h4
  · intro heq
    rw [hpfx, hpfx'] at heq
    rw [Option.some.inj heq, Prefix.less_irrefl] at hless
    cases hless

theorem Canonical.spaceOf_ranges (hs : s.Canonical) : spaceOf s.ranges = s := by
  apply (canonical_spaceOf s.ranges).ext hs
  intro p
  rw [contains_spaceOf, Bool.eq_iff_iff, List.any_eq_true]
  exact s.contains_ranges p

theorem Canonical.ranges_inj (hs : s.Canonical) (ht : t.Canonical) :
    s.ranges = t.ranges ↔ ∀ p, s.contains p = t.contains p := by
  constructor
  · intro h p
    rw [← hs.spaceOf_ranges, h, ht.spaceOf_ranges]
  · intro h
    rw [hs.ext ht h]

/-! ## The example -/

/-- IPv4 first, then the shorter, then the lower address. -/
def ExampleLE (p q : Prefix) : Prop :=
  (p.fam = .v4 ∧ q.fam = .v6) ∨
    (p.fam = q.fam ∧ (p.bits < q.bits ∨ (p.bits = q.bits ∧ p.addr.val.toNat ≤ q.addr.val.toNat)))

theorem exampleNode_nil (f : Family) : exampleNode f .nil = none := rfl

theorem exampleNode_least {f : Family} {n : SpaceNode} (hn : Canon f.width n 0 0#192)
    (hne : n ≠ .nil) : ∃ p, exampleNode f n = some p ∧ p.fam = f ∧ p.masked = p ∧
      n.holds 0 p.path = true ∧
      ∀ q : Prefix, q.fam = f → n.holds 0 q.path = true → ExampleLE p q := by
  obtain ⟨bs, hbs, -, -⟩ := hn.exists_holds hne
  have hshort := shortest_least n
  cases hl : n.shortest with
  | none => exact absurd (hasLen_of_holds hbs) (hshort.2 hl _)
  | some l =>
    obtain ⟨hlen, hleast⟩ := hshort.1 l hl
    have hroot : Canon f.width n ([] : List Bool).length 0#192 := hn
    obtain ⟨p, hp, hfirst⟩ := (firstWith_first hroot l).1 hlen
    obtain ⟨suf, hpath, hholds⟩ := hfirst.mem
    rw [List.nil_append] at hpath
    refine ⟨p, by rw [exampleNode, hl, Option.bind_some, hp], hfirst.fam, hfirst.masked,
      hpath ▸ hholds, ?_⟩
    intro q hq hqholds
    have hle := hleast _ (hasLen_of_holds hqholds)
    rw [Nat.zero_add, q.path_length] at hle
    refine .inr ⟨hfirst.fam.trans hq.symm, ?_⟩
    rw [hfirst.bits]
    rcases Nat.lt_or_eq_of_le hle with hlt | heq
    · exact .inl hlt
    · exact .inr ⟨heq, hfirst.least q hq heq.symm q.path rfl hqholds⟩

theorem Canonical.exampleOf_least (hs : s.Canonical) (hne : s.isEmpty = false) :
    ∃ p, s.exampleOf = some p ∧ p.masked = p ∧ s.contains p = true ∧
      ∀ q, s.contains q = true → ExampleLE p q := by
  have hroot : ∀ (f : Family) (q : Prefix), q.fam = f →
      (s.contains q = true ↔ (s.root f).holds 0 q.path = true) := by
    intro f q hq
    rw [contains_eq_holds, hq]
  unfold exampleOf
  by_cases h4 : s.v4 = .nil
  · have h6 : s.v6 ≠ .nil := by
      intro h6
      rw [isEmpty, h4, h6] at hne
      cases hne
    obtain ⟨p, hp, hf, hmask, hholds, hleast⟩ := exampleNode_least (hs .v6) h6
    refine ⟨p, by rw [h4, exampleNode_nil, Option.none_or]; exact hp, hmask,
      (hroot .v6 p hf).2 hholds, ?_⟩
    intro q hq
    cases hqf : q.fam with
    | v4 =>
      have hq4 := (hroot .v4 q hqf).1 hq
      rw [root, h4] at hq4
      cases hq4
    | v6 => exact hleast q hqf ((hroot .v6 q hqf).1 hq)
  · obtain ⟨p, hp, hf, hmask, hholds, hleast⟩ := exampleNode_least (hs .v4) h4
    have hp4 : exampleNode .v4 s.v4 = some p := hp
    refine ⟨p, by rw [hp4, Option.some_or], hmask, (hroot .v4 p hf).2 hholds, ?_⟩
    intro q hq
    cases hqf : q.fam with
    | v4 => exact hleast q hqf ((hroot .v4 q hqf).1 hq)
    | v6 => exact .inl ⟨hf, hqf⟩

/-- **The decomposition of a space is canonical**: its ranges are not empty and follow one another
in order, without overlap; they give the space back, and are those of no other; and the example is
the least prefix of the space, where there is one. -/
theorem ranges_canonical (hs : s.Built) (ht : t.Built) :
    (∀ r ∈ s.ranges, r.isEmpty = false) ∧ s.ranges.Pairwise Follows ∧
    (spaceOf s.ranges).equal s = true ∧
    (s.ranges = t.ranges ↔ ∀ p, s.contains p = t.contains p) ∧
    (s.isEmpty = false → ∃ p, s.exampleOf = some p ∧ p.masked = p ∧ s.contains p = true ∧
      ∀ q, s.contains q = true → ExampleLE p q) ∧
    (s.isEmpty = true → s.exampleOf = none) := by
  have hsc := hs.canonical
  refine ⟨hsc.ranges_isEmpty, hsc.ranges_pairwise, ?_, hsc.ranges_inj ht.canonical,
    hsc.exampleOf_least, ?_⟩
  · rw [equal_iff]
    exact hsc.spaceOf_ranges
  · intro hempty
    rw [isEmpty, Bool.and_eq_true, isNil_iff, isNil_iff] at hempty
    rw [exampleOf, hempty.1, hempty.2, exampleNode_nil, exampleNode_nil]
    rfl

/-- Under the bit `b` the IPv4 prefixes of lengths 1 to 3 and the IPv6 prefixes of lengths 4 to 64,
and under its opposite the IPv4 prefixes of lengths 5 to 8. -/
def threeRanges (b : Bool) : PrefixSpace :=
  spaceOf ((PrefixRange.new (.ofPath .v4 [b] (by simp [Family.width])) 1 3).toList ++
    (PrefixRange.new (.ofPath .v6 [b] (by simp [Family.width])) 4 64).toList ++
    (PrefixRange.new (.ofPath .v4 [!b] (by simp [Family.width])) 5 8).toList)

/-- Three ranges of both families, and three others. -/
theorem ranges_canonical_threeRanges :
    (threeRanges false).ranges.length = 3 ∧
      (threeRanges false).ranges.Pairwise PrefixRange.Follows ∧
      (spaceOf (threeRanges false).ranges).equal (threeRanges false) = true ∧
      ¬ ∀ p, (threeRanges false).contains p = (threeRanges true).contains p := by
  have hbuilt (b : Bool) : (threeRanges b).Built := .spaceOf _
  obtain ⟨-, hfollows, hequal, heq, -⟩ := ranges_canonical (hbuilt false) (hbuilt true)
  refine ⟨by decide +kernel, hfollows, hequal, fun h => ?_⟩
  have hne : (threeRanges false).ranges ≠ (threeRanges true).ranges := by decide +kernel
  exact hne (heq.2 h)

end PrefixSpace

end Rpsl
