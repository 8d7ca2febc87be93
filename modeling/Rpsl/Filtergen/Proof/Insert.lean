import Rpsl.Filtergen.Tree
import Rpsl.Lib.Outcome
import Rpsl.Types.Proof.Order
import Rpsl.Types.Proof.Range

/-!
# What a prefix tree lists

A tree that ranges were added to lists the prefixes they hold, in order:

* `Node.Under`: every node's prefix continues its parent's with the bit of the side it is on, so a
  walk over the nodes meets the prefixes in order (`entries_sorted`).
* `insert_rule`: what the walk of `insert` does to a node, in terms of where the two paths part.
  It keeps `Under` (`insert_under`) and lists one more prefix (`mem_insert`).
* `Adds t P t'`: the tree `t'` lists what `t` lists and the prefixes with `P`. The walk over the
  more-specifics adds those in its window (`insertSpecifics_ends`), so `Add` what the range holds
  (`add_ends`), unless there are more prefixes than the cap allows (`Full`): whether a sequence of
  `Add`s succeeds does not depend on its order (`addAll_eq_ok_iff`).
-/

namespace Rpsl.Filtergen

open Lib

/-! ## Bits and paths -/

theorem bitSet_succ (a : Addr) (k : Nat) : bitSet a (k + 1) = a.bitAt k := by
  unfold bitSet
  by_cases h : a.bitLen < k + 1
  · rw [if_pos (.inr h), a.bitAt_of_le (by exact Nat.le_of_lt_succ h)]
  · rw [if_neg (by omega), Nat.add_sub_cancel]

theorem bitAt_setBit (a : Addr) {k : Nat} (h : k < a.fam.width) (d : Nat) :
    (setBit a (k + 1)).bitAt d = (a.bitAt d || decide (d = k)) := by
  simp only [setBit, Addr.bitAt, BitVec.getMsbD_or, BitVec.getMsbD_twoPow]
  congr 1
  rw [Bool.eq_iff_iff]
  simp
  omega

theorem eqBits_le (a b : Prefix) : eqBits a b ≤ min a.bits b.bits := by
  unfold eqBits
  cases h : (List.range (min a.bits b.bits)).find? fun i => a.addr.bitAt i != b.addr.bitAt i with
  | none => exact le_refl _
  | some i => exact (List.mem_range.1 (List.mem_of_find?_eq_some h)).le

theorem bitAt_of_lt_eqBits {a b : Prefix} {d : Nat} (hd : d < eqBits a b) :
    a.addr.bitAt d = b.addr.bitAt d := by
  unfold eqBits at hd
  cases h : (List.range (min a.bits b.bits)).find? fun i => a.addr.bitAt i != b.addr.bitAt i with
  | none =>
    rw [h] at hd
    simpa using List.find?_eq_none.1 h d (List.mem_range.2 hd)
  | some i =>
    rw [h] at hd
    simpa using (List.find?_range_eq_some.1 h).2.2 d hd

theorem bitAt_eqBits {a b : Prefix} (hlt : eqBits a b < min a.bits b.bits) :
    a.addr.bitAt (eqBits a b) ≠ b.addr.bitAt (eqBits a b) := by
  have key : ∀ {i}, ((List.range (min a.bits b.bits)).find? fun i =>
      a.addr.bitAt i != b.addr.bitAt i) = some i → a.addr.bitAt i ≠ b.addr.bitAt i := by
    intro i h
    simpa using List.find?_some h
  unfold eqBits at hlt ⊢
  cases h : (List.range (min a.bits b.bits)).find? fun i => a.addr.bitAt i != b.addr.bitAt i with
  | none =>
    rw [h] at hlt
    exact absurd hlt (lt_irrefl _)
  | some i => exact key h

theorem take_path_eqBits (a b : Prefix) : a.path.take (eqBits a b) = b.path.take (eqBits a b) := by
  have hle := eqBits_le a b
  refine List.ext_getElem (by simp; omega) fun d h1 h2 => ?_
  have hd : d < eqBits a b := by
    rw [List.length_take] at h1
    omega
  simpa [Prefix.path] using bitAt_of_lt_eqBits hd

theorem take_path_succ (p : Prefix) {k : Nat} (h : k < p.bits) :
    p.path.take k ++ [p.addr.bitAt k] <+: p.path := by
  have hk : k < p.path.length := by simpa using h
  have hget : p.path.get ⟨k, hk⟩ = p.addr.bitAt k := by simp [Prefix.path]
  rw [← hget, List.get_eq_getElem, List.take_concat_get']
  exact List.take_prefix _ _

theorem take_path_bits (p : Prefix) : p.path.take p.bits = p.path := by
  rw [← p.path_length, List.take_length]

/-! ## One step of the walk -/

abbrev leaf (p : Prefix) : Node := .node { pfx := p } [] .nil .nil

variable {p : Prefix} {c : Item} {sons : List Item} {l : Node}

/-- **What `insert` makes of a node**: the paths part, or one prefix covers the other, or they are
the same. -/
theorem insert_rule {Q : Node × Bool → Prop} {r : Node}
    (hp : p.masked = p) (hc : c.pfx.masked = c.pfx) (hf : c.pfx.fam = p.fam)
    (part : ∀ (g : Prefix) (b : Bool), g.masked = g → g.fam = p.fam → g.path ++ [b] <+: p.path →
      g.path ++ [!b] <+: c.pfx.path →
      Q (.node { pfx := g, glue := true } [] (if b then .node c sons l r else leaf p)
        (if b then leaf p else .node c sons l r), true))
    (above : ∀ b, p.path ++ [b] <+: c.pfx.path →
      Q (.node { pfx := p } [] (if b then .nil else .node c sons l r)
        (if b then .node c sons l r else .nil), true))
    (below : ∀ b, c.pfx.path ++ [b] <+: p.path →
      Q (.node c sons (if b then l else (l.insert p).1) (if b then (r.insert p).1 else r),
        if b then (r.insert p).2 else (l.insert p).2))
    (same : c.pfx = p → Q (.node { c with glue := false } sons l r, c.glue)) :
    Q (Node.insert p (.node c sons l r)) := by
  have hle := eqBits_le p c.pfx
  have htake := take_path_eqBits p c.pfx
  simp only [Node.insert, bitSet_succ]
  by_cases h1 : eqBits p c.pfx < p.bits ∧ eqBits p c.pfx < c.pfx.bits
  · have hne := bitAt_eqBits (a := p) (b := c.pfx) (by omega)
    have hg := part (p.up (eqBits p c.pfx)) (p.addr.bitAt (eqBits p c.pfx)) (p.up_masked _) rfl
      (by rw [p.up_path]; exact take_path_succ p h1.1)
      (by
        have hb : (!p.addr.bitAt (eqBits p c.pfx)) = c.pfx.addr.bitAt (eqBits p c.pfx) := by
          rw [← Bool.eq_not_of_ne hne.symm]
        rw [p.up_path, htake, hb]
        exact take_path_succ c.pfx h1.2)
    rw [if_pos h1]
    cases hb : p.addr.bitAt (eqBits p c.pfx) <;> simpa [hb] using hg
  · rw [if_neg h1]
    by_cases h2 : eqBits p c.pfx = p.bits ∧ eqBits p c.pfx < c.pfx.bits
    · have hg := above (c.pfx.addr.bitAt (eqBits p c.pfx)) (by
        have h := take_path_succ c.pfx h2.2
        rwa [← htake, h2.1, take_path_bits, ← h2.1] at h)
      rw [if_pos h2]
      cases hb : c.pfx.addr.bitAt (eqBits p c.pfx) <;> simpa [hb] using hg
    · rw [if_neg h2]
      by_cases h3 : eqBits p c.pfx = c.pfx.bits ∧ eqBits p c.pfx < p.bits
      · have hg := below (p.addr.bitAt (eqBits p c.pfx)) (by
          have h := take_path_succ p h3.2
          rwa [htake, h3.1, take_path_bits, ← h3.1] at h)
        rw [if_pos h3]
        cases hb : p.addr.bitAt (eqBits p c.pfx) <;> simpa [hb] using hg
      · rw [if_neg h3]
        refine same (Prefix.ext_path hc hp hf ?_)
        have hpb : eqBits p c.pfx = p.bits := by omega
        have hcb : eqBits p c.pfx = c.pfx.bits := by omega
        have hpath := htake
        rw [hpb, take_path_bits, ← hpb, hcb, take_path_bits] at hpath
        exact hpath.symm

/-! ## Where the nodes stand -/

/-- The prefixes of a subtree are of the family and without host bits, and each continues its
parent's path with the bit of its side. -/
def Node.Under (f : Family) : Node → List Bool → Prop
  | .nil, _ => True
  | .node c _ l r, s => c.pfx.fam = f ∧ c.pfx.masked = c.pfx ∧ s <+: c.pfx.path ∧
      l.Under f (c.pfx.path ++ [false]) ∧ r.Under f (c.pfx.path ++ [true])

def Node.Plain : Node → Prop
  | .nil => True
  | .node c sons l r => c.aggregate = false ∧ sons = [] ∧ l.Plain ∧ r.Plain

variable {f : Family} {s : List Bool}

theorem Node.Under.at {r : Node} {s' : List Bool}
    (h : (Node.node c sons l r).Under f s) (hs : s' <+: c.pfx.path) :
    (Node.node c sons l r).Under f s' := ⟨h.1, h.2.1, hs, h.2.2.2⟩

theorem leaf_under (hf : p.fam = f)
    (hp : p.masked = p) (hs : s <+: p.path) : (leaf p).Under f s := ⟨hf, hp, hs, trivial, trivial⟩

theorem prefix_of_part {g x y : List Bool} {b : Bool} (hx : s <+: x) (hy : s <+: y)
    (hgx : g ++ [b] <+: x) (hgy : g ++ [!b] <+: y) : s <+: g := by
  by_cases hlen : s.length ≤ g.length
  · exact List.prefix_of_prefix_length_le hx ((List.prefix_append g [b]).trans hgx) hlen
  · -- otherwise `s` holds the bit the sides differ in
    exfalso
    have h1 : g ++ [b] <+: s := List.prefix_of_prefix_length_le hgx hx (by simp; omega)
    have h2 : g ++ [!b] <+: s := List.prefix_of_prefix_length_le hgy hy (by simp; omega)
    have h3 := List.prefix_of_prefix_length_le h1 h2 (by simp)
    have h4 := h3.eq_of_length (by simp)
    simp at h4

variable {n : Node}

theorem insert_under (hf : p.fam = f) (hp : p.masked = p)
    (hs : s <+: p.path) (h : n.Under f s) : (n.insert p).1.Under f s := by
  induction n generalizing s with
  | nil => exact leaf_under hf hp hs
  | node c sons l r ihl ihr =>
    obtain ⟨hcf, hcm, hcs, hl, hr⟩ := h
    have hn : (Node.node c sons l r).Under f s := ⟨hcf, hcm, hcs, hl, hr⟩
    refine insert_rule (Q := fun x => x.1.Under f s) hp hcm (hcf.trans hf.symm) ?_ ?_ ?_ ?_
    · intro g b hg hgf hgp hgc
      refine ⟨hgf.trans hf, hg, prefix_of_part hs hcs hgp hgc, ?_⟩
      cases b with
      | false => exact ⟨leaf_under hf hp hgp, hn.at hgc⟩
      | true => exact ⟨hn.at hgc, leaf_under hf hp hgp⟩
    · intro b hb
      refine ⟨hf, hp, hs, ?_⟩
      cases b with
      | false => exact ⟨hn.at hb, trivial⟩
      | true => exact ⟨trivial, hn.at hb⟩
    · intro b hb
      refine ⟨hcf, hcm, hcs, ?_⟩
      cases b with
      | false => exact ⟨ihl hb hl, hr⟩
      | true => exact ⟨hl, ihr hb hr⟩
    · intro _
      exact hn

/-! ## What is listed -/

def listed (p : Prefix) : Entry := ⟨p, false, 0, 0⟩

theorem listed_inj {q : Prefix} : listed p = listed q ↔ p = q := by simp [listed]

@[simp] theorem entries_glue {i : Item} (h : i.glue = true) : i.entries = [] := by
  simp [Item.entries, h]

@[simp] theorem entries_new (p : Prefix) : Item.entries { pfx := p } = [listed p] := rfl

theorem entries_item_plain {i : Item} (h : i.aggregate = false) :
    i.entries = if i.glue then [] else [listed i.pfx] := by
  simp [Item.entries, h, listed]

variable {e : Entry}

theorem mem_entries_node {r : Node} :
    e ∈ (Node.node c sons l r).entries ↔
      e ∈ c.entries ∨ (∃ s ∈ sons, e ∈ s.entries) ∨ e ∈ l.entries ∨ e ∈ r.entries := by
  simp [Node.entries]

theorem insert_plain (hp : p.masked = p) (hf : p.fam = f)
    (hu : n.Under f s) (h : n.Plain) : (n.insert p).1.Plain := by
  induction n generalizing s with
  | nil => exact ⟨rfl, rfl, trivial, trivial⟩
  | node c sons l r ihl ihr =>
    have hn : (Node.node c sons l r).Plain := h
    obtain ⟨hcf, hcm, -, hul, hur⟩ := hu
    obtain ⟨ha, hs, hl, hr⟩ := h
    have hleaf : (leaf p).Plain := ⟨rfl, rfl, trivial, trivial⟩
    refine insert_rule (Q := fun x => x.1.Plain) hp hcm (hcf.trans hf.symm) ?_ ?_ ?_ ?_
    · intro g b _ _ _ _
      cases b with
      | false => exact ⟨rfl, rfl, hleaf, hn⟩
      | true => exact ⟨rfl, rfl, hn, hleaf⟩
    · intro b _
      cases b with
      | false => exact ⟨rfl, rfl, hn, trivial⟩
      | true => exact ⟨rfl, rfl, trivial, hn⟩
    · intro b _
      cases b with
      | false => exact ⟨ha, hs, ihl hul hl, hr⟩
      | true => exact ⟨ha, hs, hl, ihr hur hr⟩
    · intro _
      exact ⟨ha, hs, hl, hr⟩

/-- **An insertion lists one more prefix.** -/
theorem mem_insert (hp : p.masked = p) (hf : p.fam = f)
    (hu : n.Under f s) (h : n.Plain) (e : Entry) :
    e ∈ (n.insert p).1.entries ↔ e ∈ n.entries ∨ e = listed p := by
  induction n generalizing s with
  | nil => simp [Node.insert, Node.entries]
  | node c sons l r ihl ihr =>
    obtain ⟨hcf, hcm, -, hul, hur⟩ := hu
    obtain ⟨ha, hs, hl, hr⟩ := h
    refine insert_rule (Q := fun x => e ∈ x.1.entries ↔ _) hp hcm (hcf.trans hf.symm) ?_ ?_ ?_ ?_
    · intro g b _ _ _ _
      cases b with
      | false => simp [Node.entries, or_comm]
      | true => simp [Node.entries, or_assoc]
    · intro b _
      cases b with
      | false => simp [Node.entries, or_comm]
      | true => simp [Node.entries, or_comm]
    · intro b _
      cases b with
      | false =>
        rw [mem_entries_node, mem_entries_node, if_neg Bool.false_ne_true,
          if_neg Bool.false_ne_true, ihl hul hl]
        simp only [or_assoc, or_left_comm, or_comm]
      | true =>
        rw [mem_entries_node, mem_entries_node, if_pos rfl, if_pos rfl, ihr hur hr]
        simp only [or_assoc]
    · intro hcp
      have hc : ({ c with glue := false } : Item).entries = [listed p] := by
        rw [entries_item_plain (by exact ha), ← hcp]
        rfl
      have hc' : e ∈ c.entries → e = listed p := by
        rw [entries_item_plain ha, hcp]
        cases c.glue <;> simp
      rw [mem_entries_node, mem_entries_node, hc, List.mem_singleton]
      constructor
      · rintro (h | h)
        · exact .inr h
        · exact .inl (.inr h)
      · rintro ((h | h) | h)
        · exact .inl (hc' h)
        · exact .inr h
        · exact .inl h

/-- A prefix is charged when it is one more. -/
theorem length_insert (hp : p.masked = p) (hf : p.fam = f) (hu : n.Under f s) (h : n.Plain) :
    (n.insert p).1.entries.length = n.entries.length + (n.insert p).2.toNat := by
  induction n generalizing s with
  | nil => rfl
  | node c sons l r ihl ihr =>
    obtain ⟨hcf, hcm, -, hul, hur⟩ := hu
    obtain ⟨ha, rfl, hl, hr⟩ := h
    have hlen (c : Item) (l r : Node) : (Node.node c [] l r).entries.length =
        c.entries.length + (l.entries.length + r.entries.length) := by
      simp [Node.entries]
    have hleaf : (leaf p).entries.length = 1 := rfl
    refine insert_rule (Q := fun x => x.1.entries.length = _ + x.2.toNat) hp hcm
      (hcf.trans hf.symm) ?_ ?_ ?_ ?_
    · intro g b _ _ _ _
      rw [hlen, entries_glue rfl]
      cases b <;> simp [hleaf, Nat.add_comm]
    · intro b _
      rw [hlen, entries_new]
      cases b <;> simp [Node.entries, Nat.add_comm]
    · intro b _
      rw [hlen, hlen]
      cases b with
      | false => simp [ihl hul hl]; omega
      | true => simp [ihr hur hr, Nat.add_assoc]
    · intro _
      rw [hlen, hlen, entries_item_plain ha, entries_item_plain (by exact ha)]
      cases c.glue <;> simp [Nat.add_comm]

theorem eq_listed (h : n.Plain) (he : e ∈ n.entries) : e = listed e.pfx := by
  induction n with
  | nil => simp [Node.entries] at he
  | node c sons l r ihl ihr =>
    obtain ⟨ha, rfl, hl, hr⟩ := h
    rcases mem_entries_node.1 he with hc | ⟨s, hs, -⟩ | hl' | hr'
    · rw [entries_item_plain ha] at hc
      cases hg : c.glue with
      | true => simp [hg] at hc
      | false =>
        have hc : e = listed c.pfx := by simpa [hg] using hc
        rw [hc]
        rfl
    · simp at hs
    · exact ihl hl hl'
    · exact ihr hr hr'

theorem entry_under (hu : n.Under f s) (h : n.Plain)
    (he : e ∈ n.entries) : e.pfx.fam = f ∧ e.pfx.masked = e.pfx ∧ s <+: e.pfx.path := by
  induction n generalizing s with
  | nil => simp [Node.entries] at he
  | node c sons l r ihl ihr =>
    obtain ⟨hcf, hcm, hcs, hul, hur⟩ := hu
    obtain ⟨ha, rfl, hl, hr⟩ := h
    have down : ∀ {b : Bool}, (e.pfx.fam = f ∧ e.pfx.masked = e.pfx ∧
        c.pfx.path ++ [b] <+: e.pfx.path) → e.pfx.fam = f ∧ e.pfx.masked = e.pfx ∧
        s <+: e.pfx.path :=
      fun h => ⟨h.1, h.2.1, hcs.trans ((List.prefix_append _ _).trans h.2.2)⟩
    rcases mem_entries_node.1 he with hc | ⟨s, hs, -⟩ | hl' | hr'
    · rw [entries_item_plain ha] at hc
      cases hg : c.glue with
      | true => simp [hg] at hc
      | false =>
        have hc : e = listed c.pfx := by simpa [hg] using hc
        rw [hc]
        exact ⟨hcf, hcm, hcs⟩
    · simp at hs
    · exact down (ihl hul hl hl')
    · exact down (ihr hur hr hr')

/-- **A walk meets the prefixes in order.** -/
theorem entries_sorted (hu : n.Under f s) (h : n.Plain) :
    n.entries.Pairwise fun a b => a.pfx.less b.pfx = true := by
  induction n generalizing s with
  | nil => exact .nil
  | node c sons l r ihl ihr =>
    obtain ⟨hcf, hcm, -, hul, hur⟩ := hu
    obtain ⟨ha, rfl, hl, hr⟩ := h
    have first : ∀ {b : Bool} {e : Entry}, (e.pfx.fam = f ∧ e.pfx.masked = e.pfx ∧
        c.pfx.path ++ [b] <+: e.pfx.path) → c.pfx.less e.pfx = true := by
      intro b e he
      refine Prefix.less_of_covers hcm
        ⟨hcf.trans he.1.symm, (List.prefix_append _ _).trans he.2.2⟩ ?_
      have := he.2.2.length_le
      simp at this
      omega
    have hsides : (l.entries ++ r.entries).Pairwise fun a b => a.pfx.less b.pfx = true := by
      refine List.pairwise_append.2 ⟨ihl hul hl, ihr hur hr, fun a ha b hb => ?_⟩
      have hla := entry_under hul hl ha
      have hrb := entry_under hur hr hb
      exact Prefix.less_of_part (hla.1.trans hrb.1.symm) hla.2.2 hrb.2.2
    have hroot : ∀ e ∈ l.entries ++ r.entries, c.pfx.less e.pfx = true := by
      intro e he
      rcases List.mem_append.1 he with he | he
      · exact first (entry_under hul hl he)
      · exact first (entry_under hur hr he)
    have hlist : (Node.node c [] l r).entries = c.entries ++ (l.entries ++ r.entries) := by
      simp [Node.entries]
    rw [hlist, entries_item_plain ha]
    cases c.glue with
    | true => simpa using hsides
    | false => exact List.pairwise_cons.2 ⟨hroot, hsides⟩

/-! ## Adding ranges -/

namespace Tree

structure Wf (t : Tree) : Prop where
  under : t.head.Under (family t.v6) []
  plain : t.head.Plain
  count : t.prefixes = t.entries.length
  cap : (t.prefixes : Int) ≤ max 0 t.maxPrefixes

structure Adds (t : Tree) (P : Prefix → Prop) (t' : Tree) : Prop where
  v6 : t'.v6 = t.v6
  maxLen : t'.maxLen = t.maxLen
  maxPrefixes : t'.maxPrefixes = t.maxPrefixes
  wf : t'.Wf
  mem : ∀ e, e ∈ t'.entries ↔ e ∈ t.entries ∨ ∃ q, P q ∧ e = listed q

/-- The prefixes that are listed or have `P` are too many. -/
def Full (t : Tree) (P : Prefix → Prop) : Prop :=
  ∃ l : List Prefix, l.Nodup ∧ (∀ q ∈ l, listed q ∈ t.entries ∨ P q) ∧
    max 0 t.maxPrefixes < l.length

theorem wf_new (v6 : Bool) (maxLen maxPrefixes : Int) : (Tree.new v6 maxLen maxPrefixes).Wf :=
  ⟨trivial, trivial, rfl, le_max_left ..⟩

variable {t t' t'' : Tree} {P Q : Prefix → Prop}

theorem Wf.nodup_pfx (ht : t.Wf) : (t.entries.map Entry.pfx).Nodup := by
  rw [List.Nodup, List.pairwise_map]
  refine (entries_sorted ht.under ht.plain).imp fun {a b} hless heq => ?_
  rw [heq, Prefix.less_irrefl] at hless
  cases hless

theorem Adds.refl (h : t.Wf) (hP : ∀ q, ¬ P q) : t.Adds P t :=
  ⟨rfl, rfl, rfl, h, fun e => by simp [hP]⟩

theorem Adds.congr (h : t.Adds P t') (hPQ : ∀ q, P q ↔ Q q) : t.Adds Q t' :=
  ⟨h.v6, h.maxLen, h.maxPrefixes, h.wf, fun e => by rw [h.mem]; simp only [hPQ]⟩

theorem Adds.trans (h : t.Adds P t') (h' : t'.Adds Q t'') : t.Adds (fun q => P q ∨ Q q) t'' := by
  refine ⟨h'.v6.trans h.v6, h'.maxLen.trans h.maxLen, h'.maxPrefixes.trans h.maxPrefixes, h'.wf,
    fun e => ?_⟩
  rw [h'.mem, h.mem]
  simp only [or_and_right, exists_or, or_assoc]

theorem Full.mono (h : t.Full P) (hPQ : ∀ q, P q → Q q) : t.Full Q := by
  obtain ⟨l, hl, hmem, hlen⟩ := h
  exact ⟨l, hl, fun q hq => (hmem q hq).imp_right (hPQ q), hlen⟩

theorem Adds.full (h : t.Adds P t') (hf : t'.Full Q) : t.Full fun q => P q ∨ Q q := by
  obtain ⟨l, hl, hmem, hlen⟩ := hf
  refine ⟨l, hl, fun q hq => ?_, h.maxPrefixes ▸ hlen⟩
  rcases hmem q hq with hq | hq
  · rcases (h.mem _).1 hq with hq | ⟨q', hq', heq⟩
    · exact .inl hq
    · exact .inr (.inl (listed_inj.1 heq ▸ hq'))
  · exact .inr (.inr hq)

theorem insert_ends (hp : p.masked = p) (hf : p.fam = family t.v6) (ht : t.Wf) :
    Ends (t.insert p) (t.Adds (· = p)) fun _ => t.Full (· = p) := by
  have hu := insert_under hf hp List.nil_prefix ht.under
  have hpl := insert_plain hp hf ht.under ht.plain
  have hlen := length_insert hp hf ht.under ht.plain
  have hm := fun e => mem_insert hp hf ht.under ht.plain e
  have hcount := ht.count
  have hcap := ht.cap
  unfold insert
  generalize t.head.insert p = x at hu hpl hlen hm
  obtain ⟨head, new⟩ := x
  dsimp only at hu hpl hlen hm ⊢
  have hadds (k : Nat) (hk : k = head.entries.length) (hle : (k : Int) ≤ max 0 t.maxPrefixes) :
      t.Adds (· = p) { t with head := head, prefixes := k } :=
    ⟨rfl, rfl, rfl, ⟨hu, hpl, hk, hle⟩, fun e => (hm e).trans (by simp [entries])⟩
  cases new with
  | false => exact hadds t.prefixes (hcount.trans hlen.symm) hcap
  | true =>
    rw [Bool.not_true, if_neg Bool.false_ne_true]
    have hsucc : head.entries.length = t.prefixes + 1 := hlen.trans (by rw [hcount]; rfl)
    split_ifs with hfull
    · -- with the prefix there would be one too many
      have hwf : (Tree.mk t.v6 t.maxLen head.entries.length head.entries.length head).Wf :=
        ⟨hu, hpl, rfl, le_max_right ..⟩
      refine ⟨head.entries.map Entry.pfx, hwf.nodup_pfx, fun q hq => ?_, ?_⟩
      · obtain ⟨e, he, rfl⟩ := List.mem_map.1 hq
        rcases (hm e).1 he with h | h
        · exact .inl (eq_listed ht.plain h ▸ h)
        · exact .inr (congrArg Entry.pfx h)
      · rw [List.length_map, hsucc]
        omega
    · exact hadds _ hsucc.symm (by omega)

theorem half_path (hp : p.masked = p) (b : Bool) (h : p.bits < p.addr.fam.width) :
    (half p b h).path = p.path ++ [b] := by
  have hbit : p.addr.bitAt p.bits = false := Prefix.bitAt_of_masked hp (le_refl _)
  cases b with
  | false => simp [half, Prefix.path, List.range_succ, hbit]
  | true =>
    simp only [half, Prefix.path, List.range_succ, List.map_append, List.map_cons, List.map_nil,
      if_true]
    congr 1
    · refine List.map_congr_left fun d hd => ?_
      have hd : d < p.bits := List.mem_range.1 hd
      rw [bitAt_setBit _ h]
      simp [show d ≠ p.bits by omega]
    · rw [bitAt_setBit _ h]
      simp

@[simp] theorem half_fam (p : Prefix) (b : Bool) (h : p.bits < p.addr.fam.width) :
    (half p b h).fam = p.fam := by cases b <;> rfl

@[simp] theorem half_bits (p : Prefix) (b : Bool) (h : p.bits < p.addr.fam.width) :
    (half p b h).bits = p.bits + 1 := by cases b <;> rfl

theorem half_masked (hp : p.masked = p) (b : Bool) (h : p.bits < p.addr.fam.width) :
    (half p b h).masked = half p b h := by
  have hle : (half p b h).bits ≤ (half p b h).addr.fam.width := (half p b h).le
  have haddr : (half p b h).masked.addr = (half p b h).addr := by
    refine Addr.ext_bitAt rfl fun d => ?_
    simp only [Prefix.masked]
    rw [Addr.bitAt_mask _ hle, half_bits]
    by_cases hd : d < p.bits + 1
    · simp [hd]
    · have h0 : p.addr.bitAt d = false := Prefix.bitAt_of_masked hp (by omega)
      have hb : (half p b h).addr.bitAt d = false := by
        cases b with
        | false => exact h0
        | true =>
          simp only [half, if_true]
          rw [bitAt_setBit _ h, h0]
          simp
          omega
      rw [hb, Bool.and_false]
  have hext : ∀ {x y : Prefix}, x.addr = y.addr → x.bits = y.bits → x = y := by
    rintro ⟨a, b, _⟩ ⟨a', b', _⟩ h1 h2
    cases h1
    cases h2
    rfl
  exact hext haddr rfl

theorem covers_half (hp : p.masked = p) (h : p.bits < p.addr.fam.width) (q : Prefix) :
    p.Covers q ∧ p.bits < q.bits ↔ (half p false h).Covers q ∨ (half p true h).Covers q := by
  have hbits : ∀ b, (half p b h).Covers q → p.Covers q ∧ p.bits < q.bits := by
    intro b hb
    have hlen := hb.bits_le
    rw [half_bits] at hlen
    refine ⟨⟨(half_fam p b h).symm.trans hb.1, ?_⟩, hlen⟩
    have hpre := hb.2
    rw [half_path hp] at hpre
    exact (List.prefix_append _ _).trans hpre
  constructor
  · rintro ⟨hcov, hlt⟩
    have hpath := take_path_succ q hlt
    have htake : q.path.take p.bits = p.path := by
      rw [← p.path_length]
      exact (List.prefix_iff_eq_take.1 hcov.2).symm
    rw [htake] at hpath
    cases hb : q.addr.bitAt p.bits with
    | false => exact .inl ⟨(half_fam ..).trans hcov.1, by rwa [half_path hp, ← hb]⟩
    | true => exact .inr ⟨(half_fam ..).trans hcov.1, by rwa [half_path hp, ← hb]⟩
  · rintro (h' | h')
    · exact hbits _ h'
    · exact hbits _ h'

def Specific (p : Prefix) (lo hi : Nat) (q : Prefix) : Prop :=
  q.masked = q ∧ p.Covers q ∧ lo ≤ q.bits ∧ q.bits ≤ hi

theorem eq_of_covers {q : Prefix} (hp : p.masked = p) (hq : q.masked = q) (h : p.Covers q)
    (hle : q.bits ≤ p.bits) : q = p :=
  (Prefix.ext_path hp hq h.1 (h.2.eq_of_length (by simpa using le_antisymm h.bits_le hle))).symm

theorem specific_split (hp : p.masked = p) (h : p.bits < p.addr.fam.width)
    (lo hi : Nat) (hhi : p.bits ≤ hi) (q : Prefix) :
    ((lo ≤ p.bits ∧ q = p) ∨ Specific (half p false h) lo hi q ∨
      Specific (half p true h) lo hi q) ↔ Specific p lo hi q := by
  have hc := covers_half hp h q
  unfold Specific
  by_cases hlt : p.bits < q.bits
  · have hne : q ≠ p := by
      rintro rfl
      exact lt_irrefl _ hlt
    simp only [hlt, and_true] at hc
    rw [hc]
    tauto
  · have hnot : ∀ b, ¬ (half p b h).Covers q := fun b hb => hlt (by
      have := hb.bits_le
      rw [half_bits] at this
      omega)
    simp only [hnot, false_and, and_false, or_false]
    constructor
    · rintro ⟨hlo, rfl⟩
      exact ⟨hp, .refl _, hlo, hhi⟩
    · rintro ⟨hq, hcov, hlo, -⟩
      obtain rfl := eq_of_covers hp hq hcov (by omega)
      exact ⟨hlo, rfl⟩

theorem specific_stop (hp : p.masked = p) (lo : Nat) {hi : Nat} (hle : p.bits ≤ hi)
    (hstop : hi = p.bits ∨ p.bitLen ≤ p.bits) (q : Prefix) :
    (lo ≤ p.bits ∧ q = p) ↔ Specific p lo hi q := by
  constructor
  · rintro ⟨hlo, rfl⟩
    exact ⟨hp, .refl _, hlo, hle⟩
  · rintro ⟨hq, hcov, hlo, hqh⟩
    have hqw : q.bits ≤ p.bitLen := by
      have hfam : p.addr.fam = q.addr.fam := hcov.1
      unfold Prefix.bitLen Addr.bitLen
      rw [hfam]
      exact q.le
    obtain rfl := eq_of_covers hp hq hcov (by omega)
    exact ⟨hlo, rfl⟩

theorem insertFrom_ends (lo : Nat) (hp : p.masked = p) (hf : p.fam = family t.v6) (ht : t.Wf) :
    Ends (insertFrom lo p t) (t.Adds fun q => lo ≤ p.bits ∧ q = p)
      fun _ => t.Full fun q => lo ≤ p.bits ∧ q = p := by
  unfold insertFrom
  split_ifs with hlo
  · exact (insert_ends hp hf ht).mono (fun _ h => h.congr fun q => by simp [hlo])
      fun _ h => h.mono fun q hq => ⟨hlo, hq⟩
  · exact .refl ht fun q hq => hlo hq.1

/-- **The walk over the more-specifics** adds those of the lengths asked for. -/
theorem insertSpecifics_ends (lo : Nat) {left : Nat} (hp : p.masked = p)
    (hf : p.fam = family t.v6) (ht : t.Wf) :
    Ends (insertSpecifics lo left p t) (t.Adds (Specific p lo (p.bits + left)))
      fun _ => t.Full (Specific p lo (p.bits + left)) := by
  induction left generalizing p t with
  | zero =>
    have hstop := specific_stop hp lo (le_refl p.bits) (.inl rfl)
    rw [insertSpecifics]
    refine ((insertFrom_ends lo hp hf ht).mono (fun _ h => h.congr hstop)
      fun _ h => h.mono fun q => (hstop q).1).bind fun u hu => hu
  | succ left ih =>
    rw [insertSpecifics]
    by_cases hw : p.bits < p.addr.fam.width
    · have hsplit := specific_split hp hw lo (p.bits + (left + 1)) (by omega)
      have hbits : ∀ b, (half p b hw).bits + left = p.bits + (left + 1) := by
        intro b
        rw [half_bits]
        omega
      have hhalf (b : Bool) {u : Tree} (hv : u.v6 = t.v6) (hu : u.Wf) :=
        ih (t := u) (half_masked hp b hw) ((half_fam ..).trans (hf.trans (hv ▸ rfl))) hu
      simp only [hbits] at hhalf
      refine ((insertFrom_ends lo hp hf ht).mono (fun _ h => h)
        fun _ h => h.mono fun q hq => (hsplit q).1 (.inl hq)).bind fun u hu => ?_
      simp only [hw, dif_pos]
      refine ((hhalf false hu.v6 hu.wf).mono (fun _ h => h) fun _ h =>
        (hu.full h).mono fun q hq => (hsplit q).1 (hq.imp_right .inl)).bind fun v hv => ?_
      exact (hhalf true (hv.v6.trans hu.v6) hv.wf).mono
        (fun _ h => (hu.trans (hv.trans h)).congr hsplit)
        fun _ h => (hu.full (hv.full h)).mono fun q => (hsplit q).1
    · have hstop := specific_stop hp lo (Nat.le_add_right p.bits (left + 1))
        (.inr (by exact Nat.le_of_not_lt hw))
      refine ((insertFrom_ends lo hp hf ht).mono (fun _ h => h.congr hstop)
        fun _ h => h.mono fun q => (hstop q).1).bind fun u hu => ?_
      simp only [hw, dif_neg, not_false_eq_true]
      exact hu

/-- The prefixes a range adds to a tree. -/
def Takes (t : Tree) (r : PrefixRange) (q : Prefix) : Prop :=
  q.masked = q ∧ q.fam = family t.v6 ∧ q.bits ≤ t.maxLen ∧ r.contains q = true

/-- The tree takes the range: only that of no prefix, in an IPv4 tree, has no more-specifics. -/
def Ranged (t : Tree) (r : PrefixRange) : Prop := t.v6 = true ∨ r.pfx.isSome = true

/-- **`Add`** adds what the range holds of the tree's family, up to its maximum length. -/
theorem add_ends (r : PrefixRange) (ht : t.Wf) :
    Ends (t.add r) (fun t' => t.Adds (t.Takes r) t' ∧ t.Ranged r)
      fun _ => t.Full (t.Takes r) ∨ ¬ t.Ranged r := by
  unfold add Ranged
  cases hr : r.pfx with
  | none =>
    dsimp only
    split_ifs with hv
    · refine ⟨.refl ht fun q hq => ?_, .inl hv⟩
      obtain ⟨b, hb, -⟩ := PrefixRange.contains_iff.1 hq.2.2.2
      rw [hr] at hb
      cases hb
    · exact .inr (by simp [hv])
  | some p =>
    obtain ⟨hp, hlo, hhi, -⟩ := PrefixRange.pfx_wf hr
    have hc : ∀ q, r.contains q = true ↔ r.lo ≤ q.bits ∧ q.bits ≤ r.hi ∧ p.Covers q := by
      intro q
      rw [PrefixRange.contains_iff, hr]
      simp
    dsimp only
    split_ifs with hskip
    · refine ⟨.refl ht fun q hq => ?_, .inr rfl⟩
      obtain ⟨-, hqf, hql, hq⟩ := hq
      obtain ⟨h1, h2, h3⟩ := (hc q).1 hq
      have hb := h3.bits_le
      rcases hskip with hs | hs | hs
      · exact hs (h3.1.trans hqf)
      · omega
      · omega
    · push Not at hskip
      obtain ⟨hf, hml, hlh⟩ := hskip
      have htakes : ∀ q, Specific p r.lo (p.bits + (min r.hi t.maxLen - p.bits)) q ↔
          t.Takes r q := by
        intro q
        have hsum : p.bits + (min r.hi t.maxLen - p.bits) = min r.hi t.maxLen := by omega
        unfold Specific Takes
        rw [hsum, hc]
        constructor
        · rintro ⟨h1, h2, h3, h4⟩
          exact ⟨h1, h2.1.symm.trans hf, by omega, h3, by omega, h2⟩
        · rintro ⟨h1, -, h2, h3, h4, h5⟩
          exact ⟨h1, h5, h3, by omega⟩
      exact (insertSpecifics_ends r.lo hp hf ht).mono (fun _ h => ⟨h.congr htakes, .inr rfl⟩)
        fun _ h => .inl (h.mono fun q => (htakes q).1)

theorem Adds.takes_iff (h : t.Adds P t') (r : PrefixRange) (q : Prefix) :
    t'.Takes r q ↔ t.Takes r q := by
  unfold Takes
  rw [h.v6, h.maxLen]

theorem addAll_ends (rs : List PrefixRange) (ht : t.Wf) :
    Ends (t.addAll rs)
      (fun t' => t.Adds (fun q => ∃ r ∈ rs, t.Takes r q) t' ∧ ∀ r ∈ rs, t.Ranged r)
      fun _ => t.Full (fun q => ∃ r ∈ rs, t.Takes r q) ∨ ¬ ∀ r ∈ rs, t.Ranged r := by
  induction rs generalizing t with
  | nil => exact ⟨.refl ht (by simp), by simp⟩
  | cons r rs ih =>
    unfold addAll
    rw [List.foldlM_cons]
    refine ((add_ends r ht).mono (fun _ h => h) fun _ h => ?_).bind fun u hu => ?_
    · exact h.imp (fun h => h.mono fun q hq => ⟨r, List.mem_cons_self, hq⟩)
        fun h hall => h (hall r List.mem_cons_self)
    · obtain ⟨hu, hr⟩ := hu
      have hranged : ∀ r, u.Ranged r ↔ t.Ranged r := fun r => by rw [Ranged, Ranged, hu.v6]
      have hmem (q : Prefix) : (t.Takes r q ∨ ∃ r ∈ rs, u.Takes r q) ↔
          ∃ r' ∈ r :: rs, t.Takes r' q := by
        simp only [hu.takes_iff, List.exists_mem_cons_iff]
      refine (ih hu.wf).mono (fun t' h => ⟨(hu.trans h.1).congr hmem, ?_⟩) fun _ h => ?_
      · exact List.forall_mem_cons.2 ⟨hr, fun r' hr' => (hranged r').1 (h.2 r' hr')⟩
      · exact h.imp (fun h => (hu.full h).mono fun q => (hmem q).1) fun h hall =>
          h fun r' hr' => (hranged r').2 (hall r' (List.mem_cons_of_mem r hr'))

theorem addAll_adds {rs : List PrefixRange} (ht : t.Wf) (h : t.addAll rs = .ok t') :
    t.Adds (fun q => ∃ r ∈ rs, t.Takes r q) t' := ((addAll_ends rs ht).of_ok h).1

/-- **When `Add`s succeed**: the ranges have a prefix, and the prefixes they add, each counted once,
are no more than the cap. -/
theorem addAll_eq_ok_iff {v6 : Bool} {maxLen maxPrefixes : Int} {rs : List PrefixRange} :
    (∃ t, (Tree.new v6 maxLen maxPrefixes).addAll rs = .ok t) ↔
      (∀ r ∈ rs, v6 = true ∨ r.pfx.isSome = true) ∧
      ∀ l : List Prefix, l.Nodup →
        (∀ q ∈ l, ∃ r ∈ rs, (Tree.new v6 maxLen maxPrefixes).Takes r q) →
        (l.length : Int) ≤ max 0 maxPrefixes := by
  have hends := addAll_ends rs (wf_new v6 maxLen maxPrefixes)
  constructor
  · rintro ⟨t, h⟩
    obtain ⟨hadds, hranged⟩ := hends.of_ok h
    refine ⟨hranged, fun l hl hmem => ?_⟩
    have hsub : l ⊆ t.entries.map Entry.pfx := by
      intro q hq
      exact List.mem_map.2 ⟨listed q, (hadds.mem _).2 (.inr ⟨q, hmem q hq, rfl⟩), rfl⟩
    have hlen := (hl.subperm hsub).length_le
    rw [List.length_map, ← hadds.wf.count] at hlen
    have hcap := hadds.wf.cap
    rw [hadds.maxPrefixes] at hcap
    exact (Int.ofNat_le.2 hlen).trans hcap
  · rintro ⟨hranged, hcap⟩
    cases h : (Tree.new v6 maxLen maxPrefixes).addAll rs with
    | ok t => exact ⟨t, rfl⟩
    | error e =>
      rcases hends.of_error h with ⟨l, hl, hmem, hlen⟩ | hnot
      · refine absurd (hcap l hl fun q hq => ?_) (not_le.2 hlen)
        rcases hmem q hq with h | h
        · cases h
        · exact h
      · exact absurd hranged hnot

end Tree

end Rpsl.Filtergen
