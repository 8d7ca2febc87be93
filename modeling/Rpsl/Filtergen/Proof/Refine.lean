import Rpsl.Filtergen.Proof.Aggregate

/-!
# More-specifics

-R and -r give each entry that no shorter one covers a window of lengths, and turn those it covers
into glue; nothing below is then changed again, since a subtree whose short nodes are glue stays as
it is (`refine_glued`, `refineLow_glued`). So both together are one walk (`Node.windowed`), whose
entries are those of the prefixes that are not shadowed, each with the window of its length
(`windowed_holds`).
-/

namespace Rpsl.Filtergen

/-! ## Plain trees -/

def Node.Lists (n : Node) (p : Prefix) : Prop := listed p ∈ n.entries

section
variable {f : Family} {n l r : Node} {c : Item} {s : List Bool} {p q : Prefix}

theorem lists_node (hc : c.aggregate = false) :
    (Node.node c [] l r).Lists p ↔ (c.glue = false ∧ p = c.pfx) ∨ l.Lists p ∨ r.Lists p := by
  unfold Node.Lists
  rw [mem_entries_node, entries_item_plain hc]
  cases c.glue <;> simp [listed_inj]

theorem Node.Lists.under (h : n.Lists p) (hu : n.Under f s) (hp : n.Plain) :
    p.fam = f ∧ p.masked = p ∧ s <+: p.path := entry_under hu hp h

theorem plain_holds (hp : n.Plain) :
    n.Holds q ↔ ∃ p, n.Lists p ∧ p.Covers q ∧ q.bits = p.bits := by
  unfold Node.Holds Node.Lists
  constructor
  · intro h
    obtain ⟨e, he, hq⟩ := h
    have hlisted := eq_listed hp he
    refine ⟨e.pfx, hlisted ▸ he, ?_⟩
    rw [hlisted, range_contains] at hq
    exact ⟨hq.1, Nat.le_antisymm hq.2.2 hq.2.1⟩
  · intro h
    obtain ⟨p, hlists, hcov, hbits⟩ := h
    refine ⟨listed p, hlists, ?_⟩
    rw [range_contains]
    exact ⟨hcov, hbits.ge, hbits.le⟩

theorem side_of_covers {b b' : Bool} (h : s ++ [b] <+: p.path) (h' : s ++ [b'] <+: q.path)
    (hc : p.Covers q) : b = b' := by
  have heq := List.prefix_of_prefix_length_le (h.trans hc.2) h' (by simp)
  rw [List.prefix_append_right_inj] at heq
  simpa using heq

theorem bits_of_under (h : s <+: p.path) : s.length ≤ p.bits := by
  simpa using h.length_le

end

/-! ## Glue -/

def Node.Glued (k : Nat) : Node → Prop
  | .nil => True
  | .node c _ l r => (c.pfx.bits ≤ k → c.glue = true) ∧ l.Glued k ∧ r.Glued k

section
variable {f : Family} {n : Node} {s : List Bool} {k : Nat}

theorem glued_glueUpTo (k : Nat) (n : Node) : (n.glueUpTo k).Glued k := by
  induction n with
  | nil => trivial
  | node c sons l r ihl ihr =>
    refine ⟨fun h => ?_, ihl, ihr⟩
    split_ifs at h ⊢ with hle
    · rfl
    · exact absurd h hle

theorem glued_of_under (hu : n.Under f s) (hk : k < s.length) : n.Glued k := by
  induction n generalizing s with
  | nil => trivial
  | node c sons l r ihl ihr =>
    obtain ⟨-, -, hs, hul, hur⟩ := hu
    have hlen := bits_of_under hs
    have hside : ∀ b : Bool, k < (c.pfx.path ++ [b]).length := by
      intro b
      rw [List.length_append, Prefix.path_length]
      exact Nat.lt_add_right 1 (Nat.lt_of_lt_of_le hk hlen)
    exact ⟨fun h => by omega, ihl hul (hside false), ihr hur (hside true)⟩

theorem glueUpTo_glued {j : Nat} (h : n.Glued k) (hj : j ≤ k) : n.glueUpTo j = n := by
  induction n with
  | nil => rfl
  | node c sons l r ihl ihr =>
    rw [Node.glueUpTo, ihl h.2.1, ihr h.2.2]
    split_ifs with hle
    · have hg := h.1 (hle.trans hj)
      have hsame : c.glued = c := by
        unfold Item.glued
        rw [← hg]
      rw [hsame]
    · rfl

theorem not_entry {c : Item} (h : c.pfx.bits ≤ k → c.glue = true) {short : Prop} [Decidable short]
    (hs : short → c.pfx.bits ≤ k) : ¬ (!c.glue && decide short) = true := by
  intro hentry
  rw [Bool.and_eq_true, decide_eq_true_eq] at hentry
  rw [h (hs hentry.2)] at hentry
  cases hentry.1

theorem refine_glued (h : n.Glued k) : n.refine k = n := by
  induction n with
  | nil => rw [Node.refine]
  | node c sons l r ihl ihr =>
    rw [Node.refine, if_neg (not_entry h.1 Nat.le_of_lt), ihl h.2.1, ihr h.2.2]
    split_ifs
    · rfl
    · rfl

theorem refineLow_glued {w lo : Nat} (h : n.Glued k) (hlo : lo ≤ k) : n.refineLow w lo = n := by
  induction n with
  | nil => rw [Node.refineLow]
  | node c sons l r ihl ihr =>
    rw [Node.refineLow, if_neg (not_entry h.1 fun h => h.trans hlo), ihl h.2.1, ihr h.2.2]
    split_ifs
    · rfl
    · rfl

theorem plain_glueUpTo (h : n.Plain) (k : Nat) : (n.glueUpTo k).Plain := by
  induction n with
  | nil => trivial
  | node c sons l r ihl ihr =>
    refine ⟨?_, h.2.1, ihl h.2.2.1, ihr h.2.2.2⟩
    split_ifs
    · exact h.1
    · exact h.1

theorem under_glueUpTo (h : n.Under f s) (k : Nat) : (n.glueUpTo k).Under f s := by
  induction n generalizing s with
  | nil => trivial
  | node c sons l r ihl ihr =>
    have hpfx : (if c.pfx.bits ≤ k then c.glued else c).pfx = c.pfx := by
      split_ifs
      · rfl
      · rfl
    rw [Node.glueUpTo, Node.Under, hpfx]
    exact ⟨h.1, h.2.1, h.2.2.1, ihl h.2.2.2.1, ihr h.2.2.2.2⟩

theorem lists_glueUpTo (h : n.Plain) {p : Prefix} :
    (n.glueUpTo k).Lists p ↔ n.Lists p ∧ k < p.bits := by
  induction n with
  | nil => simp [Node.glueUpTo, Node.Lists, Node.entries]
  | node c sons l r ihl ihr =>
    obtain ⟨ha, rfl, hl, hr⟩ := h
    have hagg : (if c.pfx.bits ≤ k then c.glued else c).aggregate = false := by
      split_ifs
      · exact ha
      · exact ha
    rw [Node.glueUpTo, lists_node hagg, lists_node ha, ihl hl, ihr hr, or_and_right, or_and_right]
    apply or_congr_left
    split_ifs with hle
    · constructor
      · intro hp
        cases hp.1
      · intro hp
        rw [hp.1.2] at hp
        omega
    · constructor
      · intro hp
        refine ⟨hp, ?_⟩
        rw [hp.2]
        omega
      · exact And.left

end

/-! ## One walk -/

/-- The entries no shorter one covers are changed by `item`; those shorter than `hi` turn what they
cover up to it into glue. -/
def Node.windowed (item : Item → Item) (hi : Nat) : Node → Node
  | .nil => .nil
  | .node c sons l r =>
    if c.glue then .node c sons (l.windowed item hi) (r.windowed item hi)
    else if c.pfx.bits < hi then .node (item c) sons (l.glueUpTo hi) (r.glueUpTo hi)
    else .node (item c) sons l r

def refineItem (hi : Nat) (c : Item) : Item :=
  if c.pfx.bits < hi then { c with aggregate := true, lo := c.pfx.bits, hi := hi } else c

/-- What -R and -r together make of an entry, in a family of `w` bits: where it is as long as both,
-R has not made it an aggregate. -/
def windowItem (w lo hi : Nat) (c : Item) : Item :=
  if c.pfx.bits < hi then { c with aggregate := true, lo := max c.pfx.bits lo, hi := hi }
  else if c.pfx.bits = hi ∧ lo = hi then { c with aggregate := true, lo := lo, hi := w }
  else c

section
variable {f : Family} {n : Node} {s : List Bool}

theorem sides_glued {c : Item} {sons : List Item} {l r : Node} {hi : Nat}
    (hu : (Node.node c sons l r).Under f s) (hb : hi ≤ c.pfx.bits) : l.Glued hi ∧ r.Glued hi := by
  have hside : ∀ b : Bool, hi < (c.pfx.path ++ [b]).length := by
    intro b
    rw [List.length_append, Prefix.path_length]
    exact Nat.lt_succ_of_le hb
  exact ⟨glued_of_under hu.2.2.2.1 (hside false), glued_of_under hu.2.2.2.2 (hside true)⟩

theorem refine_eq_windowed (hu : n.Under f s) (hi : Nat) :
    n.refine hi = n.windowed (refineItem hi) hi := by
  induction n generalizing s with
  | nil => rw [Node.refine, Node.windowed]
  | node c sons l r ihl ihr =>
    rw [Node.refine, Node.windowed, refineItem]
    cases hg : c.glue with
    | true => simp [ihl hu.2.2.2.1, ihr hu.2.2.2.2]
    | false =>
      by_cases hlt : c.pfx.bits < hi
      · simp [hlt, refine_glued (glued_glueUpTo hi _)]
      · obtain ⟨hl, hr⟩ := sides_glued hu (Nat.not_lt.1 hlt)
        simp [hlt, refine_glued hl, refine_glued hr]

theorem refineLow_eq_windowed {w lo hi : Nat} (hu : n.Under f s) (hp : n.Plain) (hle : lo ≤ hi) :
    (n.refine hi).refineLow w lo = n.windowed (windowItem w lo hi) hi := by
  rw [refine_eq_windowed hu]
  induction n generalizing s with
  | nil => rw [Node.windowed, Node.refineLow, Node.windowed]
  | node c sons l r ihl ihr =>
    obtain ⟨ha, rfl, hl, hr⟩ := hp
    rw [Node.windowed, Node.windowed, refineItem, windowItem]
    cases hg : c.glue with
    | true =>
      rw [if_pos rfl, if_pos rfl, Node.refineLow, ihl hu.2.2.2.1 hl, ihr hu.2.2.2.2 hr]
      simp [hg]
    | false =>
      rw [if_neg Bool.false_ne_true, if_neg Bool.false_ne_true]
      by_cases hlt : c.pfx.bits < hi
      · -- below an aggregate of -R all is glue up to its length, so -r changes the entry alone
        have hlg := glued_glueUpTo hi l
        have hrg := glued_glueUpTo hi r
        rw [if_pos hlt, if_pos hlt, if_pos hlt, if_pos hlt, Node.refineLow]
        by_cases hlo : c.pfx.bits ≤ lo
        · simp [hlo, glueUpTo_glued hlg hle, glueUpTo_glued hrg hle,
            refineLow_glued hlg hle, refineLow_glued hrg hle]
        · simp [hlo, Nat.max_eq_left (Nat.le_of_not_le hlo)]
      · obtain ⟨hlg, hrg⟩ := sides_glued hu (Nat.not_lt.1 hlt)
        rw [if_neg hlt, if_neg hlt, if_neg hlt, if_neg hlt, Node.refineLow]
        by_cases hboth : c.pfx.bits = hi ∧ lo = hi
        · simp [hg, ha, hboth.1, hboth.2, glueUpTo_glued hlg (Nat.le_refl hi),
            glueUpTo_glued hrg (Nat.le_refl hi), refineLow_glued hlg (Nat.le_refl hi),
            refineLow_glued hrg (Nat.le_refl hi)]
        · have hlo : ¬ c.pfx.bits ≤ lo := by
            intro hlo
            exact hboth ⟨by omega, by omega⟩
          simp [hg, hlo, hboth]

theorem refine_eq_window {hi : Nat} (hu : n.Under f s) (hpos : 0 < hi) (w : Nat) :
    n.refine hi = n.windowed (windowItem w 0 hi) hi := by
  have hitem : refineItem hi = windowItem w 0 hi := by
    funext c
    unfold refineItem windowItem
    rw [Nat.max_eq_left (Nat.zero_le _), if_neg (c := _ ∧ _) (by omega)]
  rw [refine_eq_windowed hu, hitem]

end

/-! ## What the walk leaves -/

/-- A shorter prefix of the list covers the one, which is no longer than `hi`. -/
def Shadowed (n : Node) (hi : Nat) (p : Prefix) : Prop :=
  p.bits ≤ hi ∧ ∃ p', n.Lists p' ∧ p'.bits < p.bits ∧ p'.Covers p

/-- `item` gives an entry the lengths from `low` to `high` of its prefix: the prefix's own where it
is longer than `hi`. -/
structure Windows (item : Item → Item) (hi : Nat) (low high : Prefix → Nat) : Prop where
  pfx : ∀ c : Item, (item c).pfx = c.pfx
  glue : ∀ c : Item, (item c).glue = c.glue
  low_eq : ∀ c : Item, c.aggregate = false → (item c).low = low c.pfx
  high_eq : ∀ c : Item, c.aggregate = false → (item c).high = high c.pfx
  longer : ∀ p : Prefix, hi < p.bits → low p = p.bits ∧ high p = p.bits

def windowLow (lo hi : Nat) (p : Prefix) : Nat := if p.bits < hi then max p.bits lo else p.bits

def windowHigh (w lo hi : Nat) (p : Prefix) : Nat :=
  if p.bits < hi then hi else if p.bits = hi ∧ lo = hi then w else p.bits

theorem windowItem_windows (w lo hi : Nat) :
    Windows (windowItem w lo hi) hi (windowLow lo hi) (windowHigh w lo hi) := by
  refine ⟨fun c => ?_, fun c => ?_, fun c ha => ?_, fun c ha => ?_, fun p hp => ?_⟩
  · unfold windowItem
    split_ifs
    · rfl
    · rfl
    · rfl
  · unfold windowItem
    split_ifs
    · rfl
    · rfl
    · rfl
  · unfold windowItem windowLow
    split_ifs with hlt hboth
    · rfl
    · exact hboth.2.trans hboth.1.symm
    · exact low_of_plain ha
  · unfold windowItem windowHigh
    split_ifs
    · rfl
    · rfl
    · exact high_of_plain ha
  · unfold windowLow windowHigh
    rw [if_neg (by omega), if_neg (by omega), if_neg (by omega)]
    exact ⟨rfl, rfl⟩

section
variable {f : Family} {n : Node} {s : List Bool} {item : Item → Item} {hi : Nat}
  {low high : Prefix → Nat} {q : Prefix}

theorem Windows.holds (hw : Windows item hi low high) {c : Item} (ha : c.aggregate = false) :
    (item c).Holds q ↔
      c.glue = false ∧ c.pfx.Covers q ∧ low c.pfx ≤ q.bits ∧ q.bits ≤ high c.pfx := by
  rw [Item.holds_iff, hw.glue, hw.pfx, hw.low_eq c ha, hw.high_eq c ha]

/-- What the walk leaves of the list: the prefixes that are not shadowed, with their windows. -/
def Left (n : Node) (hi : Nat) (low high : Prefix → Nat) (q : Prefix) : Prop :=
  ∃ p, n.Lists p ∧ ¬ Shadowed n hi p ∧ p.Covers q ∧ low p ≤ q.bits ∧ q.bits ≤ high p

theorem shadowed_side {c : Item} {l r : Node} {b : Bool} {p : Prefix} {side : Node}
    (hside : side = (if b then r else l)) (hu : (Node.node c [] l r).Under f s)
    (hp : (Node.node c [] l r).Plain) (hg : c.glue = true) (hlists : side.Lists p) :
    Shadowed (.node c [] l r) hi p ↔ Shadowed side hi p := by
  obtain ⟨ha, -, hl, hr⟩ := hp
  obtain ⟨-, -, -, hul, hur⟩ := hu
  refine and_congr_right fun _ => exists_congr fun p' => ?_
  rw [lists_node ha, hg]
  have hother : ∀ {b' : Bool} {other : Node}, other.Under f (c.pfx.path ++ [b']) → other.Plain →
      b' ≠ b → other.Lists p' → ¬ p'.Covers p := by
    intro b' other huo hpo hne ho hcov
    have hb : c.pfx.path ++ [b] <+: p.path := by
      cases b with
      | false =>
        subst hside
        exact (hlists.under hul hl).2.2
      | true =>
        subst hside
        exact (hlists.under hur hr).2.2
    exact hne (side_of_covers (ho.under huo hpo).2.2 hb hcov)
  cases b with
  | false =>
    subst hside
    constructor
    · intro h
      rcases h.1 with h0 | h0 | h0
      · cases h0.1
      · exact ⟨h0, h.2⟩
      · exact absurd h.2.2 (hother hur hr (by decide) h0)
    · intro h
      exact ⟨.inr (.inl h.1), h.2⟩
  | true =>
    subst hside
    constructor
    · intro h
      rcases h.1 with h0 | h0 | h0
      · cases h0.1
      · exact absurd h.2.2 (hother hul hl (by decide) h0)
      · exact ⟨h0, h.2⟩
    · intro h
      exact ⟨.inr (.inr h.1), h.2⟩

theorem left_glue {c : Item} {l r : Node} (hu : (Node.node c [] l r).Under f s)
    (hp : (Node.node c [] l r).Plain) (hg : c.glue = true) :
    Left (.node c [] l r) hi low high q ↔ Left l hi low high q ∨ Left r hi low high q := by
  unfold Left
  constructor
  · intro h
    obtain ⟨p, hlists, hno, h⟩ := h
    rw [lists_node hp.1, hg] at hlists
    rcases hlists with h0 | h0 | h0
    · cases h0.1
    · exact .inl ⟨p, h0, fun hs => hno ((shadowed_side (b := false) rfl hu hp hg h0).2 hs), h⟩
    · exact .inr ⟨p, h0, fun hs => hno ((shadowed_side (b := true) rfl hu hp hg h0).2 hs), h⟩
  · intro h
    rcases h with h | h
    · obtain ⟨p, h0, hno, h⟩ := h
      exact ⟨p, (lists_node hp.1).2 (.inr (.inl h0)),
        fun hs => hno ((shadowed_side (b := false) rfl hu hp hg h0).1 hs), h⟩
    · obtain ⟨p, h0, hno, h⟩ := h
      exact ⟨p, (lists_node hp.1).2 (.inr (.inr h0)),
        fun hs => hno ((shadowed_side (b := true) rfl hu hp hg h0).1 hs), h⟩

theorem left_entry {c : Item} {l r : Node} (hw : Windows item hi low high)
    (hu : (Node.node c [] l r).Under f s) (hp : (Node.node c [] l r).Plain)
    (hg : c.glue = false) :
    Left (.node c [] l r) hi low high q ↔ (item c).Holds q ∨
      ∃ p, (l.Lists p ∨ r.Lists p) ∧ hi < p.bits ∧ p.Covers q ∧ q.bits = p.bits := by
  obtain ⟨ha, -, hl, hr⟩ := hp
  obtain ⟨hcf, -, -, hul, hur⟩ := hu
  have hbelow : ∀ p, l.Lists p ∨ r.Lists p → c.pfx.Covers p ∧ c.pfx.bits < p.bits := by
    have hdown : ∀ {b : Bool} {p : Prefix}, p.fam = f → c.pfx.path ++ [b] <+: p.path →
        c.pfx.Covers p ∧ c.pfx.bits < p.bits := by
      intro b p hf hpre
      have hlen := bits_of_under hpre
      rw [List.length_append, Prefix.path_length] at hlen
      exact ⟨⟨hcf.trans hf.symm, (List.prefix_append _ _).trans hpre⟩, hlen⟩
    intro p hp
    rcases hp with hp | hp
    · exact hdown (hp.under hul hl).1 (hp.under hul hl).2.2
    · exact hdown (hp.under hur hr).1 (hp.under hur hr).2.2
  have hself : (Node.node c [] l r).Lists c.pfx := (lists_node ha).2 (.inl ⟨hg, rfl⟩)
  rw [hw.holds ha, hg]
  unfold Left
  constructor
  · intro h
    obtain ⟨p, hlists, hno, hcov, h1, h2⟩ := h
    rcases (lists_node ha).1 hlists with h0 | h0
    · rw [h0.2] at hcov h1 h2
      exact .inl ⟨rfl, hcov, h1, h2⟩
    · -- the entry shadows those that are no longer than `hi`
      have hlong : hi < p.bits := by
        by_contra hle
        exact hno ⟨Nat.not_lt.1 hle, c.pfx, hself, (hbelow p h0).2, (hbelow p h0).1⟩
      obtain ⟨e1, e2⟩ := hw.longer p hlong
      exact .inr ⟨p, h0, hlong, hcov, by omega⟩
  · intro h
    rcases h with h | h
    · refine ⟨c.pfx, hself, fun hs => ?_, h.2⟩
      obtain ⟨-, p', hlists', hlt, -⟩ := hs
      rcases (lists_node ha).1 hlists' with h0 | h0
      · rw [h0.2] at hlt
        omega
      · have := (hbelow p' h0).2
        omega
    · obtain ⟨p, h0, hlong, hcov, hbits⟩ := h
      obtain ⟨e1, e2⟩ := hw.longer p hlong
      refine ⟨p, (lists_node ha).2 (.inr h0), fun hs => ?_, hcov, by omega, by omega⟩
      have := hs.1
      omega

/-- **The entries after the walk** hold what is left of the list. -/
theorem windowed_holds (hw : Windows item hi low high) (hu : n.Under f s) (hp : n.Plain) :
    (n.windowed item hi).Holds q ↔ Left n hi low high q := by
  induction n generalizing s with
  | nil => simp [Node.windowed, Node.Holds, Node.entries, Left, Node.Lists]
  | node c sons l r ihl ihr =>
    obtain ⟨ha, rfl, hl, hr⟩ := hp
    have hplain : (Node.node c [] l r).Plain := ⟨ha, rfl, hl, hr⟩
    rw [Node.windowed]
    cases hg : c.glue with
    | true =>
      rw [if_pos rfl, Node.holds_node, ihl hu.2.2.2.1 hl, ihr hu.2.2.2.2 hr,
        left_glue hu hplain hg]
      simp [not_holds_glue hg]
    | false =>
      rw [if_neg Bool.false_ne_true, left_entry hw hu hplain hg]
      have hsides : ∀ {l' r' : Node}, l'.Plain → r'.Plain →
          (∀ p, (l'.Lists p ∨ r'.Lists p) ↔ (l.Lists p ∨ r.Lists p) ∧ hi < p.bits) →
          ((Node.node (item c) [] l' r').Holds q ↔ (item c).Holds q ∨
            ∃ p, (l.Lists p ∨ r.Lists p) ∧ hi < p.bits ∧ p.Covers q ∧ q.bits = p.bits) := by
        intro l' r' hl' hr' hlists
        rw [Node.holds_node, plain_holds hl', plain_holds hr', ← exists_or]
        simp only [List.not_mem_nil, false_and, exists_false, false_or, ← or_and_right, hlists,
          and_assoc]
      split_ifs with hlt
      · apply hsides (plain_glueUpTo hl hi) (plain_glueUpTo hr hi)
        intro p
        rw [lists_glueUpTo hl, lists_glueUpTo hr, or_and_right]
      · apply hsides hl hr
        intro p
        refine (and_iff_left_of_imp fun h => ?_).symm
        have hlen : ∀ {b : Bool}, c.pfx.path ++ [b] <+: p.path → hi < p.bits := by
          intro b hpre
          have hb := bits_of_under hpre
          rw [List.length_append, Prefix.path_length] at hb
          have : (1 : Nat) = [b].length := rfl
          omega
        rcases h with h | h
        · exact hlen (h.under hu.2.2.2.1 hl).2.2
        · exact hlen (h.under hu.2.2.2.2 hr).2.2

/-! ## Aggregation afterwards -/

theorem under_windowed (hpfx : ∀ c, (item c).pfx = c.pfx) (hu : n.Under f s) :
    (n.windowed item hi).Under f s := by
  induction n generalizing s with
  | nil => trivial
  | node c sons l r ihl ihr =>
    obtain ⟨h1, h2, h3, hul, hur⟩ := hu
    rw [Node.windowed]
    split_ifs
    · exact ⟨h1, h2, h3, ihl hul, ihr hur⟩
    · rw [Node.Under, hpfx]
      exact ⟨h1, h2, h3, under_glueUpTo hul hi, under_glueUpTo hur hi⟩
    · rw [Node.Under, hpfx]
      exact ⟨h1, h2, h3, hul, hur⟩

theorem whole_of_lists (hu : n.Under f s) (hp : n.Plain) (hs : s.length ≤ f.width)
    (h : ∀ q : Prefix, q.fam = f → q.masked = q → s <+: q.path → n.Lists q) :
    Whole f.width n ∧ ∃ c sons l r, n = .node c sons l r ∧ c.pfx.path = s := by
  induction n generalizing s with
  | nil =>
    have hself := h (.ofPath f s hs) rfl (Prefix.ofPath_masked ..) (by rw [Prefix.ofPath_path])
    cases hself
  | node c sons l r ihl ihr =>
    obtain ⟨ha, rfl, hl, hr⟩ := hp
    obtain ⟨hcf, hcm, hcs, hul, hur⟩ := hu
    have hdeep : ∀ {b : Bool} {side : Node} {q : Prefix}, side.Under f (c.pfx.path ++ [b]) →
        side.Plain → side.Lists q → c.pfx.path ++ [b] <+: q.path := by
      intro b side q huo hpo hq
      exact (hq.under huo hpo).2.2
    have hlonger : ∀ {b : Bool} {q : Prefix}, c.pfx.path ++ [b] <+: q.path →
        c.pfx.bits < q.bits := by
      intro b q hpre
      have hb := bits_of_under hpre
      rwa [List.length_append, Prefix.path_length] at hb
    -- the path's own prefix is listed, and only the root can be it
    have hself := h (.ofPath f s hs) rfl (Prefix.ofPath_masked ..) (by rw [Prefix.ofPath_path])
    have hle := bits_of_under hcs
    have hroot : c.glue = false ∧ c.pfx.path = s := by
      rcases (lists_node ha).1 hself with h0 | h0 | h0
      · refine ⟨h0.1, ?_⟩
        rw [← h0.2, Prefix.ofPath_path]
      · have := hlonger (hdeep hul hl h0)
        rw [Prefix.ofPath_bits] at this
        omega
      · have := hlonger (hdeep hur hr h0)
        rw [Prefix.ofPath_bits] at this
        omega
    obtain ⟨hg, hpath⟩ := hroot
    refine ⟨⟨hg, ha, rfl, ?_⟩, c, [], l, r, rfl, hpath⟩
    have hcb : c.pfx.bits = s.length := by rw [← hpath, Prefix.path_length]
    by_cases hend : c.pfx.bits = f.width
    · have hnil : ∀ {b : Bool} {side : Node}, side.Under f (c.pfx.path ++ [b]) → side = .nil := by
        intro b side huo
        cases side with
        | nil => rfl
        | node d _ _ _ =>
          have hlt := hlonger huo.2.2.1
          have hdw := d.pfx.le
          rw [show d.pfx.addr.fam = f from huo.1] at hdw
          omega
      exact .inl ⟨hend, hnil hul, hnil hur⟩
    · have hside : ∀ b : Bool, (c.pfx.path ++ [b]).length ≤ f.width := by
        intro b
        rw [List.length_append, Prefix.path_length]
        show c.pfx.bits + 1 ≤ f.width
        omega
      have hall : ∀ {b : Bool} {q : Prefix}, q.fam = f → q.masked = q →
          c.pfx.path ++ [b] <+: q.path → (c.glue = false ∧ q = c.pfx) ∨ l.Lists q ∨ r.Lists q := by
        intro b q hqf hqm hpre
        refine (lists_node ha).1 (h q hqf hqm ?_)
        rw [← hpath]
        exact (List.prefix_append _ _).trans hpre
      have hbit : ∀ {b b' : Bool} {q : Prefix}, c.pfx.path ++ [b] <+: q.path →
          c.pfx.path ++ [b'] <+: q.path → b = b' := by
        intro b b' q h1 h2
        exact side_of_covers h1 h2 (Prefix.Covers.refl q)
      have hhalf : ∀ {b : Bool} {side : Node}, (∃ d sons l' r', side = .node d sons l' r' ∧
          d.pfx.path = c.pfx.path ++ [b]) → HalfOf c side := by
        intro b side hex
        obtain ⟨d, _, _, _, rfl, hd⟩ := hex
        show d.pfx.bits = c.pfx.bits + 1
        rw [← d.pfx.path_length, hd, List.length_append, Prefix.path_length]
        rfl
      obtain ⟨hwl, hexl⟩ := ihl hul hl (hside false) fun q hqf hqm hpre => by
        rcases hall hqf hqm hpre with h0 | h0 | h0
        · have := hlonger hpre
          rw [h0.2] at this
          omega
        · exact h0
        · cases hbit hpre (hdeep hur hr h0)
      obtain ⟨hwr, hexr⟩ := ihr hur hr (hside true) fun q hqf hqm hpre => by
        rcases hall hqf hqm hpre with h0 | h0 | h0
        · have := hlonger hpre
          rw [h0.2] at this
          omega
        · cases hbit hpre (hdeep hul hl h0)
        · exact h0
      exact .inr ⟨hhalf hexl, hhalf hexr, hwl, hwr⟩

/-- Where both bounds are one, every prefix under an entry that long is listed. -/
def Filled (n : Node) (lo hi : Nat) : Prop :=
  lo = hi → ∀ p, n.Lists p → ¬ Shadowed n hi p → p.bits = hi →
    ∀ q : Prefix, q.masked = q → p.Covers q → hi < q.bits → n.Lists q

theorem Filled.side {c : Item} {l r : Node} {lo : Nat} {b : Bool} {side : Node}
    (h : Filled (.node c [] l r) lo hi) (hside : side = (if b then r else l))
    (hu : (Node.node c [] l r).Under f s) (hp : (Node.node c [] l r).Plain) (hg : c.glue = true) :
    Filled side lo hi := by
  intro hlo p hlists hno hbits q hqm hcov hlong
  obtain ⟨ha, -, hl, hr⟩ := hp
  have hwhole : (Node.node c [] l r).Lists p := by
    cases b with
    | false =>
      subst hside
      exact (lists_node ha).2 (.inr (.inl hlists))
    | true =>
      subst hside
      exact (lists_node ha).2 (.inr (.inr hlists))
  have hq := h hlo p hwhole
    (fun hs => hno ((shadowed_side hside hu ⟨ha, rfl, hl, hr⟩ hg hlists).1 hs)) hbits q hqm hcov
    hlong
  obtain ⟨-, -, -, hul, hur⟩ := hu
  rw [lists_node ha, hg] at hq
  rcases hq with h0 | h0 | h0
  · cases h0.1
  · cases b with
    | false =>
      subst hside
      exact h0
    | true =>
      subst hside
      cases side_of_covers (hlists.under hur hr).2.2 (h0.under hul hl).2.2 hcov
  · cases b with
    | false =>
      subst hside
      cases side_of_covers (hlists.under hul hl).2.2 (h0.under hur hr).2.2 hcov
    | true =>
      subst hside
      exact h0

theorem ready_both {c : Item} {l r : Node} (hu : (Node.node c [] l r).Under f s)
    (hp : (Node.node c [] l r).Plain) (hg : c.glue = false)
    (h : Filled (.node c [] l r) c.pfx.bits c.pfx.bits) :
    GlueUnder c r ∨ (HalfOf c l ∧ HalfOf c r ∧ Whole f.width l ∧ Whole f.width r) := by
  obtain ⟨ha, -, hl, hr⟩ := hp
  obtain ⟨hcf, -, -, hul, hur⟩ := hu
  have hself : (Node.node c [] l r).Lists c.pfx := (lists_node ha).2 (.inl ⟨hg, rfl⟩)
  have hlonger : ∀ {b : Bool} {q : Prefix}, c.pfx.path ++ [b] <+: q.path →
      c.pfx.bits < q.bits := by
    intro b q hpre
    have hb := bits_of_under hpre
    rwa [List.length_append, Prefix.path_length] at hb
  have hno : ¬ Shadowed (.node c [] l r) c.pfx.bits c.pfx := by
    intro hs
    obtain ⟨-, p', hlists, hlt, -⟩ := hs
    rcases (lists_node ha).1 hlists with h0 | h0 | h0
    · rw [h0.2] at hlt
      omega
    · have := hlonger (h0.under hul hl).2.2
      omega
    · have := hlonger (h0.under hur hr).2.2
      omega
  by_cases hend : c.pfx.bits = f.width
  · left
    cases r with
    | nil => trivial
    | node d _ _ _ =>
      intro hd
      have hdw := d.pfx.le
      rw [show d.pfx.addr.fam = f from hur.1] at hdw
      omega
  · right
    have hcw : c.pfx.bits < f.width := by
      have hle := c.pfx.le
      rw [show c.pfx.addr.fam = f from hcf] at hle
      omega
    have hside : ∀ b : Bool, (c.pfx.path ++ [b]).length ≤ f.width := by
      intro b
      rw [List.length_append, Prefix.path_length]
      exact hcw
    have hall : ∀ {b : Bool} {q : Prefix}, q.fam = f → q.masked = q →
        c.pfx.path ++ [b] <+: q.path → l.Lists q ∨ r.Lists q := by
      intro b q hqf hqm hpre
      have hcov : c.pfx.Covers q := ⟨hcf.trans hqf.symm, (List.prefix_append _ _).trans hpre⟩
      rcases (lists_node ha).1 (h rfl c.pfx hself hno rfl q hqm hcov (hlonger hpre)) with h0 | h0
      · have := hlonger hpre
        rw [h0.2] at this
        omega
      · exact h0
    have hhalf : ∀ {b : Bool} {side : Node}, (∃ d sons l' r', side = .node d sons l' r' ∧
        d.pfx.path = c.pfx.path ++ [b]) → HalfOf c side := by
      intro b side hex
      obtain ⟨d, _, _, _, rfl, hd⟩ := hex
      show d.pfx.bits = c.pfx.bits + 1
      rw [← d.pfx.path_length, hd, List.length_append, Prefix.path_length]
      rfl
    obtain ⟨hwl, hexl⟩ := whole_of_lists hul hl (hside false) fun q hqf hqm hpre => by
      rcases hall hqf hqm hpre with h0 | h0
      · exact h0
      · cases side_of_covers hpre (h0.under hur hr).2.2 (Prefix.Covers.refl q)
    obtain ⟨hwr, hexr⟩ := whole_of_lists hur hr (hside true) fun q hqf hqm hpre => by
      rcases hall hqf hqm hpre with h0 | h0
      · cases side_of_covers hpre (h0.under hul hl).2.2 (Prefix.Covers.refl q)
      · exact h0
    exact ⟨hhalf hexl, hhalf hexr, hwl, hwr⟩

/-- **The tree after the walk is ready for aggregation.** -/
theorem window_ready {lo : Nat} (hle : lo ≤ hi) (hhi : hi ≤ f.width) (hu : n.Under f s)
    (hp : n.Plain) (h : Filled n lo hi) :
    (n.windowed (windowItem f.width lo hi) hi).Ready f.width := by
  induction n generalizing s with
  | nil => trivial
  | node c sons l r ihl ihr =>
    obtain ⟨ha, rfl, hl, hr⟩ := hp
    have hplain : (Node.node c [] l r).Plain := ⟨ha, rfl, hl, hr⟩
    rw [Node.windowed]
    cases hg : c.glue with
    | true =>
      rw [if_pos rfl]
      exact ⟨rfl, by simp [Item.Root, ha], by simp [ha],
        ihl hu.2.2.2.1 hl (h.side (b := false) rfl hu hplain hg),
        ihr hu.2.2.2.2 hr (h.side (b := true) rfl hu hplain hg)⟩
    | false =>
      rw [if_neg Bool.false_ne_true]
      unfold windowItem
      split_ifs with hlt hboth
      · refine ⟨rfl, fun _ => ⟨hg, Nat.le_max_left .., ?_⟩, fun _ => .inl ?_,
          (plain_glueUpTo hl hi).ready _, (plain_glueUpTo hr hi).ready _⟩
        · exact Nat.max_le.2 ⟨hlt.le, hle⟩
        · cases r with
          | nil => trivial
          | node d _ _ _ =>
            rw [Node.glueUpTo]
            split_ifs with hd
            · exact fun _ => rfl
            · intro hb
              have hb : d.pfx.bits = c.pfx.bits + 1 := hb
              omega
      · obtain ⟨rfl, rfl⟩ := hboth
        refine ⟨rfl, fun _ => ⟨hg, Nat.le_refl _, hhi⟩, fun _ => ?_, hl.ready _, hr.ready _⟩
        rcases ready_both hu hplain hg h with h0 | h0
        · left
          cases r with
          | nil => trivial
          | node d _ _ _ => exact h0
        · right
          obtain ⟨h1, h2, h3, h4⟩ := h0
          refine ⟨rfl, rfl, ?_, ?_, h3, h4⟩
          · cases l with
            | nil => exact h1
            | node d _ _ _ => exact h1
          · cases r with
            | nil => exact h2
            | node d _ _ _ => exact h2
      · exact hplain.ready _

theorem exists_unshadowed {p : Prefix} (hlists : n.Lists p) (hle : p.bits ≤ hi) :
    ∃ p', n.Lists p' ∧ ¬ Shadowed n hi p' ∧ p'.Covers p := by
  induction hb : p.bits using Nat.strong_induction_on generalizing p with
  | _ k ih =>
    subst hb
    by_cases hs : Shadowed n hi p
    · obtain ⟨-, p', hlists', hlt, hcov⟩ := hs
      obtain ⟨p'', h1, h2, h3⟩ := ih p'.bits hlt hlists' (hlt.le.trans hle) rfl
      exact ⟨p'', h1, h2, h3.trans hcov⟩
    · exact ⟨p, hlists, hs, Prefix.Covers.refl p⟩

end

/-! ## Trees that ranges were added to -/

/-- The prefixes that ranges add to a new tree. -/
def Added (v6 : Bool) (maxLen maxPrefixes : Int) (rs : List PrefixRange) (q : Prefix) : Prop :=
  ∃ r ∈ rs, (Tree.new v6 maxLen maxPrefixes).Takes r q

section
variable {v6 : Bool} {maxLen maxPrefixes : Int} {rs : List PrefixRange} {t : Tree}

structure Grown (v6 : Bool) (P : Prefix → Prop) (t : Tree) : Prop where
  v6_eq : t.v6 = v6
  under : t.head.Under (family v6) []
  plain : t.head.Plain
  lists : ∀ p, t.head.Lists p ↔ P p

theorem grown_addAll (h : (Tree.new v6 maxLen maxPrefixes).addAll rs = .ok t) :
    Grown v6 (Added v6 maxLen maxPrefixes rs) t := by
  have hadds := Tree.addAll_adds (Tree.wf_new ..) h
  have hv6 : t.v6 = v6 := hadds.v6
  refine ⟨hv6, hv6 ▸ hadds.wf.under, hadds.wf.plain, fun p => ?_⟩
  have hmem := hadds.mem (listed p)
  simp only [Tree.entries, Tree.new, Node.entries, List.not_mem_nil, false_or, listed_inj,
    exists_eq_right'] at hmem
  exact hmem

variable {P : Prefix → Prop} {lo hi : Nat}

theorem Grown.refine_head (ht : Grown v6 P t) (hpos : 0 < hi) :
    (t.refine hi).head = t.head.windowed (windowItem (family v6).width 0 hi) hi :=
  refine_eq_window ht.under hpos _

theorem Grown.refineLow_head (ht : Grown v6 P t) (hle : lo ≤ hi) :
    ((t.refine hi).refineLow lo).head =
      t.head.windowed (windowItem (family v6).width lo hi) hi := by
  have hhead : ((t.refine hi).refineLow lo).head =
      (t.head.refine hi).refineLow (family t.v6).width lo := rfl
  rw [hhead, ht.v6_eq]
  exact refineLow_eq_windowed ht.under ht.plain hle

theorem Grown.holds_window (ht : Grown v6 P t) (hle : lo ≤ hi) {q : Prefix} :
    (t.head.windowed (windowItem (family v6).width lo hi) hi).Holds q ↔
      (∃ p, P p ∧ p.Covers q ∧ max p.bits lo ≤ q.bits ∧ q.bits ≤ hi) ∨
      (∃ p, P p ∧ p.Covers q ∧ hi < p.bits ∧ q.bits = p.bits) ∨
      (lo = hi ∧ ∃ p, P p ∧ p.bits = hi ∧ (∀ p', P p' → p'.Covers p → hi ≤ p'.bits) ∧
        p.Covers q) := by
  rw [windowed_holds (windowItem_windows _ lo hi) ht.under ht.plain]
  have hshadow : ∀ p, p.bits = hi →
      (¬ Shadowed t.head hi p ↔ ∀ p', P p' → p'.Covers p → hi ≤ p'.bits) := by
    intro p hb
    unfold Shadowed
    simp only [ht.lists, hb, Nat.le_refl, true_and, not_exists, not_and]
    constructor
    · intro h p' hp' hcov
      exact Nat.not_lt.1 fun hlt => h p' hp' hlt hcov
    · intro h p' hp' hlt hcov
      exact absurd (h p' hp' hcov) (Nat.not_le.2 hlt)
  unfold Left windowLow windowHigh
  constructor
  · intro h
    obtain ⟨p, hlists, hno, hcov, h1, h2⟩ := h
    rw [ht.lists] at hlists
    have hbits := hcov.bits_le
    split_ifs at h1 h2 with hlt hboth
    · exact .inl ⟨p, hlists, hcov, h1, h2⟩
    · exact .inr (.inr ⟨hboth.2, p, hlists, hboth.1, (hshadow p hboth.1).1 hno, hcov⟩)
    · by_cases heq : p.bits = hi
      · have hne : lo ≠ hi := fun he => hboth ⟨heq, he⟩
        exact .inl ⟨p, hlists, hcov, by omega, by omega⟩
      · exact .inr (.inl ⟨p, hlists, hcov, by omega, by omega⟩)
  · intro h
    rcases h with h | h | h
    · obtain ⟨p, hp, hcov, h1, h2⟩ := h
      have hple : p.bits ≤ hi := by omega
      obtain ⟨p', hlists, hno, hcov'⟩ := exists_unshadowed ((ht.lists p).2 hp) hple
      have hb' := hcov'.bits_le
      refine ⟨p', hlists, hno, hcov'.trans hcov, ?_, ?_⟩
      · split_ifs
        · omega
        · omega
      · have hqw : q.bits ≤ (family v6).width := by
          have hqle := q.le
          have hpf := (hlists.under ht.under ht.plain).1
          have hqf : q.addr.fam = family v6 := (hcov'.trans hcov).1.symm.trans hpf
          rwa [hqf] at hqle
        split_ifs
        · exact h2
        · exact hqw
        · omega
    · obtain ⟨p, hp, hcov, hlong, hbits⟩ := h
      refine ⟨p, (ht.lists p).2 hp, fun hs => ?_, hcov, ?_, ?_⟩
      · have := hs.1
        omega
      · rw [if_neg (by omega)]
        omega
      · rw [if_neg (by omega), if_neg (by omega)]
        omega
    · obtain ⟨heq, p, hp, hb, hfirst, hcov⟩ := h
      have hlists := (ht.lists p).2 hp
      refine ⟨p, hlists, (hshadow p hb).2 hfirst, hcov, ?_, ?_⟩
      · rw [if_neg (by omega)]
        exact hcov.bits_le
      · rw [if_neg (by omega), if_pos ⟨hb, heq⟩]
        have hqle := q.le
        have hqf : q.addr.fam = family v6 :=
          hcov.1.symm.trans (hlists.under ht.under ht.plain).1
        rwa [hqf] at hqle

theorem Grown.aggregate_window (ht : Grown v6 P t) (hle : lo ≤ hi) (hhi : hi ≤ (family v6).width)
    (hfill : Filled t.head lo hi) (q : Prefix) :
    (t.head.windowed (windowItem (family v6).width lo hi) hi).aggregate.Holds q ↔
      (t.head.windowed (windowItem (family v6).width lo hi) hi).Holds q :=
  (aggregate_kept (under_windowed (windowItem_windows _ lo hi).pfx ht.under)
    (window_ready hle hhi ht.under ht.plain hfill)).holds q

theorem added_iff (ht : Grown v6 P t) {q : Prefix} (hq : q.masked = q) :
    P q ↔ ∃ p, P p ∧ p.Covers q ∧ q.bits = p.bits := by
  constructor
  · intro h
    exact ⟨q, h, Prefix.Covers.refl q, rfl⟩
  · intro h
    obtain ⟨p, hp, hcov, hbits⟩ := h
    have hpm := (((ht.lists p).2 hp).under ht.under ht.plain).2.1
    rwa [← Tree.eq_of_covers hpm hq hcov hbits.le] at hp

/-- **-R is exact**: the entries hold the prefixes added and the more-specifics, up to `hi` long, of
those shorter; and aggregation keeps what they hold. -/
theorem refine_exact (v6 : Bool) (maxLen maxPrefixes : Int) (rs : List PrefixRange) (t : Tree)
    (h : (Tree.new v6 maxLen maxPrefixes).addAll rs = .ok t) (hi : Nat) (hpos : 1 ≤ hi)
    (hhi : hi ≤ (family v6).width) :
    (∀ q : Prefix, q.masked = q → ((∃ e ∈ (t.refine hi).entries, e.range.contains q = true) ↔
      Added v6 maxLen maxPrefixes rs q ∨ ∃ p, Added v6 maxLen maxPrefixes rs p ∧ p.bits < hi ∧
        p.Covers q ∧ p.bits < q.bits ∧ q.bits ≤ hi)) ∧
    ∀ q, (∃ e ∈ (t.refine hi).aggregate.entries, e.range.contains q = true) ↔
      ∃ e ∈ (t.refine hi).entries, e.range.contains q = true := by
  have ht := grown_addAll h
  have hhead := ht.refine_head hpos
  constructor
  · intro q hq
    show (t.refine hi).head.Holds q ↔ _
    rw [hhead, ht.holds_window (Nat.zero_le hi)]
    constructor
    · intro hw
      rcases hw with hw | hw | hw
      · obtain ⟨p, hp, hcov, h1, h2⟩ := hw
        rcases Nat.lt_or_eq_of_le hcov.bits_le with hlt | heq
        · exact .inr ⟨p, hp, by omega, hcov, hlt, h2⟩
        · exact .inl ((added_iff ht hq).2 ⟨p, hp, hcov, heq.symm⟩)
      · obtain ⟨p, hp, hcov, -, hbits⟩ := hw
        exact .inl ((added_iff ht hq).2 ⟨p, hp, hcov, hbits⟩)
      · exact absurd hw.1 (by omega)
    · intro hw
      rcases hw with hw | hw
      · by_cases hle : q.bits ≤ hi
        · exact .inl ⟨q, hw, Prefix.Covers.refl q, by omega, hle⟩
        · exact .inr (.inl ⟨q, hw, Prefix.Covers.refl q, by omega, rfl⟩)
      · obtain ⟨p, hp, -, hcov, hlt, hle⟩ := hw
        exact .inl ⟨p, hp, hcov, by omega, hle⟩
  · intro q
    show (t.refine hi).head.aggregate.Holds q ↔ (t.refine hi).head.Holds q
    rw [hhead]
    apply ht.aggregate_window (Nat.zero_le hi) hhi
    intro h0
    omega

/-- **-R and -r together are exact iff no entry is as long as both bounds** and covered by no
shorter one, or all its more-specifics were added too: such an entry is not made an aggregate by -R,
and -r then lets it go on to the family's full length. -/
theorem refineLow_exact_iff (v6 : Bool) (maxLen maxPrefixes : Int) (rs : List PrefixRange)
    (t : Tree) (h : (Tree.new v6 maxLen maxPrefixes).addAll rs = .ok t) (lo hi : Nat)
    (hle : lo ≤ hi) (hhi : hi ≤ (family v6).width) :
    ((∀ q : Prefix, q.masked = q →
        ((∃ e ∈ ((t.refine hi).refineLow lo).entries, e.range.contains q = true) ↔
          (∃ p, Added v6 maxLen maxPrefixes rs p ∧ p.Covers q ∧ max p.bits lo ≤ q.bits ∧
            q.bits ≤ hi) ∨
          (Added v6 maxLen maxPrefixes rs q ∧ hi < q.bits))) ∧
      ∀ q, (∃ e ∈ ((t.refine hi).refineLow lo).aggregate.entries, e.range.contains q = true) ↔
        ∃ e ∈ ((t.refine hi).refineLow lo).entries, e.range.contains q = true) ↔
    (lo = hi → ∀ p, Added v6 maxLen maxPrefixes rs p → p.bits = hi →
      (∀ p', Added v6 maxLen maxPrefixes rs p' → p'.Covers p → hi ≤ p'.bits) →
      ∀ q : Prefix, q.masked = q → p.Covers q → hi < q.bits →
        Added v6 maxLen maxPrefixes rs q) := by
  have ht := grown_addAll h
  have hhead := ht.refineLow_head hle
  have hentries : ∀ q, (∃ e ∈ ((t.refine hi).refineLow lo).entries, e.range.contains q = true) ↔
      (t.head.windowed (windowItem (family v6).width lo hi) hi).Holds q := by
    intro q
    show ((t.refine hi).refineLow lo).head.Holds q ↔ _
    rw [hhead]
  constructor
  · intro hexact heq p hp hb hfirst q hq hcov hlong
    have hheld := (hentries q).2 ((ht.holds_window hle).2
      (.inr (.inr ⟨heq, p, hp, hb, hfirst, hcov⟩)))
    rcases (hexact.1 q hq).1 hheld with hw | hw
    · obtain ⟨-, -, -, -, hqle⟩ := hw
      omega
    · exact hw.1
  · intro hfill
    constructor
    · intro q hq
      rw [hentries, ht.holds_window hle]
      constructor
      · intro hw
        rcases hw with hw | hw | hw
        · exact .inl hw
        · obtain ⟨p, hp, hcov, hlong, hbits⟩ := hw
          exact .inr ⟨(added_iff ht hq).2 ⟨p, hp, hcov, hbits⟩, by omega⟩
        · obtain ⟨heq, p, hp, hb, hfirst, hcov⟩ := hw
          have hbits := hcov.bits_le
          by_cases hlong : hi < q.bits
          · exact .inr ⟨hfill heq p hp hb hfirst q hq hcov hlong, hlong⟩
          · exact .inl ⟨p, hp, hcov, by omega, by omega⟩
      · intro hw
        rcases hw with hw | hw
        · exact .inl hw
        · exact .inr (.inl ⟨q, hw.1, Prefix.Covers.refl q, hw.2, rfl⟩)
    · intro q
      rw [hentries]
      show ((t.refine hi).refineLow lo).head.aggregate.Holds q ↔ _
      rw [hhead]
      apply ht.aggregate_window hle hhi
      intro heq p hlists hno hb q' hq' hcov hlong
      rw [ht.lists] at hlists ⊢
      refine hfill heq p hlists hb ?_ q' hq' hcov hlong
      intro p' hp' hcov'
      by_contra hlt
      exact hno ⟨hb.le, p', (ht.lists p').2 hp', by omega, hcov'⟩

end

theorem tenTwentyFour_wf :
    RangeWf (some ⟨⟨.v4, 0x0a000000#32⟩, 24, (Nat.le_add_right 24 8 : 24 ≤ 32)⟩) 24 24 :=
  ⟨by decide, by decide, by decide, by decide⟩

/-- The range 10.0.0.0/24, of one prefix. -/
def tenTwentyFour : PrefixRange := ⟨_, 24, 24, tenTwentyFour_wf⟩

/-- 10.0.0.0/25. -/
def tenTwentyFive : Prefix := ⟨⟨.v4, 0x0a000000#32⟩, 25, (Nat.le_add_right 25 7 : 25 ≤ 32)⟩

/-- -R 25 lets 10.0.0.0/25 through where 10.0.0.0/24 is added. -/
theorem refine_exact_ten : ∃ t, (Tree.new false 0 1).addAll [tenTwentyFour] = .ok t ∧
    ((∃ e ∈ (t.refine 25).entries, e.range.contains tenTwentyFive = true) ↔
      Added false 0 1 [tenTwentyFour] tenTwentyFive ∨
        ∃ p, Added false 0 1 [tenTwentyFour] p ∧ p.bits < 25 ∧ p.Covers tenTwentyFive ∧
          p.bits < tenTwentyFive.bits ∧ tenTwentyFive.bits ≤ 25) :=
  ⟨_, rfl, (refine_exact false 0 1 [tenTwentyFour] _ rfl 25 (by decide) (by decide)).1
    tenTwentyFive (by decide)⟩

/-- With -R 24 -r 24 the entry of 10.0.0.0/24 holds 10.0.0.0/25, which was not added. -/
theorem refineLow_too_long : ∃ t, (Tree.new false 0 1).addAll [tenTwentyFour] = .ok t ∧
    ¬ ∀ q : Prefix, q.masked = q →
      ((∃ e ∈ ((t.refine 24).refineLow 24).entries, e.range.contains q = true) ↔
        (∃ p, Added false 0 1 [tenTwentyFour] p ∧ p.Covers q ∧ max p.bits 24 ≤ q.bits ∧
          q.bits ≤ 24) ∨
        (Added false 0 1 [tenTwentyFour] q ∧ 24 < q.bits)) := by
  refine ⟨_, rfl, fun h => ?_⟩
  have hheld := (h tenTwentyFive (by decide)).1 (by decide +kernel)
  rcases hheld with hw | hw
  · obtain ⟨-, -, -, -, hle⟩ := hw
    exact absurd hle (by decide)
  · obtain ⟨r, hr, -, -, -, hc⟩ := hw.1
    rw [List.mem_singleton.1 hr] at hc
    exact absurd hc (by decide)

/-- With -R 24 -r 23 it holds 10.0.0.0/24 alone. -/
theorem refineLow_exact_ten : ∃ t, (Tree.new false 0 1).addAll [tenTwentyFour] = .ok t ∧
    ∀ q : Prefix, q.masked = q →
      ((∃ e ∈ ((t.refine 24).refineLow 23).entries, e.range.contains q = true) ↔
        (∃ p, Added false 0 1 [tenTwentyFour] p ∧ p.Covers q ∧ max p.bits 23 ≤ q.bits ∧
          q.bits ≤ 24) ∨
        (Added false 0 1 [tenTwentyFour] q ∧ 24 < q.bits)) :=
  ⟨_, rfl, ((refineLow_exact_iff false 0 1 [tenTwentyFour] _ rfl 23 24 (by decide)
    (by decide)).2 fun h => absurd h (by decide)).1⟩

end Rpsl.Filtergen
