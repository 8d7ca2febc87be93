import Rpsl.Filtergen.Proof.Insert

/-!
# Aggregation loses nothing

`Holds n q`: some entry of the subtree `n` has a range that holds `q`. What holds two halves of a
prefix together is `holds_join`: the prefixes of some lengths under both halves are those under the
prefix, as long as the lengths are longer than the prefix's own. Each merge moves a window of
lengths from both halves to their prefix by it (`merge_holds`), so aggregation bottom up keeps what
a tree holds (`aggregate_holds`).

`Aggregated` is what a subtree's root looks like before its parent is merged: its aggregate and its
sons are entries whose lengths are no shorter than its prefix's.
-/

namespace Rpsl.Filtergen

/-! ## What entries hold -/

theorem range_contains (e : Entry) (q : Prefix) :
    e.range.contains q = true ↔ e.pfx.Covers q ∧
      (if e.aggregate then e.lo else e.pfx.bits) ≤ q.bits ∧
      q.bits ≤ (if e.aggregate then e.hi else e.pfx.bits) := by
  have key : ∀ lo hi, ((PrefixRange.new e.pfx lo hi).getD .zero).contains q = true ↔
      e.pfx.Covers q ∧ lo ≤ q.bits ∧ q.bits ≤ hi := by
    intro lo hi
    cases h : PrefixRange.new e.pfx lo hi with
    | some r =>
      rw [Option.getD_some, PrefixRange.contains_new h]
      tauto
    | none =>
      have hlt := PrefixRange.new_eq_none h
      refine ⟨fun hz => by simp [PrefixRange.contains, PrefixRange.zero] at hz, ?_⟩
      rintro ⟨hcov, hlo, hhi⟩
      have hb := hcov.bits_le
      have hw : q.bits ≤ e.pfx.bitLen := by
        have hfam : e.pfx.addr.fam = q.addr.fam := hcov.1
        unfold Prefix.bitLen Addr.bitLen
        rw [hfam]
        exact q.le
      omega
  unfold Entry.range
  cases e.aggregate with
  | false => exact key _ _
  | true => exact key _ _

def Item.low (i : Item) : Nat := if i.aggregate then i.lo else i.pfx.bits

def Item.high (i : Item) : Nat := if i.aggregate then i.hi else i.pfx.bits

def Item.Holds (i : Item) (q : Prefix) : Prop := ∃ e ∈ i.entries, e.range.contains q = true

def Node.Holds (n : Node) (q : Prefix) : Prop := ∃ e ∈ n.entries, e.range.contains q = true

variable {i : Item}

theorem Item.holds_iff {q : Prefix} :
    i.Holds q ↔ i.glue = false ∧ i.pfx.Covers q ∧ i.low ≤ q.bits ∧ q.bits ≤ i.high := by
  unfold Item.Holds Item.entries Item.low Item.high
  cases i.glue <;> cases i.aggregate <;> simp [range_contains]

@[simp] theorem holds_glued (i : Item) (q : Prefix) : i.glued.Holds q ↔ False := by
  simp [Item.holds_iff, Item.glued]

variable {sons : List Item}

theorem Node.holds_node {c : Item} {l r : Node} {q : Prefix} :
    (Node.node c sons l r).Holds q ↔
      c.Holds q ∨ (∃ s ∈ sons, s.Holds q) ∨ l.Holds q ∨ r.Holds q := by
  unfold Node.Holds Item.Holds
  constructor
  · rintro ⟨e, he, hq⟩
    rcases mem_entries_node.1 he with h | ⟨s, hs, h⟩ | h | h
    · exact .inl ⟨e, h, hq⟩
    · exact .inr (.inl ⟨s, hs, e, h, hq⟩)
    · exact .inr (.inr (.inl ⟨e, h, hq⟩))
    · exact .inr (.inr (.inr ⟨e, h, hq⟩))
  · rintro (⟨e, h, hq⟩ | ⟨s, hs, e, h, hq⟩ | ⟨e, h, hq⟩ | ⟨e, h, hq⟩)
    · exact ⟨e, mem_entries_node.2 (.inl h), hq⟩
    · exact ⟨e, mem_entries_node.2 (.inr (.inl ⟨s, hs, h⟩)), hq⟩
    · exact ⟨e, mem_entries_node.2 (.inr (.inr (.inl h))), hq⟩
    · exact ⟨e, mem_entries_node.2 (.inr (.inr (.inr h))), hq⟩

/-! ## Joining two halves -/

def Halves (p l r : Prefix) : Prop :=
  ∀ q, (p.Covers q ∧ p.bits < q.bits) ↔ (l.Covers q ∨ r.Covers q)

theorem halves_of_paths {p l r : Prefix} (hl : l.fam = p.fam) (hr : r.fam = p.fam)
    (hlp : l.path = p.path ++ [false]) (hrp : r.path = p.path ++ [true]) : Halves p l r := by
  intro q
  unfold Prefix.Covers
  rw [hl, hr, hlp, hrp]
  constructor
  · rintro ⟨⟨hf, hpre⟩, hlt⟩
    have htake : q.path.take p.bits = p.path := by
      rw [← p.path_length]
      exact (List.prefix_iff_eq_take.1 hpre).symm
    have hnext := take_path_succ q hlt
    rw [htake] at hnext
    cases hb : q.addr.bitAt p.bits with
    | false => exact .inl ⟨hf, by rwa [hb] at hnext⟩
    | true => exact .inr ⟨hf, by rwa [hb] at hnext⟩
  · have down : ∀ {b : Bool}, p.fam = q.fam ∧ p.path ++ [b] <+: q.path →
        (p.fam = q.fam ∧ p.path <+: q.path) ∧ p.bits < q.bits := by
      intro b h
      have hlen := h.2.length_le
      simp at hlen
      exact ⟨⟨h.1, (List.prefix_append _ _).trans h.2⟩, by omega⟩
    rintro (h | h)
    · exact down h
    · exact down h

/-- **Two entries of the same lengths on both halves** hold what one of these lengths on their
prefix holds. -/
theorem holds_join {n l r : Item} (h : Halves n.pfx l.pfx r.pfx) (hn : n.glue = false)
    (hl : l.glue = false) (hr : r.glue = false) (hll : l.low = n.low) (hrl : r.low = n.low)
    (hlh : l.high = n.high) (hrh : r.high = n.high) (hlt : n.pfx.bits < n.low) (q : Prefix) :
    n.Holds q ↔ l.Holds q ∨ r.Holds q := by
  simp only [Item.holds_iff, hn, hl, hr, hll, hrl, hlh, hrh, true_and, ← or_and_right, ← h q]
  constructor
  · rintro ⟨hc, hlo, hhi⟩
    exact ⟨⟨hc, by omega⟩, hlo, hhi⟩
  · rintro ⟨⟨hc, -⟩, hlo, hhi⟩
    exact ⟨hc, hlo, hhi⟩

theorem holds_join_self {n c l r : Item} (h : Halves n.pfx l.pfx r.pfx) (hn : n.glue = false)
    (hl : l.glue = false) (hr : r.glue = false) (hc : c.glue = false) (hcp : c.pfx = n.pfx)
    (hca : c.aggregate = false) (hnl : n.low = n.pfx.bits) (hll : l.low = n.pfx.bits + 1)
    (hrl : r.low = n.pfx.bits + 1) (hlh : l.high = n.high) (hrh : r.high = n.high)
    (hhi : n.pfx.bits ≤ n.high) (q : Prefix) :
    n.Holds q ↔ c.Holds q ∨ l.Holds q ∨ r.Holds q := by
  have hcl : c.low = n.pfx.bits := by simp [Item.low, hca, hcp]
  have hch : c.high = n.pfx.bits := by simp [Item.high, hca, hcp]
  simp only [Item.holds_iff, hn, hl, hr, hc, hcp, hll, hrl, hlh, hrh, hnl, hcl, hch, true_and,
    ← or_and_right, ← h q]
  constructor
  · rintro ⟨hcov, hlo, hhi⟩
    by_cases hlt : n.pfx.bits < q.bits
    · exact .inr ⟨⟨hcov, hlt⟩, by omega, hhi⟩
    · exact .inl ⟨hcov, hlo, by omega⟩
  · rintro (⟨hcov, hlo, hle⟩ | ⟨⟨hcov, -⟩, hlo, hle⟩)
    · exact ⟨hcov, hlo, by omega⟩
    · exact ⟨hcov, by omega, hle⟩

/-! ## A merge -/

def Item.Root (c : Item) : Prop :=
  c.aggregate = true → c.glue = false ∧ c.pfx.bits ≤ c.lo ∧ c.lo ≤ c.hi

structure Aggregated (c : Item) (sons : List Item) : Prop where
  root : c.Root
  sons : ∀ s ∈ sons, s.aggregate = true ∧ s.glue = false ∧ s.pfx = c.pfx ∧ c.pfx.bits ≤ s.lo

/-- `n` does not go on from its own prefix: it is glue, or an aggregate of longer ones. -/
def Item.Below (n : Item) : Prop := n.glue = true ∨ (n.aggregate = true ∧ n.pfx.bits < n.lo)

variable {lo hi : Nat}

theorem sonOf_son {c : Item} (h : c.pfx.bits ≤ lo) :
    (sonOf c lo hi).aggregate = true ∧ (sonOf c lo hi).glue = false ∧
      (sonOf c lo hi).pfx = c.pfx ∧ c.pfx.bits ≤ (sonOf c lo hi).lo := ⟨rfl, rfl, rfl, h⟩

@[simp] theorem low_sonOf (c : Item) (lo hi : Nat) : (sonOf c lo hi).low = lo := rfl
@[simp] theorem high_sonOf (c : Item) (lo hi : Nat) : (sonOf c lo hi).high = hi := rfl

theorem sameAggregate_iff {a b : Item} : sameAggregate a b = true ↔
    a.aggregate = true ∧ b.aggregate = true ∧ a.hi = b.hi ∧ a.lo = b.lo := by
  simp [sameAggregate, and_assoc]

theorem sonLike_eq_some {s : Item} (h : sonLike sons i = some s) :
    ∃ rest, sons = s :: rest ∧ sameAggregate i s = true := by
  obtain ⟨hs, hi⟩ := Option.filter_eq_some_iff.1 h
  obtain ⟨rest, rfl⟩ := List.head?_eq_some_iff.1 hs
  exact ⟨rest, rfl, hi⟩

theorem sonsAlike_eq_some {ls rs : List Item} {s : Item} (h : sonsAlike ls rs = some s) :
    ∃ s' ls' rs', ls = s :: ls' ∧ rs = s' :: rs' ∧ s'.hi = s.hi ∧ s'.lo = s.lo := by
  obtain ⟨s', hs', h⟩ := Option.bind_eq_some_iff.1 h
  obtain ⟨rs', rfl⟩ := List.head?_eq_some_iff.1 hs'
  obtain ⟨ls', rfl, hs⟩ := sonLike_eq_some h
  obtain ⟨-, -, h1, h2⟩ := sameAggregate_iff.1 hs
  exact ⟨s', ls', rs', rfl, rfl, h1, h2⟩

theorem sonsOfLengths_eq_some {ls rs : List Item} {s : Item} (h : sonsOfLengths ls rs = some s) :
    ∃ s' ls' rs', ls = s :: ls' ∧ rs = s' :: rs' ∧ s'.hi = s.hi ∧ s'.lo = s.lo := by
  obtain ⟨s', hs', h⟩ := Option.bind_eq_some_iff.1 h
  obtain ⟨rs', rfl⟩ := List.head?_eq_some_iff.1 hs'
  obtain ⟨hs, hw⟩ := Option.filter_eq_some_iff.1 h
  obtain ⟨ls', rfl⟩ := List.head?_eq_some_iff.1 hs
  have hw : s'.hi = s.hi ∧ s'.lo = s.lo := by simpa using hw
  exact ⟨s', ls', rs', rfl, rfl, hw⟩

theorem low_of_aggregate (h : i.aggregate = true) : i.low = i.lo := by
  simp [Item.low, h]

theorem high_of_aggregate (h : i.aggregate = true) : i.high = i.hi := by
  simp [Item.high, h]

theorem low_of_plain (h : i.aggregate = false) : i.low = i.pfx.bits := by
  simp [Item.low, h]

theorem high_of_plain (h : i.aggregate = false) : i.high = i.pfx.bits := by
  simp [Item.high, h]

theorem sonOf_holds {c l r : Item} (h : Halves c.pfx l.pfx r.pfx)
    (hl : l.aggregate = true ∧ l.glue = false) (hr : r.aggregate = true ∧ r.glue = false)
    (hll : l.lo = lo) (hlh : l.hi = hi) (hrl : r.lo = lo) (hrh : r.hi = hi)
    (hlt : c.pfx.bits < lo) (q : Prefix) :
    (sonOf c lo hi).Holds q ↔ l.Holds q ∨ r.Holds q := by
  refine holds_join (n := sonOf c lo hi) h rfl hl.2 hr.2 ?_ ?_ ?_ ?_ hlt q
  · rw [low_of_aggregate hl.1, hll, low_sonOf]
  · rw [low_of_aggregate hr.1, hrl, low_sonOf]
  · rw [high_of_aggregate hl.1, hlh, high_sonOf]
  · rw [high_of_aggregate hr.1, hrh, high_sonOf]

/-- A merged node: the node it was made from, holding the same, and ready for its own parent. -/
def Merged (c : Item) (before after : Node) : Prop :=
  ∃ n sons l r, after = .node n sons l r ∧ n.pfx = c.pfx ∧ Aggregated n sons ∧
    (c.glue = true → n.Below) ∧ ∀ q, after.Holds q ↔ before.Holds q

section Merge

variable {c li ri : Item} {ls rs : List Item} {ll lr rl rr : Node}

theorem merged_same (hc : c.Root) (l r : Node) :
    Merged c (.node c [] l r) (.node c [] l r) :=
  ⟨c, [], l, r, rfl, rfl, ⟨hc, by simp⟩, .inl, fun _ => Iff.rfl⟩

theorem holds_roots {n : Item} (q : Prefix) :
    (Node.node n sons (.node li ls ll lr) (.node ri rs rl rr)).Holds q ↔
      (n.Holds q ∨ (∃ s ∈ sons, s.Holds q) ∨
        (li.Holds q ∨ ∃ s ∈ ls, s.Holds q) ∨ ri.Holds q ∨ ∃ s ∈ rs, s.Holds q) ∨
      ll.Holds q ∨ lr.Holds q ∨ rl.Holds q ∨ rr.Holds q := by
  simp only [Node.holds_node]
  simp only [or_assoc, or_left_comm, or_comm]

theorem merged_node {n : Item} {ls' rs' : List Item} {li' ri' : Item} (hn : n.pfx = c.pfx)
    (hagg : Aggregated n sons) (hbelow : c.glue = true → n.Below)
    (h : ∀ q, (n.Holds q ∨ (∃ s ∈ sons, s.Holds q) ∨
        (li'.Holds q ∨ ∃ s ∈ ls', s.Holds q) ∨ ri'.Holds q ∨ ∃ s ∈ rs', s.Holds q) ↔
      c.Holds q ∨ (li.Holds q ∨ ∃ s ∈ ls, s.Holds q) ∨ ri.Holds q ∨ ∃ s ∈ rs, s.Holds q) :
    Merged c (.node c [] (.node li ls ll lr) (.node ri rs rl rr))
      (.node n sons (.node li' ls' ll lr) (.node ri' rs' rl rr)) := by
  refine ⟨n, sons, _, _, rfl, hn, hagg, hbelow, fun q => ?_⟩
  rw [holds_roots, holds_roots, h]
  simp only [List.not_mem_nil, false_and, exists_false, false_or]

theorem not_holds_glue (h : i.glue = true) (q : Prefix) : ¬ i.Holds q := by
  simp [Item.holds_iff, h]

theorem glue_eq_false (h : ¬ i.glue = true) : i.glue = false := by simpa using h

theorem aggregated_sonOf (hlo : c.pfx.bits ≤ lo) (hhi : lo ≤ hi) :
    Aggregated (sonOf c lo hi) [] := ⟨fun _ => ⟨rfl, hlo, hhi⟩, by simp⟩

theorem aggregated_sons (hc : c.Root)
    (h : ∀ s ∈ sons, ∃ lo hi, s = sonOf c lo hi ∧ c.pfx.bits ≤ lo) : Aggregated c sons := by
  refine ⟨hc, fun s hs => ?_⟩
  obtain ⟨lo, hi, rfl, hlo⟩ := h s hs
  exact sonOf_son hlo

theorem sons_join {s s' : Item} (hl : Aggregated li (s :: ls)) (hr : Aggregated ri (s' :: rs))
    (hh : Halves c.pfx li.pfx ri.pfx) (hlb : li.pfx.bits = c.pfx.bits + 1) (hhi : s'.hi = s.hi)
    (hlo : s'.lo = s.lo) :
    (∀ q, (sonOf c s.lo s.hi).Holds q ↔ s.Holds q ∨ s'.Holds q) ∧ c.pfx.bits < s.lo := by
  obtain ⟨hsa, hsg, hsp, hsl⟩ := hl.sons s List.mem_cons_self
  obtain ⟨hsa', hsg', hsp', -⟩ := hr.sons s' List.mem_cons_self
  have hlt : c.pfx.bits < s.lo := by omega
  refine ⟨sonOf_holds ?_ ⟨hsa, hsg⟩ ⟨hsa', hsg'⟩ rfl rfl hlo hhi hlt, hlt⟩
  rw [hsp, hsp']
  exact hh

theorem merged_entries (hc : c.aggregate = false) (hl : Aggregated li ls) (hr : Aggregated ri rs)
    (hh : Halves c.pfx li.pfx ri.pfx) (hlb : li.pfx.bits = c.pfx.bits + 1)
    (hrb : ri.pfx.bits = c.pfx.bits + 1) (hla : li.aggregate = false) (hlg : li.glue = false)
    (hra : ri.aggregate = false) (hrg : ri.glue = false) {n : Item}
    (hn : n = { c with
      aggregate := true
      glue := false
      hi := ri.pfx.bits
      lo := if c.glue then ri.pfx.bits else c.pfx.bits }) :
    Merged c (.node c [] (.node li ls ll lr) (.node ri rs rl rr))
      (match sonsAlike ls rs with
      | some s => .node n [sonOf c s.lo s.hi] (.node li.glued (glueSon ls) ll lr)
          (.node ri.glued (glueSon rs) rl rr)
      | none => .node n [] (.node li.glued ls ll lr) (.node ri.glued rs rl rr)) := by
  have hnp : n.pfx = c.pfx := by rw [hn]
  have hna : n.aggregate = true := by rw [hn]
  have hng : n.glue = false := by rw [hn]
  have hnlo : n.lo = if c.glue then ri.pfx.bits else c.pfx.bits := by rw [hn]
  have hnhi : n.hi = ri.pfx.bits := by rw [hn]
  have hroot : n.Root := by
    intro _
    refine ⟨hng, ?_⟩
    rw [hnp, hnlo, hnhi]
    split <;> omega
  have hbelow : c.glue = true → n.Below := by
    intro hg
    refine .inr ⟨hna, ?_⟩
    rw [hnp, hnlo, if_pos hg]
    omega
  -- the node holds what it and both halves held
  have hq : ∀ q, n.Holds q ↔ c.Holds q ∨ li.Holds q ∨ ri.Holds q := by
    intro q
    have hlow := low_of_aggregate hna
    have hhigh := high_of_aggregate hna
    rw [hnlo] at hlow
    rw [hnhi] at hhigh
    have hll := low_of_plain hla
    have hlh := high_of_plain hla
    have hrl := low_of_plain hra
    have hrh := high_of_plain hra
    by_cases hg : c.glue = true
    · rw [if_pos hg] at hlow
      rw [holds_join (hnp ▸ hh) hng hlg hrg (by omega) (by omega) (by omega) (by omega)
        (by rw [hnp]; omega)]
      simp [not_holds_glue hg]
    · rw [if_neg hg] at hlow
      exact holds_join_self (hnp ▸ hh) hng hlg hrg (glue_eq_false hg) hnp.symm hc
        (by rw [hlow, hnp]) (by rw [hnp]; omega) (by rw [hnp]; omega) (by omega) (by omega)
        (by rw [hnp]; omega) q
  cases hs : sonsAlike ls rs with
  | none =>
    refine merged_node hnp ⟨hroot, by simp⟩ hbelow fun q => ?_
    simp only [hq, holds_glued, List.not_mem_nil, false_and, exists_false, false_or]
    simp only [or_assoc, or_left_comm]
  | some s =>
    obtain ⟨s', ls', rs', rfl, rfl, hhi, hlo⟩ := sonsAlike_eq_some hs
    obtain ⟨hson, hlt⟩ := sons_join hl hr hh hlb hhi hlo
    refine merged_node hnp ⟨hroot, ?_⟩ hbelow fun q => ?_
    · simp only [List.mem_singleton, forall_eq, hnp]
      exact sonOf_son hlt.le
    · simp only [hq, hson, glueSon, List.exists_mem_cons_iff, holds_glued, List.not_mem_nil,
        false_and, exists_false, or_false, false_or]
      simp only [or_assoc, or_left_comm]

theorem merged_aggregates (hc : c.Root) (hown : ri.pfx.bits = ri.lo → c.aggregate = false)
    (hl : Aggregated li ls) (hr : Aggregated ri rs) (hh : Halves c.pfx li.pfx ri.pfx)
    (hlb : li.pfx.bits = c.pfx.bits + 1) (hrb : ri.pfx.bits = c.pfx.bits + 1)
    (hsame : sameAggregate ri li = true) :
    Merged c (.node c [] (.node li ls ll lr) (.node ri rs rl rr))
      (if c.glue then .node (sonOf c ri.lo ri.hi) [] (.node li.glued ls ll lr)
          (.node ri.glued rs rl rr)
      else if ri.pfx.bits = ri.lo then
        .node { c with aggregate := true, hi := ri.hi, lo := c.pfx.bits } []
          (.node li.glued ls ll lr) (.node ri.glued rs rl rr)
      else
        match sonsOfLengths ls rs with
        | some s =>
          .node c [sonOf c ri.lo ri.hi, sonOf c s.lo s.hi] (.node li.glued (glueSon ls) ll lr)
            (.node ri.glued (glueSon rs) rl rr)
        | none =>
          .node c [sonOf c ri.lo ri.hi] (.node li.glued ls ll lr)
            (.node ri.glued rs rl rr)) := by
  obtain ⟨hra, hla, hhi, hlo⟩ := sameAggregate_iff.1 hsame
  obtain ⟨hrg, hrl, hrh⟩ := hr.root hra
  obtain ⟨hlg, -, -⟩ := hl.root hla
  have hson := sonOf_holds hh ⟨hla, hlg⟩ ⟨hra, hrg⟩ hlo.symm hhi.symm rfl rfl (by omega)
  have hle : c.pfx.bits ≤ ri.lo := by omega
  by_cases hg : c.glue = true
  · rw [if_pos hg]
    refine merged_node rfl (aggregated_sonOf hle hrh) (fun _ => .inr ⟨rfl, ?_⟩) fun q => ?_
    · show c.pfx.bits < ri.lo
      omega
    simp only [hson, not_holds_glue hg, holds_glued, List.not_mem_nil, false_and, exists_false,
      false_or]
    simp only [or_assoc, or_left_comm]
  rw [if_neg hg]
  by_cases hb : ri.pfx.bits = ri.lo
  · rw [if_pos hb]
    refine merged_node rfl ⟨fun _ => ⟨glue_eq_false hg, le_refl _, by simp only; omega⟩, by simp⟩
      (fun h => absurd h hg) fun q => ?_
    have hself := holds_join_self (n := ⟨c.pfx, c.glue, true, c.pfx.bits, ri.hi⟩) (c := c) hh
      (glue_eq_false hg) hlg hrg (glue_eq_false hg) rfl (hown hb) rfl
      (by rw [low_of_aggregate hla]; simp only; omega)
      (by rw [low_of_aggregate hra]; simp only; omega)
      (by rw [high_of_aggregate hla]; exact hhi.symm) (high_of_aggregate hra)
      (by simp only [Item.high, if_true]; omega) q
    rw [hself]
    simp only [holds_glued, List.not_mem_nil, false_and, exists_false, false_or]
    simp only [or_assoc, or_left_comm]
  rw [if_neg hb]
  cases hs : sonsOfLengths ls rs with
  | none =>
    refine merged_node rfl (aggregated_sons hc ?_) (fun h => absurd h hg) fun q => ?_
    · simp only [List.mem_singleton, forall_eq]
      exact ⟨_, _, rfl, hle⟩
    · simp only [hson, List.exists_mem_cons_iff, holds_glued, List.not_mem_nil, false_and,
        exists_false, or_false, false_or]
      simp only [or_assoc, or_left_comm]
  | some s =>
    obtain ⟨s', ls', rs', rfl, rfl, hhi', hlo'⟩ := sonsOfLengths_eq_some hs
    obtain ⟨hson', hlt⟩ := sons_join hl hr hh hlb hhi' hlo'
    refine merged_node rfl (aggregated_sons hc ?_) (fun h => absurd h hg) fun q => ?_
    · simp only [List.mem_cons, List.not_mem_nil, or_false, forall_eq_or_imp, forall_eq]
      exact ⟨⟨_, _, rfl, hle⟩, ⟨_, _, rfl, hlt.le⟩⟩
    · simp only [hson, hson', glueSon, List.exists_mem_cons_iff, holds_glued, List.not_mem_nil,
        false_and, exists_false, or_false, false_or]
      simp only [or_assoc, or_left_comm]

theorem merged_with_son {li' ri' : Item} {ls' rs' : List Item}
    (hc : c.Root) (hlt : c.pfx.bits < i.lo) (hhi : i.lo ≤ i.hi)
    (h : ∀ q, ((sonOf c i.lo i.hi).Holds q ∨ (li'.Holds q ∨ ∃ s ∈ ls', s.Holds q) ∨
        ri'.Holds q ∨ ∃ s ∈ rs', s.Holds q) ↔
      (li.Holds q ∨ ∃ s ∈ ls, s.Holds q) ∨ ri.Holds q ∨ ∃ s ∈ rs, s.Holds q) :
    Merged c (.node c [] (.node li ls ll lr) (.node ri rs rl rr))
      (if c.glue then .node (sonOf c i.lo i.hi) [] (.node li' ls' ll lr) (.node ri' rs' rl rr)
      else .node c [sonOf c i.lo i.hi] (.node li' ls' ll lr) (.node ri' rs' rl rr)) := by
  by_cases hg : c.glue = true
  · rw [if_pos hg]
    refine merged_node rfl (aggregated_sonOf hlt.le hhi) (fun _ => .inr ⟨rfl, hlt⟩) fun q => ?_
    simp only [not_holds_glue hg, List.not_mem_nil, false_and, exists_false, false_or]
    exact h q
  · rw [if_neg hg]
    refine merged_node rfl (aggregated_sons hc ?_) (fun h => absurd h hg) fun q => ?_
    · simp only [List.mem_singleton, forall_eq]
      exact ⟨_, _, rfl, hlt.le⟩
    · simp only [List.exists_mem_cons_iff, List.not_mem_nil, false_and, exists_false, or_false]
      rw [h q]

/-- **A merge** of a node's two subtrees keeps what they hold. -/
theorem merge_merged (hc : c.Root)
    (hown : c.aggregate = true → ri.pfx.bits = c.pfx.bits + 1 → ri.Below)
    (hl : Aggregated li ls) (hr : Aggregated ri rs)
    (hh : li.pfx.bits = c.pfx.bits + 1 → ri.pfx.bits = c.pfx.bits + 1 →
      Halves c.pfx li.pfx ri.pfx) :
    Merged c (.node c [] (.node li ls ll lr) (.node ri rs rl rr))
      (merge c [] li ls ll lr ri rs rl rr) := by
  unfold merge
  simp only
  split
  · rename_i hboth
    simp only [Bool.and_eq_true, Bool.not_eq_eq_eq_not, Bool.not_true, decide_eq_true_eq] at hboth
    obtain ⟨⟨⟨⟨hra, hla⟩, hrg⟩, hlg⟩, hbits⟩ := hboth
    by_cases hb : ri.pfx.bits = c.pfx.bits + 1
    · have hlb : li.pfx.bits = c.pfx.bits + 1 := hbits ▸ hb
      have hplain : c.aggregate = false := by
        rw [Bool.eq_false_iff]
        intro ha
        rcases hown ha hb with hg | hg
        · rw [hrg] at hg
          cases hg
        · rw [hra] at hg
          cases hg.1
      simp only [if_pos hb, if_pos (And.intro hlb hb)]
      exact merged_entries hplain hl hr (hh hlb hb) hlb hb hla hlg hra hrg rfl
    · simp only [if_neg hb, if_neg (fun h : _ ∧ _ => hb h.2)]
      exact merged_same hc _ _
  split
  · rename_i hsame
    by_cases hb : li.pfx.bits = c.pfx.bits + 1 ∧ ri.pfx.bits = c.pfx.bits + 1
    · rw [if_neg (not_not_intro hb)]
      refine merged_aggregates hc ?_ hl hr (hh hb.1 hb.2) hb.1 hb.2 hsame
      intro hlo
      rw [Bool.eq_false_iff]
      intro ha
      rcases hown ha hb.2 with hg | hg
      · rw [(hr.root (sameAggregate_iff.1 hsame).1).1] at hg
        cases hg
      · omega
    · rw [if_pos hb]
      exact merged_same hc _ _
  split
  · rename_i hsome
    obtain ⟨s, hs⟩ := Option.isSome_iff_exists.1 hsome
    obtain ⟨rest, rfl, hsame⟩ := sonLike_eq_some hs
    obtain ⟨hra, hsa, hhi, hlo⟩ := sameAggregate_iff.1 hsame
    obtain ⟨-, hsg, hsp, -⟩ := hl.sons s List.mem_cons_self
    obtain ⟨hrg, hrl, hrh⟩ := hr.root hra
    by_cases hb : li.pfx.bits = c.pfx.bits + 1 ∧ ri.pfx.bits = c.pfx.bits + 1
    · rw [if_neg (not_not_intro hb)]
      have hlt : c.pfx.bits < ri.lo := by omega
      refine merged_with_son hc hlt hrh fun q => ?_
      rw [sonOf_holds (l := s) (r := ri) (hsp ▸ hh hb.1 hb.2) ⟨hsa, hsg⟩ ⟨hra, hrg⟩ hlo.symm
        hhi.symm rfl rfl hlt]
      simp only [glueSon, List.exists_mem_cons_iff, holds_glued, false_or]
      simp only [or_assoc, or_left_comm, or_comm]
    · rw [if_pos hb]
      exact merged_same hc _ _
  split
  · rename_i hsome
    obtain ⟨s, hs⟩ := Option.isSome_iff_exists.1 hsome
    obtain ⟨rest, rfl, hsame⟩ := sonLike_eq_some hs
    obtain ⟨hla, hsa, hhi, hlo⟩ := sameAggregate_iff.1 hsame
    obtain ⟨-, hsg, hsp, -⟩ := hr.sons s List.mem_cons_self
    obtain ⟨hlg, hll, hlh⟩ := hl.root hla
    by_cases hb : li.pfx.bits = c.pfx.bits + 1 ∧ ri.pfx.bits = c.pfx.bits + 1
    · rw [if_neg (not_not_intro hb)]
      have hlt : c.pfx.bits < li.lo := by omega
      refine merged_with_son hc hlt hlh fun q => ?_
      rw [sonOf_holds (l := li) (r := s) (hsp ▸ hh hb.1 hb.2) ⟨hla, hlg⟩ ⟨hsa, hsg⟩ rfl rfl
        hlo.symm hhi.symm hlt]
      simp only [glueSon, List.exists_mem_cons_iff, holds_glued, false_or]
      simp only [or_assoc, or_left_comm]
    · rw [if_pos hb]
      exact merged_same hc _ _
  · exact merged_same hc _ _

end Merge

/-! ## The whole tree -/

def Kept : Node → Node → Prop
  | .nil, after => after = .nil
  | .node c sons l r, after => Merged c (.node c sons l r) after

theorem Kept.holds {n n' : Node} (h : Kept n n') (q : Prefix) : n'.Holds q ↔ n.Holds q := by
  cases n with
  | nil => rw [show n' = .nil from h]
  | node c sons l r =>
    obtain ⟨-, -, -, -, -, -, -, -, hq⟩ := h
    exact hq q

theorem Kept.root {f : Family} {n : Node} {is : List Item} {l r : Node} {s : List Bool}
    (h : Kept n (.node i is l r)) (hu : n.Under f s) :
    Aggregated i is ∧ i.pfx.fam = f ∧ s <+: i.pfx.path := by
  cases n with
  | nil => cases h
  | node c sons l' r' =>
    obtain ⟨i', is', l', r', heq, hp, hagg, -, -⟩ := h
    cases heq
    rw [hp]
    exact ⟨hagg, hu.1, hu.2.2.1⟩

def GlueUnder (c : Item) : Node → Prop
  | .nil => True
  | .node d _ _ _ => d.pfx.bits = c.pfx.bits + 1 → d.glue = true

theorem Kept.below {c : Item} {n : Node} {is : List Item} {l r : Node}
    (h : Kept n (.node i is l r)) (hg : GlueUnder c n) (hb : i.pfx.bits = c.pfx.bits + 1) :
    i.Below := by
  cases n with
  | nil => cases h
  | node d sons l' r' =>
    obtain ⟨i', is', l', r', heq, hp, -, hbelow, -⟩ := h
    cases heq
    rw [hp] at hb
    exact hbelow (hg hb)

/-! ## Subtrees without gaps -/

def HalfOf (c : Item) : Node → Prop
  | .nil => False
  | .node d _ _ _ => d.pfx.bits = c.pfx.bits + 1

def Whole (w : Nat) : Node → Prop
  | .nil => False
  | .node c sons l r => c.glue = false ∧ c.aggregate = false ∧ sons = [] ∧
    ((c.pfx.bits = w ∧ l = .nil ∧ r = .nil) ∨
      (HalfOf c l ∧ HalfOf c r ∧ Whole w l ∧ Whole w r))

/-- The root of such a subtree once it is aggregated: one entry for all of it. -/
structure OneEntry (w : Nat) (i : Item) (is : List Item) : Prop where
  glue : i.glue = false
  sons : is = []
  lengths : (i.pfx.bits = w ∧ i.aggregate = false) ∨
    (i.pfx.bits < w ∧ i.aggregate = true ∧ i.lo = i.pfx.bits ∧ i.hi = w)

variable {w : Nat}

theorem merge_oneEntry {c li ri : Item} {ls rs : List Item} {ll lr rl rr : Node}
    (hg : c.glue = false) (hl : OneEntry w li ls) (hr : OneEntry w ri rs)
    (hlb : li.pfx.bits = c.pfx.bits + 1) (hrb : ri.pfx.bits = c.pfx.bits + 1) :
    merge c [] li ls ll lr ri rs rl rr =
      .node { c with aggregate := true, hi := w, lo := c.pfx.bits } []
        (.node li.glued [] ll lr) (.node ri.glued [] rl rr) := by
  obtain ⟨hlg, rfl, hll⟩ := hl
  obtain ⟨hrg, rfl, hrl⟩ := hr
  rcases hrl with ⟨hrw, hra⟩ | ⟨hrw, hra, hrlo, hrhi⟩
  · have hla : li.aggregate = false := by
      rcases hll with hll | hll
      · exact hll.2
      · omega
    simp [merge, hla, hra, hlg, hrg, hlb, hrb, hg, sonsAlike, ← hrw]
  · rcases hll with hll | ⟨-, hla, hllo, hlhi⟩
    · omega
    · simp [merge, sameAggregate, hla, hra, hlb, hrb, hg, hllo, hlhi, hrlo, hrhi]

theorem aggregate_whole {n : Node} (h : Whole w n) :
    ∃ c sons l r i l' r', n = .node c sons l r ∧ n.aggregate = .node i [] l' r' ∧
      i.pfx = c.pfx ∧ OneEntry w i [] ∧ c.pfx.bits ≤ w := by
  induction n with
  | nil => exact h.elim
  | node c sons l r ihl ihr =>
    obtain ⟨hg, ha, rfl, hend | ⟨hhl, hhr, hl, hr⟩⟩ := h
    · obtain ⟨hbits, rfl, rfl⟩ := hend
      exact ⟨c, [], .nil, .nil, c, .nil, .nil, rfl, rfl, rfl, ⟨hg, rfl, .inl ⟨hbits, ha⟩⟩, hbits.le⟩
    · obtain ⟨cl, sl, l1, l2, il, l1', l2', rfl, hlagg, hlp, hlone, -⟩ := ihl hl
      obtain ⟨cr, sr, r1, r2, ir, r1', r2', rfl, hragg, hrp, hrone, hrw⟩ := ihr hr
      have hlb : il.pfx.bits = c.pfx.bits + 1 := by
        rw [hlp]
        exact hhl
      have hrb : ir.pfx.bits = c.pfx.bits + 1 := by
        rw [hrp]
        exact hhr
      have hcr : cr.pfx.bits = c.pfx.bits + 1 := hhr
      have hagg : (Node.node c [] (.node cl sl l1 l2) (.node cr sr r1 r2)).aggregate =
          .node { c with aggregate := true, hi := w, lo := c.pfx.bits } []
            (.node il.glued [] l1' l2') (.node ir.glued [] r1' r2') := by
        rw [Node.aggregate, hlagg, hragg]
        exact merge_oneEntry hg hlone hrone hlb hrb
      refine ⟨c, [], _, _, _, _, _, rfl, hagg, rfl, ⟨hg, rfl, .inr ⟨?_, rfl, rfl, rfl⟩⟩, by omega⟩
      show c.pfx.bits < w
      omega

theorem path_of_succ {p : Prefix} {s : List Bool} {b : Bool} (h : s ++ [b] <+: p.path)
    (hb : p.bits = s.length + 1) : p.path = s ++ [b] := (h.eq_of_length (by simp [hb])).symm

/-- A tree aggregation keeps the meaning of: nodes have no sons yet, and an aggregate's halves are
glue, or it stands for a subtree without gaps. -/
def Node.Ready (w : Nat) : Node → Prop
  | .nil => True
  | .node c sons l r => sons = [] ∧ c.Root ∧
    (c.aggregate = true → GlueUnder c r ∨
      (c.lo = c.pfx.bits ∧ c.hi = w ∧ HalfOf c l ∧ HalfOf c r ∧ Whole w l ∧ Whole w r)) ∧
    Ready w l ∧ Ready w r

theorem Node.Plain.ready {n : Node} (h : n.Plain) (w : Nat) : n.Ready w := by
  induction n with
  | nil => trivial
  | node c sons l r ihl ihr =>
    obtain ⟨ha, hs, hl, hr⟩ := h
    exact ⟨hs, by simp [Item.Root, ha], by simp [ha], ihl hl, ihr hr⟩

theorem kept_whole {c : Item} {l r : Node} (hc : c.Root) (ha : c.aggregate = true)
    (hlo : c.lo = c.pfx.bits) (hhi : c.hi = w) (hhl : HalfOf c l) (hhr : HalfOf c r)
    (hl : Whole w l) (hr : Whole w r) (hu : ∀ i sons l' r', l = .node i sons l' r' ∨
      r = .node i sons l' r' → c.pfx.Covers i.pfx) (hkl : Kept l l.aggregate)
    (hkr : Kept r r.aggregate) : Kept (.node c [] l r) (Node.node c [] l r).aggregate := by
  obtain ⟨hg, -, hle⟩ := hc ha
  obtain ⟨cl, sl, l1, l2, il, l1', l2', rfl, hlagg, hlp, hlone, -⟩ := aggregate_whole hl
  obtain ⟨cr, sr, r1, r2, ir, r1', r2', rfl, hragg, hrp, hrone, -⟩ := aggregate_whole hr
  have hlb : il.pfx.bits = c.pfx.bits + 1 := by
    rw [hlp]
    exact hhl
  have hrb : ir.pfx.bits = c.pfx.bits + 1 := by
    rw [hrp]
    exact hhr
  have hsame : { c with aggregate := true, hi := w, lo := c.pfx.bits } = c := by
    rw [← ha, ← hhi, ← hlo]
  -- what a half holds, the node holds
  have hin : ∀ i : Item, c.pfx.Covers i.pfx → i.pfx.bits = c.pfx.bits + 1 → OneEntry w i [] →
      ∀ q, i.Holds q → c.Holds q := by
    intro i hcov hb hone q hq
    obtain ⟨-, hicov, h1, h2⟩ := Item.holds_iff.1 hq
    refine Item.holds_iff.2 ⟨hg, hcov.trans hicov, ?_, ?_⟩
    · rw [low_of_aggregate ha, hlo]
      have := hicov.bits_le
      omega
    · rw [high_of_aggregate ha, hhi]
      rcases hone.lengths with ⟨hw, hp⟩ | ⟨-, hp, -, hw⟩
      · rw [high_of_plain hp] at h2
        omega
      · rw [high_of_aggregate hp] at h2
        omega
  have hlin := hin il (hlp ▸ hu cl sl l1 l2 (.inl rfl)) hlb hlone
  have hrin := hin ir (hrp ▸ hu cr sr r1 r2 (.inr rfl)) hrb hrone
  rw [hlagg] at hkl
  rw [hragg] at hkr
  have hmerge : (Node.node c [] (.node cl sl l1 l2) (.node cr sr r1 r2)).aggregate =
      .node c [] (.node il.glued [] l1' l2') (.node ir.glued [] r1' r2') := by
    rw [Node.aggregate, hlagg, hragg]
    show merge c [] il [] l1' l2' ir [] r1' r2' = _
    rw [merge_oneEntry hg hlone hrone hlb hrb, hsame]
  rw [hmerge]
  refine ⟨c, [], _, _, rfl, rfl, ⟨hc, by simp⟩, by simp [hg], fun q => ?_⟩
  rw [Node.holds_node, Node.holds_node (c := c), ← hkl.holds, ← hkr.holds]
  simp only [Node.holds_node, List.not_mem_nil, false_and, exists_false, false_or, holds_glued]
  constructor
  · intro h
    rcases h with h | h | h
    · exact .inl h
    · exact .inr (.inl (.inr h))
    · exact .inr (.inr (.inr h))
  · intro h
    rcases h with h | (h | h) | (h | h)
    · exact .inl h
    · exact .inl (hlin q h)
    · exact .inr (.inl h)
    · exact .inl (hrin q h)
    · exact .inr (.inr h)

/-- **Aggregation keeps what a subtree holds**, and its root's prefix. -/
theorem aggregate_kept {f : Family} {n : Node} {s : List Bool} (hu : n.Under f s)
    (h : n.Ready w) : Kept n n.aggregate := by
  induction n generalizing s with
  | nil => rfl
  | node c sons l r ihl ihr =>
    obtain ⟨hcf, -, -, hul, hur⟩ := hu
    obtain ⟨rfl, hroot, hagg, hl, hr⟩ := h
    have hl := ihl hul hl
    have hr := ihr hur hr
    have hq : ∀ q, (Node.node c [] l.aggregate r.aggregate).Holds q ↔
        (Node.node c [] l r).Holds q := by
      intro q
      rw [Node.holds_node, Node.holds_node, hl.holds, hr.holds]
    by_cases hwhole : c.aggregate = true ∧ ¬ GlueUnder c r
    · obtain ⟨hlo, hhi, hhl, hhr, hwl, hwr⟩ := (hagg hwhole.1).resolve_left hwhole.2
      refine kept_whole hroot hwhole.1 hlo hhi hhl hhr hwl hwr ?_ hl hr
      intro i sons l' r' hi
      rcases hi with rfl | rfl
      · exact ⟨hcf.trans hul.1.symm, (List.prefix_append _ _).trans hul.2.2.1⟩
      · exact ⟨hcf.trans hur.1.symm, (List.prefix_append _ _).trans hur.2.2.1⟩
    -- a node without both subtrees stays as it is
    have alone : Kept (.node c [] l r) (.node c [] l.aggregate r.aggregate) :=
      ⟨c, [], _, _, rfl, rfl, ⟨hroot, by simp⟩, .inl, hq⟩
    rw [Node.aggregate]
    split
    · rename_i li ls ll lr ri rs rl rr hla hra
      rw [hla] at hl
      rw [hra] at hr
      rw [hla, hra] at hq
      obtain ⟨hlagg, hlf, hlp⟩ := hl.root hul
      obtain ⟨hragg, hrf, hrp⟩ := hr.root hur
      have hown : c.aggregate = true → ri.pfx.bits = c.pfx.bits + 1 → ri.Below := by
        intro ha hb
        exact hr.below (of_not_not fun hno => hwhole ⟨ha, hno⟩) hb
      obtain ⟨n, sons, l', r', heq, hp, hagg', hbelow, hq'⟩ := merge_merged
        hroot hown hlagg hragg fun hlb hrb =>
          halves_of_paths (hlf.trans hcf.symm) (hrf.trans hcf.symm)
            (path_of_succ hlp (by simpa using hlb)) (path_of_succ hrp (by simpa using hrb))
      exact ⟨n, sons, l', r', heq, hp, hagg', hbelow, fun q => (hq' q).trans (hq q)⟩
    · exact alone

theorem entries_eq_of_mem {a b : List Entry}
    (ha : a.Pairwise fun a b => a.pfx.less b.pfx = true)
    (hb : b.Pairwise fun a b => a.pfx.less b.pfx = true) (h : ∀ e, e ∈ a ↔ e ∈ b) : a = b := by
  have nodup : ∀ {l : List Entry}, (l.Pairwise fun a b => a.pfx.less b.pfx = true) → l.Nodup := by
    intro l hl
    refine hl.imp fun {x y} hxy => ?_
    rintro rfl
    rw [Prefix.less_irrefl] at hxy
    cases hxy
  have hperm := (List.perm_ext_iff_of_nodup (nodup ha) (nodup hb)).2 h
  refine hperm.eq_of_pairwise (fun x y _ _ hxy hyx => ?_) ha hb
  rw [Prefix.less_asymm hxy] at hyx
  cases hyx

/-- **Aggregation is lossless**: a tree that ranges were added to lists the prefixes of its family
and lengths that they hold, once each, by address and then length, whatever the order of the adds,
all of which succeed with these; and the entries of the aggregated tree hold the same prefixes. -/
theorem aggregate_lossless (v6 : Bool) (maxLen maxPrefixes : Int) (rs : List PrefixRange) (t : Tree)
    (h : (Tree.new v6 maxLen maxPrefixes).addAll rs = .ok t) :
    (∀ e ∈ t.entries, e.aggregate = false) ∧
      (t.entries.map Entry.pfx).Pairwise (fun p q => p.less q = true) ∧
      (∀ q, q ∈ t.entries.map Entry.pfx ↔ q.masked = q ∧ q.fam = family v6 ∧
        q.bits ≤ (Tree.new v6 maxLen maxPrefixes).maxLen ∧ ∃ r ∈ rs, r.contains q = true) ∧
      (∀ rs', rs'.Perm rs → ∃ t', (Tree.new v6 maxLen maxPrefixes).addAll rs' = .ok t' ∧
        t'.entries = t.entries) ∧
      ∀ q, (∃ e ∈ t.aggregate.entries, e.range.contains q = true) ↔
        ∃ e ∈ t.entries, e.range.contains q = true := by
  have key : ∀ {rs t}, (Tree.new v6 maxLen maxPrefixes).addAll rs = .ok t → t.Wf ∧
      (t.entries.Pairwise fun a b => a.pfx.less b.pfx = true) ∧ ∀ e, e ∈ t.entries ↔
        ∃ q, (∃ r ∈ rs, (Tree.new v6 maxLen maxPrefixes).Takes r q) ∧ e = listed q := by
    intro rs t h
    have hadds := Tree.addAll_adds (Tree.wf_new ..) h
    refine ⟨hadds.wf, entries_sorted hadds.wf.under hadds.wf.plain, fun e => ?_⟩
    rw [hadds.mem]
    simp [Tree.entries, Tree.new, Node.entries]
  obtain ⟨hwf, hsorted, hmem⟩ := key h
  refine ⟨fun e he => ?_, ?_, fun q => ?_, fun rs' hperm => ?_, fun q => ?_⟩
  · rw [eq_listed hwf.plain he]
    rfl
  · rw [List.pairwise_map]
    exact hsorted
  · simp only [List.mem_map, hmem]
    constructor
    · rintro ⟨e, ⟨q', ⟨r, hr, hm, hf, hb, hc⟩, rfl⟩, rfl⟩
      exact ⟨hm, hf, hb, r, hr, hc⟩
    · rintro ⟨hm, hf, hb, r, hr, hc⟩
      exact ⟨listed q, ⟨q, ⟨r, hr, hm, hf, hb, hc⟩, rfl⟩, rfl⟩
  · have hok := Tree.addAll_eq_ok_iff.1 ⟨t, h⟩
    simp only [← hperm.mem_iff] at hok
    obtain ⟨t', h'⟩ := Tree.addAll_eq_ok_iff.2 hok
    obtain ⟨-, hsorted', hmem'⟩ := key h'
    refine ⟨t', h', entries_eq_of_mem hsorted' hsorted fun e => ?_⟩
    rw [hmem, hmem']
    simp only [hperm.mem_iff]
  · exact (aggregate_kept hwf.under (hwf.plain.ready (family t.v6).width)).holds q

theorem tenAndHalves_wf :
    RangeWf (some ⟨⟨.v4, 0x0a000000#32⟩, 8, (Nat.le_add_right 8 24 : 8 ≤ 32)⟩) 8 9 :=
  ⟨by decide, by decide, by decide, by decide⟩

/-- The range 10.0.0.0/8^8-9: a prefix and its two halves. -/
def tenAndHalves : PrefixRange := ⟨_, 8, 9, tenAndHalves_wf⟩

theorem aggregate_lossless_halves :
    ∃ t, (Tree.new false 0 3).addAll [tenAndHalves] = .ok t ∧ t.entries.length = 3 ∧
      t.aggregate.entries.length = 1 ∧
      ∀ q, (∃ e ∈ t.aggregate.entries, e.range.contains q = true) ↔
        ∃ e ∈ t.entries, e.range.contains q = true :=
  ⟨_, rfl, rfl, rfl, (aggregate_lossless false 0 3 [tenAndHalves] _ rfl).2.2.2.2⟩

end Rpsl.Filtergen
