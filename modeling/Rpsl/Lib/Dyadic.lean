import Mathlib.Data.Nat.Factorization.Basic
import Mathlib.Data.List.Sort

/-!
# Dyadic blocks

A block is an interval of naturals of length `2 ^ k` that starts at a multiple of it. Two blocks
are nested or apart (`Block.within_or_apart`). An interval is cut greedily into blocks by taking,
from its start, the largest one that fits (`Greedy`). The pieces are the maximal blocks of the
interval (`Greedy.within`), so no list of blocks with the same union is shorter
(`Greedy.length_le`), and their sizes grow and then fall, so they are few
(`Greedy.length_le_of_lt`).
-/

namespace Lib

/-- An aligned interval of length `2 ^ k`. -/
structure Block where
  start : Nat
  k : Nat
  aligned : 2 ^ k ∣ start

namespace Block

/-- The first number past the block. -/
def stop (b : Block) : Nat := b.start + 2 ^ b.k

/-- The block has the number. -/
def Has (b : Block) (x : Nat) : Prop := b.start ≤ x ∧ x < b.stop

theorem start_lt_stop (b : Block) : b.start < b.stop := by
  have := Nat.two_pow_pos b.k
  unfold stop
  omega

theorem has_start (b : Block) : b.Has b.start := ⟨le_rfl, b.start_lt_stop⟩

theorem within_or_apart {b c : Block} (h : b.k ≤ c.k) :
    (c.start ≤ b.start ∧ b.stop ≤ c.stop) ∨ b.stop ≤ c.start ∨ c.stop ≤ b.start := by
  obtain ⟨s, hs⟩ := b.aligned
  obtain ⟨t, ht⟩ := (pow_dvd_pow 2 h).trans c.aligned
  obtain ⟨u, hu⟩ := pow_dvd_pow 2 h
  have hpos := Nat.two_pow_pos b.k
  unfold stop
  -- in units of the smaller block's length
  rw [hs, ht, hu, ← Nat.mul_succ, ← Nat.mul_add, Nat.mul_le_mul_left_iff hpos,
    Nat.mul_le_mul_left_iff hpos, Nat.mul_le_mul_left_iff hpos, Nat.mul_le_mul_left_iff hpos]
  omega

theorem within_iff {b c : Block} :
    (b.k ≤ c.k ∧ c.Has b.start) ↔ (c.start ≤ b.start ∧ b.stop ≤ c.stop) := by
  constructor
  · intro h
    obtain ⟨hk, hge, hlt⟩ := h
    have hb := b.start_lt_stop
    rcases within_or_apart hk with hin | hapart | hapart
    · exact hin
    · omega
    · omega
  · intro h
    obtain ⟨hge, hle⟩ := h
    have hlt := b.start_lt_stop
    refine ⟨?_, hge, hlt.trans_le hle⟩
    rw [← Nat.pow_le_pow_iff_right (a := 2) (by decide)]
    unfold stop at hle
    omega

theorem eq_length_iff {b c : Block} (hge : c.start ≤ b.start) (hle : b.stop ≤ c.stop) :
    c.k = b.k ↔ c.start = b.start ∧ c.stop = b.stop := by
  constructor
  · intro h
    unfold stop at *
    rw [h] at hle ⊢
    omega
  · intro h
    obtain ⟨hs, he⟩ := h
    apply Nat.pow_right_injective le_rfl
    unfold stop at he
    show 2 ^ c.k = 2 ^ b.k
    omega

end Block

/-- `2 ^ k` is the length of the largest block at `cur` that ends by `stop`. -/
structure Largest (stop cur k : Nat) : Prop where
  aligned : 2 ^ k ∣ cur
  fits : cur + 2 ^ k ≤ stop
  max : ∀ j, 2 ^ j ∣ cur → cur + 2 ^ j ≤ stop → j ≤ k

theorem Largest.unique {stop cur j k : Nat} (hj : Largest stop cur j) (hk : Largest stop cur k) :
    j = k :=
  le_antisymm (hk.max _ hj.aligned hj.fits) (hj.max _ hk.aligned hk.fits)

theorem exists_largest {stop cur : Nat} (h : cur < stop) : ∃ k, Largest stop cur k := by
  let P : Nat → Prop := fun k => 2 ^ k ∣ cur ∧ cur + 2 ^ k ≤ stop
  have hP : P (Nat.findGreatest P stop) :=
    Nat.findGreatest_spec (Nat.zero_le stop) (show P 0 from ⟨one_dvd _, h⟩)
  refine ⟨Nat.findGreatest P stop, hP.1, hP.2, fun j hd hj => ?_⟩
  have hlt := Nat.lt_two_pow_self (n := j)
  exact Nat.le_findGreatest (by omega) ⟨hd, hj⟩

/-- The blocks taken greedily from `cur` up to `stop`. -/
inductive Greedy (stop : Nat) : Nat → List Block → Prop
  | done : Greedy stop stop []
  | take {cur k : Nat} {bs : List Block} (h : Largest stop cur k) :
      Greedy stop (cur + 2 ^ k) bs → Greedy stop cur (⟨cur, k, h.aligned⟩ :: bs)

namespace Greedy

variable {stop cur : Nat} {bs : List Block}

theorem exists_blocks (h : cur ≤ stop) : ∃ bs, Greedy stop cur bs := by
  induction hn : stop - cur using Nat.strong_induction_on generalizing cur with
  | _ n ih =>
    rcases Nat.eq_or_lt_of_le h with rfl | hlt
    · exact ⟨[], done⟩
    · obtain ⟨k, hk⟩ := exists_largest hlt
      have hfits := hk.fits
      have hpos := Nat.two_pow_pos k
      obtain ⟨bs, hbs⟩ := ih (stop - (cur + 2 ^ k)) (by omega) hfits rfl
      exact ⟨_, take hk hbs⟩

theorem has_iff (h : Greedy stop cur bs) {x : Nat} :
    (∃ b ∈ bs, b.Has x) ↔ cur ≤ x ∧ x < stop := by
  induction h with
  | done => simp
  | @take cur k bs hl hg ih =>
    have hpos := Nat.two_pow_pos k
    have hfits := hl.fits
    have hhas : (⟨cur, k, hl.aligned⟩ : Block).Has x ↔ cur ≤ x ∧ x < cur + 2 ^ k := Iff.rfl
    rw [List.exists_mem_cons_iff, ih, hhas]
    omega

theorem start_le (h : Greedy stop cur bs) {b : Block} (hb : b ∈ bs) : cur ≤ b.start :=
  (h.has_iff.1 ⟨b, hb, b.has_start⟩).1

theorem stop_le (h : Greedy stop cur bs) {b : Block} (hb : b ∈ bs) : b.stop ≤ stop := by
  have hlt := b.start_lt_stop
  have := (h.has_iff (x := b.stop - 1)).1 ⟨b, hb, by omega, by omega⟩
  omega

theorem pairwise (h : Greedy stop cur bs) : bs.Pairwise fun b c => b.stop ≤ c.start := by
  induction h with
  | done => exact .nil
  | take hl hg ih => exact .cons (fun c hc => hg.start_le hc) ih

theorem eq_of_has (h : Greedy stop cur bs) {b c : Block} (hb : b ∈ bs) (hc : c ∈ bs) {x : Nat}
    (hbx : b.Has x) (hcx : c.Has x) : b = c := by
  have hpw := h.pairwise
  clear h
  induction hpw with
  | nil => cases hb
  | cons hle _ ih =>
    rcases List.mem_cons.1 hb with rfl | hb' <;> rcases List.mem_cons.1 hc with rfl | hc'
    · rfl
    · exact absurd (hbx.2.trans_le (hle c hc')) (Nat.not_lt.2 hcx.1)
    · exact absurd (hcx.2.trans_le (hle b hb')) (Nat.not_lt.2 hbx.1)
    · exact ih hb' hc'

theorem within (h : Greedy stop cur bs) {c : Block} (hc : cur ≤ c.start) (hs : c.stop ≤ stop) :
    ∃ b ∈ bs, b.start ≤ c.start ∧ c.stop ≤ b.stop := by
  induction h with
  | done =>
    have := c.start_lt_stop
    omega
  | @take cur k bs hl hg ih =>
    let b : Block := ⟨cur, k, hl.aligned⟩
    have happart : b.stop ≤ c.start → ∃ d ∈ b :: bs, d.start ≤ c.start ∧ c.stop ≤ d.stop := by
      intro hle
      obtain ⟨d, hd, hin⟩ := ih hle
      exact ⟨d, List.mem_cons_of_mem _ hd, hin⟩
    have hlt := c.start_lt_stop
    rcases le_total c.k k with hk | hk
    · rcases Block.within_or_apart (b := c) (c := b) hk with hin | hlow | hhigh
      · exact ⟨b, List.mem_cons_self, hin⟩
      · have : b.start = cur := rfl
        omega
      · exact happart hhigh
    · rcases Block.within_or_apart (b := b) (c := c) hk with ⟨hin, -⟩ | hlow | hhigh
      · -- a larger block here starts where the taken one does, so it is not larger
        have heq : c.start = cur := le_antisymm hin hc
        have hk' := hl.max c.k (heq ▸ c.aligned) (heq ▸ hs)
        have hkk : c.k = k := le_antisymm hk' hk
        refine ⟨b, List.mem_cons_self, heq.ge, ?_⟩
        rw [Block.stop, Block.stop, heq, hkk]
      · exact happart hlow
      · have : b.start = cur := rfl
        omega

/-- **No cover is shorter**: each block taken needs a block of its own. -/
theorem length_le (h : Greedy stop cur bs) {cs : List Block}
    (hcs : ∀ x, (∃ c ∈ cs, c.Has x) ↔ cur ≤ x ∧ x < stop) : bs.length ≤ cs.length := by
  classical
  -- the block that covers the start of a taken one
  have hpick : ∀ b ∈ bs, ∃ c ∈ cs, c.Has b.start := fun b hb =>
    (hcs b.start).2 (h.has_iff.1 ⟨b, hb, b.has_start⟩)
  have hin : ∀ c ∈ cs, cur ≤ c.start ∧ c.stop ≤ stop := by
    intro c hc
    have h1 := (hcs c.start).1 ⟨c, hc, c.has_start⟩
    have hlt := c.start_lt_stop
    have h2 := (hcs (c.stop - 1)).1 ⟨c, hc, by omega, by omega⟩
    omega
  choose! pick hmem hhas using hpick
  -- it lies in one taken block only
  have hinj : ∀ b ∈ bs, ∀ b' ∈ bs, pick b = pick b' → b = b' := by
    intro b hb b' hb' heq
    obtain ⟨d, hd, hd1, hd2⟩ := h.within (hin _ (hmem b hb)).1 (hin _ (hmem b hb)).2
    have hlies : ∀ e ∈ bs, (pick b).Has e.start → d = e := fun e he hh =>
      h.eq_of_has hd he ⟨hd1.trans hh.1, hh.2.trans_le hd2⟩ e.has_start
    have hb2 := hhas b' hb'
    rw [← heq] at hb2
    exact (hlies b hb (hhas b hb)).symm.trans (hlies b' hb' hb2)
  have hnodup : bs.Nodup := h.pairwise.imp fun {b c} hle heq => by
    subst heq
    exact absurd b.start_lt_stop (Nat.not_lt.2 hle)
  have hpicks : (bs.map pick).Nodup :=
    (List.nodup_map_iff_inj_on hnodup).2 fun b hb b' hb' heq => hinj b hb b' hb' heq
  calc bs.length = (bs.map pick).length := (List.length_map _).symm
    _ ≤ cs.length := (List.subperm_of_subset hpicks fun c hc => by
        obtain ⟨b, hb, rfl⟩ := List.mem_map.1 hc
        exact hmem b hb).length_le

/-! ## How many blocks there are -/

theorem stop_lt_of_dvd {k : Nat} (hl : Largest stop cur k) (hd : 2 ^ (k + 1) ∣ cur) :
    stop < cur + 2 ^ k + 2 ^ k := by
  by_contra hge
  have htwo : 2 ^ (k + 1) = 2 ^ k + 2 ^ k := by rw [pow_succ]; omega
  have := hl.max (k + 1) hd (by omega)
  omega

theorem length_le_of_lt (h : Greedy stop cur bs) {m : Nat} (hm : 2 ^ m ∣ cur)
    (hlt : stop < cur + 2 ^ m) : bs.length ≤ m := by
  induction h generalizing m with
  | done => exact Nat.zero_le m
  | @take cur k bs hl hg ih =>
    have hfits := hl.fits
    have hk : k < m := by
      by_contra hge
      have := Nat.pow_le_pow_right (n := 2) (by decide) (Nat.le_of_not_lt hge)
      omega
    have hrest := stop_lt_of_dvd hl ((pow_dvd_pow 2 hk).trans hm)
    have := ih (m := k) (Nat.dvd_add hl.aligned dvd_rfl) hrest
    rw [List.length_cons]
    omega

theorem length_le_of_le (h : Greedy stop cur bs) {m : Nat} (hm : 2 ^ m ∣ cur)
    (hle : stop ≤ cur + 2 ^ m) : bs.length ≤ max m 1 := by
  rcases Nat.lt_or_ge stop (cur + 2 ^ m) with hlt | hge
  · exact (h.length_le_of_lt hm hlt).trans (le_max_left _ _)
  · have hs : stop = cur + 2 ^ m := le_antisymm hle hge
    have hone : bs.length ≤ [(⟨cur, m, hm⟩ : Block)].length :=
      h.length_le fun x => by simp [Block.Has, Block.stop, hs]
    exact hone.trans (le_max_right _ _)

theorem length_le_of_pos (h : Greedy stop cur bs) {w t : Nat} (ht : t + 1 ≤ w) (hw : 2 ≤ w)
    (hdvd : 2 ^ t ∣ cur) (hpos : 0 < cur) (hstop : stop ≤ 2 ^ w) : bs.length ≤ 2 * w - 2 - t := by
  induction h generalizing t with
  | done => exact Nat.zero_le _
  | @take cur k bs hl hg ih =>
    have hfits := hl.fits
    have hkpos := Nat.two_pow_pos k
    -- `e` is the exact alignment of `cur`
    obtain ⟨e, m, hodd, hcur⟩ := Nat.exists_eq_two_pow_mul_odd hpos.ne'
    have hexact : ∀ j, 2 ^ j ∣ cur → j ≤ e := by
      intro j hj
      by_contra hlt
      have h2 : 2 ^ e * 2 ∣ 2 ^ e * m := by
        rw [← pow_succ, ← hcur]
        exact (pow_dvd_pow 2 (Nat.lt_of_not_le hlt)).trans hj
      exact (Nat.not_even_iff_odd.2 hodd)
        (even_iff_two_dvd.2 (Nat.dvd_of_mul_dvd_mul_left (Nat.two_pow_pos e) h2))
    have hew : e + 1 ≤ w := by
      have hle : 2 ^ e ≤ cur := Nat.le_of_dvd hpos ⟨m, hcur⟩
      exact (Nat.pow_lt_pow_iff_right (a := 2) (by decide)).1 (by omega)
    have hte := hexact t hdvd
    rw [List.length_cons]
    rcases Nat.lt_or_eq_of_le (hexact k hl.aligned) with hk | rfl
    · have hd : 2 ^ (k + 1) ∣ cur := (pow_dvd_pow 2 hk).trans ⟨m, hcur⟩
      have := hg.length_le_of_lt (Nat.dvd_add hl.aligned dvd_rfl) (stop_lt_of_dvd hl hd)
      omega
    · have hnext : 2 ^ (k + 1) ∣ cur + 2 ^ k := by
        obtain ⟨n, hn⟩ := hodd.add_one.two_dvd
        exact ⟨n, by rw [hcur, ← Nat.mul_succ, Nat.succ_eq_add_one, hn, pow_succ, Nat.mul_assoc]⟩
      rcases Nat.lt_or_eq_of_le hew with hlt | rfl
      · have := ih (t := k + 1) (by omega) hnext (by omega)
        omega
      · -- the upper half: nothing is left after it
        have hge := Nat.le_of_dvd (by omega) hnext
        have := hg.length_le_of_lt (m := 0) (one_dvd _) (by simp only [pow_zero]; omega)
        omega

/-- **There are at most `2 * w - 2` blocks** in an interval of numbers below `2 ^ w`. -/
theorem length_le_width (h : Greedy stop cur bs) {w : Nat} (hw : 2 ≤ w) (hstop : stop ≤ 2 ^ w) :
    bs.length ≤ 2 * w - 2 := by
  rcases Nat.eq_zero_or_pos cur with rfl | hpos
  · have := h.length_le_of_le (dvd_zero (2 ^ w)) (by omega)
    omega
  · exact h.length_le_of_pos (t := 0) (by omega) hw (by simp) hpos hstop

end Greedy

end Lib
