import Rpsl.Lib.Dyadic
import Rpsl.Types.AddrRange

/-!
# Address ranges are cut exactly and minimally

A `u128` is a natural number (`U128.toNat`) and a prefix a dyadic block of addresses (`blockOf`).
The arithmetic of the loop is that of the naturals as long as it does not wrap, which is as long as
the block taken ends by the range's end. So the block taken is the largest that fits
(`largest_blockBits`), and the loop is the greedy cut of the range (`loop_eq`).
-/

namespace Rpsl

open Lib

/-! ## 128-bit numbers -/

namespace U128

def toNat (u : U128) : Nat := 2 ^ 64 * u.hi.toNat + u.lo.toNat

theorem toNat_lt (u : U128) : u.toNat < 2 ^ 128 := by
  have h1 := u.hi.toNat_lt
  have h2 := u.lo.toNat_lt
  unfold toNat
  omega

theorem toNat_injective : Function.Injective toNat := by
  rintro ⟨h, l⟩ ⟨h', l'⟩ heq
  have h1 := l.toNat_lt
  have h2 := l'.toNat_lt
  simp only [toNat] at heq
  have hh : h = h' := UInt64.toNat_inj.1 (by omega)
  have hl : l = l' := UInt64.toNat_inj.1 (by omega)
  rw [hh, hl]

theorem testBit_toNat (u : U128) (j : Nat) :
    u.toNat.testBit j = if j < 64 then u.lo.toNat.testBit j else u.hi.toNat.testBit (j - 64) :=
  Nat.testBit_two_pow_mul_add _ u.lo.toNat_lt j

theorem toNat_or (u v : U128) : (u.or v).toNat = u.toNat ||| v.toNat := by
  refine Nat.eq_of_testBit_eq fun j => ?_
  rw [Nat.testBit_or, testBit_toNat, testBit_toNat, testBit_toNat]
  simp only [or, UInt64.toNat_or, Nat.testBit_or]
  split <;> rfl

theorem toNat_ones {m : Nat} (h : m ≤ 64) : (UInt64.ofNat (1 <<< m) - 1).toNat = 2 ^ m - 1 := by
  have hone : (1 : UInt64).toNat = 1 := rfl
  rw [UInt64.toNat_sub, UInt64.toNat_ofNat', Nat.one_shiftLeft, hone]
  have hpos := Nat.two_pow_pos m
  rcases Nat.lt_or_eq_of_le h with hlt | rfl
  · have := Nat.pow_lt_pow_right (a := 2) (by decide) hlt
    omega
  · decide

theorem toNat_lowOnes {n : Nat} (h : n ≤ 128) : (lowOnes n).toNat = 2 ^ n - 1 := by
  have hall : (~~~(0 : UInt64)).toNat = 2 ^ 64 - 1 := by decide
  have hzero : (0 : UInt64).toNat = 0 := rfl
  unfold lowOnes
  split_ifs with h0 h1 h2
  · subst h0
    rfl
  · rw [toNat, toNat_ones h1.le, hzero]
    omega
  · subst h2
    rw [toNat, hall, hzero]
    omega
  · have hsplit : 2 ^ n = 2 ^ 64 * 2 ^ (n - 64) := by rw [← pow_add]; congr 1; omega
    have hpos := Nat.two_pow_pos (n - 64)
    rw [toNat, toNat_ones (by omega), hall, hsplit]
    omega

theorem toNat_sub {u v : U128} (h : v.toNat ≤ u.toNat) : (u.sub v).toNat = u.toNat - v.toNat := by
  have h1 := u.lo.toNat_lt
  have h2 := v.lo.toNat_lt
  have h3 := u.hi.toNat_lt
  have h4 := v.hi.toNat_lt
  simp only [toNat, sub] at h ⊢
  split
  next hlt =>
    rw [UInt64.lt_iff_toNat_lt] at hlt
    rw [UInt64.toNat_sub, UInt64.toNat_sub, UInt64.toNat_sub]
    simp only [UInt64.toNat_one]
    omega
  next hge =>
    rw [UInt64.lt_iff_toNat_lt] at hge
    rw [UInt64.toNat_sub, UInt64.toNat_sub, UInt64.toNat_sub]
    simp only [UInt64.toNat_zero]
    omega

theorem toNat_add1 {u : U128} (h : u.toNat + 1 < 2 ^ 128) : u.add1.toNat = u.toNat + 1 := by
  have h1 := u.lo.toNat_lt
  have h2 := u.hi.toNat_lt
  have hone : (1 : UInt64).toNat = 1 := rfl
  have hzero : (0 : UInt64).toNat = 0 := rfl
  simp only [toNat, add1] at h ⊢
  have hcarry : u.lo + 1 = 0 ↔ u.lo.toNat = 2 ^ 64 - 1 := by
    rw [← UInt64.toNat_inj, UInt64.toNat_add, hone, hzero]
    omega
  split
  next hc =>
    rw [hcarry] at hc
    rw [UInt64.toNat_add, UInt64.toNat_add, hone]
    omega
  next hc =>
    rw [hcarry] at hc
    rw [UInt64.toNat_add, UInt64.toNat_add, hone, hzero]
    omega

theorem trailingZeros64_spec (x : UInt64) :
    (∀ j < trailingZeros64 x, x.toNat.testBit j = false) ∧
      (x ≠ 0 → x.toNat.testBit (trailingZeros64 x) = true) ∧ (x = 0 → trailingZeros64 x = 64) := by
  unfold trailingZeros64
  set p : Nat → Bool := fun i => x.toNat.testBit i with hp
  have hle : (List.range 64).findIdx p ≤ 64 := by
    simpa only [List.length_range] using (List.range 64).findIdx_le_length (p := p)
  refine ⟨fun j hj => ?_, fun hx => ?_, fun hx => ?_⟩
  · have := List.not_of_lt_findIdx hj
    simpa using this
  · obtain ⟨j, hj⟩ := Nat.exists_testBit_of_ne_zero
      (fun h => hx (UInt64.toNat_inj.1 h) : x.toNat ≠ 0)
    have hj64 : j < 64 := by
      by_contra hge
      rw [Nat.testBit_lt_two_pow (x.toNat_lt.trans_le
        (Nat.pow_le_pow_right (by decide) (Nat.le_of_not_lt hge)))] at hj
      cases hj
    have hlt : (List.range 64).findIdx p < (List.range 64).length :=
      List.findIdx_lt_length_of_exists ⟨j, List.mem_range.2 hj64, hj⟩
    have := List.findIdx_getElem (p := p) (w := hlt)
    simpa using this
  · subst hx
    have : (List.range 64).findIdx p = (List.range 64).length :=
      List.findIdx_eq_length.2 fun i _ => by simp [hp]
    simpa using this

theorem trailingZeros_bits (u : U128) :
    (∀ j < u.trailingZeros, u.toNat.testBit j = false) ∧
      (u.toNat ≠ 0 → u.toNat.testBit u.trailingZeros = true) ∧
      (u.toNat = 0 → u.trailingZeros = 128) := by
  obtain ⟨hlo, hlo', hlo0⟩ := trailingZeros64_spec u.lo
  obtain ⟨hhi, hhi', hhi0⟩ := trailingZeros64_spec u.hi
  have hword : ∀ x : UInt64, x.toNat = 0 ↔ x = 0 := fun x => by
    rw [← UInt64.toNat_inj]; rfl
  unfold trailingZeros
  split_ifs with h
  · have hlt : trailingZeros64 u.lo < 64 := by
      by_contra hge
      have := hlo' h
      rw [Nat.testBit_lt_two_pow (u.lo.toNat_lt.trans_le
        (Nat.pow_le_pow_right (by decide) (Nat.le_of_not_lt hge)))] at this
      cases this
    refine ⟨fun j hj => ?_, fun _ => ?_, fun h0 => ?_⟩
    · rw [testBit_toNat, if_pos (hj.trans hlt)]
      exact hlo j hj
    · rw [testBit_toNat, if_pos hlt]
      exact hlo' h
    · exact absurd ((hword _).1 (by unfold toNat at h0; omega)) h
  · rw [not_not] at h
    have hlo : u.lo.toNat = 0 := (hword _).2 h
    refine ⟨fun j hj => ?_, fun h0 => ?_, fun h0 => ?_⟩
    · rw [testBit_toNat, hlo]
      split
      · exact Nat.zero_testBit j
      · exact hhi (j - 64) (by omega)
    · rw [testBit_toNat, if_neg (by omega), Nat.add_sub_cancel_left]
      exact hhi' fun hz => h0 (by simp [toNat, hlo, (hword _).2 hz])
    · rw [hhi0 ((hword _).1 (by unfold toNat at h0; omega))]

theorem trailingZeros_spec (u : U128) :
    2 ^ u.trailingZeros ∣ u.toNat ∧ (u.toNat ≠ 0 → ∀ j, 2 ^ j ∣ u.toNat → j ≤ u.trailingZeros) := by
  obtain ⟨hlow, hbit, -⟩ := trailingZeros_bits u
  refine ⟨Nat.dvd_of_mod_eq_zero (Nat.eq_of_testBit_eq fun j => ?_), fun hne j hj => ?_⟩
  · rw [Nat.testBit_mod_two_pow, Nat.zero_testBit]
    by_cases hlt : j < u.trailingZeros
    · simp [hlow j hlt]
    · simp [hlt]
  · by_contra hgt
    obtain ⟨m, hm⟩ := hj
    have := hbit hne
    rw [hm, Nat.testBit_two_pow_mul] at this
    simp at this
    omega

theorem bitLen_eq (u : U128) : u.bitLen = u.toNat.size := by
  unfold bitLen
  have hlo := u.lo.toNat_lt
  split_ifs with h
  · have hne : u.hi.toNat ≠ 0 := fun e => h (UInt64.toNat_inj.1 e)
    have hpos : 0 < u.hi.toNat.size := Nat.size_pos.2 (Nat.pos_of_ne_zero hne)
    have hlt := Nat.lt_size_self u.hi.toNat
    have hge : 2 ^ (u.hi.toNat.size - 1) ≤ u.hi.toNat := Nat.lt_size.1 (by omega)
    refine le_antisymm ?_ ?_
    · have hbit : 64 + (u.hi.toNat.size - 1) < u.toNat.size := by
        rw [Nat.lt_size, pow_add, toNat]
        exact (Nat.mul_le_mul_left _ hge).trans (Nat.le_add_right _ _)
      unfold len64
      omega
    · rw [Nat.size_le, len64, pow_add, toNat]
      calc 2 ^ 64 * u.hi.toNat + u.lo.toNat < 2 ^ 64 * (u.hi.toNat + 1) := by omega
        _ ≤ 2 ^ 64 * 2 ^ u.hi.toNat.size := Nat.mul_le_mul_left _ hlt
  · rw [not_not] at h
    rw [len64, toNat, h]
    simp

end U128

/-! ## The block taken -/

namespace AddrRange

theorem fit_spec (n : Nat) :
    let m := if n = 2 ^ n.size - 1 then n.size else n.size - 1
    2 ^ m ≤ n + 1 ∧ n + 1 < 2 ^ (m + 1) := by
  have hlt := Nat.lt_size_self n
  have hpos := Nat.two_pow_pos n.size
  dsimp only
  split_ifs with h
  · rw [pow_succ]
    omega
  · have hsize : 0 < n.size := by
      by_contra hz
      have hz' : n.size = 0 := by omega
      rw [hz'] at h hlt
      simp at h hlt
      exact h hlt
    have hge : 2 ^ (n.size - 1) ≤ n := Nat.lt_size.1 (by omega)
    rw [Nat.sub_add_cancel hsize]
    omega

variable {cur last : U128}

theorem blockBits_eq (h : cur.toNat ≤ last.toNat) :
    blockBits cur last = min cur.trailingZeros
      (if last.toNat - cur.toNat = 2 ^ (last.toNat - cur.toNat).size - 1 then
        (last.toNat - cur.toNat).size else (last.toNat - cur.toNat).size - 1) := by
  have hleft := U128.toNat_sub h
  have hsize : (last.toNat - cur.toNat).size ≤ 128 := by
    rw [Nat.size_le]
    exact (Nat.sub_le _ _).trans_lt last.toNat_lt
  have heq : last.sub cur = U128.lowOnes (last.toNat - cur.toNat).size ↔
      last.toNat - cur.toNat = 2 ^ (last.toNat - cur.toNat).size - 1 := by
    rw [← U128.toNat_injective.eq_iff, hleft, U128.toNat_lowOnes hsize]
  simp only [blockBits, U128.bitLen_eq, hleft, heq]
  split_ifs <;> rfl

theorem largest_blockBits (h : cur.toNat ≤ last.toNat) :
    Largest (last.toNat + 1) cur.toNat (blockBits cur last) := by
  rw [blockBits_eq h]
  set n := last.toNat - cur.toNat with hn
  obtain ⟨hle, hlt⟩ := fit_spec n
  set m := if n = 2 ^ n.size - 1 then n.size else n.size - 1 with hm
  obtain ⟨hdvd, hmax⟩ := cur.trailingZeros_spec
  have hpow : ∀ {j}, j ≤ m → 2 ^ j ≤ 2 ^ m := fun hj => Nat.pow_le_pow_right (by decide) hj
  refine ⟨(pow_dvd_pow 2 (min_le_left _ _)).trans hdvd, ?_, fun j hj hfit => ?_⟩
  · have := hpow (min_le_right cur.trailingZeros m)
    omega
  · have hjm : j ≤ m := by
      have : 2 ^ j < 2 ^ (m + 1) := by omega
      exact Nat.lt_succ_iff.1 ((Nat.pow_lt_pow_iff_right (by decide)).1 this)
    refine le_min ?_ hjm
    by_cases h0 : cur.toNat = 0
    · rw [(U128.trailingZeros_bits cur).2.2 h0]
      have : 2 ^ m ≤ 2 ^ 128 := by
        have := last.toNat_lt
        omega
      exact hjm.trans ((Nat.pow_le_pow_iff_right (by decide)).1 this)
    · exact hmax h0 j hj

theorem toNat_blockLast (h : cur.toNat ≤ last.toNat) :
    (blockLast cur last).toNat + 1 = cur.toNat + 2 ^ blockBits cur last := by
  have hl := largest_blockBits h
  have hfits := hl.fits
  have hpos := Nat.two_pow_pos (blockBits cur last)
  have hk : blockBits cur last ≤ 128 := by
    have := last.toNat_lt
    exact (Nat.pow_le_pow_iff_right (a := 2) (by decide)).1 (by omega)
  obtain ⟨m, hm⟩ := hl.aligned
  rw [blockLast, U128.toNat_or, U128.toNat_lowOnes hk, hm,
    ← Nat.two_pow_add_eq_or_of_lt (by omega)]
  omega

/-! ## Prefixes and blocks -/

def prefixOf (f : Family) (b : Block) : Prefix :=
  ⟨⟨f, BitVec.ofNat f.width b.start⟩, f.width - b.k, Nat.sub_le _ _⟩

def blockOf (p : Prefix) : Block :=
  ⟨p.addr.val.toNat / 2 ^ (p.bitLen - p.bits) * 2 ^ (p.bitLen - p.bits), p.bitLen - p.bits,
    Nat.dvd_mul_left _ _⟩

theorem addr_eq (u : U128) (f : Family) : u.addr f = ⟨f, BitVec.ofNat f.width u.toNat⟩ := by
  cases f with
  | v4 =>
    have h : BitVec.ofNat 32 u.lo.toNat = BitVec.ofNat 32 u.toNat := by
      apply BitVec.eq_of_toNat_eq
      rw [BitVec.toNat_ofNat, BitVec.toNat_ofNat, U128.toNat]
      omega
    rw [U128.addr, h]
    rfl
  | v6 =>
    have h : u.hi.toBitVec ++ u.lo.toBitVec = BitVec.ofNat 128 u.toNat := by
      apply BitVec.eq_of_toNat_eq
      rw [BitVec.toNat_append, BitVec.toNat_ofNat, Nat.mod_eq_of_lt u.toNat_lt,
        ← Nat.shiftLeft_add_eq_or_of_lt u.lo.toBitVec.isLt, Nat.shiftLeft_eq, Nat.mul_comm]
      rfl
    rw [U128.addr, h]
    rfl

theorem toNat_ofAddr (a : Addr) : (U128.ofAddr a).toNat = a.val.toNat := by
  obtain ⟨f, v⟩ := a
  have hv := v.isLt
  cases f with
  | v4 =>
    change v.toNat < 2 ^ 32 at hv
    simp only [U128.ofAddr, U128.toNat, UInt64.toNat_ofNat']
    change 2 ^ 64 * 0 + v.toNat % 2 ^ 64 = v.toNat
    omega
  | v6 =>
    change v.toNat < 2 ^ 128 at hv
    simp only [U128.ofAddr, U128.toNat, UInt64.toNat_ofNat', Nat.shiftRight_eq_div_pow]
    change 2 ^ 64 * (v.toNat / 2 ^ 64 % 2 ^ 64) + v.toNat % 2 ^ 64 = v.toNat
    omega

theorem contains_iff (p : Prefix) (a : Addr) :
    p.contains a = true ↔ a.fam = p.fam ∧ (blockOf p).Has a.val.toNat := by
  obtain ⟨⟨f, v⟩, n, hn⟩ := p
  obtain ⟨f', x⟩ := a
  simp only [Prefix.contains, Bool.and_eq_true, decide_eq_true_eq, Prefix.fam, eq_comm (a := f')]
  refine and_congr_right fun hf => ?_
  subst hf
  set k := f.width - n with hk
  have hn' : n ≤ f.width := hn
  have hw : n + k = f.width := by omega
  -- both say that the numbers agree from bit `k` on
  have hquot : (blockOf ⟨⟨f, v⟩, n, hn⟩).Has x.toNat ↔ v.toNat / 2 ^ k = x.toNat / 2 ^ k := by
    have hdiv := Nat.div_mul_le_self x.toNat (2 ^ k)
    have hlt := Nat.lt_div_mul_add (a := x.toNat) (Nat.two_pow_pos k)
    simp only [Block.Has, Block.stop, blockOf, Prefix.bitLen, Addr.bitLen, ← hk]
    constructor
    · rintro ⟨h1, h2⟩
      exact ((Nat.div_eq_iff (Nat.two_pow_pos k)).2 ⟨h1, by omega⟩).symm
    · intro h
      rw [h]
      omega
  rw [hquot, List.all_eq_true]
  constructor
  · intro h
    refine Nat.eq_of_testBit_eq fun j => ?_
    rw [Nat.testBit_div_two_pow, Nat.testBit_div_two_pow]
    by_cases hj : j + k < f.width
    · have hbit := h (f.width - 1 - (j + k)) (List.mem_range.2 (by omega))
      simp only [beq_iff_eq, Addr.bitAt, BitVec.getMsbD] at hbit
      have hidx : f.width - 1 - (f.width - 1 - (j + k)) = j + k := by omega
      have hlt : f.width - 1 - (j + k) < f.width := by omega
      simpa [hidx, hlt, BitVec.testBit_toNat] using hbit
    · have hbig : ∀ y : BitVec f.width, y.toNat.testBit (j + k) = false := fun y =>
        Nat.testBit_lt_two_pow (y.isLt.trans_le (Nat.pow_le_pow_right (by decide) (by omega)))
      rw [hbig v, hbig x]
  · intro h d hd
    rw [List.mem_range] at hd
    have hbit := congrArg (fun y => y.testBit (f.width - 1 - d - k)) h
    simp only [Nat.testBit_div_two_pow] at hbit
    have hidx : f.width - 1 - d - k + k = f.width - 1 - d := by omega
    rw [hidx] at hbit
    simp only [beq_iff_eq, Addr.bitAt, BitVec.getMsbD, BitVec.getLsbD, hbit]

variable {f : Family}

theorem contains_prefixOf {b : Block} (h : b.stop ≤ 2 ^ f.width) (a : Addr) :
    (prefixOf f b).contains a = true ↔ a.fam = f ∧ b.Has a.val.toNat := by
  have hstart : b.start < 2 ^ f.width := b.start_lt_stop.trans_le h
  have hk : b.k ≤ f.width := by
    have : 2 ^ b.k ≤ 2 ^ f.width := (Nat.le_add_left _ _).trans h
    exact (Nat.pow_le_pow_iff_right (by decide)).1 this
  rw [contains_iff]
  refine and_congr_right fun _ => ?_
  have hbits : (prefixOf f b).bitLen - (prefixOf f b).bits = b.k := Nat.sub_sub_self hk
  have hval : (prefixOf f b).addr.val.toNat = b.start := by
    change (BitVec.ofNat f.width b.start).toNat = b.start
    rw [BitVec.toNat_ofNat, Nat.mod_eq_of_lt hstart]
  rw [Block.Has, Block.Has, Block.stop, Block.stop, blockOf]
  simp only [hbits, hval, Nat.div_mul_cancel b.aligned]

/-! ## The loop -/

theorem loop_eq (hlast : last.toNat < 2 ^ f.width) {bs : List Block}
    {c : Nat} (h : Greedy (last.toNat + 1) c bs) (hc : cur.toNat = c)
    (hle : c ≤ last.toNat) {fuel : Nat} (hfuel : bs.length ≤ fuel) :
    loop f last fuel cur = some (bs.map fun b => some (prefixOf f b)) := by
  induction h generalizing cur fuel with
  | done => omega
  | @take c k bs hl hg ih =>
    subst hc
    obtain ⟨fuel, rfl⟩ : ∃ n, fuel = n + 1 := ⟨fuel - 1, by simp at hfuel; omega⟩
    have hk : blockBits cur last = k := (largest_blockBits hle).unique hl
    have hnext := toNat_blockLast hle
    rw [hk] at hnext
    have hfits := hl.fits
    have hkw : k ≤ f.width := by
      have : 2 ^ k ≤ 2 ^ f.width := by omega
      exact (Nat.pow_le_pow_iff_right (by decide)).1 this
    have hp : prefixFrom (cur.addr f) (f.width - blockBits cur last) =
        some (prefixOf f ⟨cur.toNat, k, hl.aligned⟩) := by
      have hbits : ((f.width : Int) - k).toNat = f.width - k := by omega
      rw [hk, addr_eq, prefixFrom, dif_pos (by simp only [hbits]; omega)]
      simp only [hbits, prefixOf]
    have hend : blockLast cur last = last ↔ cur.toNat + 2 ^ k = last.toNat + 1 := by
      rw [← U128.toNat_injective.eq_iff]
      omega
    unfold loop
    simp only [hp, hend, List.map_cons]
    split_ifs with heq
    · rw [heq] at hg
      cases hg with
      | done => rfl
      | take hl' _ =>
        have := hl'.fits
        have := Nat.two_pow_pos ‹Nat›
        omega
    · have hadd : (blockLast cur last).add1.toNat = cur.toNat + 2 ^ k := by
        rw [U128.toNat_add1, hnext]
        have := last.toNat_lt
        omega
      rw [ih hadd (by omega) (by simpa using hfuel)]
      rfl

/-- The `cur` of the turns of the loop. -/
inductive Reached (first last : U128) : U128 → Prop
  | first : Reached first last first
  | next {cur : U128} : Reached first last cur → blockLast cur last ≠ last →
      Reached first last (blockLast cur last).add1

/-- No operation of the turn at `cur` wraps: each gives the number it would without a width. -/
structure Exact (last cur : U128) : Prop where
  left : (last.sub cur).toNat + cur.toNat = last.toNat
  fit : (U128.lowOnes (last.sub cur).bitLen).toNat + 1 = 2 ^ (last.sub cur).bitLen
  ones : (U128.lowOnes (blockBits cur last)).toNat + 1 = 2 ^ blockBits cur last
  block : (blockLast cur last).toNat =
    cur.toNat + (U128.lowOnes (blockBits cur last)).toNat
  next : blockLast cur last ≠ last →
    (blockLast cur last).add1.toNat = (blockLast cur last).toNat + 1

theorem toNat_next (hle : cur.toNat ≤ last.toNat)
    (h : blockLast cur last ≠ last) :
    (blockLast cur last).toNat < last.toNat ∧
      (blockLast cur last).add1.toNat = (blockLast cur last).toNat + 1 := by
  have hblock := toNat_blockLast hle
  have hfits := (largest_blockBits hle).fits
  have hne := U128.toNat_injective.ne h
  have := last.toNat_lt
  exact ⟨by omega, U128.toNat_add1 (by omega)⟩

theorem Reached.le {first : U128} (h : Reached first last cur)
    (hle : first.toNat ≤ last.toNat) : cur.toNat ≤ last.toNat := by
  induction h with
  | first => exact hle
  | next _ hne ih =>
    have := toNat_next ih hne
    omega

theorem exact_of_le (hle : cur.toNat ≤ last.toNat) : Exact last cur := by
  have hbits : ∀ {k}, 2 ^ k ≤ 2 ^ 128 → (U128.lowOnes k).toNat + 1 = 2 ^ k := fun {k} hk => by
    rw [U128.toNat_lowOnes ((Nat.pow_le_pow_iff_right (by decide)).1 hk)]
    exact Nat.sub_add_cancel (Nat.two_pow_pos k)
  have hlast := last.toNat_lt
  have hfits := (largest_blockBits hle).fits
  have hblock := toNat_blockLast hle
  have hones := hbits (k := blockBits cur last) (by omega)
  refine ⟨?_, hbits ?_, hones, by omega, fun hne => (toNat_next hle hne).2⟩
  · rw [U128.toNat_sub hle]
    omega
  · rw [U128.bitLen_eq, Nat.pow_le_pow_iff_right (by decide), Nat.size_le]
    exact (last.sub cur).toNat_lt

theorem stop_blockOf_le (p : Prefix) : (blockOf p).stop ≤ 2 ^ p.fam.width := by
  set k := p.bitLen - p.bits with hk
  have hpow : 2 ^ p.fam.width = 2 ^ k * 2 ^ (p.fam.width - k) := by
    have hle : k ≤ p.fam.width := Nat.sub_le _ _
    rw [← pow_add, Nat.add_sub_cancel' hle]
  have hlt : p.addr.val.toNat / 2 ^ k < 2 ^ (p.fam.width - k) :=
    Nat.div_lt_of_lt_mul (hpow ▸ p.addr.val.isLt)
  calc (blockOf p).stop = 2 ^ k * (p.addr.val.toNat / 2 ^ k + 1) := by
        rw [Nat.mul_succ, Nat.mul_comm]
        rfl
    _ ≤ 2 ^ k * 2 ^ (p.fam.width - k) := Nat.mul_le_mul_left _ hlt
    _ = 2 ^ p.fam.width := hpow.symm

theorem masked_toNat (p : Prefix) : p.masked.addr.val.toNat = (blockOf p).start := by
  have hmem : p.contains p.masked.addr = true :=
    (Prefix.contains_masked_iff le_rfl).2 (Prefix.Covers.refl p)
  obtain ⟨-, hge, hlt⟩ := (contains_iff p _).1 hmem
  -- it is a multiple of the block's length, and so is the block's first number
  have hdvd : 2 ^ (blockOf p).k ∣ p.masked.addr.val.toNat := by
    apply Nat.dvd_of_mod_eq_zero
    apply Nat.eq_of_testBit_eq
    intro j
    rw [Nat.testBit_mod_two_pow, Nat.zero_testBit]
    by_cases hj : j < (blockOf p).k
    · have hw : j < p.addr.fam.width := hj.trans_le (Nat.sub_le _ _)
      have hbit : p.masked.addr.bitAt (p.addr.fam.width - 1 - j) = false := by
        have hle : p.bits ≤ p.addr.fam.width - 1 - j := by
          have hk : (blockOf p).k = p.addr.fam.width - p.bits := rfl
          omega
        rw [Prefix.masked, Addr.bitAt_mask _ p.le, decide_eq_false (Nat.not_lt.2 hle),
          Bool.false_and]
      have hidx : p.addr.fam.width - 1 - (p.addr.fam.width - 1 - j) = j := by omega
      have hlt : p.addr.fam.width - 1 - j < p.addr.fam.width := by omega
      simp only [Addr.bitAt, BitVec.getMsbD, Prefix.masked, Addr.mask_fam, hidx, hlt,
        decide_true, Bool.true_and] at hbit
      simp only [hj, decide_true, Bool.true_and]
      exact hbit
    · simp [hj]
  obtain ⟨x, hx⟩ := hdvd
  obtain ⟨y, hy⟩ := (blockOf p).aligned
  rw [Block.stop, hx, hy, ← Nat.mul_succ] at hlt
  rw [hx, hy] at hge ⊢
  have hpos := Nat.two_pow_pos (blockOf p).k
  rw [Nat.mul_le_mul_left_iff hpos] at hge
  have hlt := Nat.lt_of_mul_lt_mul_left hlt
  congr 1
  omega

theorem lastAddr_masked (p : Prefix) : (lastAddr p.masked).fam = p.fam ∧
    (lastAddr p.masked).val.toNat + 1 = (blockOf p).stop := by
  have hk : p.masked.bitLen - p.masked.bits = (blockOf p).k := rfl
  have hle : (blockOf p).k ≤ 128 := (Nat.sub_le _ _).trans p.fam.width_le
  have hpos := Nat.two_pow_pos (blockOf p).k
  obtain ⟨y, hy⟩ := (blockOf p).aligned
  have hor : (blockOf p).start ||| (2 ^ (blockOf p).k - 1) =
      (blockOf p).start + (2 ^ (blockOf p).k - 1) := by
    rw [hy, ← Nat.two_pow_add_eq_or_of_lt (by omega)]
  have hstop := stop_blockOf_le p
  rw [lastAddr, addr_eq, U128.toNat_or, toNat_ofAddr, masked_toNat, hk, U128.toNat_lowOnes hle, hor]
  refine ⟨rfl, ?_⟩
  change (BitVec.ofNat p.fam.width _).toNat + 1 = _
  rw [Block.stop] at hstop ⊢
  rw [BitVec.toNat_ofNat, Nat.mod_eq_of_lt (by omega)]
  omega

theorem blocks_of_cover {first stop : Nat} {qs : List Prefix}
    (hqs : ∀ a : Addr, (∃ q ∈ qs, q.contains a = true) ↔
      a.fam = f ∧ first ≤ a.val.toNat ∧ a.val.toNat < stop) (hstop : stop ≤ 2 ^ f.width) (x : Nat) :
    (∃ c ∈ qs.map blockOf, c.Has x) ↔ first ≤ x ∧ x < stop := by
  have haddr : ∀ y < 2 ^ f.width, (BitVec.ofNat f.width y).toNat = y := fun y hy => by
    rw [BitVec.toNat_ofNat, Nat.mod_eq_of_lt hy]
  constructor
  · rintro ⟨_, hmem, hx⟩
    obtain ⟨q, hq, rfl⟩ := List.mem_map.1 hmem
    have hxlt : x < 2 ^ q.fam.width := hx.2.trans_le (stop_blockOf_le q)
    have hval : (BitVec.ofNat q.fam.width x).toNat = x := by
      rw [BitVec.toNat_ofNat, Nat.mod_eq_of_lt hxlt]
    have hin := (hqs ⟨q.fam, BitVec.ofNat q.fam.width x⟩).1
      ⟨q, hq, (contains_iff _ _).2 ⟨rfl, by simpa only [hval] using hx⟩⟩
    simpa only [hval] using hin.2
  · rintro ⟨h1, h2⟩
    have hval := haddr x (h2.trans_le hstop)
    obtain ⟨q, hq, hc⟩ := (hqs ⟨f, BitVec.ofNat f.width x⟩).2
      ⟨rfl, by simpa only [hval] using ⟨h1, h2⟩⟩
    refine ⟨blockOf q, List.mem_map_of_mem hq, ?_⟩
    simpa only [hval] using ((contains_iff _ _).1 hc).2

end AddrRange

open AddrRange in
/-- `AddrRangePrefixes` of a range: its loop ends within `2 * width - 2` turns, with prefixes in
ascending order and apart that have the range's addresses and no others. No list of prefixes with
those addresses is shorter, there are at most 62 of them for IPv4 and 254 for IPv6, and no turn's
arithmetic wraps. -/
theorem addrRangePrefixes_exact (lo hi : Addr) (hf : lo.fam = hi.fam)
    (hle : lo.val.toNat ≤ hi.val.toNat) :
    ∃ ps : List Prefix,
      (∀ fuel ≥ 2 * lo.fam.width - 2, addrRangePrefixes fuel lo hi = some (.ok (ps.map some))) ∧
      (ps.Pairwise fun p q => ∀ a b, p.contains a = true → q.contains b = true →
        a.val.toNat < b.val.toNat) ∧
      (∀ a, (∃ p ∈ ps, p.contains a = true) ↔
        a.fam = lo.fam ∧ lo.val.toNat ≤ a.val.toNat ∧ a.val.toNat ≤ hi.val.toNat) ∧
      (∀ qs : List Prefix, (∀ a, (∃ q ∈ qs, q.contains a = true) ↔
        a.fam = lo.fam ∧ lo.val.toNat ≤ a.val.toNat ∧ a.val.toNat ≤ hi.val.toNat) →
        ps.length ≤ qs.length) ∧
      (ps.length ≤ match lo.fam with | .v4 => 62 | .v6 => 254) ∧
      (∀ cur, Reached (U128.ofAddr lo) (U128.ofAddr hi) cur → Exact (U128.ofAddr hi) cur) := by
  have hlast : hi.val.toNat < 2 ^ lo.fam.width := by
    rw [hf]
    exact hi.val.isLt
  obtain ⟨bs, hbs⟩ := Greedy.exists_blocks (Nat.le_succ_of_le hle)
  have hlen : bs.length ≤ 2 * lo.fam.width - 2 :=
    hbs.length_le_width (by cases lo.fam <;> decide) hlast
  have hcontains : ∀ b ∈ bs, ∀ a, (prefixOf lo.fam b).contains a = true ↔
      a.fam = lo.fam ∧ b.Has a.val.toNat := fun b hb a =>
    contains_prefixOf ((hbs.stop_le hb).trans hlast) a
  refine ⟨bs.map (prefixOf lo.fam), fun fuel hfuel => ?_, ?_, fun a => ?_, fun qs hqs => ?_, ?_,
    fun cur hcur => ?_⟩
  · have hloop := loop_eq (f := lo.fam)
      (by rwa [toNat_ofAddr]) (by rwa [toNat_ofAddr]) (toNat_ofAddr lo)
      (by rwa [toNat_ofAddr]) (hlen.trans hfuel)
    have hbit : ¬ lo.bitLen ≠ hi.bitLen := not_not.2 (congrArg Family.width hf)
    rw [addrRangePrefixes, if_neg hbit, if_neg (Nat.not_lt.2 hle), hloop, List.map_map]
    rfl
  · rw [List.pairwise_map]
    refine hbs.pairwise.imp_of_mem fun {b c} hb hc hapart x y hx hy => ?_
    exact (((hcontains b hb x).1 hx).2.2.trans_le hapart).trans_le ((hcontains c hc y).1 hy).2.1
  · have hmem : (∃ p ∈ bs.map (prefixOf lo.fam), p.contains a = true) ↔
        a.fam = lo.fam ∧ ∃ b ∈ bs, b.Has a.val.toNat := by
      constructor
      · rintro ⟨p, hp, h⟩
        obtain ⟨b, hb, rfl⟩ := List.mem_map.1 hp
        obtain ⟨hfam, hhas⟩ := (hcontains b hb a).1 h
        exact ⟨hfam, b, hb, hhas⟩
      · rintro ⟨hfam, b, hb, hhas⟩
        exact ⟨_, List.mem_map_of_mem hb, (hcontains b hb a).2 ⟨hfam, hhas⟩⟩
    rw [hmem, hbs.has_iff, Nat.lt_succ_iff]
  · have := hbs.length_le
      (blocks_of_cover (f := lo.fam) (by simpa only [Nat.lt_succ_iff] using hqs) hlast)
    simpa using this
  · rw [List.length_map]
    revert hlen
    cases lo.fam <;> exact id
  · exact exact_of_le (hcur.le (by simpa only [toNat_ofAddr] using hle))

/-- The whole of IPv6: one prefix, of no bits. -/
theorem addrRangePrefixes_exact_everything :
    ∃ ps : List Prefix,
      addrRangePrefixes 254 ⟨.v6, 0⟩ ⟨.v6, -1⟩ = some (.ok (ps.map some)) ∧
      ∀ a : Addr, (∃ p ∈ ps, p.contains a = true) ↔
        a.fam = .v6 ∧ 0 ≤ a.val.toNat ∧ a.val.toNat ≤ (-1 : BitVec 128).toNat := by
  obtain ⟨ps, hps, -, hhas, -⟩ :=
    addrRangePrefixes_exact ⟨.v6, 0⟩ ⟨.v6, -1⟩ rfl (by decide +kernel)
  exact ⟨ps, hps 254 (by decide), hhas⟩

end Rpsl
