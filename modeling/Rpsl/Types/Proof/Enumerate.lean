import Rpsl.Types.Enumerate
import Rpsl.Types.RangeText
import Rpsl.Types.Proof.AddrRange
import Rpsl.Types.Proof.Order
import Rpsl.Types.Proof.Range

/-!
# The prefixes of a range, one by one, are those it denotes

The counter behind `All` adds one to the bits between the range's prefix and a length
(`increment_spec`), so what it yields at a length is one prefix for each number those bits can hold
(`level_eq`), and these are the prefixes of that length under the range's (`mem_listAt`).
-/

namespace Rpsl

open AddrRange

/-! ## One bit -/

namespace Addr

theorem testBit_eq_bitAt (a : Addr) {pos : Nat} (h : pos < a.fam.width) :
    a.val.getLsbD (a.fam.width - 1 - pos) = a.bitAt pos := by
  simp [bitAt, BitVec.getMsbD, h]

theorem toNat_sub_twoPow {w j : Nat} {z : BitVec w} (h : z.getLsbD j = true) :
    (z - BitVec.twoPow w j).toNat + 2 ^ j = z.toNat := by
  have hj : j < w := BitVec.lt_of_getLsbD h
  have hge : 2 ^ j ≤ z.toNat := Nat.ge_two_pow_of_testBit h
  have ht : (BitVec.twoPow w j).toNat = 2 ^ j := by
    rw [BitVec.toNat_twoPow, Nat.mod_eq_of_lt (Nat.pow_lt_pow_right (by decide) hj)]
  have hle : BitVec.twoPow w j ≤ z := by
    rw [BitVec.le_def, ht]
    exact hge
  rw [BitVec.toNat_sub_of_le hle, ht]
  omega

theorem toNat_bitOn (a : Addr) {pos : Nat} (h : pos < a.fam.width) (hbit : a.bitAt pos = false) :
    (a.bitOn pos).val.toNat = a.val.toNat + 2 ^ (a.fam.width - 1 - pos) := by
  have hj : a.fam.width - 1 - pos < a.fam.width := by omega
  have hoff : a.val.getLsbD (a.fam.width - 1 - pos) = false := by rw [a.testBit_eq_bitAt h, hbit]
  have hor : a.val + BitVec.twoPow a.fam.width (a.fam.width - 1 - pos) = (a.bitOn pos).val := by
    apply BitVec.add_eq_or_of_and_eq_zero
    rw [BitVec.and_twoPow, hoff]
    simp
  have hon : (a.bitOn pos).val.getLsbD (a.fam.width - 1 - pos) = true := by
    change (a.val ||| _).getLsbD _ = true
    rw [BitVec.getLsbD_or, BitVec.getLsbD_twoPow]
    simp [hj]
  have hsub := toNat_sub_twoPow hon
  rw [← hor] at hsub ⊢
  change (a.val + _ - BitVec.twoPow a.fam.width _).toNat + _ = _ at hsub
  rw [BitVec.add_sub_cancel] at hsub
  exact hsub.symm

theorem toNat_bitOff (a : Addr) {pos : Nat} (h : pos < a.fam.width) (hbit : a.bitAt pos = true) :
    (a.bitOff pos).val.toNat + 2 ^ (a.fam.width - 1 - pos) = a.val.toNat := by
  have hon : a.val.getLsbD (a.fam.width - 1 - pos) = true := by rw [a.testBit_eq_bitAt h, hbit]
  set t := BitVec.twoPow a.fam.width (a.fam.width - 1 - pos) with ht
  have hsum : (a.val &&& ~~~ t) + t = a.val := by
    rw [BitVec.add_eq_or_of_and_eq_zero]
    · apply BitVec.eq_of_getLsbD_eq
      intro i hi
      simp only [BitVec.getLsbD_or, BitVec.getLsbD_and, BitVec.getLsbD_not, ht,
        BitVec.getLsbD_twoPow]
      by_cases hij : a.fam.width - 1 - pos = i
      · subst hij
        simp [hi, hon]
      · simp [hi, hij]
    · rw [BitVec.and_assoc, BitVec.and_comm (~~~ t), BitVec.and_not_self]
      exact BitVec.and_zero
  have hoff : a.val &&& ~~~ t = a.val - t := BitVec.eq_sub_iff_add_eq.2 hsum
  change (a.val &&& ~~~ t).toNat + _ = _
  rw [hoff]
  exact Addr.toNat_sub_twoPow hon

end Addr

/-! ## The counter -/

def field (start stop : Nat) (a : Addr) : Nat :=
  a.val.toNat / 2 ^ (a.fam.width - stop) % 2 ^ (stop - start)

/-- **`increment` adds one to the field**, unless it is at its last number. -/
theorem increment_spec {start n : Nat} {a : Addr} (hs : start ≤ n) (hn : n ≤ a.fam.width) :
    (field start n a + 1 = 2 ^ (n - start) → (increment start n a).2 = false) ∧
    (field start n a + 1 ≠ 2 ^ (n - start) → ∃ b, increment start n a = (b, true) ∧
      b.fam = a.fam ∧ b.val.toNat = a.val.toNat + 2 ^ (a.fam.width - n)) := by
  -- at the field's upper end nothing is left to carry into
  have hempty : ∀ {m : Nat} {b : Addr}, m ≤ start → field start m b + 1 = 2 ^ (m - start) := by
    intro m b hm
    rw [field, Nat.sub_eq_zero_of_le hm, pow_zero, Nat.mod_one, Nat.zero_add]
  induction n generalizing a with
  | zero => exact ⟨fun _ => rfl, fun h => absurd (hempty (Nat.zero_le _)) h⟩
  | succ n ih =>
    by_cases hlt : n < start
    · refine ⟨fun _ => ?_, fun h => absurd (hempty (by omega)) h⟩
      rw [increment, if_pos hlt]
    · have hw : n < a.fam.width := by omega
      set j := a.fam.width - (n + 1) with hj
      have hjn : a.fam.width - 1 - n = j := by omega
      have hjn' : a.fam.width - n = j + 1 := by omega
      have hpow : 2 ^ (n + 1 - start) = 2 * 2 ^ (n - start) := by
        rw [← pow_succ', show n - start + 1 = n + 1 - start by omega]
      have hhalf : a.val.toNat / 2 ^ (j + 1) = a.val.toNat / 2 ^ j / 2 := by
        rw [pow_succ, Nat.div_div_eq_div_mul]
      -- the field is its upper part and its last bit
      have hfield : field start (n + 1) a =
          a.val.toNat / 2 ^ j % 2 + 2 * (a.val.toNat / 2 ^ (j + 1) % 2 ^ (n - start)) := by
        rw [field, ← hj, hpow, Nat.mod_mul, hhalf]
      have hbit : a.bitAt n = decide (a.val.toNat / 2 ^ j % 2 = 1) := by
        rw [← a.testBit_eq_bitAt hw, hjn, BitVec.getLsbD, Nat.testBit_eq_decide_div_mod_eq]
      rw [increment, if_neg hlt]
      by_cases hodd : a.val.toNat / 2 ^ j % 2 = 1
      · rw [decide_eq_true hodd] at hbit
        rw [if_neg (by rw [hbit]; simp)]
        have hval := a.toNat_bitOff hw hbit
        rw [hjn] at hval
        have hup : field start n (a.bitOff n) = a.val.toNat / 2 ^ (j + 1) % 2 ^ (n - start) := by
          change (a.bitOff n).val.toNat / 2 ^ (a.fam.width - n) % _ = _
          rw [hjn', ← hval, pow_succ, ← Nat.div_div_eq_div_mul, ← Nat.div_div_eq_div_mul,
            Nat.add_div_right _ (Nat.two_pow_pos j)]
          have heven : (a.bitOff n).val.toNat / 2 ^ j % 2 = 0 := by
            rw [← hval, Nat.add_div_right _ (Nat.two_pow_pos j)] at hodd
            omega
          congr 1
          omega
        obtain ⟨hstop, hnext⟩ := ih (a := a.bitOff n) (by omega) (by exact Nat.le_of_lt hw)
        rw [hup] at hstop hnext
        rw [hfield, hodd, hpow]
        constructor
        · intro h
          apply hstop
          omega
        · intro h
          obtain ⟨b, hb, hfam, hbval⟩ := hnext (by omega)
          refine ⟨b, hb, hfam, ?_⟩
          rw [hbval]
          change (a.bitOff n).val.toNat + 2 ^ (a.fam.width - n) = _
          rw [hjn', pow_succ]
          omega
      · rw [decide_eq_false hodd] at hbit
        rw [if_pos hbit]
        have heven : a.val.toNat / 2 ^ j % 2 = 0 := by omega
        constructor
        · intro h
          rw [hfield, heven, hpow] at h
          omega
        · intro _
          refine ⟨_, rfl, rfl, ?_⟩
          rw [a.toNat_bitOn hw hbit, hjn]

/-! ## The prefixes of one length -/

theorem Prefix.masked_eq_iff {p : Prefix} :
    p.masked = p ↔ 2 ^ (p.bitLen - p.bits) ∣ p.addr.val.toNat := by
  have hval : p.masked.addr.val.toNat = p.addr.val.toNat / 2 ^ (p.bitLen - p.bits) *
      2 ^ (p.bitLen - p.bits) := masked_toNat p
  constructor
  · intro h
    rw [h] at hval
    rw [hval]
    exact Nat.dvd_mul_left _ _
  · intro h
    rw [Nat.div_mul_cancel h] at hval
    have haddr : p.addr.mask p.bits = p.addr := Addr.ext_toNat rfl hval
    unfold Prefix.masked
    obtain ⟨a, n, hn⟩ := p
    congr

namespace PrefixRange

variable {p : Prefix}

/-- The `i`th address of the prefix at multiples of the size of a prefix of length `len`. -/
def slotAddr (p : Prefix) (len i : Nat) : Addr :=
  ⟨p.fam, BitVec.ofNat p.fam.width (p.addr.val.toNat + i * 2 ^ (p.fam.width - len))⟩

def slot (p : Prefix) (len i : Nat) : Prefix :=
  ⟨slotAddr p len i, min len p.fam.width, Nat.min_le_right _ _⟩

def listAt (p : Prefix) (len : Nat) : List Prefix :=
  (List.range (2 ^ (len - p.bits))).map (slot p len)

theorem pow_split {len : Nat} (hlen : p.bits ≤ len) (hle : len ≤ p.fam.width) :
    2 ^ (p.bitLen - p.bits) = 2 ^ (len - p.bits) * 2 ^ (p.fam.width - len) := by
  have hw : p.bitLen = p.fam.width := rfl
  rw [← pow_add, hw, show p.fam.width - p.bits = len - p.bits + (p.fam.width - len) by omega]

theorem slotAddr_toNat (hp : p.masked = p) {len i : Nat} (hlen : p.bits ≤ len)
    (hle : len ≤ p.fam.width) (hi : i < 2 ^ (len - p.bits)) :
    (slotAddr p len i).val.toNat = p.addr.val.toNat + i * 2 ^ (p.fam.width - len) := by
  have hstop := stop_blockOf_le p
  have hstart : (blockOf p).start = p.addr.val.toNat := by rw [← masked_toNat, hp]
  rw [Lib.Block.stop, hstart, show 2 ^ (blockOf p).k = _ from pow_split hlen hle] at hstop
  have hlt : i * 2 ^ (p.fam.width - len) < 2 ^ (len - p.bits) * 2 ^ (p.fam.width - len) :=
    Nat.mul_lt_mul_of_pos_right hi (Nat.two_pow_pos _)
  change (BitVec.ofNat p.fam.width _).toNat = _
  rw [BitVec.toNat_ofNat, Nat.mod_eq_of_lt (by omega)]

theorem slotAddr_zero (p : Prefix) (len : Nat) : slotAddr p len 0 = p.addr := by
  apply Addr.ext_toNat (show (slotAddr p len 0).fam = p.addr.fam from rfl)
  change (BitVec.ofNat p.fam.width _).toNat = _
  rw [Nat.zero_mul, Nat.add_zero, BitVec.toNat_ofNat]
  exact Nat.mod_eq_of_lt p.addr.val.isLt

theorem field_slotAddr (hp : p.masked = p) {len i : Nat} (hlen : p.bits ≤ len)
    (hle : len ≤ p.fam.width) (hi : i < 2 ^ (len - p.bits)) :
    field p.bits len (slotAddr p len i) = i := by
  obtain ⟨m, hm⟩ := Prefix.masked_eq_iff.1 hp
  rw [pow_split hlen hle] at hm
  have hpos := Nat.two_pow_pos (p.fam.width - len)
  change (slotAddr p len i).val.toNat / 2 ^ (p.fam.width - len) % _ = i
  rw [slotAddr_toNat hp hlen hle hi, Nat.add_mul_div_right _ _ hpos, hm, Nat.mul_assoc,
    Nat.mul_comm (2 ^ (p.fam.width - len)) m, ← Nat.mul_assoc, Nat.mul_div_cancel _ hpos,
    Nat.mul_add_mod, Nat.mod_eq_of_lt hi]

theorem increment_slotAddr (hp : p.masked = p) {len i : Nat} (hlen : p.bits ≤ len)
    (hle : len ≤ p.fam.width) (hi : i < 2 ^ (len - p.bits)) :
    (i + 1 = 2 ^ (len - p.bits) → (increment p.bits len (slotAddr p len i)).2 = false) ∧
    (i + 1 ≠ 2 ^ (len - p.bits) →
      increment p.bits len (slotAddr p len i) = (slotAddr p len (i + 1), true)) := by
  obtain ⟨hstop, hnext⟩ := increment_spec (a := slotAddr p len i) hlen hle
  rw [field_slotAddr hp hlen hle hi] at hstop hnext
  refine ⟨hstop, fun hne => ?_⟩
  obtain ⟨b, hb, hfam, hval⟩ := hnext hne
  have hslot : b = slotAddr p len (i + 1) := by
    apply Addr.ext_toNat (show b.fam = (slotAddr p len (i + 1)).fam from hfam)
    rw [hval, slotAddr_toNat hp hlen hle hi, slotAddr_toNat hp hlen hle (by omega), Nat.succ_mul]
    exact Nat.add_assoc _ _ _
  rw [hb, hslot]

theorem prefixFrom_slotAddr {len : Nat} (hle : len ≤ p.fam.width) (i : Nat) :
    prefixFrom (slotAddr p len i) len = some (slot p len i) := by
  have h : (0 : Int) ≤ len ∧ (len : Int).toNat ≤ (slotAddr p len i).fam.width :=
    ⟨Int.natCast_nonneg len, hle⟩
  rw [prefixFrom, dif_pos h]
  congr 1
  unfold slot
  congr 1
  exact (Nat.min_eq_left hle).symm

/-- **What `All` yields at one length**, from the `i`th prefix on. -/
theorem level_eq (hp : p.masked = p) {len : Nat} (hlen : p.bits ≤ len) (hle : len ≤ p.fam.width)
    {n i : Nat} (hi : i + (n + 1) = 2 ^ (len - p.bits)) {fuel : Nat} (hfuel : n < fuel) :
    level p.bits len fuel (slotAddr p len i) =
      some ((List.range' i (n + 1)).map fun j => some (slot p len j)) := by
  induction n generalizing i fuel with
  | zero =>
    obtain ⟨fuel, rfl⟩ : ∃ f, fuel = f + 1 := ⟨fuel - 1, by omega⟩
    have hend := (increment_slotAddr hp hlen hle (by omega)).1 hi
    rw [level]
    cases hinc : increment p.bits len (slotAddr p len i) with
    | mk b more =>
      rw [hinc] at hend
      cases (hend : more = false)
      simp [prefixFrom_slotAddr hle]
  | succ n ih =>
    obtain ⟨fuel, rfl⟩ : ∃ f, fuel = f + 1 := ⟨fuel - 1, by omega⟩
    have hnext := (increment_slotAddr hp hlen hle (by omega)).2 (show i + 1 ≠ _ by omega)
    rw [level]
    simp only [hnext]
    rw [ih (i := i + 1) (by omega) (by omega), List.range'_succ (n := n + 1)]
    simp [prefixFrom_slotAddr hle]

theorem level_listAt (hp : p.masked = p) {len : Nat} (hlen : p.bits ≤ len)
    (hle : len ≤ p.fam.width) {fuel : Nat} (hfuel : 2 ^ (len - p.bits) ≤ fuel) :
    level p.bits len fuel p.addr = some ((listAt p len).map some) := by
  have hpos := Nat.two_pow_pos (len - p.bits)
  have hlast : 2 ^ (len - p.bits) - 1 < fuel := by omega
  have h := level_eq (i := 0) hp hlen hle (by omega) hlast
  rw [slotAddr_zero, Nat.sub_add_cancel hpos] at h
  rw [h, listAt, List.range_eq_range', List.map_map]
  rfl

/-- **They are the prefixes of that length under the range's prefix.** -/
theorem mem_listAt (hp : p.masked = p) {len : Nat} (hlen : p.bits ≤ len) (hle : len ≤ p.fam.width)
    {q : Prefix} : q ∈ listAt p len ↔ q.masked = q ∧ q.bits = len ∧ p.Covers q := by
  have hpos := Nat.two_pow_pos (p.fam.width - len)
  have hstart : (blockOf p).start = p.addr.val.toNat := by rw [← masked_toNat, hp]
  have hcov : ∀ {q : Prefix}, q.masked = q → q.bits = len →
      (p.Covers q ↔ q.fam = p.fam ∧ p.addr.val.toNat ≤ q.addr.val.toNat ∧
        q.addr.val.toNat < p.addr.val.toNat +
          2 ^ (len - p.bits) * 2 ^ (p.fam.width - len)) := by
    intro q hq hbits
    rw [← Prefix.contains_masked_iff (by omega), hq, AddrRange.contains_iff, Lib.Block.Has,
      Lib.Block.stop, hstart, show 2 ^ (blockOf p).k = _ from pow_split hlen hle]
    rfl
  obtain ⟨m, hm⟩ := Prefix.masked_eq_iff.1 hp
  rw [pow_split hlen hle] at hm
  rw [listAt, List.mem_map]
  constructor
  · intro h
    obtain ⟨i, hi, rfl⟩ := h
    have hval := slotAddr_toNat hp hlen hle (List.mem_range.1 hi)
    have hbits : (slot p len i).bits = len := Nat.min_eq_left hle
    have hq : (slot p len i).masked = slot p len i := by
      rw [Prefix.masked_eq_iff, hbits]
      change 2 ^ (p.fam.width - len) ∣ (slotAddr p len i).val.toNat
      rw [hval, hm]
      exact Dvd.dvd.add (((Nat.dvd_mul_left _ _).mul_right _)) (Nat.dvd_mul_left _ _)
    refine ⟨hq, hbits, (hcov hq hbits).2 ⟨rfl, ?_, ?_⟩⟩
    · change _ ≤ (slotAddr p len i).val.toNat
      omega
    · change (slotAddr p len i).val.toNat < _
      rw [hval]
      exact Nat.add_lt_add_left (Nat.mul_lt_mul_of_pos_right (List.mem_range.1 hi) hpos) _
  · intro h
    obtain ⟨hq, hbits, hc⟩ := h
    obtain ⟨hfam, hge, hlt⟩ := (hcov hq hbits).1 hc
    obtain ⟨x, hx⟩ := Prefix.masked_eq_iff.1 hq
    have hw : q.bitLen - q.bits = p.fam.width - len := by
      rw [hbits]
      exact congrArg (· - len) (congrArg Family.width hfam)
    -- both are multiples of the size of a prefix of the length, so is what lies between
    rw [hw] at hx
    set k := 2 ^ (p.fam.width - len) with hk
    set n := 2 ^ (len - p.bits) with hn
    have hmk : p.addr.val.toNat = k * (n * m) := by rw [hm, Nat.mul_comm n k, Nat.mul_assoc]
    have hxge : n * m ≤ x := by
      rw [hmk, hx] at hge
      exact Nat.le_of_mul_le_mul_left hge hpos
    have hxlt : x < n * m + n := by
      rw [hmk, hx, Nat.mul_comm n k, ← Nat.mul_add] at hlt
      exact Nat.lt_of_mul_lt_mul_left hlt
    have hi : x - n * m < n := by omega
    refine ⟨x - n * m, List.mem_range.2 hi, ?_⟩
    have haddr : slotAddr p len (x - n * m) = q.addr := by
      apply Addr.ext_toNat (show (slotAddr p len (x - n * m)).fam = q.addr.fam from hfam.symm)
      rw [slotAddr_toNat hp hlen hle hi, ← hk, hmk, hx, Nat.mul_comm _ k, ← Nat.mul_add,
        Nat.add_sub_cancel' hxge]
    obtain ⟨a, bits, hbits'⟩ := q
    unfold slot
    congr 1
    exact (Nat.min_eq_left hle).trans hbits.symm

/-! ## The prefixes of all lengths -/

end PrefixRange

/-- Shorter prefixes first, then by address: the order of `All`. -/
def Prefix.Before (p q : Prefix) : Prop :=
  p.bits < q.bits ∨ p.bits = q.bits ∧ p.addr.lt q.addr = true

namespace PrefixRange

variable {p : Prefix}

theorem pairwise_listAt (hp : p.masked = p) {len : Nat} (hlen : p.bits ≤ len)
    (hle : len ≤ p.fam.width) : (listAt p len).Pairwise Prefix.Before := by
  rw [listAt, List.pairwise_map]
  apply List.pairwise_lt_range.imp_of_mem
  intro i j hi hj hij
  refine .inr ⟨rfl, ?_⟩
  change (slotAddr p len i).lt (slotAddr p len j) = true
  have hfam : (slotAddr p len i).fam = (slotAddr p len j).fam := rfl
  rw [Addr.lt_iff hfam, slotAddr_toNat hp hlen hle (List.mem_range.1 hi),
    slotAddr_toNat hp hlen hle (List.mem_range.1 hj)]
  exact Nat.add_lt_add_left (Nat.mul_lt_mul_of_pos_right hij (Nat.two_pow_pos _)) _

theorem mapM_eq_some {α β : Type} {f : α → Option β} {g : α → β} {l : List α}
    (h : ∀ a ∈ l, f a = some (g a)) : l.mapM f = some (l.map g) := by
  induction l with
  | nil => rfl
  | cons a l ih =>
    rw [List.mapM_cons, h a List.mem_cons_self, ih fun b hb => h b (List.mem_cons_of_mem _ hb)]
    rfl

def listOf (r : PrefixRange) : List Prefix :=
  match r.pfx with
  | none => []
  | some p => if r.isEmpty then [] else (r.lengths.map (listAt p)).flatten

theorem mem_lengths {r : PrefixRange} {len : Nat} : len ∈ r.lengths ↔ r.lo ≤ len ∧ len ≤ r.hi := by
  rw [lengths, List.mem_range'_1]
  omega

theorem mem_listOf {r : PrefixRange} {q : Prefix} :
    q ∈ r.listOf ↔ q.masked = q ∧ r.contains q = true := by
  rw [contains_iff]
  unfold listOf
  cases hb : r.pfx with
  | none => simp
  | some p =>
    obtain ⟨hp, hlo, hhi, -⟩ := pfx_wf hb
    by_cases hemp : r.isEmpty = true
    · simp only [hemp, if_true, List.not_mem_nil, false_iff]
      intro h
      obtain ⟨-, b, -, h1, h2, -⟩ := h
      have := isEmpty_eq_false_iff.2 ⟨p, hb, h1.trans h2⟩
      rw [hemp] at this
      cases this
    · dsimp only
      rw [if_neg hemp, List.mem_flatten]
      simp only [List.mem_map, Option.some.injEq, exists_eq_left']
      constructor
      · intro h
        obtain ⟨_, ⟨len, hlen, rfl⟩, hq⟩ := h
        obtain ⟨h1, h2⟩ := mem_lengths.1 hlen
        obtain ⟨hm, rfl, hc⟩ := (mem_listAt hp (hlo.trans h1) (h2.trans hhi)).1 hq
        exact ⟨hm, h1, h2, hc⟩
      · intro h
        obtain ⟨hm, h1, h2, hc⟩ := h
        exact ⟨_, ⟨q.bits, mem_lengths.2 ⟨h1, h2⟩, rfl⟩,
          (mem_listAt hp (hlo.trans h1) (h2.trans hhi)).2 ⟨hm, rfl, hc⟩⟩

theorem pairwise_listOf (r : PrefixRange) : r.listOf.Pairwise Prefix.Before := by
  unfold listOf
  cases hb : r.pfx with
  | none => exact .nil
  | some p =>
    obtain ⟨hp, hlo, hhi, -⟩ := pfx_wf hb
    by_cases hemp : r.isEmpty = true
    · simp only [hemp, if_true]
      exact .nil
    · simp only [hemp, Bool.false_eq_true, if_false]
      have hin : ∀ {len}, len ∈ r.lengths → p.bits ≤ len ∧ len ≤ p.fam.width := fun h =>
        ⟨hlo.trans (mem_lengths.1 h).1, (mem_lengths.1 h).2.trans hhi⟩
      rw [List.pairwise_flatten]
      constructor
      · intro l hl
        obtain ⟨len, hlen, rfl⟩ := List.mem_map.1 hl
        exact pairwise_listAt hp (hin hlen).1 (hin hlen).2
      · rw [List.pairwise_map]
        apply (List.pairwise_lt_range' (n := r.hi + 1 - r.lo) (s := r.lo)).imp_of_mem
        intro i j hi hj hij x hx y hy
        left
        rw [((mem_listAt hp (hin hi).1 (hin hi).2).1 hx).2.1,
          ((mem_listAt hp (hin hj).1 (hin hj).2).1 hy).2.1]
        exact hij

/-- **`All` yields what the range denotes**, given the steps it takes. -/
theorem all_eq (r : PrefixRange) :
    ∃ n, ∀ fuel ≥ n, r.all fuel = some (r.listOf.map some) := by
  unfold all listOf
  cases hb : r.pfx with
  | none => exact ⟨0, fun _ _ => rfl⟩
  | some p =>
    obtain ⟨hp, hlo, hhi, -⟩ := pfx_wf hb
    by_cases hemp : r.isEmpty = true
    · simp [hemp]
    · refine ⟨2 ^ (r.hi - p.bits), fun fuel hfuel => ?_⟩
      have hlev : ∀ len ∈ r.lengths,
          level p.bits len fuel p.addr = some ((listAt p len).map some) := by
        intro len hlen
        obtain ⟨h1, h2⟩ := mem_lengths.1 hlen
        apply level_listAt hp (hlo.trans h1) (h2.trans hhi)
        exact (Nat.pow_le_pow_right (by decide) (by omega)).trans hfuel
      simp only [hemp, Bool.false_eq_true, if_false, mapM_eq_some hlev, Option.map_some,
        List.map_flatten, List.map_map]
      rfl

/-! ## The cap -/

theorem length_listAt (p : Prefix) (len : Nat) : (listAt p len).length = 2 ^ (len - p.bits) := by
  simp [listAt]

theorem withinCap_iff {bits : Nat} {n : Int} (hn : n < 2 ^ 31) {total : Int} (htotal : 0 ≤ total)
    (lens : List Nat) : withinCap bits n total lens = true ↔
      lens = [] ∨ total + ((lens.map fun len => 2 ^ (len - bits)).sum : Nat) ≤ n := by
  induction lens generalizing total with
  | nil => simp [withinCap]
  | cons len lens ih =>
    have hge : (0 : Int) ≤ ((lens.map fun len => 2 ^ (len - bits)).sum : Nat) :=
      Int.natCast_nonneg _
    rw [withinCap, List.map_cons, List.sum_cons]
    simp only [List.cons_ne_nil, false_or, Nat.cast_add]
    by_cases hw : 31 ≤ len - bits
    · rw [if_pos hw]
      have hbig : (2 : Int) ^ 31 ≤ ((2 ^ (len - bits) : Nat) : Int) := by
        exact_mod_cast Nat.pow_le_pow_right (n := 2) (by decide) hw
      simp only [Bool.false_eq_true, false_iff, not_le]
      omega
    · have hcast : ((2 ^ (len - bits) : Nat) : Int) = 2 ^ (len - bits) := by push_cast; rfl
      have hpos : (0 : Int) ≤ 2 ^ (len - bits) := by positivity
      rw [if_neg hw, hcast]
      split_ifs with hcap
      · simp only [false_iff, not_le]
        omega
      · rw [ih (by omega)]
        constructor
        · intro h
          rcases h with rfl | h
          · simp
            omega
          · omega
        · intro h
          right
          omega

theorem length_listOf {r : PrefixRange} {p : Prefix} (hb : r.pfx = some p)
    (hne : r.isEmpty = false) :
    r.listOf.length = (r.lengths.map fun len => 2 ^ (len - p.bits)).sum := by
  simp only [listOf, hb, hne, Bool.false_eq_true, if_false, List.length_flatten, List.map_map]
  congr 2
  funext len
  exact length_listAt p len

/-- **`Materialize` returns that list, unless it is longer than the cap.** -/
theorem materialize_eq {r : PrefixRange} (hne : r.isEmpty = false) :
    ∃ n, ∀ fuel ≥ n, ∀ cap : Int, cap < 2 ^ 31 → r.materialize fuel cap =
      some (if (r.listOf.length : Int) ≤ cap then .ok (r.listOf.map some)
        else .error .tooManyPrefixes) := by
  obtain ⟨n, hall⟩ := r.all_eq
  refine ⟨n, fun fuel hfuel cap hcap => ?_⟩
  obtain ⟨p, hb, hle⟩ := isEmpty_eq_false_iff.1 hne
  have hlens : r.lengths ≠ [] := by
    apply List.ne_nil_of_mem (a := r.lo)
    exact mem_lengths.2 ⟨le_rfl, hle⟩
  have hcount : withinCap p.bits cap 0 r.lengths = true ↔ _ := withinCap_iff hcap le_rfl r.lengths
  rw [or_iff_right hlens, ← length_listOf hb hne, Int.zero_add] at hcount
  unfold materialize
  simp only [hb, hne, Bool.false_eq_true, if_false, hall fuel hfuel]
  by_cases hlen : (r.listOf.length : Int) ≤ cap
  · rw [if_pos (hcount.2 hlen), if_pos hlen]
    rfl
  · rw [if_neg (fun h => hlen (hcount.1 h)), if_neg hlen]

end PrefixRange

end Rpsl
