import Mathlib

/-!
# Addresses and prefixes

The part of `net/netip` the library is built on. An `Addr` is an address of one of the two
families (a `netip.Prefix` carries no zone, and an IPv4-mapped address is an IPv6 one), a `Prefix`
a *valid* `netip.Prefix`: the invalid one, which only a zero value holds, is `none` wherever the
source can meet it.

`Prefix.path` is what the proofs read a prefix by: its bits from the most significant one, as
many as its length. A prefix lies under another exactly when the other's path is a list prefix of
its own (`covers_iff`), and a prefix without host bits is determined by its family and path
(`Prefix.ext_path`).
-/

namespace Rpsl

inductive Family
  | v4
  | v6
deriving DecidableEq, Repr

/-- `netip.Addr.BitLen` of the family's addresses. -/
def Family.width : Family → Nat
  | .v4 => 32
  | .v6 => 128

theorem Family.width_le (f : Family) : f.width ≤ 128 := by cases f <;> decide

inductive AFI
  | unspecified
  | v4
  | v6
  | any
deriving DecidableEq, Repr

structure Addr where
  fam : Family
  val : BitVec fam.width
deriving DecidableEq

namespace Addr

def bitLen (a : Addr) : Nat := a.fam.width

/-- `bitAt`: bit `d` of the address, the most significant first. -/
def bitAt (a : Addr) (d : Nat) : Bool := a.val.getMsbD d

/-- The address with every bit from `n` on cleared. -/
def mask (a : Addr) (n : Nat) : Addr :=
  ⟨a.fam, a.val &&& (BitVec.allOnes a.fam.width <<< (a.fam.width - n))⟩

@[simp] theorem mask_fam (a : Addr) (n : Nat) : (a.mask n).fam = a.fam := rfl

theorem bitAt_of_le (a : Addr) {d : Nat} (h : a.fam.width ≤ d) : a.bitAt d = false :=
  BitVec.getMsbD_of_ge _ _ h

theorem bitAt_mask (a : Addr) {n : Nat} (hn : n ≤ a.fam.width) (d : Nat) :
    (a.mask n).bitAt d = (decide (d < n) && a.bitAt d) := by
  unfold bitAt mask
  by_cases hd : d < a.fam.width
  · by_cases hdn : d < n
    · simp [BitVec.getMsbD_and, hdn]
      intro _; omega
    · simp [BitVec.getMsbD_and, hdn]
      intro _; omega
  · rw [BitVec.getMsbD_of_ge _ _ (by simpa using hd), BitVec.getMsbD_of_ge _ _ (by simpa using hd)]
    simp

/-- The address with the bits of `bs`, the most significant first, and zeros after them. -/
def ofBits (f : Family) (bs : List Bool) : Addr :=
  ⟨f, BitVec.ofFnLE fun i => bs.getD (f.width - 1 - i) false⟩

theorem bitAt_ofBits (f : Family) (bs : List Bool) (d : Nat) :
    (ofBits f bs).bitAt d = (decide (d < f.width) && bs.getD d false) := by
  simp only [bitAt, ofBits, BitVec.getMsbD, BitVec.getLsbD_ofFnLE]
  by_cases hd : d < f.width
  · have h1 : f.width - 1 - d < f.width := by omega
    have h2 : f.width - 1 - (f.width - 1 - d) = d := by omega
    simp [hd, h1, h2]
  · simp [hd]

theorem ext_bitAt {a b : Addr} (hf : a.fam = b.fam) (h : ∀ d, a.bitAt d = b.bitAt d) : a = b := by
  obtain ⟨f, v⟩ := a
  obtain ⟨g, w⟩ := b
  obtain rfl : f = g := hf
  have hv : v = w := BitVec.eq_of_getMsbD_eq fun d _ => h d
  rw [hv]

end Addr

/-- A valid `netip.Prefix`. -/
structure Prefix where
  addr : Addr
  bits : Nat
  le : bits ≤ addr.fam.width
deriving DecidableEq

namespace Prefix

def fam (p : Prefix) : Family := p.addr.fam

/-- `p.Addr().BitLen()`. -/
def bitLen (p : Prefix) : Nat := p.addr.bitLen

def is4 (p : Prefix) : Bool := decide (p.fam = .v4)

def masked (p : Prefix) : Prefix := ⟨p.addr.mask p.bits, p.bits, p.le⟩

/-- `netip.Prefix.Contains`: the address is of the prefix's family and has its bits. -/
def contains (p : Prefix) (a : Addr) : Bool :=
  decide (p.addr.fam = a.fam) && (List.range p.bits).all fun d => p.addr.bitAt d == a.bitAt d

/-- The prefix's bits, the most significant first. -/
def path (p : Prefix) : List Bool := (List.range p.bits).map p.addr.bitAt

@[simp] theorem masked_bits (p : Prefix) : p.masked.bits = p.bits := rfl
@[simp] theorem masked_fam (p : Prefix) : p.masked.fam = p.fam := rfl
@[simp] theorem masked_bitLen (p : Prefix) : p.masked.bitLen = p.bitLen := rfl
@[simp] theorem path_length (p : Prefix) : p.path.length = p.bits := by simp [path]

theorem path_getElem? (p : Prefix) {d : Nat} (h : d < p.bits) :
    p.path[d]? = some (p.addr.bitAt d) := by simp [path, h]

@[simp] theorem masked_path (p : Prefix) : p.masked.path = p.path := by
  simp only [path, masked]
  refine List.map_congr_left fun d hd => ?_
  rw [Addr.bitAt_mask _ p.le]
  simp [List.mem_range.1 hd]

@[simp] theorem masked_masked (p : Prefix) : p.masked.masked = p.masked := by
  unfold masked
  congr 1
  refine Addr.ext_bitAt rfl fun d => ?_
  have h := p.le
  rw [Addr.bitAt_mask _ (by exact h), Addr.bitAt_mask _ h]
  cases decide (d < p.bits) <;> rfl

theorem ext_path {p q : Prefix} (hp : p.masked = p) (hq : q.masked = q) (hf : p.fam = q.fam)
    (h : p.path = q.path) : p = q := by
  have hb : p.bits = q.bits := by simpa using congrArg List.length h
  have ha : p.addr = q.addr := by
    refine Addr.ext_bitAt hf fun d => ?_
    rw [← hp, ← hq]
    simp only [masked]
    rw [Addr.bitAt_mask _ p.le, Addr.bitAt_mask _ q.le]
    by_cases hd : d < p.bits
    · have h1 := path_getElem? p hd
      rw [h, path_getElem? q (by omega)] at h1
      simp [hd, ← hb, Option.some.inj h1]
    · simp [hd, ← hb]
  obtain ⟨a, b, _⟩ := p
  obtain ⟨a', b', _⟩ := q
  cases ha; cases hb; rfl

/-- `q` is `p` or lies under it. -/
def Covers (p q : Prefix) : Prop := p.fam = q.fam ∧ p.path <+: q.path

theorem Covers.refl (p : Prefix) : p.Covers p := ⟨rfl, List.prefix_rfl⟩

theorem Covers.trans {p q r : Prefix} (h : p.Covers q) (h' : q.Covers r) : p.Covers r :=
  ⟨h.1.trans h'.1, h.2.trans h'.2⟩

theorem Covers.bits_le {p q : Prefix} (h : p.Covers q) : p.bits ≤ q.bits := by
  simpa using h.2.length_le

theorem path_isPrefix_iff {p q : Prefix} (h : p.bits ≤ q.bits) :
    p.path <+: q.path ↔ ∀ d < p.bits, p.addr.bitAt d = q.addr.bitAt d := by
  rw [List.prefix_iff_getElem?]
  constructor
  · intro hp d hd
    have := hp d (by simpa using hd)
    rw [path_getElem? q (by omega)] at this
    simp only [path, List.getElem_map, List.getElem_range, Option.some.injEq] at this
    exact this.symm
  · intro hb d hd
    have hd' : d < p.bits := by simpa using hd
    rw [path_getElem? q (by omega)]
    simp [path, hb d hd']

theorem contains_masked_iff {p q : Prefix} (h : p.bits ≤ q.bits) :
    p.contains q.masked.addr = true ↔ p.Covers q := by
  unfold contains Covers
  rw [path_isPrefix_iff h]
  simp only [Bool.and_eq_true, decide_eq_true_eq, List.all_eq_true, List.mem_range, beq_iff_eq]
  refine and_congr_right fun _ => forall₂_congr fun d hd => ?_
  simp only [masked]
  rw [Addr.bitAt_mask _ q.le]
  simp [show d < q.bits by omega]

/-- The prefix of a path, its host bits zero (`prefixAt` of the bits set so far). -/
def ofPath (f : Family) (bs : List Bool) (h : bs.length ≤ f.width) : Prefix :=
  ⟨Addr.ofBits f bs, bs.length, h⟩

@[simp] theorem ofPath_fam (f : Family) (bs : List Bool) (h : bs.length ≤ f.width) :
    (ofPath f bs h).fam = f := rfl

@[simp] theorem ofPath_bits (f : Family) (bs : List Bool) (h : bs.length ≤ f.width) :
    (ofPath f bs h).bits = bs.length := rfl

@[simp] theorem ofPath_path (f : Family) (bs : List Bool) (h : bs.length ≤ f.width) :
    (ofPath f bs h).path = bs := by
  refine List.ext_getElem (by simp) fun d h1 h2 => ?_
  have hd : d < f.width := by omega
  simp only [path, List.getElem_map, List.getElem_range]
  change (Addr.ofBits f bs).bitAt d = _
  simp [Addr.bitAt_ofBits, hd, h2]

@[simp] theorem ofPath_masked (f : Family) (bs : List Bool) (h : bs.length ≤ f.width) :
    (ofPath f bs h).masked = ofPath f bs h := by
  unfold masked
  congr 1
  refine Addr.ext_bitAt rfl fun d => ?_
  rw [Addr.bitAt_mask _ (by exact h)]
  change (decide (d < bs.length) && (Addr.ofBits f bs).bitAt d) = (Addr.ofBits f bs).bitAt d
  rw [Addr.bitAt_ofBits]
  by_cases hd : d < bs.length
  · simp [hd]
  · simp [hd]

/-- The prefix of length `k` that `p` lies under. -/
def up (p : Prefix) (k : Nat) : Prefix :=
  ofPath p.fam (p.path.take k) (by
    have := p.le
    have h : (p.path.take k).length ≤ p.path.length := by simp
    rw [path_length] at h
    exact h.trans this)

@[simp] theorem up_fam (p : Prefix) (k : Nat) : (p.up k).fam = p.fam := rfl
@[simp] theorem up_masked (p : Prefix) (k : Nat) : (p.up k).masked = p.up k := ofPath_masked ..
@[simp] theorem up_path (p : Prefix) (k : Nat) : (p.up k).path = p.path.take k := ofPath_path ..

theorem up_bits (p : Prefix) {k : Nat} (h : k ≤ p.bits) : (p.up k).bits = k := by
  simp [up, h]

theorem up_covers (p : Prefix) (k : Nat) : (p.up k).Covers p :=
  ⟨rfl, by rw [up_path]; exact List.take_prefix k p.path⟩

theorem Covers.up {p q : Prefix} (h : p.Covers q) {k : Nat} (hk : p.bits ≤ k) :
    p.Covers (q.up k) :=
  ⟨h.1, by
    rw [up_path, List.prefix_take_iff]
    exact ⟨h.2, by simpa using hk⟩⟩

end Prefix

/-- A prefix without host bits: what ranges, sets and filters denote sets of. -/
abbrev Net := {p : Prefix // p.masked = p}

end Rpsl
