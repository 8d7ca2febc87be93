import Rpsl.Auth.MemDatabase

/-!
# The registry of a list of objects

`MemDatabase` keeps the last object of each class and key in its first index, and every one in the
other two. So it answers as if built from the last of each (`LastWins`) exactly when no object that
the other two show is superseded (`NoStale`).
-/

namespace Rpsl.Auth

open Text Lib Rpsl.Resolve Rpsl.Object

/-! ## The order of addresses -/

/-- `a.Compare(b) <= 0`. -/
def AddrLE (a b : Addr) : Prop := b.lt a = false

theorem addrLE_iff {a b : Addr} :
    AddrLE a b ↔ a.bitLen < b.bitLen ∨ a.bitLen = b.bitLen ∧ a.val.toNat ≤ b.val.toNat := by
  rw [AddrLE, ← Bool.not_eq_true]
  simp only [Addr.lt, Bool.or_eq_true, Bool.and_eq_true, decide_eq_true_eq]
  omega

theorem AddrLE.refl (a : Addr) : AddrLE a a := addrLE_iff.2 (.inr ⟨rfl, le_rfl⟩)

theorem AddrLE.trans {a b c : Addr} (hab : AddrLE a b) (hbc : AddrLE b c) : AddrLE a c := by
  rw [addrLE_iff] at *
  omega

theorem AddrLE.total (a b : Addr) : AddrLE a b ∨ AddrLE b a := by
  rw [addrLE_iff, addrLE_iff]
  omega

theorem fam_eq_of_bitLen {a b : Addr} (h : a.bitLen = b.bitLen) : a.fam = b.fam := by
  obtain ⟨f, x⟩ := a
  obtain ⟨g, y⟩ := b
  cases f <;> cases g <;> first | rfl | cases h

theorem AddrLE.antisymm {a b : Addr} (hab : AddrLE a b) (hba : AddrLE b a) : a = b := by
  rw [addrLE_iff] at *
  have hbits : a.bitLen = b.bitLen := by omega
  have hval : a.val.toNat = b.val.toNat := by omega
  have hfam := fam_eq_of_bitLen hbits
  obtain ⟨f, x⟩ := a
  obtain ⟨g, y⟩ := b
  cases hfam
  cases BitVec.eq_of_toNat_eq hval
  rfl

/-! ## What is held -/

/-- The last object of each class and key, of those that have one. -/
def lastOfEach : List Object → List Object
  | [] => []
  | o :: os =>
    if (primaryKey o).isSome && os.any (fun o' => primaryKey o' = primaryKey o) then lastOfEach os
    else o :: lastOfEach os

/-- The address is in the object's space. -/
def InSpace (o : Object) (x : Addr) : Prop :=
  ∃ lo hi, addressRange o = some (lo, hi) ∧ x.fam = lo.fam ∧ AddrLE lo x ∧ AddrLE x hi

/-- The object is one of the class, and its space has every address from `lo` to `hi`. -/
def HoldsRange (cls : Text) (lo hi : Addr) (o : Object) : Prop :=
  o.cls = cls ∧ ∀ x, x.fam = lo.fam → AddrLE lo x → AddrLE x hi → InSpace o x

/-- The object's space lies strictly inside the other's. -/
def StrictlyInside (o o' : Object) : Prop := {x | InSpace o x} ⊂ {x | InSpace o' x}

open Classical in
/-- The registry of the objects answers as that of the last object of each class and key; the
objects that cover a range are those held whose space has it, and one strictly inside another comes
before it. -/
structure LastWins (objs : List Object) : Prop where
  current : ∀ o, (MemDatabase.new objs).current o = (MemDatabase.new (lastOfEach objs)).current o
  object : ∀ cls key,
    (MemDatabase.new objs).object cls key = (MemDatabase.new (lastOfEach objs)).object cls key
  mntner : ∀ name,
    (MemDatabase.new objs).mntner name = (MemDatabase.new (lastOfEach objs)).mntner name
  covering : ∀ cls lo hi, (MemDatabase.new objs).covering cls lo hi =
    (MemDatabase.new (lastOfEach objs)).covering cls lo hi
  asBlocks : ∀ as,
    (MemDatabase.new objs).asBlocks as = (MemDatabase.new (lastOfEach objs)).asBlocks as
  holds : ∀ cls lo hi, lo.fam = hi.fam → AddrLE lo hi →
    ((MemDatabase.new objs).covering cls lo hi).Perm
      ((lastOfEach objs).filter fun o => HoldsRange (toLower cls) lo hi o)
  inner : ∀ cls lo hi, lo.fam = hi.fam → AddrLE lo hi →
    ((MemDatabase.new objs).covering cls lo hi).Pairwise fun o o' => ¬ StrictlyInside o' o

/-- The object is found by its address space or as an as-block that holds an AS. -/
def Shown (o : Object) : Prop :=
  (addressRange o).isSome ∨ ∃ b, o = .asBlock b ∧ b.lo ≤ b.hi

/-- No such object is followed by another of its class and key. -/
def NoStale (objs : List Object) : Prop :=
  objs.Pairwise fun o o' => Shown o → primaryKey o' ≠ primaryKey o

/-! ## The indexes -/

def lastAt (k : Text) : List Object → Option Object
  | [] => none
  | o :: os =>
    (lastAt k os).or
      (if (primaryKey o).map (fun c => mapKey c.1 c.2) = some k then some o else none)

def entryOf (cls : Text) (o : Object) : Option SpaceEntry :=
  if (primaryKey o).map Prod.fst = some cls then
    (addressRange o).map fun r => ⟨r.1, r.2, o⟩
  else none

def blockOf : Object → Option AsBlock
  | .asBlock b => some b
  | _ => none

theorem add_objects (db : MemDatabase) (o : Object) (k : Text) : (db.add o).objects k =
    (if (primaryKey o).map (fun c => mapKey c.1 c.2) = some k then some o else none).or
      (db.objects k) := by
  unfold MemDatabase.add
  cases primaryKey o with
  | none => simp
  | some c =>
    obtain ⟨cls, key⟩ := c
    by_cases h : k = mapKey cls key
    · simp [h]
    · simp [h, Ne.symm h]

theorem add_spaces (db : MemDatabase) (o : Object) (cls : Text) :
    (db.add o).spaces cls = db.spaces cls ++ (entryOf cls o).toList := by
  unfold MemDatabase.add entryOf
  cases primaryKey o with
  | none => simp
  | some c =>
    obtain ⟨c, key⟩ := c
    cases addressRange o with
    | none => simp
    | some r =>
      obtain ⟨lo, hi⟩ := r
      by_cases h : cls = c
      · simp [h]
      · simp [h, Ne.symm h]

theorem add_blocks (db : MemDatabase) (o : Object) :
    (db.add o).blocks = db.blocks ++ (blockOf o).toList := by
  unfold MemDatabase.add
  cases o <;> simp [primaryKey, blockOf] <;> split <;> rfl

theorem foldl_add_objects (objs : List Object) (db : MemDatabase) (k : Text) :
    (objs.foldl MemDatabase.add db).objects k = (lastAt k objs).or (db.objects k) := by
  induction objs generalizing db with
  | nil => rfl
  | cons o objs ih => rw [List.foldl_cons, ih, add_objects, lastAt, Option.or_assoc]

theorem foldl_add_spaces (objs : List Object) (db : MemDatabase) (cls : Text) :
    (objs.foldl MemDatabase.add db).spaces cls =
      db.spaces cls ++ objs.filterMap (entryOf cls) := by
  induction objs generalizing db with
  | nil => simp
  | cons o objs ih =>
    rw [List.foldl_cons, ih, add_spaces, List.append_assoc, List.filterMap_cons]
    cases entryOf cls o <;> rfl

theorem foldl_add_blocks (objs : List Object) (db : MemDatabase) :
    (objs.foldl MemDatabase.add db).blocks = db.blocks ++ objs.filterMap blockOf := by
  induction objs generalizing db with
  | nil => simp
  | cons o objs ih =>
    rw [List.foldl_cons, ih, add_blocks, List.append_assoc, List.filterMap_cons]
    cases blockOf o <;> rfl

theorem new_objects (objs : List Object) (k : Text) :
    (MemDatabase.new objs).objects k = lastAt k objs := by
  rw [MemDatabase.new, foldl_add_objects]
  exact Option.or_none

theorem new_spaces (objs : List Object) (cls : Text) :
    (MemDatabase.new objs).spaces cls = objs.filterMap (entryOf cls) := by
  rw [MemDatabase.new, foldl_add_spaces]
  rfl

theorem new_blocks (objs : List Object) :
    (MemDatabase.new objs).blocks = objs.filterMap blockOf := by
  rw [MemDatabase.new, foldl_add_blocks]
  rfl

/-! ## The first index -/

variable {o : Object} {objs : List Object}

theorem lastAt_isSome {k : Text} (ho : o ∈ objs)
    (h : (primaryKey o).map (fun c => mapKey c.1 c.2) = some k) : (lastAt k objs).isSome := by
  induction objs with
  | nil => cases ho
  | cons o' objs ih =>
    rw [lastAt, Option.isSome_or]
    rcases List.mem_cons.1 ho with rfl | ho
    · simp [h]
    · simp [ih ho]

theorem lastAt_lastOfEach (k : Text) (objs : List Object) :
    lastAt k (lastOfEach objs) = lastAt k objs := by
  induction objs with
  | nil => rfl
  | cons o objs ih =>
    unfold lastOfEach
    split_ifs with h
    · rw [ih, lastAt]
      split_ifs with hk
      · rw [Bool.and_eq_true, List.any_eq_true] at h
        obtain ⟨-, o', ho', hsame⟩ := h
        have hsome := lastAt_isSome (k := k) ho' (by rw [of_decide_eq_true hsame, hk])
        rw [Option.or_of_isSome hsome]
      · exact Option.or_none.symm
    · rw [lastAt, lastAt, ih]

theorem objects_lastOfEach (objs : List Object) :
    (MemDatabase.new (lastOfEach objs)).objects = (MemDatabase.new objs).objects := by
  funext k
  rw [new_objects, new_objects, lastAt_lastOfEach]

/-! ## Covering -/

theorem primaryKey_of_range (h : (addressRange o).isSome) :
    ∃ key, primaryKey o = some (o.cls, key) := by
  cases o with
  | route r | route6 r | inet6num r =>
    obtain ⟨p, hp⟩ := Option.isSome_iff_exists.1 ((Option.isSome_map ..).symm.trans h)
    exact ⟨_, by rw [primaryKey, hp]; rfl⟩
  | inetnum i =>
    obtain ⟨lo, hi, _, _, _⟩ := i
    cases lo <;> cases hi <;> first | exact ⟨_, rfl⟩ | cases h
  | _ => cases h

theorem entryOf_eq (cls : Text) (o : Object) :
    entryOf cls o =
      if o.cls = cls then (addressRange o).map fun r => ⟨r.1, r.2, o⟩ else none := by
  unfold entryOf
  cases hr : addressRange o with
  | none => simp
  | some r =>
    obtain ⟨key, hk⟩ := primaryKey_of_range (o := o) (by rw [hr]; rfl)
    simp only [hk, Option.map_some, Option.some_inj]

/-- Does the object's space, of the class, hold the addresses from `lo` to `hi`? -/
def hits (cls : Text) (lo hi : Addr) (o : Object) : Bool :=
  (entryOf cls o).any (·.hit lo hi)

theorem map_filter_entries (cls : Text) (lo hi : Addr) (objs : List Object) :
    ((objs.filterMap (entryOf cls)).filter (·.hit lo hi)).map SpaceEntry.o =
      objs.filter (hits cls lo hi) := by
  induction objs with
  | nil => rfl
  | cons o objs ih =>
    cases he : entryOf cls o with
    | none => rw [List.filterMap_cons_none he, ih, List.filter_cons_of_neg (by simp [hits, he])]
    | some e =>
      have ho : e.o = o := by
        rw [entryOf_eq] at he
        split_ifs at he
        obtain ⟨_, -, rfl⟩ := Option.map_eq_some_iff.1 he
        rfl
      rw [List.filterMap_cons_some he, List.filter_cons, List.filter_cons]
      have hh : hits cls lo hi o = e.hit lo hi := by simp [hits, he]
      rw [hh]
      cases e.hit lo hi
      · exact ih
      · exact congrArg₂ List.cons ho ih

theorem covering_perm (objs : List Object) (cls : Text) (lo hi : Addr) :
    ((MemDatabase.new objs).covering cls lo hi).Perm (objs.filter (hits (toLower cls) lo hi)) := by
  rw [← map_filter_entries, ← new_spaces]
  exact (List.perm_insertionSort _ _).map _

variable {lo hi : Addr}

theorem hit_iff {e : SpaceEntry} :
    e.hit lo hi = true ↔ lo.fam = e.lo.fam ∧ AddrLE e.lo lo ∧ AddrLE hi e.hi := by
  have hfam : e.lo.bitLen = lo.bitLen ↔ lo.fam = e.lo.fam :=
    ⟨fun h => (fam_eq_of_bitLen h).symm, fun h => (congrArg Family.width h).symm⟩
  simp [SpaceEntry.hit, AddrLE, and_assoc, hfam]

theorem hits_iff {cls : Text} (hfam : lo.fam = hi.fam) (hle : AddrLE lo hi)
    (o : Object) : hits cls lo hi o = true ↔ HoldsRange cls lo hi o := by
  rw [hits, entryOf_eq, HoldsRange]
  by_cases hc : o.cls = cls
  case neg => simp [hc]
  simp only [hc, if_true, true_and, Option.any_map, Option.any_eq_true]
  constructor
  · rintro ⟨⟨l, h⟩, hr, hhit⟩ x hx hlx hxh
    obtain ⟨hf, h1, h2⟩ := hit_iff.1 hhit
    exact ⟨l, h, hr, hx.trans hf, h1.trans hlx, hxh.trans h2⟩
  · intro hall
    obtain ⟨l, h, hr, hf, h1, -⟩ := hall lo rfl (.refl lo) hle
    obtain ⟨l', h', hr', -, -, h2⟩ := hall hi hfam.symm hle (.refl hi)
    cases hr.symm.trans hr'
    exact ⟨(l, h), hr, hit_iff.2 ⟨hf, h1, h2⟩⟩

/-! ## The order of what covers -/

theorem not_less_iff {a b : SpaceEntry} : (!b.less a) = true ↔
    (a.lo ≠ b.lo ∧ AddrLE b.lo a.lo) ∨ (a.lo = b.lo ∧ AddrLE a.hi b.hi) := by
  unfold SpaceEntry.less
  by_cases h : b.lo = a.lo
  · simp [h, AddrLE]
  · simp [h, Ne.symm h, AddrLE]

instance : Std.Total fun a b : SpaceEntry => (!b.less a) = true where
  total a b := by
    rw [not_less_iff, not_less_iff]
    by_cases h : a.lo = b.lo
    · rcases AddrLE.total a.hi b.hi with h' | h'
      · exact .inl (.inr ⟨h, h'⟩)
      · exact .inr (.inr ⟨h.symm, h'⟩)
    · rcases AddrLE.total a.lo b.lo with h' | h'
      · exact .inr (.inl ⟨Ne.symm h, h'⟩)
      · exact .inl (.inl ⟨h, h'⟩)

instance : IsTrans SpaceEntry fun a b => (!b.less a) = true where
  trans a b c hab hbc := by
    rw [not_less_iff] at *
    rcases hab with ⟨hne, hab⟩ | ⟨heq, hab⟩ <;> rcases hbc with ⟨hne', hbc⟩ | ⟨heq', hbc⟩
    · refine .inl ⟨fun h => hne ?_, hbc.trans hab⟩
      exact (AddrLE.antisymm hab (h ▸ hbc)).symm
    · exact .inl ⟨heq' ▸ hne, heq' ▸ hab⟩
    · exact .inl ⟨heq ▸ hne', heq ▸ hbc⟩
    · exact .inr ⟨heq.trans heq', hab.trans hbc⟩

theorem not_strictlyInside {a b : SpaceEntry} (ha : addressRange a.o = some (a.lo, a.hi))
    (hb : addressRange b.o = some (b.lo, b.hi)) (hne : AddrLE b.lo b.hi)
    (h : (!b.less a) = true) : ¬ StrictlyInside b.o a.o := by
  rintro ⟨hsub, hstrict⟩
  -- the start of the inner one is in the outer one
  obtain ⟨l, _, hr, hfam, hlo, -⟩ := hsub (show InSpace b.o b.lo from
    ⟨b.lo, b.hi, hb, rfl, .refl _, hne⟩)
  cases ha.symm.trans hr
  rcases not_less_iff.1 h with ⟨hneq, hle⟩ | ⟨heq, hle⟩
  · exact hneq (AddrLE.antisymm hlo hle)
  · refine hstrict ?_
    rintro x ⟨l, h, hr, hx, h1, h2⟩
    cases ha.symm.trans hr
    exact ⟨b.lo, b.hi, hb, heq ▸ hx, heq ▸ h1, h2.trans hle⟩

theorem covering_inner (objs : List Object) (cls : Text) (hle : AddrLE lo hi) :
    ((MemDatabase.new objs).covering cls lo hi).Pairwise fun o o' => ¬ StrictlyInside o' o := by
  rw [MemDatabase.covering, List.pairwise_map]
  refine (List.pairwise_insertionSort _ _).imp_of_mem fun {a b} ha hb h => ?_
  rw [List.mem_insertionSort, List.mem_filter, new_spaces, List.mem_filterMap] at ha hb
  have hrange : ∀ {e : SpaceEntry} {o : Object}, entryOf (toLower cls) o = some e →
      addressRange e.o = some (e.lo, e.hi) := by
    intro e o he
    rw [entryOf_eq] at he
    split_ifs at he
    obtain ⟨r, hr, rfl⟩ := Option.map_eq_some_iff.1 he
    exact hr
  obtain ⟨⟨_, -, hea⟩, -⟩ := ha
  obtain ⟨⟨_, -, heb⟩, hhit⟩ := hb
  obtain ⟨-, h1, h2⟩ := hit_iff.1 hhit
  exact not_strictlyInside (hrange hea) (hrange heb) ((h1.trans hle).trans h2) h

/-! ## Superseded objects -/

theorem superseded_iff {os : List Object} :
    ((primaryKey o).isSome && os.any fun o' => primaryKey o' = primaryKey o) = true ↔
      (primaryKey o).isSome ∧ ∃ o' ∈ os, primaryKey o' = primaryKey o := by
  simp

theorem filterMap_lastOfEach {β : Type} {f : Object → Option β}
    (hf : ∀ o, (f o).isSome → Shown o) (h : NoStale objs) :
    (lastOfEach objs).filterMap f = objs.filterMap f := by
  induction objs with
  | nil => rfl
  | cons o objs ih =>
    obtain ⟨hfirst, hrest⟩ := List.pairwise_cons.1 h
    unfold lastOfEach
    split_ifs with hs
    · obtain ⟨-, o', ho', hsame⟩ := superseded_iff.1 hs
      cases hfo : f o with
      | none => rw [ih hrest, List.filterMap_cons_none hfo]
      | some b => exact absurd hsame (hfirst o' ho' (hf o (by rw [hfo]; rfl)))
    · rw [List.filterMap_cons, List.filterMap_cons, ih hrest]

theorem shown_of_entryOf {cls : Text} (h : (entryOf cls o).isSome) : Shown o := by
  rw [entryOf_eq] at h
  split_ifs at h
  · exact .inl ((Option.isSome_map ..).symm.trans h)
  · cases h

def blockAt (as : ASN) (o : Object) : Option AsBlock :=
  (blockOf o).filter fun b => b.lo ≤ as && as ≤ b.hi

theorem filter_blocks (as : ASN) (objs : List Object) :
    (objs.filterMap blockOf).filter (fun b => b.lo ≤ as && as ≤ b.hi) =
      objs.filterMap (blockAt as) := by
  rw [List.filter_filterMap]
  rfl

theorem shown_of_blockAt {as : ASN} (h : (blockAt as o).isSome) : Shown o := by
  obtain ⟨b, hb⟩ := Option.isSome_iff_exists.1 h
  obtain ⟨ho, hin⟩ := Option.filter_eq_some_iff.1 hb
  rw [Bool.and_eq_true, decide_eq_true_eq, decide_eq_true_eq] at hin
  cases o with
  | asBlock b' => cases ho; exact .inr ⟨b, rfl, UInt32.le_trans hin.1 hin.2⟩
  | _ => cases ho

theorem length_lastOfEach_lt {β : Type} {f : Object → Option β}
    (hf : (f o).isSome) (pre : List Object) {post : List Object}
    (hs : (primaryKey o).isSome ∧ ∃ o' ∈ post, primaryKey o' = primaryKey o) :
    ((lastOfEach (pre ++ o :: post)).filterMap f).length <
      ((pre ++ o :: post).filterMap f).length := by
  have hle : ∀ objs : List Object,
      ((lastOfEach objs).filterMap f).length ≤ (objs.filterMap f).length := by
    intro objs
    have hsub : (lastOfEach objs).Sublist objs := by
      induction objs with
      | nil => exact .slnil
      | cons o objs ih =>
        unfold lastOfEach
        split_ifs
        · exact ih.cons o
        · exact ih.cons_cons o
    exact (hsub.filterMap f).length_le
  induction pre with
  | nil =>
    obtain ⟨b, hb⟩ := Option.isSome_iff_exists.1 hf
    rw [List.nil_append, lastOfEach, if_pos (superseded_iff.2 hs), List.filterMap_cons_some hb]
    exact Nat.lt_succ_of_le (hle post)
  | cons o' pre ih =>
    rw [List.cons_append, lastOfEach, List.filterMap_cons (l := pre ++ o :: post)]
    split_ifs
    · cases f o' with
      | none => exact ih
      | some b => exact ih.trans (Nat.lt_succ_self _)
    · rw [List.filterMap_cons]
      cases f o' with
      | none => exact ih
      | some b => exact Nat.succ_lt_succ ih

theorem exists_stale (h : ¬ NoStale objs) :
    ∃ pre o post, objs = pre ++ o :: post ∧ Shown o ∧
      ∃ o' ∈ post, primaryKey o' = primaryKey o := by
  induction objs with
  | nil => exact absurd List.Pairwise.nil h
  | cons o objs ih =>
    rw [NoStale, List.pairwise_cons, not_and_or] at h
    rcases h with h | h
    · push Not at h
      obtain ⟨o', ho', hshown, hsame⟩ := h
      exact ⟨[], o, objs, rfl, hshown, o', ho', hsame⟩
    · obtain ⟨pre, o', post, rfl, hrest⟩ := ih h
      exact ⟨o :: pre, o', post, rfl, hrest⟩

theorem Shown.primaryKey_isSome (h : Shown o) : (primaryKey o).isSome := by
  rcases h with h | ⟨b, rfl, -⟩
  · obtain ⟨key, hk⟩ := primaryKey_of_range h
    rw [hk]
    rfl
  · rfl

theorem toLower_cls (h : (addressRange o).isSome) : toLower o.cls = o.cls := by
  cases o with
  | route r | route6 r | inet6num r | inetnum r => rfl
  | _ => cases h

/-- **`MemDatabase` is the last-wins map of its objects exactly when none that a range or an AS is
looked up in is superseded.** -/
theorem memDatabase_lastWins_iff (objs : List Object) : LastWins objs ↔ NoStale objs := by
  classical
  constructor
  · intro h
    by_contra hstale
    obtain ⟨pre, o, post, rfl, hshown, hlater⟩ := exists_stale hstale
    have hsup := And.intro hshown.primaryKey_isSome hlater
    rcases hshown with hr | ⟨b, rfl, hb⟩
    · -- the object's own range shows it
      obtain ⟨⟨lo, hi⟩, hrange⟩ := Option.isSome_iff_exists.1 hr
      have hcov := congrArg List.length (h.covering o.cls lo hi)
      have hlt := length_lastOfEach_lt
        (f := fun x => (entryOf o.cls x).filter (·.hit lo hi)) (o := o)
        (by simp [entryOf_eq, hrange, hit_iff, AddrLE.refl]) pre hsup
      simp only [MemDatabase.covering, List.length_map, List.length_insertionSort, new_spaces,
        toLower_cls hr, List.filter_filterMap] at hcov
      exact hlt.ne hcov.symm
    · have hblocks := congrArg List.length (h.asBlocks b.lo)
      have hlt := length_lastOfEach_lt (f := blockAt b.lo) (o := .asBlock b)
        (by simp [blockAt, blockOf, hb]) pre hsup
      simp only [MemDatabase.asBlocks, List.length_insertionSort, new_blocks, filter_blocks]
        at hblocks
      omega
  · intro h
    have hobj := objects_lastOfEach objs
    have hspaces : ∀ cls, (MemDatabase.new (lastOfEach objs)).spaces cls =
        (MemDatabase.new objs).spaces cls := fun cls => by
      rw [new_spaces, new_spaces, filterMap_lastOfEach (fun _ => shown_of_entryOf) h]
    refine ⟨fun o => ?_, fun cls key => ?_, fun name => ?_, fun cls lo hi => ?_, fun as => ?_,
      fun cls lo hi hfam hle => ?_, fun cls lo hi _ hle => covering_inner objs cls hle⟩
    · rw [MemDatabase.current, MemDatabase.current, hobj]
    · rw [MemDatabase.object, MemDatabase.object, hobj]
    · rw [MemDatabase.mntner, MemDatabase.mntner, hobj]
    · rw [MemDatabase.covering, MemDatabase.covering, hspaces]
    · simp only [MemDatabase.asBlocks, new_blocks, filter_blocks,
        filterMap_lastOfEach (fun _ => shown_of_blockAt) h]
    · have hsame : (MemDatabase.new objs).covering cls lo hi =
          (MemDatabase.new (lastOfEach objs)).covering cls lo hi := by
        rw [MemDatabase.covering, MemDatabase.covering, hspaces]
      rw [hsame]
      refine (covering_perm _ _ _ _).trans (.of_eq (List.filter_congr fun o _ => ?_))
      rw [Bool.eq_iff_iff, hits_iff hfam hle, decide_eq_true_eq]

/-- The route 128.0.0.0/1 of AS1, with its maintainer. -/
def routeOf (mntner : Text) : Object :=
  let attrs := [(lit "route", lit "128.0.0.0/1"), (lit "origin", lit "AS1"), (lit "mnt-by", mntner)]
  .route ⟨some (Prefix.ofPath .v4 [true] (by decide)), 1, ⟨[], [], [mntner]⟩, some ⟨attrs, []⟩⟩

/-- A route whose maintainer changed: the superseded version is found first, and decides. -/
theorem changedRoute_not_lastWins :
    let objs := [routeOf (lit "OLD-MNT"), routeOf (lit "NEW-MNT")]
    ((MemDatabase.new objs).covering (lit "route") ⟨.v4, 0x80000000#32⟩ ⟨.v4, -1⟩).map
        (values · (lit "mnt-by")) = [[lit "OLD-MNT"], [lit "NEW-MNT"]] ∧ ¬ LastWins objs := by
  intro objs
  refine ⟨by decide +kernel, fun h => ?_⟩
  have hlen := congrArg List.length (h.covering (lit "route") ⟨.v4, 0x80000000#32⟩ ⟨.v4, -1⟩)
  exact absurd hlen (by decide +kernel)

end Rpsl.Auth
