import Rpsl.Auth.RouteCreation
import Rpsl.Auth.Proof.MemDatabase
import Rpsl.Auth.Proof.Rules
import Rpsl.Types.Proof.AddrRange
import Rpsl.Types.Proof.Order

/-!
# A route needs the consent of three parties

`RouteCreation` authorises exactly when the route's own maintainers, those of the aut-num of its
origin and those of address space that holds it each accept the credential (`Consented`), and
`RouteAuthority` names whom an object delegates to (`Delegates`).
-/

namespace Rpsl.Auth

open Text Lib Rpsl.Resolve Rpsl.Object

/-! ## The meaning -/

/-- The address lies from `lo` to `hi`. -/
def Between (lo hi a : Addr) : Prop :=
  (lo.fam = a.fam ∧ lo.val.toNat ≤ a.val.toNat) ∧ (hi.fam = a.fam ∧ a.val.toNat ≤ hi.val.toNat)

/-- The address is of the address space the object describes. -/
def Object.Holds (a : Addr) : Object → Prop
  | inetnum i => ∃ lo hi, i.lo = some lo ∧ i.hi = some hi ∧ Between lo hi a
  | inet6num i => ∃ q, i.pfx = some q ∧ q.contains a = true
  | route r | route6 r => ∃ q, r.pfx = some q ∧ q.contains a = true
  | _ => False

/-- The object holds every address of the prefix; it holds nothing of one that is not valid. -/
def Object.HoldsAll (o : Object) (p : Option Prefix) : Prop :=
  ∃ q, p = some q ∧ ∀ a, q.contains a = true → o.Holds a

/-- The object is address space strictly larger than the prefix. -/
def Object.Larger (o : Object) (p : Option Prefix) : Prop :=
  ∃ q, p = some q ∧ (∀ a, q.contains a = true → o.Holds a) ∧
    ∃ a, o.Holds a ∧ q.contains a = false

/-- The entry's scope holds the prefix: it names none, or a range of it denotes the prefix. -/
def MntRoutes.ScopeHolds (m : MntRoutes) (p : Option Prefix) : Prop :=
  (m.any = true ∧ m.ranges = []) ∨ ∃ r ∈ m.ranges, ∃ q, p = some q ∧ r.contains q = true

/-- Whom the object lets authorise a route for the prefix. -/
def Delegates (o : Object) (p : Option Prefix) (name : Text) : Prop :=
  ∃ a, authorities o = some a ∧
    ((a.mntRoutes ≠ [] ∧ name ≠ [] ∧ ∃ m ∈ a.mntRoutes, m.mntner = name ∧ m.ScopeHolds p) ∨
      (a.mntRoutes = [] ∧ (a.mntLower ≠ [] ∧ o.Larger p) ∧ name ∈ a.mntLower) ∨
      (a.mntRoutes = [] ∧ ¬ (a.mntLower ≠ [] ∧ o.Larger p) ∧ name ∈ a.mntBy))

section

variable (db : Database) (cred : Credential) (v : Verifier)

/-- The three parties' consent to the request. -/
structure Consented (req : RouteRequest) : Prop where
  origin_ne : req.originAS ≠ 0
  autNum : ∃ a raw, req.origin = some (some (.autNum req.originAS a raw))
  space : ∃ o, req.space = some (some o) ∧ o.HoldsAll req.pfx
  byMntBy : AcceptedBy db cred v req.mntBy
  byOrigin : ∀ o, req.origin = some (some o) → AcceptedBy db cred v (routeAuthority o req.pfx)
  bySpace : ∀ o, req.space = some (some o) → AcceptedBy db cred v (routeAuthority o req.pfx)

end

/-! ## What is covered -/

theorem rangeCovers_isSome_iff {lo hi : Addr} {p : Prefix} :
    (rangeCovers lo hi p.masked).isSome = true ↔ ∀ a, p.contains a = true → Between lo hi a := by
  obtain ⟨hfam, hlast⟩ := AddrRange.lastAddr_masked p
  have hfirst := AddrRange.masked_toNat p
  have hspan := (AddrRange.blockOf p).start_lt_stop
  have hmfam : p.masked.addr.fam = p.fam := rfl
  have hcov : (rangeCovers lo hi p.masked).isSome = true ↔
      Between lo hi p.masked.addr ∧ Between lo hi (lastAddr p.masked) := by
    have hbits : ∀ {a b : Addr}, a.fam = b.fam → a.bitLen = b.bitLen := by
      intro a b h
      rw [Addr.bitLen, h, Addr.bitLen]
    unfold rangeCovers Between
    dsimp only
    split_ifs with h1 h2
    · simp only [Option.isSome_none, Bool.false_eq_true, false_iff]
      intro hb
      rcases h1 with h1 | h1
      · exact h1 (hbits hb.1.1.1)
      · exact h1 (hbits hb.1.2.1)
    · simp only [Option.isSome_none, Bool.false_eq_true, false_iff]
      intro hb
      rw [Bool.or_eq_true, Addr.lt, Addr.lt, Bool.or_eq_true, Bool.or_eq_true, Bool.and_eq_true,
        Bool.and_eq_true] at h2
      simp only [decide_eq_true_eq] at h2
      have e1 := hbits hb.1.1.1
      have e2 := hbits hb.2.2.1
      omega
    · simp only [Option.isSome_some, true_iff]
      rw [not_or, not_not, not_not] at h1
      have f1 := fam_eq_of_bitLen h1.1
      have f2 := fam_eq_of_bitLen h1.2
      rw [Bool.not_eq_true, Bool.or_eq_false_iff] at h2
      have e1 := addrLE_iff.1 (show AddrLE lo p.masked.addr from h2.1)
      have e2 := addrLE_iff.1 (show AddrLE (lastAddr p.masked) hi from h2.2)
      have hb : (lastAddr p.masked).bitLen = p.masked.addr.bitLen := hbits (hfam.trans hmfam.symm)
      have hle : p.masked.addr.val.toNat ≤ (lastAddr p.masked).val.toNat := by omega
      have e1' : lo.val.toNat ≤ p.masked.addr.val.toNat := by omega
      have e2' : (lastAddr p.masked).val.toNat ≤ hi.val.toNat := by omega
      refine ⟨⟨⟨f1, e1'⟩, f2, hle.trans e2'⟩, ⟨f1.trans ?_, e1'.trans hle⟩, f2.trans ?_, e2'⟩
      · exact hmfam.trans hfam.symm
      · exact hmfam.trans hfam.symm
  rw [hcov]
  constructor
  · intro h a ha
    obtain ⟨hafam, hge, hlt⟩ := (AddrRange.contains_iff p a).1 ha
    obtain ⟨⟨⟨hlofam, hlo⟩, -⟩, -, hhifam, hhi⟩ := h
    refine ⟨⟨hlofam.trans (hmfam.trans hafam.symm), ?_⟩, hhifam.trans (hfam.trans hafam.symm), ?_⟩
    · omega
    · omega
  · intro h
    constructor
    · apply h
      rw [AddrRange.contains_iff]
      exact ⟨rfl, by omega, by omega⟩
    · apply h
      rw [AddrRange.contains_iff]
      exact ⟨hfam, by omega, by omega⟩

theorem rangeCovers_eq_false_iff {lo hi : Addr} {p : Prefix} :
    rangeCovers lo hi p.masked = some false ↔ (∀ a, p.contains a = true → Between lo hi a) ∧
      ∃ a, Between lo hi a ∧ p.contains a = false := by
  obtain ⟨hfam, hlast⟩ := AddrRange.lastAddr_masked p
  have hfirst := AddrRange.masked_toNat p
  rw [← rangeCovers_isSome_iff]
  cases hcov : rangeCovers lo hi p.masked with
  | none => simp
  | some exact =>
    have hexact : exact = decide (lo = p.masked.addr ∧ hi = lastAddr p.masked) := by
      unfold rangeCovers at hcov
      dsimp only at hcov
      split_ifs at hcov
      rw [← Option.some.inj hcov, Bool.decide_and]
    have hall := rangeCovers_isSome_iff.1 (show (rangeCovers lo hi p.masked).isSome = true by
      rw [hcov]; rfl)
    have hspan := (AddrRange.blockOf p).start_lt_stop
    have hb := hall p.masked.addr ((AddrRange.contains_iff p _).2 ⟨rfl, by omega, by omega⟩)
    have hb' := hall (lastAddr p.masked) ((AddrRange.contains_iff p _).2 ⟨hfam, by omega, by omega⟩)
    simp only [Option.some.injEq, Option.isSome_some, true_and]
    rw [hexact, decide_eq_false_iff_not]
    constructor
    · intro hne
      by_cases hlo : lo = p.masked.addr
      · -- it ends after the prefix
        have hhi : hi ≠ lastAddr p.masked := fun h => hne ⟨hlo, h⟩
        refine ⟨hi, ⟨⟨?_, ?_⟩, rfl, le_rfl⟩, ?_⟩
        · exact hb.1.1.trans hb.2.1.symm
        · exact hb.1.2.trans hb.2.2
        · rw [← Bool.not_eq_true, AddrRange.contains_iff]
          intro h
          apply hhi
          apply Addr.ext_toNat hb'.2.1
          have := h.2.2
          have := hb'.2.2
          omega
      · refine ⟨lo, ⟨⟨rfl, le_rfl⟩, ?_, ?_⟩, ?_⟩
        · exact hb.2.1.trans hb.1.1.symm
        · exact hb.1.2.trans hb.2.2
        · rw [← Bool.not_eq_true, AddrRange.contains_iff]
          intro h
          apply hlo
          apply Addr.ext_toNat hb.1.1
          have := h.2.1
          have := hb.1.2
          omega
    · intro hex heq
      obtain ⟨a, ⟨⟨hf, hge⟩, -, hle⟩, hout⟩ := hex
      obtain ⟨rfl, rfl⟩ := heq
      rw [← Bool.not_eq_true, AddrRange.contains_iff] at hout
      exact hout ⟨hf.symm, by omega, by omega⟩

theorem contains_iff_between {q : Prefix} {a : Addr} :
    q.contains a = true ↔ Between q.masked.addr (lastAddr q.masked) a := by
  obtain ⟨hfam, hlast⟩ := AddrRange.lastAddr_masked q
  have hfirst := AddrRange.masked_toNat q
  rw [AddrRange.contains_iff]
  constructor
  · intro h
    obtain ⟨hf, hge, hlt⟩ := h
    exact ⟨⟨hf.symm, by omega⟩, hfam.trans hf.symm, by omega⟩
  · intro h
    obtain ⟨⟨hf, hge⟩, -, hle⟩ := h
    exact ⟨hf.symm, by omega, by omega⟩

theorem holds_iff {o : Object} {a : Addr} :
    o.Holds a ↔ ∃ lo hi, addressRange o = some (lo, hi) ∧ Between lo hi a := by
  have hprefix : ∀ q : Option Prefix, (∃ p, q = some p ∧ p.contains a = true) ↔
      ∃ lo hi, prefixRange q = some (lo, hi) ∧ Between lo hi a := by
    intro q
    cases q with
    | none => simp [prefixRange]
    | some p => simp [prefixRange, contains_iff_between]
  cases o with
  | inetnum i =>
    obtain ⟨lo, hi, irt, auths, raw⟩ := i
    cases lo <;> cases hi <;> simp [Object.Holds, addressRange]
  | inet6num i => exact hprefix i.pfx
  | route r => exact hprefix r.pfx
  | route6 r => exact hprefix r.pfx
  | _ => simp [Object.Holds, addressRange]

theorem masked_contains (q : Prefix) (a : Addr) : q.masked.contains a = q.contains a := by
  rw [Bool.eq_iff_iff, contains_iff_between, contains_iff_between, Prefix.masked_masked]

theorem within_eq (q p : Prefix) :
    (if q.masked.bitLen ≠ p.masked.bitLen ∨ p.masked.bits < q.masked.bits ∨
        !q.masked.contains p.masked.addr then none
      else some (decide (q.masked.bits = p.masked.bits))) =
    rangeCovers q.masked.addr (lastAddr q.masked) p.masked := by
  obtain ⟨hqfam, hqlast⟩ := AddrRange.lastAddr_masked q
  obtain ⟨hpfam, hplast⟩ := AddrRange.lastAddr_masked p
  have hqfirst := AddrRange.masked_toNat q
  have hpfirst := AddrRange.masked_toNat p
  have hqbits : (lastAddr q.masked).bitLen = q.masked.addr.bitLen := congrArg Family.width hqfam
  have hpbits : (lastAddr p.masked).bitLen = p.masked.addr.bitLen := congrArg Family.width hpfam
  unfold rangeCovers
  dsimp only
  by_cases hbits : q.masked.addr.bitLen = p.masked.addr.bitLen
  · have hfam : q.fam = p.fam := fam_eq_of_bitLen hbits
    have hwidth : q.bitLen = p.bitLen := hbits
    have hqle : q.bits ≤ q.bitLen := q.le
    have hple : p.bits ≤ p.bitLen := p.le
    have hkq : (AddrRange.blockOf q).k = q.bitLen - q.bits := rfl
    have hkp : (AddrRange.blockOf p).k = p.bitLen - p.bits := rfl
    -- both ask whether the blocks lie one in the other
    have hcond : (p.masked.bits < q.masked.bits ∨ (!q.masked.contains p.masked.addr) = true) ↔
        ¬ ((AddrRange.blockOf q).start ≤ (AddrRange.blockOf p).start ∧
          (AddrRange.blockOf p).stop ≤ (AddrRange.blockOf q).stop) := by
      rw [← Lib.Block.within_iff, masked_contains, Bool.not_eq_true', ← Bool.not_eq_true,
        AddrRange.contains_iff, hpfirst, not_and_or (a := _ ≤ _), hkq, hkp]
      have hf : p.masked.addr.fam = q.fam := hfam.symm
      simp only [hf, true_and, Prefix.masked_bits]
      apply or_congr_left
      omega
    have hlt : (p.masked.addr.lt q.masked.addr || (lastAddr q.masked).lt (lastAddr p.masked)) =
        true ↔ ¬ ((AddrRange.blockOf q).start ≤ (AddrRange.blockOf p).start ∧
          (AddrRange.blockOf p).stop ≤ (AddrRange.blockOf q).stop) := by
      rw [Bool.or_eq_true, Addr.lt_iff (fam_eq_of_bitLen hbits.symm),
        Addr.lt_iff (hqfam.trans (hfam.trans hpfam.symm))]
      omega
    have hl : ¬ (q.masked.bitLen ≠ p.masked.bitLen) := not_not.2 hbits
    have hr : ¬ (q.masked.addr.bitLen ≠ p.masked.addr.bitLen ∨
        (lastAddr q.masked).bitLen ≠ p.masked.addr.bitLen) := by
      rw [hqbits, or_self, not_not]
      exact hbits
    rw [if_neg hr]
    by_cases hin : (AddrRange.blockOf q).start ≤ (AddrRange.blockOf p).start ∧
        (AddrRange.blockOf p).stop ≤ (AddrRange.blockOf q).stop
    · rw [if_neg (fun h => h.elim hl (hcond.1 · hin)), if_neg (fun h => hlt.1 h hin),
        ← Bool.decide_and,
        Option.some.injEq, decide_eq_decide, Prefix.masked_bits, Prefix.masked_bits]
      have hlen := Lib.Block.eq_length_iff hin.1 hin.2
      rw [hkq, hkp] at hlen
      have hbitsEq : q.bits = p.bits ↔ q.bitLen - q.bits = p.bitLen - p.bits := by omega
      rw [hbitsEq, hlen]
      constructor
      · intro h
        obtain ⟨hs, he⟩ := h
        exact ⟨Addr.ext_toNat hfam (by omega),
          Addr.ext_toNat (hqfam.trans (hfam.trans hpfam.symm)) (by omega)⟩
      · intro h
        obtain ⟨hs, he⟩ := h
        have hs' := congrArg (fun a : Addr => a.val.toNat) hs
        have he' := congrArg (fun a : Addr => a.val.toNat) he
        omega
    · rw [if_pos (.inr (hcond.2 hin)), if_pos (hlt.2 hin)]
  · rw [if_pos (.inl hbits), if_pos (.inl hbits)]

theorem covers_some (o : Object) (p : Prefix) :
    covers o (some p) = (addressRange o).bind fun r => rangeCovers r.1 r.2 p.masked := by
  cases o with
  | inetnum i =>
    obtain ⟨lo, hi, irt, auths, raw⟩ := i
    cases lo <;> cases hi <;> rfl
  | inet6num i =>
    obtain ⟨q, irt, auths, raw⟩ := i
    cases q with
    | none => rfl
    | some q => exact within_eq q p
  | route r | route6 r =>
    obtain ⟨q, origin, auths, raw⟩ := r
    cases q with
    | none => rfl
    | some q => exact within_eq q p
  | _ => rfl

/-- **An object covers a prefix when it holds all of it.** -/
theorem covers_isSome_iff {o : Object} {p : Option Prefix} :
    (covers o p).isSome = true ↔ o.HoldsAll p := by
  cases p with
  | none => simp [covers, Object.HoldsAll]
  | some p =>
    rw [covers_some]
    simp only [Object.HoldsAll, Option.some.injEq, exists_eq_left', holds_iff]
    cases hr : addressRange o with
    | none =>
      simp only [Option.bind_none, Option.isSome_none, Bool.false_eq_true, false_iff]
      intro h
      obtain ⟨lo, hi, h, -⟩ := h p.masked.addr
        ((Prefix.contains_masked_iff le_rfl).2 (Prefix.Covers.refl p))
      cases h
    | some r =>
      obtain ⟨lo, hi⟩ := r
      simp [rangeCovers_isSome_iff]

theorem covers_eq_false_iff {o : Object} {p : Option Prefix} :
    covers o p = some false ↔ o.Larger p := by
  cases p with
  | none => simp [covers, Object.Larger]
  | some p =>
    rw [covers_some]
    simp only [Object.Larger, Option.some.injEq, exists_eq_left', holds_iff]
    cases hr : addressRange o with
    | none => simp
    | some r =>
      obtain ⟨lo, hi⟩ := r
      simp [rangeCovers_eq_false_iff]

/-! ## Whom an object delegates to -/

theorem mem_scopedMntners {entries : List MntRoutes} {p : Option Prefix} {name : Text} :
    name ∈ scopedMntners entries p ↔
      name ≠ [] ∧ ∃ m ∈ entries, m.mntner = name ∧ m.ScopeHolds p := by
  have hscope : ∀ m : MntRoutes, ((m.any && m.ranges.isEmpty) ||
      m.ranges.any fun r => p.any r.contains) = true ↔ m.ScopeHolds p := by
    intro m
    simp [MntRoutes.ScopeHolds, Option.any_eq_true]
  simp only [scopedMntners, List.mem_map, List.mem_filter, Bool.and_eq_true, decide_eq_true_eq,
    hscope]
  constructor
  · intro h
    obtain ⟨m, ⟨hm, hne, hs⟩, rfl⟩ := h
    exact ⟨hne, m, hm, rfl, hs⟩
  · intro h
    obtain ⟨hne, m, hm, rfl, hs⟩ := h
    exact ⟨m, ⟨hm, hne, hs⟩, rfl⟩

theorem mem_routeAuthority {o : Object} {p : Option Prefix} {name : Text} :
    name ∈ routeAuthority o p ↔ Delegates o p name := by
  unfold routeAuthority Delegates
  cases ha : authorities o with
  | none => simp
  | some a =>
    simp only [Option.some.injEq, exists_eq_left']
    by_cases hr : a.mntRoutes = []
    · rw [← covers_eq_false_iff]
      by_cases hl : a.mntLower ≠ [] ∧ covers o p = some false
      · simp [hr, hl]
      · simp [hr, hl]
    · simp [hr, mem_scopedMntners]

/-! ## The three steps -/

section

variable {db : Database} {cred : Credential} {v : Verifier}

variable {req : RouteRequest}

def Party.Consents (db : Database) (cred : Credential) (v : Verifier) (req : RouteRequest)
    (party : Party) : Prop :=
  party.isNil req = false ∧ party.mismatch req = none ∧ AcceptedBy db cred v (party.names req)

theorem consents_ok (hf : Faultless db cred v) (party : Party) (s : List Text) :
    ∃ ok s', consents db cred v req party s = .ok (ok, s') ∧
      (ok = true ↔ party.Consents db cred v req) := by
  unfold consents Party.Consents
  cases hnil : party.isNil req with
  | true => exact ⟨false, _, rfl, by simp⟩
  | false =>
    cases hmis : party.mismatch req with
    | some why => exact ⟨false, _, rfl, by simp⟩
    | none =>
      obtain ⟨d, hd, hacc⟩ := checkMntners_ok hf (party.names req)
      by_cases hnames : party.names req = []
      · refine ⟨false, s ++ [party.what ++ lit ": delegates no maintainer for this prefix"], ?_, ?_⟩
        · simp only [hnames, Bool.false_eq_true, if_false, if_true]
          rfl
        · simp [hnames, AcceptedBy]
      · refine ⟨d.ok, s ++ [party.what ++ lit " (" ++ showNames (party.names req) ++ lit "): " ++
          d.text], ?_, by simpa using hacc⟩
        simp only [hnames, Bool.false_eq_true, if_false, hd]
        rfl

theorem allConsent_ok (hf : Faultless db cred v) (req : RouteRequest) (parties : List Party)
    (s : List Text) :
    ∃ ok s', allConsent db cred v req parties s = .ok (ok, s') ∧
      (ok = true ↔ ∀ party ∈ parties, party.Consents db cred v req) := by
  induction parties generalizing s with
  | nil => exact ⟨true, s, rfl, by simp⟩
  | cons party parties ih =>
    obtain ⟨ok, s₁, hrun, hok⟩ := consents_ok hf party s
    unfold allConsent
    cases ok with
    | false =>
      refine ⟨false, s₁, ?_, ?_⟩
      · exact Lib.run_bind_eq_ok.2 ⟨_, _, hrun, rfl⟩
      · simp only [List.forall_mem_cons, ← hok, Bool.false_eq_true, false_and]
    | true =>
      obtain ⟨ok, s₂, hrest, hiff⟩ := ih s₁
      refine ⟨ok, s₂, ?_, ?_⟩
      · exact Lib.run_bind_eq_ok.2 ⟨_, _, hrun, hrest⟩
      · rw [hiff, List.forall_mem_cons, and_iff_right (hok.1 rfl)]

theorem autNumAS_eq_some {o : Given} {as : ASN} :
    autNumAS o = some as ↔ ∃ a raw, o = some (some (.autNum as a raw)) := by
  constructor
  · intro h
    unfold autNumAS at h
    split at h
    · rename_i as' a raw
      cases h
      exact ⟨a, raw, rfl⟩
    · cases h
  · intro h
    obtain ⟨a, raw, rfl⟩ := h
    rfl

theorem consented_iff : (∀ party ∈ [Party.mntBy, .origin, .space], party.Consents db cred v req) ↔
    Consented db cred v req := by
  have hmntBy : Party.mntBy.Consents db cred v req ↔ AcceptedBy db cred v req.mntBy := by
    simp [Party.Consents, Party.isNil, Party.mismatch, Party.names]
  have horigin : Party.origin.Consents db cred v req ↔ req.originAS ≠ 0 ∧
      (∃ a raw, req.origin = some (some (.autNum req.originAS a raw))) ∧
      ∀ o, req.origin = some (some o) → AcceptedBy db cred v (routeAuthority o req.pfx) := by
    rw [← autNumAS_eq_some]
    unfold Party.Consents Party.mismatch Party.isNil Party.names
    by_cases h0 : req.originAS = 0
    · simp [h0]
    · by_cases has : autNumAS req.origin = some req.originAS
      · obtain ⟨a, raw, ho⟩ := autNumAS_eq_some.1 has
        simp [h0, ho, Given.object, autNumAS]
      · simp [h0, has]
  have hspace : Party.space.Consents db cred v req ↔
      (∃ o, req.space = some (some o) ∧ o.HoldsAll req.pfx) ∧
      ∀ o, req.space = some (some o) → AcceptedBy db cred v (routeAuthority o req.pfx) := by
    unfold Party.Consents Party.mismatch Party.isNil Party.names
    rcases hs : req.space with _ | _ | o
    · simp
    · simp [Given.object]
    · have hcov := covers_isSome_iff (o := o) (p := req.pfx)
      cases hc : covers o req.pfx with
      | none =>
        rw [hc] at hcov
        simp [Given.object, hc, ← hcov]
      | some exact =>
        rw [hc] at hcov
        simp [Given.object, hc, ← hcov]
  simp only [List.forall_mem_cons, hmntBy, horigin, hspace, List.not_mem_nil, false_imp_iff,
    implies_true, and_true]
  constructor
  · intro h
    obtain ⟨hm, ⟨h0, has, ho⟩, hsp, hs⟩ := h
    exact ⟨h0, has, hsp, hm, ho, hs⟩
  · intro h
    exact ⟨h.byMntBy, ⟨h.origin_ne, h.autNum, h.byOrigin⟩, h.space, h.bySpace⟩

/-- **A route is authorised exactly when the three parties consent**, and each object's consent is
that of the maintainers it delegates to. -/
theorem routeCreation_ok_iff (hf : Faultless db cred v) (req : RouteRequest) :
    (∃ d, routeCreation db cred v req = .ok d ∧ (d.ok = true ↔ Consented db cred v req)) ∧
      ∀ o name, name ∈ routeAuthority o req.pfx ↔ Delegates o req.pfx name := by
  constructor
  · obtain ⟨ok, s, hrun, hok⟩ := allConsent_ok hf req [.mntBy, .origin, .space] []
    refine ⟨⟨ok, s⟩, ?_, hok.trans consented_iff⟩
    rw [routeCreation, hrun]
    rfl
  · intro o name
    exact mem_routeAuthority

end

/-! ## A delegated range -/

theorem faultless_held (cred : Credential) : Faultless heldDb cred passwordIs where
  mntner := by
    intro n e h
    change (MemDatabase.mntner _ n).map some = _ at h
    unfold MemDatabase.mntner at h
    split at h
    · cases h
    · cases h
      rfl
  verify := by
    intro f a e hf h
    cases hf
    cases h

theorem slash24_le : 24 ≤ Family.v4.width :=
  Nat.le_add_right 24 8

/-- 10.0.0.0/8 with its maintainer, which lets another create routes in 10.0.0.0/16 only, and a
route in it. -/
def delegatedRequest (third : BitVec 32) : RouteRequest :=
  let addr (n : BitVec 32) : Addr := ⟨.v4, n⟩
  let delegated : PrefixRange := ⟨some ⟨addr 0x0a000000, 16, by decide⟩, 16, 32,
    by decide, by decide, by decide, .inl (by decide)⟩
  let space : Object := .inetnum ⟨some (addr 0x0a000000), some (addr 0x0affffff), [],
    ⟨[⟨lit "B-MNT", false, [delegated]⟩], [], [lit "A-MNT"]⟩, none⟩
  let origin : Object := .autNum 1 ⟨[], [], [lit "B-MNT"]⟩ none
  routeRequestFor ⟨some ⟨addr (0x0a000000 + third), 24, slash24_le⟩, 1,
    ⟨[], [], [lit "B-MNT"]⟩, none⟩ (some (some origin)) (some (some space))

/-- The maintainer it lets has the consent of all for a route in its range, and neither it nor the
one that narrowed it for a route beside it. -/
theorem delegatedRequest_consented :
    Consented heldDb (credentialOf (lit "b")) passwordIs (delegatedRequest 0x100) ∧
      ¬ Consented heldDb (credentialOf (lit "b")) passwordIs (delegatedRequest 0x10000) ∧
      ¬ Consented heldDb (credentialOf (lit "a")) passwordIs (delegatedRequest 0x10000) := by
  have hdec : ∀ cred req, ((routeCreation heldDb cred passwordIs req).toOption.map Decision.ok) =
      some true ↔ Consented heldDb cred passwordIs req := by
    intro cred req
    obtain ⟨⟨d, hd, hiff⟩, -⟩ := routeCreation_ok_iff (faultless_held cred) req
    rw [hd, ← hiff]
    simp [Except.toOption]
  rw [← hdec, ← hdec, ← hdec]
  decide +kernel

end Rpsl.Auth
