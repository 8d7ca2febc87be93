import Rpsl.Auth.Rules
import Rpsl.Lib.Outcome

/-!
# Stored objects are not taken over

An update of an object the registry holds, authorised as a modification or a deletion, has the
consent of a maintainer of the registry that the stored object names. A creation is checked against
the submitted object only, and whether the registry has the object already is not asked: stated as
a creation, an update of a stored object needs no consent of its maintainers.
-/

namespace Rpsl.Auth

open Text Lib Rpsl.Resolve Rpsl.Object

/-! ## Consent -/

section

variable (db : Database) (cred : Credential) (v : Verifier)

/-- The verifier accepts the credential for one of the lines. -/
def Accepts (lines : List Auth) : Prop :=
  ∃ verify, v = some verify ∧ ∃ a ∈ lines, verify a cred = .ok true

/-- It does for a line of a maintainer of the registry that one of the names names. -/
def AcceptedBy (names : List Text) : Prop :=
  ∃ n ∈ names, ∃ m, db.mntner n = .ok (some m) ∧ Accepts cred v m.auth

/-- The consent a stored object gives to an update of it: its maintainers', or those of the new
version where RIPE modifies an object that names none, or those of the mnt-domains: of its exact
address space where RIPE deletes a reverse domain. -/
def Consent (r : Rules) (a : Action) (stored o : Object) : Prop :=
  AcceptedBy db cred v (values stored (lit "mnt-by")) ∨
  (r = .ripe ∧ a = .modify ∧ values stored (lit "mnt-by") = [] ∧
    AcceptedBy db cred v (values o (lit "mnt-by"))) ∨
  (r = .ripe ∧ a = .delete ∧ ∃ name raw lo hi, stored = .domain name raw ∧
    reverseRange name = some (lo, hi) ∧ ∃ cov p, db.covering (spaceClass lo) lo hi = .ok cov ∧
      some p ∈ cov ∧ addressRange p = some (lo, hi) ∧
      AcceptedBy db cred v (values p (lit "mnt-domains")))

/-- No lookup fails but for want of the maintainer, no verification but for want of the method. -/
structure Faultless : Prop where
  mntner : ∀ n e, db.mntner n = .error e → e = .noMntner
  verify : ∀ f a e, v = some f → f a cred = .error e → e = .unsupportedMethod

end

/-! ## What accepts -/

section

variable {db : Database} {cred : Credential} {v : Verifier}

theorem checkAuth_accepts {lines : List Auth} {u u' : Bool}
    (h : checkAuth cred v u lines = .ok (true, u')) : Accepts cred v lines := by
  induction lines generalizing u with
  | nil => cases h
  | cons a lines ih =>
    have hcons : Accepts cred v lines → Accepts cred v (a :: lines) :=
      fun ⟨verify, hv, b, hb, hok⟩ => ⟨verify, hv, b, List.mem_cons_of_mem _ hb, hok⟩
    unfold checkAuth at h
    split at h
    · exact hcons (ih h)
    · rename_i verify
      split at h
      · exact hcons (ih h)
      · cases h
      · exact ⟨verify, rfl, a, List.mem_cons_self, ‹_›⟩
      · exact hcons (ih h)

variable {names : List Text} {d : Decision}

theorem checkNames_accepts {find : Text → Except Err (Option (List Auth))} {missing : Text}
    {reasons : List Text}
    (h : checkNames find missing cred v reasons names = .ok d) (hd : d.ok = true) :
    ∃ n ∈ names, ∃ lines, find n = .ok (some lines) ∧ Accepts cred v lines := by
  induction names generalizing reasons with
  | nil => cases h; cases hd
  | cons name names ih =>
    have hcons : (∃ n ∈ names, ∃ lines, find n = .ok (some lines) ∧ Accepts cred v lines) →
        ∃ n ∈ name :: names, ∃ lines, find n = .ok (some lines) ∧ Accepts cred v lines :=
      fun ⟨n, hn, hrest⟩ => ⟨n, List.mem_cons_of_mem _ hn, hrest⟩
    unfold checkNames at h
    split at h
    · cases h
    · exact hcons (ih h)
    · rename_i lines hfind
      split at h
      · cases h
      · rename_i hauth
        exact ⟨name, List.mem_cons_self, lines, hfind, checkAuth_accepts hauth⟩
      · exact hcons (ih h)

theorem findMntner_eq_some {n : Text} {lines : List Auth}
    (h : findMntner db n = .ok (some lines)) :
    ∃ m, db.mntner n = .ok (some m) ∧ m.auth = lines := by
  unfold findMntner at h
  split at h
  · cases h
  · cases h
  · rename_i m hm
    obtain ⟨m', rfl, hl⟩ := Option.map_eq_some_iff.1 (Except.ok.inj h)
    exact ⟨m', hm, hl⟩

theorem checkMntners_accepts
    (h : checkMntners db names cred v = .ok d) (hd : d.ok = true) :
    AcceptedBy db cred v names := by
  unfold checkMntners at h
  split_ifs at h
  · cases h; cases hd
  · obtain ⟨n, hn, lines, hfind, hacc⟩ := checkNames_accepts h hd
    obtain ⟨m, hm, rfl⟩ := findMntner_eq_some hfind
    exact ⟨n, hn, m, hm, hacc⟩

variable {s s' : List Text}

theorem mntners_accepts {what : Text}
    (h : mntners db cred v what names none s = .ok (true, s')) : AcceptedBy db cred v names := by
  unfold mntners at h
  split_ifs at h
  · obtain ⟨_, _, -, hret⟩ := Lib.run_bind_eq_ok.1 h
    cases hret
  · obtain ⟨bySelf, s₁, hself, h⟩ := Lib.run_bind_eq_ok.1 h
    cases hself
    simp only [Bool.false_eq_true, if_false] at h
    obtain ⟨got, s₂, hgot, h⟩ := Lib.run_bind_eq_ok.1 h
    obtain ⟨_, s₃, -, hret⟩ := Lib.run_bind_eq_ok.1 h
    obtain ⟨hgot, -⟩ := Lib.run_lift_eq_ok.1 hgot
    exact checkMntners_accepts hgot (congrArg Prod.fst (Except.ok.inj hret))

variable {o stored : Object} {a : Action}

theorem storedVersion_eq (hcur : db.current o = .ok (some stored))
    : storedVersion db o a s = .ok (some stored, s) := by
  have hc : current db o = .ok stored := by rw [current, hcur]
  rw [storedVersion, hc]
  rfl

theorem domainHolder_accepts
    (h : domainHolder db cred v stored s = .ok (true, s')) :
    ∃ name raw lo hi, stored = .domain name raw ∧ reverseRange name = some (lo, hi) ∧
      ∃ cov p, db.covering (spaceClass lo) lo hi = .ok cov ∧ some p ∈ cov ∧
        addressRange p = some (lo, hi) ∧ AcceptedBy db cred v (values p (lit "mnt-domains")) := by
  unfold domainHolder at h
  cases stored with
  | domain name raw =>
    dsimp only at h
    cases hrange : reverseRange name with
    | none => rw [hrange] at h; cases h
    | some r =>
      obtain ⟨lo, hi⟩ := r
      simp only [hrange] at h
      obtain ⟨objs, s₁, hcov, h⟩ := Lib.run_bind_eq_ok.1 h
      obtain ⟨hcov, -⟩ := Lib.run_lift_eq_ok.1 hcov
      cases hfind : objs.find? fun p =>
          addressRange p = some (lo, hi) ∧ values p (lit "mnt-domains") ≠ [] with
      | none => rw [hfind] at h; cases h
      | some p =>
        rw [hfind] at h
        obtain ⟨hexact, -⟩ := of_decide_eq_true (List.find?_some hfind :)
        have hmem := List.mem_of_find?_eq_some hfind
        unfold covering at hcov
        cases hdb : db.covering (spaceClass lo) lo hi with
        | error e => rw [hdb] at hcov; cases hcov
        | ok cov =>
          rw [hdb] at hcov
          cases hcov
          obtain ⟨_, hmem, rfl⟩ := List.mem_filterMap.1 hmem
          exact ⟨name, raw, lo, hi, rfl, hrange, cov, p, hdb, hmem, hexact, mntners_accepts h⟩
  | _ => cases h

theorem ripe_consent (ha : a ≠ .create)
    (hcur : db.current o = .ok (some stored)) (h : ripe db cred v a o s = .ok (true, s')) :
    Consent db cred v .ripe a stored o := by
  unfold ripe at h
  cases a with
  | create => exact absurd rfl ha
  | unknown n => cases h
  | modify =>
    obtain ⟨_, s₁, hst, h⟩ := Lib.run_bind_eq_ok.1 h
    cases (storedVersion_eq hcur).symm.trans hst
    obtain ⟨ok, s₂, hm, h⟩ := Lib.run_bind_eq_ok.1 h
    cases ok with
    | false => cases h
    | true =>
      have hacc := mntners_accepts hm
      split_ifs at hacc with hnil
      · exact .inr (.inl ⟨rfl, rfl, hnil, hacc⟩)
      · exact .inl hacc
  | delete =>
    obtain ⟨_, s₁, hst, h⟩ := Lib.run_bind_eq_ok.1 h
    cases (storedVersion_eq hcur).symm.trans hst
    obtain ⟨ok, s₂, hm, h⟩ := Lib.run_bind_eq_ok.1 h
    cases ok with
    | true => exact .inl (mntners_accepts hm)
    | false => exact .inr (.inr ⟨rfl, rfl, domainHolder_accepts h⟩)

theorem irrd_consent (ha : a ≠ .create)
    (hcur : db.current o = .ok (some stored)) (h : irrd db cred v a o s = .ok (true, s')) :
    Consent db cred v .irrd a stored o := by
  unfold irrd at h
  rw [if_neg (fun hc => ha hc.1)] at h
  obtain ⟨ok, s₁, -, h⟩ := Lib.run_bind_eq_ok.1 h
  cases ok with
  | false => cases h
  | true =>
    simp only [Bool.not_true, Bool.false_eq_true, if_false, ha] at h
    obtain ⟨_, s₂, hst, h⟩ := Lib.run_bind_eq_ok.1 h
    cases (storedVersion_eq hcur).symm.trans hst
    obtain ⟨ok, s₃, hm, h⟩ := Lib.run_bind_eq_ok.1 h
    cases ok with
    | false => cases h
    | true => exact .inl (mntners_accepts hm)

/-- **An authorised modification or deletion has the stored object's consent.** -/
theorem authorise_consent {r : Rules} (ha : a ≠ .create)
    (hcur : db.current o = .ok (some stored))
    (h : authorise db cred v r ⟨a, some o⟩ = .ok d) (hd : d.ok = true) :
    Consent db cred v r a stored o := by
  unfold authorise at h
  obtain ⟨⟨ok, reasons⟩, hrun, rfl⟩ := Lib.map_eq_ok.1 h
  change ok = true at hd
  subst hd
  dsimp only at hrun
  split_ifs at hrun
  · cases hrun
  · cases a with
    | create => exact absurd rfl ha
    | unknown n => cases hrun
    | modify | delete =>
      cases r with
      | ripe => exact ripe_consent ha hcur hrun
      | irrd => exact irrd_consent ha hcur hrun

end

/-! ## Lookups that do not fail -/

section

variable {db : Database} {cred : Credential} {v : Verifier}

theorem checkAuth_ok (hf : Faultless db cred v) (lines : List Auth) (u : Bool) :
    ∃ r, checkAuth cred v u lines = .ok r ∧ (r.1 = true ↔ Accepts cred v lines) := by
  -- that what passes is accepted is known, and so is left that nothing fails or is passed over
  suffices h : ∃ r, checkAuth cred v u lines = .ok r ∧ (Accepts cred v lines → r.1 = true) by
    obtain ⟨⟨ok, u'⟩, hr, hacc⟩ := h
    refine ⟨_, hr, fun hok => ?_, hacc⟩
    cases (hok : ok = true)
    exact checkAuth_accepts hr
  induction lines generalizing u with
  | nil =>
    refine ⟨_, rfl, fun h => ?_⟩
    obtain ⟨_, _, a, ha, _⟩ := h
    cases ha
  | cons a lines ih =>
    cases v with
    | none =>
      obtain ⟨r, hr, -⟩ := ih true
      refine ⟨r, hr, fun h => ?_⟩
      obtain ⟨f, hv, -⟩ := h
      cases hv
    | some f =>
      -- unless this line accepts, what accepts is among the others
      have hrest : f a cred ≠ .ok true → Accepts cred (some f) (a :: lines) →
          Accepts cred (some f) lines := by
        intro hne h
        obtain ⟨g, hg, b, hb, hok⟩ := h
        cases hg
        cases hb with
        | head => exact absurd hok hne
        | tail _ hb => exact ⟨f, rfl, b, hb, hok⟩
      unfold checkAuth
      dsimp only
      cases hline : f a cred with
      | error e =>
        cases hf.verify f a e rfl hline
        obtain ⟨r, hr, hacc⟩ := ih true
        exact ⟨r, hr, fun h => hacc (hrest (by rw [hline]; simp) h)⟩
      | ok b =>
        cases b with
        | true => exact ⟨_, rfl, fun _ => rfl⟩
        | false =>
          obtain ⟨r, hr, hacc⟩ := ih u
          exact ⟨r, hr, fun h => hacc (hrest (by rw [hline]; simp) h)⟩

theorem findMntner_ok (hf : Faultless db cred v) (n : Text) :
    ∃ lines, findMntner db n = .ok lines ∧
      ∀ m, db.mntner n = .ok (some m) → lines = some m.auth := by
  unfold findMntner
  cases hm : db.mntner n with
  | error e =>
    cases hf.mntner n e hm
    exact ⟨none, rfl, fun m h => by cases h⟩
  | ok m =>
    refine ⟨m.map Mntner.auth, rfl, fun m' h => ?_⟩
    cases Except.ok.inj h
    rfl

theorem checkMntners_ok (hf : Faultless db cred v) (names : List Text) :
    ∃ d, checkMntners db names cred v = .ok d ∧ (d.ok = true ↔ AcceptedBy db cred v names) := by
  suffices h : ∀ reasons, ∃ d,
      checkNames (findMntner db) (lit ": no such maintainer") cred v reasons names = .ok d ∧
        (AcceptedBy db cred v names → d.ok = true) by
    unfold checkMntners
    split_ifs with hnil
    · refine ⟨_, rfl, ?_⟩
      rw [hnil]
      simp [AcceptedBy]
    · obtain ⟨d, hd, hacc⟩ := h []
      have hchecked : checkMntners db names cred v = .ok d := by
        rw [checkMntners, if_neg hnil]
        exact hd
      exact ⟨d, hd, checkMntners_accepts hchecked, hacc⟩
  induction names with
  | nil =>
    intro reasons
    refine ⟨_, rfl, fun h => ?_⟩
    obtain ⟨n, hn, -⟩ := h
    cases hn
  | cons name names ih =>
    intro reasons
    obtain ⟨lines, hfind, hlines⟩ := findMntner_ok hf name
    have hrest : (∀ m, db.mntner name = .ok (some m) → ¬ Accepts cred v m.auth) →
        AcceptedBy db cred v (name :: names) → AcceptedBy db cred v names := by
      intro hno h
      obtain ⟨n, hn, m, hm, hacc⟩ := h
      cases hn with
      | head => exact absurd hacc (hno m hm)
      | tail _ hn => exact ⟨n, hn, m, hm, hacc⟩
    unfold checkNames
    rw [hfind]
    cases lines with
    | none =>
      obtain ⟨d, hd, hacc⟩ := ih (reasons ++ [name ++ lit ": no such maintainer"])
      exact ⟨d, hd, fun h => hacc (hrest (fun m hm => by cases hlines m hm) h)⟩
    | some lines =>
      obtain ⟨⟨ok, u⟩, hauth, hiff⟩ := checkAuth_ok hf lines false
      dsimp only
      rw [hauth]
      cases ok with
      | true => exact ⟨_, rfl, fun _ => rfl⟩
      | false =>
        dsimp only
        obtain ⟨d, hd, hacc⟩ := ih _
        refine ⟨d, hd, fun h => hacc (hrest (fun m hm hm' => ?_) h)⟩
        cases hlines m hm
        cases hiff.2 hm'

theorem selfAccepts_ok (hf : Faultless db cred v) (what : Text) (all : List Text) (self : Mntner)
    (names : List Text) (s : List Text) :
    ∃ r, selfAccepts cred v what all self names s = .ok r := by
  induction names with
  | nil => exact ⟨_, rfl⟩
  | cons n names ih =>
    unfold selfAccepts
    split_ifs
    · exact ih
    · obtain ⟨⟨ok, u⟩, hauth, -⟩ := checkAuth_ok hf self.auth false
      rw [hauth]
      cases ok with
      | true => exact ⟨_, rfl⟩
      | false => exact ih

theorem mntners_ok (hf : Faultless db cred v) (what : Text) {names : List Text}
    (h : AcceptedBy db cred v names) (self : Option Mntner) (s : List Text) :
    ∃ s', mntners db cred v what names self s = .ok (true, s') := by
  have hne : names ≠ [] := by
    rintro rfl
    obtain ⟨_, hn, -⟩ := h
    cases hn
  obtain ⟨d, hd, hiff⟩ := checkMntners_ok hf names
  have hasked : ∀ s, ∃ s', (do
      let got ← checkMntners db names cred v
      say (what ++ lit " (" ++ showNames names ++ lit "): " ++ got.text)
      return got.ok : Check Bool) s = .ok (true, s') := by
    intro s
    rw [hd]
    exact ⟨_, congrArg (fun b => Except.ok (b, _)) (hiff.2 h)⟩
  unfold mntners
  rw [if_neg hne]
  cases self with
  | none => exact hasked s
  | some m =>
    obtain ⟨⟨ok, s₁⟩, hself⟩ := selfAccepts_ok hf what names m names s
    cases ok with
    | true => exact ⟨s₁, run_bind_eq_ok.2 ⟨_, _, hself, rfl⟩⟩
    | false =>
      obtain ⟨s₂, hs₂⟩ := hasked s₁
      exact ⟨s₂, run_bind_eq_ok.2 ⟨_, _, hself, hs₂⟩⟩

end

/-! ## Creations of what is stored -/

/-- An update refused whatever the registry holds: the object names no maintainer, or it is one that
only an administrator creates, or it has no place under another. -/
def RefusedOutright (r : Rules) (o : Object) : Prop :=
  values o (lit "mnt-by") = [] ∨ (r = .irrd ∧ (asMntner o).isSome = true) ∨
    match o with
    | .inetnum i => r = .ripe ∧ (i.lo = none ∨ i.hi = none)
    | .inet6num i => r = .ripe ∧ i.pfx = none
    | .route t | .route6 t => t.pfx = none
    | .domain name _ => r = .ripe ∧ reverseRange name = none ∧ isReverseName name = true
    | _ => False

def Object.withRaw (raw : Option Raw) : Object → Object
  | route t => route ⟨t.pfx, t.origin, t.authorities, raw⟩
  | route6 t => route6 ⟨t.pfx, t.origin, t.authorities, raw⟩
  | inetnum i => inetnum ⟨i.lo, i.hi, i.mntIrt, i.authorities, raw⟩
  | inet6num i => inet6num ⟨i.pfx, i.mntIrt, i.authorities, raw⟩
  | asBlock b => asBlock ⟨b.lo, b.hi, raw⟩
  | person h _ => person h raw
  | role h _ => role h raw
  | mntner m => mntner ⟨m.handle, m.auth, raw⟩
  | autNum n a _ => autNum n a raw
  | domain n _ => domain n raw
  | set c n _ => set c n raw
  | irt i => irt ⟨i.auth, raw⟩
  | other c _ => other c raw

theorem Object.raw_withRaw (raw : Option Raw) (o : Object) : (o.withRaw raw).raw = raw := by
  cases o <;> rfl

/-- The object as stored, with another maintainer. -/
def ownedBy (owner : Text) (o : Object) : Object :=
  o.withRaw (o.raw.map fun r =>
    ⟨r.attrs.map fun a => if a.1 = lit "mnt-by" then (a.1, owner) else a, r.text⟩)

theorem mem_values_ownedBy {owner n : Text} {o : Object}
    (h : n ∈ values (ownedBy owner o) (lit "mnt-by")) : n ∈ listItems owner := by
  rw [values, ownedBy, Object.raw_withRaw] at h
  cases hraw : o.raw with
  | none => simp [hraw, rawValues] at h
  | some r =>
    rw [hraw, Option.map_some, rawValues, List.mem_flatMap] at h
    obtain ⟨a, ha, hn⟩ := h
    obtain ⟨hmem, hattr⟩ := List.mem_filter.1 ha
    obtain ⟨b, -, rfl⟩ := List.mem_map.1 hmem
    split_ifs at hn hattr with hb
    · exact (List.mem_filter.1 hn).1
    · exact absurd (of_decide_eq_true hattr) hb

section OpenDb

def anyLine : Auth := ⟨.md5, [], []⟩

def anyParent : Object :=
  .inetnum ⟨none, none, [], ⟨[], [], [lit "P-MNT"]⟩, some ⟨[(lit "mnt-by", lit "P-MNT")], []⟩⟩

/-- A registry where every maintainer but one has an auth: line, and whatever is above an object is
another's. -/
def openDb (owner : Text) (stored : Object) : Database where
  mntner := fun n => .ok (some ⟨n, if n = owner then [] else [anyLine], none⟩)
  current := fun _ => .ok (some stored)
  object := fun cls _ =>
    if cls = lit "irt" then .ok (some (.irt ⟨[anyLine], none⟩))
    else if (attrs ["person", "role", "mntner", "organisation"]).contains cls then .error .notFound
    else .ok (some anyParent)
  covering := fun _ _ _ => .ok [some anyParent]
  asBlocks := fun _ => .ok [some ⟨0, 0, anyParent.raw⟩]

def anyCredential : Verifier := some fun _ _ => .ok true

def Grants (c : Check Bool) : Prop := ∀ s, ∃ s', c s = .ok (true, s')

theorem Grants.pure : Grants (Pure.pure true) := fun s => ⟨s, rfl⟩

theorem Grants.bind {c : Check Bool} {f : Bool → Check Bool} (hc : Grants c)
    (hf : Grants (f true)) : Grants (c >>= f) := by
  intro s
  obtain ⟨s₁, h₁⟩ := hc s
  obtain ⟨s₂, h₂⟩ := hf s₁
  exact ⟨s₂, run_bind_eq_ok.2 ⟨_, _, h₁, h₂⟩⟩

variable {owner : Text} {stored : Object} {cred : Credential}

theorem faultless_openDb : Faultless (openDb owner stored) cred anyCredential where
  mntner := fun n e h => by cases h
  verify := fun f a e hf h => by cases hf; cases h

theorem grants_mntners {names : List Text} (h : ∃ n ∈ names, n ≠ owner) (what : Text)
    (self : Option Mntner) :
    Grants (mntners (openDb owner stored) cred anyCredential what names self) := by
  intro s
  obtain ⟨n, hn, hne⟩ := h
  refine mntners_ok faultless_openDb what ⟨n, hn, _, rfl, _, rfl, anyLine, ?_, rfl⟩ self s
  rw [if_neg hne]
  exact List.mem_singleton_self _

theorem grants_parent (hP : owner ≠ lit "P-MNT") (names : List Text) (h : names = [lit "P-MNT"])
    (what : Text) :
    Grants (mntners (openDb owner stored) cred anyCredential what names none) :=
  grants_mntners ⟨lit "P-MNT", by rw [h]; exact List.mem_singleton_self _, hP.symm⟩ what none

theorem grants_ripeParent (hP : owner ≠ lit "P-MNT") {o : Object}
    (ho : ¬ RefusedOutright .ripe o) :
    Grants (ripeParent (openDb owner stored) cred anyCredential o) := by
  have hspace : ∀ cls lo hi,
      Grants (addressParent (openDb owner stored) cred anyCredential cls lo hi) := by
    intro cls lo hi s
    exact grants_parent hP (firstPresent anyParent.raw (attrs ["mnt-lower", "mnt-by"]))
      (by decide +kernel) _ s
  have hroute : ∀ cls space p, p ≠ none →
      Grants (routeParent (openDb owner stored) cred anyCredential cls space p) := by
    intro cls space p hp
    cases p with
    | none => exact absurd rfl hp
    | some p => exact grants_parent hP _ rfl _
  unfold RefusedOutright at ho
  simp only [not_or] at ho
  obtain ⟨-, -, ho⟩ := ho
  unfold ripeParent
  cases o with
  | inetnum i =>
    obtain ⟨lo, hi, _, _, _⟩ := i
    cases lo with
    | none => simp at ho
    | some lo =>
      cases hi with
      | none => simp at ho
      | some hi => exact hspace _ lo hi
  | inet6num i =>
    obtain ⟨p, _, _, _⟩ := i
    cases p with
    | none => simp at ho
    | some p => exact hspace _ _ _
  | autNum n a raw =>
    exact grants_parent hP (firstPresent anyParent.raw (attrs ["mnt-lower", "mnt-by"]))
      (by decide +kernel) _
  | route t => exact hroute _ _ _ ho
  | route6 t => exact hroute _ _ _ ho
  | domain name raw =>
    dsimp only at ho ⊢
    unfold domainParent
    cases hr : reverseRange name with
    | none =>
      dsimp only
      rw [if_neg fun hn => ho ⟨trivial, hr, hn⟩]
      exact .pure
    | some r =>
      exact grants_parent hP
        (firstPresent anyParent.raw (attrs ["mnt-domains", "mnt-lower", "mnt-by"]))
        (by decide +kernel) _
  | set cls name raw =>
    dsimp only
    unfold namedParent
    cases beforeLastColon name.text with
    | none => exact .pure
    | some key =>
      have hfound : lookup (openDb owner stored) (parentClass cls key) key = .ok anyParent := by
        unfold parentClass
        split_ifs
        · rfl
        · rfl
        · cases cls <;> rfl
      dsimp only
      rw [hfound]
      exact grants_parent hP (firstPresent anyParent.raw (attrs ["mnt-lower", "mnt-by"]))
        (by decide +kernel) _
  | _ => exact .pure

theorem referenced_openDb (name : Text) {classes : List Text}
    (h : ∀ c ∈ classes, c ∈ attrs ["person", "role", "mntner", "organisation"]) :
    referenced (openDb owner stored) name classes = .ok none := by
  induction classes with
  | nil => rfl
  | cons c classes ih =>
    have hc : lookup (openDb owner stored) c name = .error .notFound := by
      have hobj : (openDb owner stored).object c name = .error .notFound := by
        have hirt : c ≠ lit "irt" := by
          rintro rfl
          exact absurd (h _ List.mem_cons_self) (by decide +kernel)
        unfold openDb
        dsimp only
        rw [if_neg hirt, if_pos (List.contains_iff_mem.2 (h c List.mem_cons_self))]
      rw [lookup, hobj]
    unfold referenced
    rw [hc]
    exact ih fun c hc => h c (List.mem_cons_of_mem _ hc)

theorem grants_newReferences (o : Object) (attr : Text) {classes : List Text}
    (h : ∀ c ∈ classes, c ∈ attrs ["person", "role", "mntner", "organisation"])
    (had names : List Text) : Grants (newReferences (openDb owner stored) cred anyCredential o attr
      classes had names) := by
  induction names generalizing had with
  | nil => exact .pure
  | cons name names ih =>
    unfold newReferences
    split_ifs
    · exact ih had
    · rw [referenced_openDb name h]
      exact ih _

theorem grants_ripeReferences (o : Object) :
    Grants (ripeReferences (openDb owner stored) cred anyCredential none o) := by
  have hattrs : ∀ refs : List (Text × List Text),
      (∀ r ∈ refs, ∀ c ∈ r.2, c ∈ attrs ["person", "role", "mntner", "organisation"]) →
      Grants (attrReferences (openDb owner stored) cred anyCredential none o refs) := by
    intro refs h
    induction refs with
    | nil => exact .pure
    | cons r refs ih =>
      refine Grants.bind (grants_newReferences o r.1 (h r List.mem_cons_self) _ _) ?_
      exact ih fun r hr => h r (List.mem_cons_of_mem _ hr)
  have hrefs := hattrs referenceAttrs (by decide +kernel)
  unfold ripeReferences
  dsimp only
  cases hnames : addedMntIrt none o with
  | nil => exact hrefs
  | cons n names => exact fun s => hrefs _

theorem grants_irrdRelated (hP : owner ≠ lit "P-MNT") {o : Object}
    (ho : ¬ RefusedOutright .irrd o) :
    Grants (irrdRelated (openDb owner stored) cred anyCredential o) := by
  have hroute : ∀ cls space p, p ≠ none →
      Grants (irrdRoute (openDb owner stored) cred anyCredential cls space p) := by
    intro cls space p hp
    cases p with
    | none => exact absurd rfl hp
    | some p => exact grants_parent hP (values anyParent (lit "mnt-by")) (by decide +kernel) _
  unfold RefusedOutright at ho
  simp only [not_or] at ho
  obtain ⟨-, -, ho⟩ := ho
  unfold irrdRelated
  cases o with
  | route t => exact hroute _ _ _ ho
  | route6 t => exact hroute _ _ _ ho
  | set cls name raw =>
    dsimp only
    cases ASN.parse (name.text.takeWhile (· != ':')) with
    | none => exact .pure
    | some as => exact grants_parent hP (values anyParent (lit "mnt-by")) (by decide +kernel) _
  | _ => exact .pure

/-- **A creation that is not refused outright is granted** in an open registry, whoever owns the
stored object. -/
theorem authorise_openDb {r : Rules} {o : Object} (hr : ¬ RefusedOutright r o)
    (hP : owner ≠ lit "P-MNT") (hne : ∃ n ∈ values o (lit "mnt-by"), n ≠ owner) :
    ∃ d, authorise (openDb owner stored) cred anyCredential r ⟨.create, some o⟩ = .ok d ∧
      d.ok = true := by
  have hraw : o.raw ≠ none := by
    intro hraw
    apply hr
    left
    rw [values, hraw, rawValues]
  have hgrants : Grants (match r with
      | .ripe => ripe (openDb owner stored) cred anyCredential .create o
      | .irrd => irrd (openDb owner stored) cred anyCredential .create o) := by
    cases r with
    | ripe =>
      refine Grants.bind (grants_mntners hne _ _) ?_
      exact Grants.bind (grants_ripeParent hP hr) (grants_ripeReferences o)
    | irrd =>
      have hself : ¬ (asMntner o).isSome = true := fun h => hr (.inr (.inl ⟨rfl, h⟩))
      unfold irrd
      dsimp only
      rw [if_neg fun h => hself h.2]
      exact Grants.bind (grants_mntners hne _ _) (grants_irrdRelated hP hr)
  obtain ⟨s, hs⟩ := hgrants []
  refine ⟨⟨true, s⟩, ?_, rfl⟩
  unfold authorise
  dsimp only
  rw [if_neg hraw]
  cases r <;> exact congrArg (Except.map _) hs

end OpenDb

section

variable {db : Database} {cred : Credential} {v : Verifier} {s s' : List Text}

theorem mntners_nil (what : Text) (self : Option Mntner) :
    mntners db cred v what [] self s ≠ .ok (true, s') := by
  intro h
  obtain ⟨_, _, -, hret⟩ := run_bind_eq_ok.1 h
  cases hret

theorem ripe_refused {o : Object} (h : RefusedOutright .ripe o) :
    ripe db cred v .create o s ≠ .ok (true, s') := by
  intro hrun
  obtain ⟨ok, s₁, hm, hrun⟩ := run_bind_eq_ok.1 hrun
  cases ok with
  | false => cases hrun
  | true =>
    obtain ⟨ok, s₂, hp, hrun⟩ := run_bind_eq_ok.1 hrun
    cases ok with
    | false => cases hrun
    | true =>
      rcases h with h | h | h
      · rw [h] at hm
        exact mntners_nil _ _ hm
      · cases h.1
      · cases o with
        | inetnum i =>
          obtain ⟨lo, hi, _, _, _⟩ := i
          obtain ⟨-, rfl | rfl⟩ := h
          · cases hp
          · cases lo <;> cases hp
        | inet6num i =>
          obtain ⟨_, _, _, _⟩ := i
          obtain ⟨-, rfl⟩ := h
          cases hp
        | route t | route6 t =>
          obtain ⟨_, _, _, _⟩ := t
          cases h
          cases hp
        | domain name raw =>
          change domainParent db cred v name s₁ = _ at hp
          rw [domainParent, h.2.1] at hp
          dsimp only at hp
          rw [if_pos h.2.2] at hp
          cases hp
        | _ => exact h

theorem irrd_refused {o : Object} (h : RefusedOutright .irrd o) :
    irrd db cred v .create o s ≠ .ok (true, s') := by
  intro hrun
  unfold irrd at hrun
  by_cases hself : (asMntner o).isSome = true
  · rw [if_pos ⟨rfl, hself⟩] at hrun
    cases hrun
  rw [if_neg fun h => hself h.2] at hrun
  obtain ⟨ok, s₁, hm, hrun⟩ := run_bind_eq_ok.1 hrun
  cases ok with
  | false => cases hrun
  | true =>
    rcases h with h | h | h
    · rw [h] at hm
      exact mntners_nil _ _ hm
    · exact hself h.2
    · cases o with
      | route t | route6 t =>
        obtain ⟨_, _, _, _⟩ := t
        cases h
        cases hrun
      | inetnum i | inet6num i | domain _ _ => cases h.1
      | _ => exact h

/-- **The updates of stored objects that need no consent of their maintainers**: by both registries'
rules, those stated as creations and not refused whatever the registry holds. For any other the
consent is there in every registry, whatever is presented. -/
theorem authorise_no_takeover_iff (r : Rules) (a : Action) (o : Object) :
    (∀ (db : Database) (cred : Credential) (v : Verifier) (stored : Object) (d : Decision),
      db.current o = .ok (some stored) → authorise db cred v r ⟨a, some o⟩ = .ok d →
      d.ok = true → Consent db cred v r a stored o) ↔ (a = .create → RefusedOutright r o) := by
  constructor
  · rintro h rfl
    by_contra hr
    -- the owner is a maintainer the submitted object does not begin with
    obtain ⟨owner, hP, hne, hitems⟩ : ∃ owner, owner ≠ lit "P-MNT" ∧
        (∃ n ∈ values o (lit "mnt-by"), n ≠ owner) ∧ listItems owner = [owner] := by
      obtain ⟨n, names, hn⟩ := List.exists_cons_of_ne_nil fun h => hr (.inl h)
      rw [hn]
      by_cases hA : n = lit "A-MNT"
      · exact ⟨lit "B-MNT", by decide, ⟨n, List.mem_cons_self, by rw [hA]; decide⟩,
          by decide +kernel⟩
      · exact ⟨lit "A-MNT", by decide, ⟨n, List.mem_cons_self, hA⟩, by decide +kernel⟩
    obtain ⟨d, hauth, hd⟩ : ∃ d, authorise (openDb owner (ownedBy owner o)) ⟨[], [], [], []⟩
        anyCredential r ⟨.create, some o⟩ = .ok d ∧ d.ok = true := authorise_openDb hr hP hne
    rcases h _ _ _ _ d rfl hauth hd with hc | ⟨-, hc, -⟩ | ⟨-, hc, -⟩
    · obtain ⟨n, hn, m, hm, _, _, a, ha, -⟩ := hc
      have hown : n = owner := List.mem_singleton.1 (hitems ▸ mem_values_ownedBy hn)
      cases hm
      rw [if_pos hown] at ha
      cases ha
    · cases hc
    · cases hc
  · intro ha db cred v stored d hcur hauth hd
    by_cases hcreate : a = .create
    · subst hcreate
      have hrefused := ha rfl
      unfold authorise at hauth
      obtain ⟨⟨ok, reasons⟩, hrun, rfl⟩ := map_eq_ok.1 hauth
      cases (hd : ok = true)
      dsimp only at hrun
      split_ifs at hrun
      · cases hrun
      · cases r with
        | ripe => exact absurd hrun (ripe_refused hrefused)
        | irrd => exact absurd hrun (irrd_refused hrefused)
    · exact authorise_consent hcreate hcur hauth hd

end

/-! ## A maintainer created again -/

/-- A maintainer with one password line. -/
def mntnerOf (name password : Text) : Object :=
  let attrs := [(lit "mntner", name), (lit "auth", lit "MD5-PW " ++ password), (lit "mnt-by", name)]
  .mntner ⟨name, [⟨.md5, password, lit "MD5-PW " ++ password⟩], some ⟨attrs, []⟩⟩

/-- A registry of two maintainers. -/
def heldDb : Database :=
  (MemDatabase.new [mntnerOf (lit "A-MNT") (lit "a"), mntnerOf (lit "B-MNT") (lit "b")]).database

/-- A verifier of passwords. -/
def passwordIs : Verifier := some fun a cred => .ok (a.value = cred.password)

def credentialOf (password : Text) : Credential := ⟨password, [], [], []⟩

/-- A stored maintainer created again: its new version's own password authorises the update, and no
maintainer of the stored one accepts it. -/
theorem storedMntner_taken_over :
    let stored := mntnerOf (lit "A-MNT") (lit "a")
    let o := mntnerOf (lit "A-MNT") (lit "b")
    let cred := credentialOf (lit "b")
    heldDb.current o = .ok (some stored) ∧
      ((authorise heldDb cred passwordIs .ripe ⟨.create, some o⟩).toOption.map Decision.ok) =
        some true ∧
      ¬ Consent heldDb cred passwordIs .ripe .create stored o := by
  refine ⟨rfl, by decide +kernel, ?_⟩
  rintro (⟨n, hn, m, hm, verify, hv, a, ha, hok⟩ | ⟨-, hc, -⟩ | ⟨-, hc, -⟩)
  · have hnames : values (mntnerOf (lit "A-MNT") (lit "a")) (lit "mnt-by") = [lit "A-MNT"] := by
      decide +kernel
    rw [hnames] at hn
    cases List.mem_singleton.1 hn
    have hauth : ((heldDb.mntner (lit "A-MNT")).toOption.join.map Mntner.auth) =
        some [⟨.md5, lit "a", lit "MD5-PW a"⟩] := by decide +kernel
    rw [hm] at hauth
    cases hv
    cases (Option.some.inj hauth : m.auth = _) ▸ ha with
    | head => exact absurd (Except.ok.inj hok) (by decide +kernel)
    | tail _ h => cases h
  · cases hc
  · cases hc

end Rpsl.Auth
