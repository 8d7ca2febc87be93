import Rpsl.Nrtm4.Proof.Sync

/-!
# When a mirror keeps its version

A `Sync` moves the version forward delta by delta, except that a reload puts it at the snapshot's
version, which is compared with nothing. The deltas listed may lead back to the version held, and
`w ≤ version` after the loop says exactly that each delta up to `w` is listed and checks out
(`le_deltaLoop_iff`). So a `Sync` loses ground iff it reloads a snapshot from which the deltas do
not lead back (`Client.le_sync_iff`).
-/

namespace Rpsl.Nrtm4

variable {C O : Type}

/-- Each delta after version `v` up to `w` is among `ds` and checks out. -/
def Leads (fs : Files O) (n : Notification) (ds : List FileRef) (v w : Int) : Prop :=
  ∀ x, v < x → x ≤ w → ∃ d ∈ ds, d.version = x ∧ DeltaOk fs n d

namespace Client

variable {S : Store C O} {fs : Files O} {n : Notification}

variable {c : Client C}

theorem le_deltaLoop_iff {ds : List FileRef} (hds : ds.Pairwise fun a b => a.version < b.version)
    (h0 : 0 ≤ c.st.version) (u : Update) (w : Int) :
    w ≤ (deltaLoop S fs n ds c u).1.st.version ↔ Leads fs n ds c.st.version w := by
  induction ds generalizing c u with
  | nil =>
    refine ⟨fun h x hx hw => absurd (hx.trans_le hw) (not_lt.2 h), fun h => ?_⟩
    by_contra hlt
    obtain ⟨d, hd, -⟩ := h w (not_le.1 hlt) le_rfl
    cases hd
  | cons d ds ih =>
    obtain ⟨hd, hds⟩ := List.pairwise_cons.1 hds
    have tail : ∀ {x}, d.version < x → ((∃ d' ∈ d :: ds, d'.version = x ∧ DeltaOk fs n d') ↔
        ∃ d' ∈ ds, d'.version = x ∧ DeltaOk fs n d') := by
      intro x hx
      simp [hx.ne]
    by_cases hle : d.version ≤ c.st.version
    · rw [deltaLoop_skip S u ds hle, ih hds h0]
      exact forall_congr' fun x => imp_congr_right fun hx => imp_congr_right fun _ =>
        (tail (hle.trans_lt hx)).symm
    by_cases hok : d.version = c.st.version + 1 ∧ DeltaOk fs n d
    · obtain ⟨hv, chs, hchs⟩ := hok
      obtain ⟨u', he⟩ := deltaLoop_next S u ds h0 hv hchs
      rw [he, ih hds (show (0 : Int) ≤ d.version by omega)]
      refine forall_congr' fun x => ⟨fun h hx hw => ?_, fun h hx hw => ?_⟩
      · by_cases hxd : x = d.version
        · exact ⟨d, List.mem_cons_self, hxd.symm, chs, hchs⟩
        · have hlt : d.version < x := by omega
          exact (tail hlt).2 (h hlt hw)
      · exact (tail hx).1 (h (by simp only at hx; omega) hw)
    · -- the loop stops here, and no later delta has the version it needs
      obtain ⟨e, he⟩ := deltaLoop_stop S u ds h0 (not_le.1 hle) (not_and_or.1 hok)
      rw [he]
      refine ⟨fun h x hx hw => absurd (hx.trans_le hw) (not_lt.2 h), fun h => ?_⟩
      by_contra hlt
      obtain ⟨d', hd', hv, hok'⟩ := h (c.st.version + 1) (by omega) (by simp only at hlt; omega)
      rcases List.mem_cons.1 hd' with rfl | hm
      · exact hok ⟨hv, hok'⟩
      · have := hd d' hm
        omega

/-- The version `Status` reports; zero before the first load. -/
def published (c : Client C) : Int := (c.view.map (·.version)).getD 0

structure Published (c : Client C) : Prop where
  nonneg : 0 ≤ c.st.version
  eq : c.published = c.st.version

/-- A reload regains the version held: the deltas lead back to it from the snapshot. -/
def Regains (c : Client C) (p : Poll O) : Prop :=
  ∀ n r, p.note = some n → c.verdict p.now n = .ok (some r) → SnapshotOk p.files n →
    Leads p.files n n.deltas n.snapshot.version c.st.version

theorem st_publish (c : Client C) (b : Bool) : (c.publish S b).st = c.st := by
  unfold publish
  split <;> rfl

theorem published_publish (h : c.st.version ≠ 0) (b : Bool) :
    (c.publish S b).published = c.st.version := by
  simp [publish, h, published]

theorem deltas_pairwise (n : Notification) :
    n.deltas.Pairwise fun a b => a.version < b.version := by
  have h : n.deltas.IsChain fun a b => a.version < b.version :=
    n.contiguous.imp fun a b hab => by omega
  exact List.isChain_iff_pairwise.1 h

theorem version_catchUp (c : Client C) (u : Update) :
    (catchUp S fs n c u).1.st.version = (deltaLoop S fs n n.deltas
      { c with st := { c.st with seen := remember c.st.seen n, stamp := n.timestamp,
                                 stale := u.stale } } u).1.st.version := by
  simp only [catchUp, st_publish]
  split <;> rfl

theorem le_catchUp_iff (h0 : 0 ≤ c.st.version) (u : Update) (w : Int) :
    w ≤ (catchUp S fs n c u).1.st.version ↔ Leads fs n n.deltas c.st.version w := by
  rw [version_catchUp, le_deltaLoop_iff (deltas_pairwise n) (by exact h0)]

theorem le_catchUp (h0 : 0 ≤ c.st.version) (u : Update) :
    c.st.version ≤ (catchUp S fs n c u).1.st.version :=
  (le_catchUp_iff h0 u _).2 fun _ hx hw => absurd (hx.trans_le hw) (lt_irrefl _)

theorem published_catchUp (h0 : 0 < c.st.version) (u : Update) :
    (catchUp S fs n c u).1.Published := by
  have h : c.st.version ≤ (catchUp S fs n c u).1.st.version := le_catchUp h0.le u
  refine ⟨by omega, ?_⟩
  have hne : (catchUp S fs n c u).1.st.version ≠ 0 := by omega
  simp only [catchUp, st_publish] at hne ⊢
  exact published_publish hne _

theorem published_sync (h : c.Published) (p : Poll O) :
    (c.sync S p).1.Published := by
  rcases sync_cases S c p with ⟨he, -⟩ | ⟨n, u, -, ha, -, -, he⟩ | ⟨n, r, rs, u, -, -, -, -, he⟩
  · rw [he]
    exact h
  · rw [he]
    have := h.nonneg
    exact published_catchUp (by have := (reason_eq_none (verdict_eq_ok ha).1).1; omega) u
  · rw [he]
    exact published_catchUp (Int.lt_of_lt_of_le zero_lt_one n.snapshot.pos) u

theorem le_sync_iff (h : c.Published) (p : Poll O) :
    c.st.version ≤ (c.sync S p).1.st.version ↔ c.Regains p := by
  rcases sync_cases S c p with ⟨he, -, hno⟩ | ⟨n, u, hn, ha, -, -, he⟩ |
    ⟨n, r, rs, u, hn, ha, hrs, -, he⟩
  · rw [he]
    exact iff_of_true le_rfl fun n r hn hr hok => absurd hok (hno n _ hn hr).2
  · rw [he]
    refine iff_of_true (le_catchUp h.nonneg u) fun n' r hn' hr => ?_
    cases hn.symm.trans hn'
    cases ha.symm.trans hr
  · have h0 : (0 : Int) ≤ (c.restart n (putAll S rs (S.empty, 0, 0)).1).st.version :=
      (zero_le_one).trans n.snapshot.pos
    rw [he, le_catchUp_iff h0]
    refine ⟨fun hl n' r' hn' _ _ => ?_, fun hr => hr n r hn ha ⟨rs, hrs⟩⟩
    cases hn.symm.trans hn'
    exact hl

/-! ## Runs -/

/-- The version held and the version published do not fall. -/
def Keeps (S : Store C O) (c : Client C) (p : Poll O) : Prop :=
  c.st.version ≤ (c.sync S p).1.st.version ∧ c.published ≤ (c.sync S p).1.published

/-- `P` of the client and the poll at every `Sync` of a run. -/
def AtEach (S : Store C O) (P : Client C → Poll O → Prop) : Client C → List (Poll O) → Prop
  | _, [] => True
  | c, p :: ps => P c p ∧ AtEach S P (c.sync S p).1 ps

theorem keeps_iff (h : c.Published) (p : Poll O) :
    c.Keeps S p ↔ c.Regains p := by
  rw [Keeps, h.eq, (published_sync h p).eq, and_self, le_sync_iff h]

theorem atEach_keeps_iff (h : c.Published) (ps : List (Poll O)) :
    AtEach S (Keeps S) c ps ↔ AtEach S Regains c ps := by
  induction ps generalizing c with
  | nil => exact Iff.rfl
  | cons p ps ih => exact and_congr (keeps_iff h p) (ih (published_sync h p))

theorem published_new (database : String) (maxAge : Int) :
    (new S database maxAge).Published := ⟨le_rfl, rfl⟩

/-- **A mirror never loses ground exactly while its reloads regain it**: over any polls, the
version held and published falls at no `Sync` iff, at each that reloads a snapshot which checks
out, the deltas from that snapshot to the version held are listed and check out. -/
theorem no_rollback_iff (S : Store C O) (database : String) (maxAge : Int)
    (ps : List (Poll O)) :
    AtEach S (Keeps S) (new S database maxAge) ps ↔
      AtEach S Regains (new S database maxAge) ps :=
  atEach_keeps_iff (published_new database maxAge) ps

/-! ## A late notification file after three failures -/

def ref (v : Int) (pos : 1 ≤ v := by decide) (lt : v < 2 ^ 63 := by decide) : FileRef :=
  { version := v, url := "f", hash := "h", pos, lt }

/-- The session's notification file at version 1, with its snapshot alone. -/
def late : Notification :=
  { timestamp := 0, source := "TEST", session := "s", version := 1, snapshot := ref 1, deltas := []
    contiguous := .nil, version_eq := rfl }

/-- The session's notification file at version 3. -/
def current : Notification :=
  { timestamp := 0, source := "TEST", session := "s", version := 3, snapshot := ref 1
    deltas := [ref 2, ref 3]
    contiguous := by simp [ref], version_eq := rfl }

/-- The snapshot and delta 2 are served as they are, delta 3 never is. -/
def served : Files Unit where
  snapshot d := some { hash := "h", header := some ⟨"TEST", "s", d.version⟩, records := some [] }
  delta d :=
    if d.version = 2 then
      some { hash := "h", header := some ⟨"TEST", "s", 2⟩, records := some [.put (some ())] }
    else none

/-- A store that counts what is put into it. -/
def counting : Store Nat Unit where
  empty := 0
  put n _ := (n + 1, true)
  delete n _ _ _ := (n, false)
  len n := n

/-- Three polls that fail on delta 3, then a cached notification file. -/
def lateRun : List (Poll Unit) :=
  [⟨0, some current, served⟩, ⟨0, some current, served⟩, ⟨0, some current, served⟩,
    ⟨0, some late, served⟩]

/-- The mirror holds version 2 when it reads the older file, and version 1 afterwards: with three
failures behind it, `Sync` does not get to the case that refuses one. -/
theorem rollback_after_failures :
    (run counting (new counting "TEST" 0) (lateRun.take 3)).st.version = 2 ∧
      (run counting (new counting "TEST" 0) lateRun).st.version = 1 ∧
      ¬ AtEach counting (Keeps counting) (new counting "TEST" 0) lateRun := by
  have h2 : (run counting (new counting "TEST" 0) (lateRun.take 3)).st.version = 2 := by
    decide +kernel
  have h1 : (run counting (new counting "TEST" 0) lateRun).st.version = 1 := by decide +kernel
  refine ⟨h2, h1, fun ⟨_, _, _, ⟨hle, _⟩, _⟩ => ?_⟩
  have : (2 : Int) ≤ 1 := h2 ▸ h1 ▸ hle
  omega

end Client

end Rpsl.Nrtm4
