import Rpsl.Lib.Outcome
import Rpsl.Nrtm4.Client

/-!
# What one `Sync` does

The checks a snapshot or delta passes, as relations (`SnapshotHas`, `DeltaHas`): they do not depend
on the mirror. `loadSnapshot` and `applyDelta` succeed exactly on these, and `Client.sync_cases`
lists what a `Sync` can do: refuse, fail to reload, or catch up from the state it held or from the
snapshot.
-/

namespace Rpsl.Nrtm4

open Lib

variable {C O : Type}

/-- The fetch of the delta `d` passes the checks of `applyDelta`, with the changes `chs`. -/
structure DeltaHas (fs : Files O) (n : Notification) (d : FileRef) (chs : List (Change O)) :
    Prop where
  file : ∃ f, fs.delta d = some f ∧ f.hash = d.hash ∧
    fileHeader f.header n d.version = .ok () ∧ f.records = some chs
  ne : chs ≠ []

/-- The fetch of the snapshot passes the checks of `loadSnapshot`, with the records `rs`. -/
def SnapshotHas (fs : Files O) (n : Notification) (rs : List (Option O)) : Prop :=
  ∃ f, fs.snapshot n.snapshot = some f ∧ fileHeader f.header n n.snapshot.version = .ok () ∧
    f.records = some rs ∧ f.hash = n.snapshot.hash

def DeltaOk (fs : Files O) (n : Notification) (d : FileRef) : Prop := ∃ chs, DeltaHas fs n d chs

def SnapshotOk (fs : Files O) (n : Notification) : Prop := ∃ rs, SnapshotHas fs n rs

theorem applyDelta_eq_ok {S : Store C O} {fs : Files O} {n : Notification} {d : FileRef}
    {database : String} {corpus : C} {r : C × Nat × Nat × Nat} :
    applyDelta S fs database n d corpus = .ok r ↔
      ∃ chs, DeltaHas fs n d chs ∧ r = applyChanges S database chs (corpus, 0, 0, 0) := by
  refine ⟨fun h => ?_, fun ⟨chs, ⟨⟨f, hf, hh, hd, hr⟩, hne⟩, he⟩ => ?_⟩
  · unfold applyDelta at h
    split at h
    · cases h
    · rename_i f hf
      split_ifs at h with hh
      obtain ⟨_, hd, h⟩ := bind_eq_ok.1 h
      split at h
      · cases h
      · cases h
      · rename_i chs hne hr
        exact ⟨chs, ⟨⟨f, hf, not_not.1 hh, hd, hr⟩, fun he => hne he⟩, (Except.ok.inj h).symm⟩
  · cases chs with
    | nil => exact absurd rfl hne
    | cons ch chs => simp [applyDelta, hf, hh, hd, hr, he, bind, Except.bind]

theorem loadSnapshot_eq_ok {S : Store C O} {fs : Files O} {n : Notification}
    {r : C × Nat × Nat} :
    loadSnapshot S fs n = .ok r ↔
      ∃ rs, SnapshotHas fs n rs ∧ r = putAll S rs (S.empty, 0, 0) := by
  refine ⟨fun h => ?_, fun ⟨rs, ⟨f, hf, hd, hr, hh⟩, he⟩ => ?_⟩
  · unfold loadSnapshot at h
    split at h
    · cases h
    · rename_i f hf
      obtain ⟨_, hd, h⟩ := bind_eq_ok.1 h
      split at h
      · cases h
      · rename_i rs hr
        split_ifs at h with hh
        exact ⟨rs, ⟨f, hf, hd, hr, hh⟩, (Except.ok.inj h).symm⟩
  · simp [loadSnapshot, hf, hd, hr, hh, he, bind, Except.bind]

theorem succ64_eq {v : Int} (h0 : 0 ≤ v) (h : v + 1 < 2 ^ 63) : succ64 v = v + 1 := by
  rw [succ64, Int.bmod_eq_of_le] <;> omega

namespace Client

variable (S : Store C O) {fs : Files O} {n : Notification} {c : Client C} (u : Update)

theorem deltaLoop_skip {d : FileRef} (ds : List FileRef) (h : d.version ≤ c.st.version) :
    deltaLoop S fs n (d :: ds) c u = deltaLoop S fs n ds c u := by
  rw [deltaLoop, if_pos h]

theorem deltaLoop_stop {d : FileRef} (ds : List FileRef) (h0 : 0 ≤ c.st.version)
    (hlt : c.st.version < d.version) (h : d.version ≠ c.st.version + 1 ∨ ¬ DeltaOk fs n d) :
    ∃ e, deltaLoop S fs n (d :: ds) c u = ({ c with failures := c.failures + 1 }, u, some e) := by
  have hs : succ64 c.st.version = c.st.version + 1 := succ64_eq h0 (by have := d.lt; omega)
  rw [deltaLoop, if_neg (by omega), hs]
  by_cases hv : d.version = c.st.version + 1
  · rw [if_neg (not_not.2 hv)]
    cases ha : applyDelta S fs c.database n d c.st.corpus with
    | error e => exact ⟨_, rfl⟩
    | ok r =>
      obtain ⟨chs, hchs, -⟩ := applyDelta_eq_ok.1 ha
      exact absurd ⟨chs, hchs⟩ (h.resolve_left (not_not.2 hv))
  · exact ⟨_, if_pos hv⟩

theorem deltaLoop_next {d : FileRef} (ds : List FileRef) {chs : List (Change O)}
    (h0 : 0 ≤ c.st.version) (hv : d.version = c.st.version + 1) (h : DeltaHas fs n d chs) :
    ∃ u', deltaLoop S fs n (d :: ds) c u = deltaLoop S fs n ds
      { c with st := { c.st with
          version := d.version
          corpus := (applyChanges S c.database chs (c.st.corpus, 0, 0, 0)).1 } } u' := by
  have hs : succ64 c.st.version = c.st.version + 1 := succ64_eq h0 (by have := d.lt; omega)
  have ha : applyDelta S fs c.database n d c.st.corpus = _ := applyDelta_eq_ok.2 ⟨chs, h, rfl⟩
  rw [deltaLoop, if_neg (by omega), hs, if_neg (not_not.2 hv), ha]
  exact ⟨_, rfl⟩

theorem verdict_eq_ok {c : Client C} {now : Int} {n : Notification} {r : Option Reason}
    (h : c.verdict now n = .ok r) :
    c.reason n = .ok r ∧ c.history n = none ∧
      (c.st.version ≠ 0 → n.session ≠ c.st.session → c.st.stamp ≤ n.timestamp) := by
  unfold verdict at h
  split_ifs at h with hage hsess
  split at h
  · cases h
  · rename_i r' hr
    split at h
    · cases h
    · rename_i hh
      cases h
      exact ⟨hr, hh, fun h0 hs => not_lt.1 fun hlt => hsess ⟨h0, hs, hlt⟩⟩

theorem reason_eq_none {c : Client C} {n : Notification} (h : c.reason n = .ok none) :
    c.st.version ≠ 0 ∧ n.session = c.st.session ∧ c.st.version ≤ n.version := by
  unfold reason at h
  split_ifs at h with h0 hs hf hv
  · cases h
  · cases h
  · cases h
  · exact ⟨h0, not_not.1 hs, not_lt.1 hv⟩

/-- The client a reload leaves: the snapshot's state, before its deltas. -/
def restart (c : Client C) (n : Notification) (corpus : C) : Client C :=
  { c with
    st := { c.st with session := n.session, version := n.snapshot.version, corpus, seen := ∅ }
    failures := 0 }

theorem sync_cases (c : Client C) (p : Poll O) :
    ((c.sync S p).1 = c ∧ (c.sync S p).2.2 ≠ none ∧
      ∀ n r, p.note = some n → c.verdict p.now n = .ok r → r ≠ none ∧ ¬ SnapshotOk p.files n) ∨
    (∃ n u, p.note = some n ∧ c.verdict p.now n = .ok none ∧ u.snapshot = false ∧ u.deltas = 0 ∧
      c.sync S p = catchUp S p.files n c u) ∨
    ∃ n r rs u, p.note = some n ∧ c.verdict p.now n = .ok (some r) ∧ SnapshotHas p.files n rs ∧
      u.snapshot = true ∧
      c.sync S p = catchUp S p.files n (c.restart n (putAll S rs (S.empty, 0, 0)).1) u := by
  cases hn : p.note with
  | none => exact .inl (by simp [sync, hn])
  | some n =>
    cases ha : c.verdict p.now n with
    | error e =>
      refine .inl ⟨by simp [sync, hn, ha], by simp [sync, hn, ha], fun n' r hn' hr => ?_⟩
      cases hn'
      cases ha.symm.trans hr
    | ok r =>
      cases r with
      | none =>
        refine .inr (.inl
          ⟨n, { from_ := c.st.version, stale := n.stale p.now }, rfl, ha, rfl, rfl, ?_⟩)
        simp only [sync, hn, ha, reload]
      | some r =>
        cases hl : loadSnapshot S p.files n with
        | error e =>
          refine .inl ⟨by simp [sync, hn, ha, reload, hl, bind, Except.bind],
            by simp [sync, hn, ha, reload, hl, bind, Except.bind], fun n' r' hn' hr' => ?_⟩
          cases hn'
          cases ha.symm.trans hr'
          refine ⟨by simp, fun ⟨rs, hrs⟩ => ?_⟩
          cases hl.symm.trans (loadSnapshot_eq_ok.2 ⟨rs, hrs, rfl⟩)
        | ok x =>
          obtain ⟨rs, hrs, rfl⟩ := loadSnapshot_eq_ok.1 hl
          exact .inr (.inr ⟨n, r, rs, _, rfl, ha, hrs, rfl,
            by simp only [sync, hn, ha, reload, hl, bind, Except.bind]; rfl⟩)

end Client

end Rpsl.Nrtm4
