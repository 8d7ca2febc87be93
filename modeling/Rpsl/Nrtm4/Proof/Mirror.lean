import Rpsl.Nrtm4.Proof.NoRollback

/-!
# A mirror holds the server's database

The server keeps a database per session and version. Each delta file that checks out leads to the
database of the next version, and what does not check out leaves the client's alone, so that a
client holds, after any run of polls, the database of the version it is at, however it got there,
and shows that one.
-/

namespace Rpsl.Nrtm4.Client

variable {C O D : Type}

/-- `abs` is what a store `S` holds, as a store `T`: whether an object was put, or was there to be
deleted, is left to each. -/
structure Simulates (S : Store C O) (T : Store D O) (abs : C → D) : Prop where
  empty : abs S.empty = T.empty
  put : ∀ c o, abs (S.put c o).1 = (T.put (abs c) o).1
  delete : ∀ c class_ pk source,
    abs (S.delete c class_ pk source).1 = (T.delete (abs c) class_ pk source).1

/-- The files of a poll are those of a server with the database `db session version`, kept in `T`:
a snapshot lists the objects of its version, a delta the changes from the version before. -/
structure Honest (T : Store D O) (database : String) (db : String → Int → D) (p : Poll O) :
    Prop where
  snapshot : ∀ n rs, p.note = some n → SnapshotHas p.files n rs →
    (putAll T rs (T.empty, 0, 0)).1 = db n.session n.snapshot.version
  delta : ∀ n d chs, p.note = some n → d ∈ n.deltas → DeltaHas p.files n d chs →
    (applyChanges T database chs (db n.session (d.version - 1), 0, 0, 0)).1 =
      db n.session d.version

variable {S : Store C O} {T : Store D O} {abs : C → D} {database : String}
  {db : String → Int → D}

theorem Simulates.putAll (h : Simulates S T abs) (rs : List (Option O)) (c : C) (a b a' b' : Nat) :
    abs (putAll S rs (c, a, b)).1 = (Nrtm4.putAll T rs (abs c, a', b')).1 := by
  induction rs generalizing c a b a' b' with
  | nil => rfl
  | cons r rs ih =>
    cases r with
    | none => exact ih ..
    | some o =>
      have hput := h.put c o
      revert hput
      simp only [Nrtm4.putAll]
      rcases S.put c o with ⟨c', _ | _⟩ <;> rcases T.put (abs c) o with ⟨d', _ | _⟩ <;>
        rintro rfl <;> exact ih ..

theorem Simulates.applyChanges (h : Simulates S T abs) (database : String)
    (chs : List (Change O)) (c : C) (a b e a' b' e' : Nat) :
    abs (applyChanges S database chs (c, a, b, e)).1 =
      (Nrtm4.applyChanges T database chs (abs c, a', b', e')).1 := by
  induction chs generalizing c a b e a' b' e' with
  | nil => rfl
  | cons ch chs ih =>
    rcases ch with ⟨class_, pk⟩ | _ | o
    · simp only [Nrtm4.applyChanges]
      rw [← h.delete]
      exact ih ..
    · exact ih ..
    · have hput := h.put c o
      revert hput
      simp only [Nrtm4.applyChanges]
      rcases S.put c o with ⟨c', _ | _⟩ <;> rcases T.put (abs c) o with ⟨d', _ | _⟩ <;>
        rintro rfl <;> exact ih ..

section
variable (abs database db)

structure Mirrors (c : Client C) : Prop where
  nonneg : 0 ≤ c.st.version
  database : c.database = database
  held : c.st.version ≠ 0 → abs c.st.corpus = db c.st.session c.st.version
  shown : ∀ v, c.view = some v → abs v.src = db v.session v.version ∧
    v.session = c.st.session ∧ v.version = c.st.version

/-- What the loop over the deltas does to a client that holds the database of its version. -/
structure Replayed (c : Client C) (u : Update) (c' : Client C) (u' : Update) : Prop where
  held : abs c'.st.corpus = db c.st.session c'.st.version
  session : c'.st.session = c.st.session
  le : c.st.version ≤ c'.st.version
  view : c'.view = c.view
  database : c'.database = c.database
  snapshot : u'.snapshot = u.snapshot
  deltas : u.deltas ≤ u'.deltas
  same : u'.deltas = u.deltas → c'.st.version = c.st.version

end

variable {p : Poll O} {n : Notification} {c : Client C}

theorem deltaLoop_replayed (hS : Simulates S T abs) (hp : Honest T database db p)
    (hn : p.note = some n) {ds : List FileRef} (hds : ∀ d ∈ ds, d ∈ n.deltas)
    (hpos : 0 < c.st.version) (hsession : n.session = c.st.session) (hdb : c.database = database)
    (hheld : abs c.st.corpus = db c.st.session c.st.version) (u : Update) :
    Replayed abs db c u (deltaLoop S p.files n ds c u).1 (deltaLoop S p.files n ds c u).2.1 := by
  induction ds generalizing c u with
  | nil => exact ⟨hheld, rfl, le_rfl, rfl, rfl, rfl, le_rfl, fun _ => rfl⟩
  | cons d ds ih =>
    obtain ⟨hd, hds⟩ := List.forall_mem_cons.1 hds
    rw [deltaLoop]
    split_ifs with hle hgap
    · exact ih hds hpos hsession hdb hheld u
    · exact ⟨hheld, rfl, le_rfl, rfl, rfl, rfl, le_rfl, fun _ => rfl⟩
    cases ha : applyDelta S p.files c.database n d c.st.corpus with
    | error e => exact ⟨hheld, rfl, le_rfl, rfl, rfl, rfl, le_rfl, fun _ => rfl⟩
    | ok r =>
      have hnext : d.version = c.st.version + 1 := by
        have := d.lt
        rw [not_not.1 hgap]
        exact succ64_eq hpos.le (by omega)
      obtain ⟨chs, hchs, rfl⟩ := applyDelta_eq_ok.1 ha
      have hstep : abs (applyChanges S database chs (c.st.corpus, 0, 0, 0)).1 =
          db n.session d.version := by
        rw [hS.applyChanges database chs c.st.corpus 0 0 0 0 0 0, hheld, ← hsession,
          ← hp.delta n d chs hn hd hchs, hnext, Int.add_sub_cancel]
      rw [← hdb] at hstep
      generalize applyChanges S c.database chs (c.st.corpus, 0, 0, 0) = r at hstep ⊢
      obtain ⟨corpus, a, b, e⟩ := r
      have hih := ih (c := { c with st := { c.st with version := d.version, corpus := corpus } })
        hds (by show 0 < d.version; omega) hsession hdb (by rw [← hsession]; exact hstep)
        { u with deltas := u.deltas + 1, added := u.added + a, deleted := u.deleted + b,
                 discarded := u.discarded + e }
      refine ⟨hih.held, hih.session, ?_, hih.view, hih.database, hih.snapshot, ?_, fun h => ?_⟩
      · exact le_trans (show c.st.version ≤ d.version by omega) hih.le
      · exact le_trans (Nat.le_succ _) hih.deltas
      · exact absurd (h ▸ hih.deltas) (Nat.not_succ_le_self _)

theorem publish_mirrors (hpos : 0 < c.st.version) (hdb : c.database = database)
    (hheld : abs c.st.corpus = db c.st.session c.st.version) {changed : Bool}
    (hview : changed = false → ∀ v, c.view = some v →
      abs v.src = db c.st.session c.st.version) :
    Mirrors abs database db (c.publish S changed) := by
  rw [publish, if_neg hpos.ne']
  refine ⟨hpos.le, hdb, fun _ => hheld, ?_⟩
  rintro _ ⟨⟩
  refine ⟨?_, rfl, rfl⟩
  cases hv : c.view with
  | none => exact hheld
  | some v =>
    cases changed with
    | true => exact hheld
    | false => exact hview rfl v hv

theorem catchUp_mirrors (hS : Simulates S T abs) (hp : Honest T database db p)
    (hn : p.note = some n) (hpos : 0 < c.st.version) (hsession : n.session = c.st.session)
    (hdb : c.database = database) (hheld : abs c.st.corpus = db c.st.session c.st.version)
    (u : Update) (hview : u.snapshot = false → u.deltas = 0 ∧ ∀ v, c.view = some v →
      abs v.src = db c.st.session c.st.version) :
    Mirrors abs database db (catchUp S p.files n c u).1 := by
  have hloop := deltaLoop_replayed hS hp hn
    (c := { c with st := { c.st with
      seen := remember c.st.seen n, stamp := n.timestamp, stale := u.stale } })
    (fun _ h => h) hpos hsession hdb hheld u
  unfold catchUp
  dsimp only at hloop ⊢
  revert hloop
  rcases deltaLoop S p.files n n.deltas _ u with ⟨c', u', derr⟩
  intro hloop
  -- without a snapshot and without a delta, the version is the one the view was made at
  have hkept (hch : (u'.snapshot || decide (0 < u'.deltas)) = false) (v : View C)
      (hv : c'.view = some v) : abs v.src = db c'.st.session c'.st.version := by
    simp only [Bool.or_eq_false_iff, decide_eq_false_iff_not, Nat.not_lt, Nat.le_zero] at hch
    obtain ⟨hd, hold⟩ := hview (hloop.snapshot ▸ hch.1)
    rw [hloop.session, hloop.same (hch.2.trans hd.symm)]
    exact hold v (hloop.view ▸ hv)
  have hpub (k : Nat) : Mirrors abs database db
      (publish S { c' with failures := k } (u'.snapshot || decide (0 < u'.deltas))) :=
    publish_mirrors (c := { c' with failures := k }) (hpos.trans_le hloop.le)
      (hloop.database.trans hdb) (by rw [hloop.session]; exact hloop.held) hkept
  cases derr with
  | none => exact hpub 0
  | some e => exact hpub c'.failures

theorem sync_mirrors (hS : Simulates S T abs) (hp : Honest T database db p)
    (hc : Mirrors abs database db c) : Mirrors abs database db (c.sync S p).1 := by
  rcases sync_cases S c p with ⟨h, _⟩ | ⟨n, u, hn, hok, _, hd, h⟩ | ⟨n, r, rs, u, hn, _, hrs, hu, h⟩
  · rwa [h]
  · obtain ⟨h0, hsession, _⟩ := reason_eq_none (verdict_eq_ok hok).1
    have hpos : 0 < c.st.version := lt_of_le_of_ne hc.nonneg h0.symm
    rw [h]
    refine catchUp_mirrors hS hp hn hpos hsession hc.database (hc.held h0) u
      fun _ => ⟨hd, fun v hv => ?_⟩
    obtain ⟨habs, hs, hver⟩ := hc.shown v hv
    rw [habs, hs, hver]
  · rw [h]
    refine catchUp_mirrors (c := c.restart n _) hS hp hn ?_ rfl hc.database ?_ u fun hu' => ?_
    · exact lt_of_lt_of_le Int.zero_lt_one n.snapshot.pos
    · show abs (putAll S rs (S.empty, 0, 0)).1 = db n.session n.snapshot.version
      rw [hS.putAll rs S.empty 0 0 0 0, hS.empty, hp.snapshot n rs hn hrs]
    · exact absurd (hu.symm.trans hu') Bool.noConfusion

/-- **A mirror holds the server's database.** After any number of polls, with failed fetches,
refused files, gaps and reloads among them, the client holds and shows the database of exactly the
version it says it is at. -/
theorem run_mirrors (hS : Simulates S T abs) (maxAge : Int) {ps : List (Poll O)}
    (hps : ∀ p ∈ ps, Honest T database db p) :
    let c := run S (new S database maxAge) ps
    (c.st.version ≠ 0 → abs c.st.corpus = db c.st.session c.st.version) ∧
    ∀ v, c.view = some v → abs v.src = db v.session v.version ∧
      v.session = c.st.session ∧ v.version = c.st.version := by
  have hnew : Mirrors abs database db (new S database maxAge) :=
    ⟨le_rfl, rfl, fun h => absurd rfl h, fun _ h => nomatch h⟩
  have hrun (c : Client C) (hc : Mirrors abs database db c) :
      Mirrors abs database db (run S c ps) := by
    induction ps generalizing c with
    | nil => exact hc
    | cons p ps ih =>
      obtain ⟨hp, hps⟩ := List.forall_mem_cons.1 hps
      exact ih hps _ (sync_mirrors hS hp hc)
  exact ⟨(hrun _ hnew).held, (hrun _ hnew).shown⟩

theorem served_honest {now : Int} {n : Notification} (hsnap : n.snapshot.version = 1) :
    Honest counting "TEST" (fun _ v => (v - 1).toNat) ⟨now, some n, served⟩ := by
  refine ⟨?_, ?_⟩
  · rintro _ rs ⟨⟩ ⟨f, ⟨⟩, _, ⟨⟩, _⟩
    simp [putAll, counting, hsnap]
  · rintro _ d chs ⟨⟩ _ ⟨⟨f, hf, _, _, hchs⟩, _⟩
    simp only [served] at hf
    split_ifs at hf with hd
    cases hf
    cases hchs
    simp [applyChanges, counting, hd]

/-- Failing deltas, a forced reload and an older notification file, and the mirror still holds what
it says: one object at version 2, none when it is back at version 1. -/
theorem lateRun_mirrors :
    let c := run counting (new counting "TEST" 0) lateRun
    c.st.version = 1 ∧ c.st.corpus = 0 := by
  have hv : (run counting (new counting "TEST" 0) lateRun).st.version = 1 := by decide +kernel
  have hhonest : ∀ p ∈ lateRun, Honest counting "TEST" (fun _ v => (v - 1).toNat) p := by
    simp only [lateRun, List.forall_mem_cons, List.not_mem_nil, false_imp_iff, implies_true,
      and_true]
    exact ⟨served_honest rfl, served_honest rfl, served_honest rfl, served_honest rfl⟩
  have hsim : Simulates counting counting id := ⟨rfl, fun _ _ => rfl, fun _ _ _ _ => rfl⟩
  refine ⟨hv, ?_⟩
  have h := (run_mirrors hsim 0 hhonest).1 (by rw [hv]; decide)
  rw [hv] at h
  exact h

end Rpsl.Nrtm4.Client
