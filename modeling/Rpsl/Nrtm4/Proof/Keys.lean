import Rpsl.Nrtm4.Keys
import Rpsl.Nrtm4.Proof.NoRollback

/-!
# What a refused notification file does to the keys

`notification` takes over the key a file announces before `Sync` judges the file's age, session,
version and history. So a file refused there still sets the next key (`next_of_refused`), and an old
file that is replayed replaces it.
-/

namespace Rpsl.Nrtm4

variable {K B P C O : Type} {s : Scheme K B P}

theorem Key.ext_pem {k l : Key s} (h : k.pem = l.pem) : k = l := by
  obtain ⟨pem, key, hk⟩ := k
  obtain ⟨pem', key', hl⟩ := l
  subst h
  obtain rfl := Option.some.inj (hk.symm.trans hl)
  rfl

theorem Scheme.key?_pem {pem : String} {k : Key s} (h : s.key? pem = some k) : k.pem = pem := by
  unfold Scheme.key? at h
  split at h
  · cases h
  · cases h
    rfl

theorem Scheme.isSome_key? {pem : String} (h : (s.parsePublicKey pem).isSome = true) :
    (s.key? pem).isSome = true := by
  unfold Scheme.key?
  split
  · rename_i hnone
    rw [hnone] at h
    exact h
  · rfl

namespace KeyedClient

theorem announce_eq_iff {cur : Key s} {next : Option (Key s)} {pem : String}
    (hpem : pem ≠ "" → (s.parsePublicKey pem).isSome = true) :
    announce cur next pem = next ↔ pem = "" ∨ pem = cur.pem ∨ next.map Key.pem = some pem := by
  unfold announce
  split
  · rename_i h
    obtain ⟨k, hk⟩ := Option.isSome_iff_exists.1 (Scheme.isSome_key? (hpem h.1))
    have hkpem := Scheme.key?_pem hk
    constructor
    · intro heq
      refine .inr (.inr ?_)
      rw [← heq, hk, Option.map_some, hkpem]
    · intro hkept
      rcases hkept with h0 | hc | hn
      · exact absurd h0 h.1
      · exact absurd hc h.2
      · obtain ⟨l, rfl, hl⟩ := Option.map_eq_some_iff.1 hn
        rw [hk, Key.ext_pem (hkpem.trans hl.symm)]
  · rename_i h
    have hkept : pem = "" ∨ pem = cur.pem := by
      by_contra hne
      exact h (not_or.1 hne)
    constructor
    · intro _
      rcases hkept with h0 | hc
      · exact .inl h0
      · exact .inr (.inl hc)
    · intro _
      rfl

/-- The poll gives a file that is signed with the current key, of the client's database, and that
`Sync` refuses for its age, its session's time, its version or a rewritten history. -/
structure Refused (c : KeyedClient s C) (p : KeyedPoll B O) (k : Key s) (n : Notification)
    (pem : String) (e : SyncErr) : Prop where
  current : c.current = some k
  signed : ∃ b payload, p.body = some b ∧ s.verifyJWS b k.key = some payload ∧
    s.parseNotification payload = some (n, pem)
  source : equalFold n.source c.client.database = true
  refused : c.client.verdict p.now n = .error e

section

variable {c : KeyedClient s C} {p : KeyedPoll B O} {k : Key s} {n : Notification} {pem : String}
  {e : SyncErr}

theorem Refused.notification_eq (h : Refused c p k n pem e) :
    c.notification p.body = (⟨some k, announce k c.keys.next pem⟩, some n) := by
  obtain ⟨b, payload, hb, hverify, hparse⟩ := h.signed
  have hkeys : verify k c.keys.next b = some (k, c.keys.next, payload) := by
    unfold verify
    rw [hverify]
  unfold notification
  rw [h.current, hb]
  dsimp only
  rw [hkeys]
  dsimp only
  rw [hparse]
  dsimp only
  rw [h.source]
  rfl

theorem Refused.sync_eq (S : Store C O) (h : Refused c p k n pem e) :
    (c.sync S p).1.keys = ⟨some k, announce k c.keys.next pem⟩ ∧ (c.sync S p).1.client = c.client ∧
      (c.sync S p).2.2 = some e := by
  unfold sync
  rw [h.notification_eq]
  unfold Client.sync
  dsimp only
  rw [h.refused]
  exact ⟨rfl, rfl, rfl⟩

theorem Refused.announced (h : Refused c p k n pem e) (hne : pem ≠ "") :
    (s.parsePublicKey pem).isSome = true := by
  obtain ⟨b, payload, -, -, hparse⟩ := h.signed
  exact s.announced payload n pem hparse hne

/-- **A refused file keeps the next key only when it announces nothing else**: the next key after a
`Sync` that refused a file signed with the current key is the one before if and only if the file
announces no key, the current one or the one that was next already. -/
theorem next_of_refused (S : Store C O) (h : Refused c p k n pem e) :
    (c.sync S p).2.2 = some e ∧
      ((c.sync S p).1.keys.next = c.keys.next ↔
        pem = "" ∨ pem = k.pem ∨ c.keys.next.map Key.pem = some pem) := by
  obtain ⟨hkeys, -, herr⟩ := h.sync_eq S
  rw [hkeys]
  exact ⟨herr, announce_eq_iff h.announced⟩

end

/-! ## A replayed file -/

/-- Keys are their PEM texts; a body is its signer, the file and the key it announces. -/
def plain : Scheme String (String × Notification × String) (Notification × String) where
  parsePublicKey pem := some pem
  verifyJWS b k := if b.1 = k then some b.2 else none
  parseNotification p := some p
  announced _ _ _ _ _ := rfl

open Client (late served counting)

/-- The file of version 1, signed with the key "key", announces `pem`. -/
def lateFile (pem : String) : KeyedPoll (String × Notification × String) Unit :=
  ⟨0, some ("key", late, pem), served⟩

/-- A client that saw the file of version 1 announce the key "old" and then a later one announce the
key "new". -/
def rotating : KeyedClient plain Nat :=
  run counting (new plain counting "key" "TEST" 0)
    [lateFile "old", ⟨0, some ("key", Client.current, "new"), served⟩]

theorem refused_lateFile (pem : String) :
    Refused rotating (lateFile pem) ⟨"key", "key", rfl⟩ late pem (.late 1 2) where
  current := by
    have hpem : rotating.current.map Key.pem = some "key" := by decide +kernel
    obtain ⟨k, hk, hpem⟩ := Option.map_eq_some_iff.1 hpem
    rw [hk]
    exact congrArg some (Key.ext_pem hpem)
  signed := ⟨_, _, rfl, rfl, rfl⟩
  source := by decide +kernel
  refused := by
    show rotating.client.verdict 0 late = .error (.late 1 2)
    decide +kernel

/-- A late file that announces the key that is next keeps it. -/
theorem lateFile_keeps_next :
    (rotating.sync counting (lateFile "new")).1.keys.next = rotating.keys.next :=
  (next_of_refused counting (refused_lateFile "new")).2.2 (.inr (.inr (by decide +kernel)))

/-- The file of version 1 served again is refused as a late one, and the key it announced is next
again. -/
theorem replay_replaces_next :
    Refused rotating (lateFile "old") ⟨"key", "key", rfl⟩ late "old" (.late 1 2) ∧
      rotating.keys.next.map Key.pem = some "new" ∧
      (rotating.sync counting (lateFile "old")).1.keys.next.map Key.pem = some "old" :=
  ⟨refused_lateFile "old", by decide +kernel, by decide +kernel⟩

end KeyedClient

end Rpsl.Nrtm4
