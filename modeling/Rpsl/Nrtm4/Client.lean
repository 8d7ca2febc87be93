import Mathlib
import Rpsl.Lib.Unicode

/-!
# The NRTMv4 client

`resolve/nrtm4`: `Client.Sync` polls a server's Update Notification File, loads a snapshot when it
must and applies the deltas after it. A poll comes with what its fetches give: the notification
file once its signature verified and `parseNotification` accepted it (its rules on versions are
fields of `Notification`), and each snapshot or delta as its bytes decode. JSON and gzip are not
modelled; a file that fails there is a fetch that fails. The keys are added in `Nrtm4.Keys`.
Times are in nanoseconds, and a string is its bytes, a character each.

The object store is a parameter (`Store`): the protocol is the same over any.
-/

namespace Rpsl.Nrtm4

/-- `fileRef`: a snapshot or delta entry. `positive` reads a version, as an `int64`. -/
structure FileRef where
  version : Int
  url : String
  hash : String
  pos : 1 ≤ version
  lt : version < 2 ^ 63
deriving DecidableEq

structure FileID where
  delta : Bool
  version : Int
deriving DecidableEq

/-- The highest version of a snapshot and the deltas listed with it. -/
def highest (snapshot : FileRef) (deltas : List FileRef) : Int :=
  match deltas.getLast? with
  | none => snapshot.version
  | some d => max snapshot.version d.version

/-- `notification`, as `parseNotification` lets it through. -/
structure Notification where
  timestamp : Int
  source : String
  session : String
  version : Int
  snapshot : FileRef
  deltas : List FileRef
  contiguous : deltas.IsChain fun a b => b.version = a.version + 1
  version_eq : version = highest snapshot deltas

def Notification.refs (n : Notification) : List (FileID × FileRef) :=
  (⟨false, n.snapshot.version⟩, n.snapshot) :: n.deltas.map fun d => (⟨true, d.version⟩, d)

/-- `now.Sub(n.Timestamp)`, which is as near as a `time.Duration` gets. -/
def Notification.age (n : Notification) (now : Int) : Int :=
  max (-2 ^ 63) (min (2 ^ 63 - 1) (now - n.timestamp))

/-- Over 24 hours old. -/
def Notification.stale (n : Notification) (now : Int) : Bool :=
  decide (24 * 3600 * 10 ^ 9 < n.age now)

/-- The deltas listed do not run from `next` to the version of the notification file. -/
def Notification.missesDelta (n : Notification) (next : Int) : Bool :=
  match n.deltas.head?, n.deltas.getLast? with
  | some first, some last => decide (next < first.version) || decide (last.version < n.version)
  | _, _ => true

/-- `fileHeader`: a file's first record. -/
structure FileHeader where
  source : String
  session : String
  version : Int

/-- A snapshot or delta as fetched: the SHA-256 of its bytes, its header and its records (`none`:
one of them is malformed). -/
structure File (R : Type) where
  hash : String
  header : Option FileHeader
  records : Option (List R)

/-- `change`: a record of a delta. A `put` of no object is one that was discarded. -/
inductive Change (O : Type)
  | del (class_ pk : String)
  | put (o : Option O)

/-- What the fetches of one `Sync` give. -/
structure Files (O : Type) where
  snapshot : FileRef → Option (File (Option O))
  delta : FileRef → Option (File (Change O))

/-- The object store, `resolve.Corpus`: `put` and `delete` report whether they changed it. -/
structure Store (C O : Type) where
  empty : C
  put : C → O → C × Bool
  delete : C → (class_ pk source : String) → C × Bool
  len : C → Nat

inductive FileErr
  | fetch | hash | header | source | session | version | records | noChanges
deriving DecidableEq

inductive SyncErr
  | notification
  | maxAge (age : Int)
  | sessionRollback (session : String)
  | late (version held : Int)
  | misbehaving (version held : Int)
  | rewroteHistory (id : FileID)
  | snapshot (version : Int) (e : FileErr)
  | gap (held version : Int)
  | delta (version : Int) (e : FileErr)
deriving DecidableEq

/-- Why a snapshot is loaded. -/
inductive Reason
  | firstLoad
  | newSession (session : String)
  | failed (failures : Nat)
  | noReach (next : Int)
deriving DecidableEq

/-- `state`, without the keys. -/
structure State (C : Type) where
  session : String
  version : Int
  seen : AList (fun _ : FileID => FileRef)
  corpus : C
  stamp : Int
  stale : Bool

/-- `view`: what `Source` and `Status` answer from. -/
structure View (C : Type) where
  src : C
  session : String
  version : Int
  timestamp : Int
  stale : Bool
  objects : Nat

structure Client (C : Type) where
  database : String
  maxAge : Int
  st : State C
  failures : Nat
  view : Option (View C)

structure Update where
  snapshot : Bool := false
  reason : Option Reason := none
  from_ : Int
  to_ : Int := 0
  deltas : Nat := 0
  added : Nat := 0
  deleted : Nat := 0
  discarded : Nat := 0
  stale : Bool := false
deriving DecidableEq

/-- One `Sync`'s inputs: the clock, the verified notification file, the fetches. -/
structure Poll (O : Type) where
  now : Int
  note : Option Notification
  files : Files O

/-- `v + 1` on an `int64`. -/
def succ64 (v : Int) : Int := Int.bmod (v + 1) (2 ^ 64)

section
variable {C O : Type}

/-- `strings.EqualFold`. -/
def equalFold (s t : String) : Bool := Lib.equalFold s.toList t.toList

/-- `Client.fileHeader`. -/
def fileHeader (h : Option FileHeader) (n : Notification) (version : Int) : Except FileErr Unit :=
  match h with
  | none => .error .header
  | some h =>
    if !equalFold h.source n.source then .error .source
    else if h.session ≠ n.session then .error .session
    else if h.version ≠ version then .error .version
    else .ok ()

/-- A snapshot's records into the store, counting those put and those left out. -/
def putAll (S : Store C O) : List (Option O) → C × Nat × Nat → C × Nat × Nat
  | [], acc => acc
  | none :: rs, (corpus, added, discarded) => putAll S rs (corpus, added, discarded + 1)
  | some o :: rs, (corpus, added, discarded) =>
    match S.put corpus o with
    | (corpus, true) => putAll S rs (corpus, added + 1, discarded)
    | (corpus, false) => putAll S rs (corpus, added, discarded + 1)

/-- `Client.loadSnapshot`: the new store, and how many objects it took and left out. -/
def loadSnapshot (S : Store C O) (fs : Files O) (n : Notification) :
    Except FileErr (C × Nat × Nat) :=
  match fs.snapshot n.snapshot with
  | none => .error .fetch
  | some f => do
    fileHeader f.header n n.snapshot.version
    match f.records with
    | none => .error .records
    | some rs =>
      if f.hash = n.snapshot.hash then .ok (putAll S rs (S.empty, 0, 0)) else .error .hash

/-- A delta's changes, in order: objects added, deleted and left out. -/
def applyChanges (S : Store C O) (database : String) :
    List (Change O) → C × Nat × Nat × Nat → C × Nat × Nat × Nat
  | [], acc => acc
  | .del class_ pk :: chs, (corpus, added, deleted, discarded) =>
    match S.delete corpus class_ pk database with
    | (corpus, held) =>
      applyChanges S database chs (corpus, added, deleted + held.toNat, discarded)
  | .put none :: chs, (corpus, added, deleted, discarded) =>
    applyChanges S database chs (corpus, added, deleted, discarded + 1)
  | .put (some o) :: chs, (corpus, added, deleted, discarded) =>
    match S.put corpus o with
    | (corpus, true) => applyChanges S database chs (corpus, added + 1, deleted, discarded)
    | (corpus, false) => applyChanges S database chs (corpus, added, deleted, discarded + 1)

/-- `Client.applyDelta`: the file is checked whole before a change is applied. -/
def applyDelta (S : Store C O) (fs : Files O) (database : String) (n : Notification) (d : FileRef)
    (corpus : C) : Except FileErr (C × Nat × Nat × Nat) :=
  match fs.delta d with
  | none => .error .fetch
  | some f =>
    if f.hash ≠ d.hash then .error .hash
    else do
      fileHeader f.header n d.version
      match f.records with
      | none => .error .records
      | some [] => .error .noChanges
      | some chs => .ok (applyChanges S database chs (corpus, 0, 0, 0))

namespace Client

def older (c : Client C) (n : Notification) : SyncErr :=
  if n.version = c.st.version - 1 then .late n.version c.st.version
  else .misbehaving n.version c.st.version

/-- The switch of `Sync`: why it must load a snapshot, if it must. -/
def reason (c : Client C) (n : Notification) : Except SyncErr (Option Reason) :=
  let next := succ64 c.st.version
  if c.st.version = 0 then .ok (some .firstLoad)
  else if n.session ≠ c.st.session then .ok (some (.newSession n.session))
  else if 3 ≤ c.failures then .ok (some (.failed c.failures))
  else if n.version < c.st.version then .error (c.older n)
  else if next ≤ n.version ∧ n.missesDelta next then .ok (some (.noReach next))
  else .ok none

/-- `Client.history`: the first file of the notification whose hash has changed. -/
def history (c : Client C) (n : Notification) : Option FileID :=
  if n.session ≠ c.st.session then none
  else (n.refs.find? fun r => (c.st.seen.lookup r.1).any fun prev => prev.hash ≠ r.2.hash).map (·.1)

def remember (seen : AList (fun _ : FileID => FileRef)) (n : Notification) :
    AList (fun _ : FileID => FileRef) :=
  n.refs.foldl (fun seen r => seen.insert r.1 r.2) seen

/-- What `Sync` checks before it fetches a snapshot or delta: the notification file's age, a new
session's time, the version and the hashes. -/
def verdict (c : Client C) (now : Int) (n : Notification) : Except SyncErr (Option Reason) :=
  if 0 < c.maxAge ∧ c.maxAge < n.age now then .error (.maxAge (n.age now))
  else if c.st.version ≠ 0 ∧ n.session ≠ c.st.session ∧ n.timestamp < c.st.stamp then
    .error (.sessionRollback n.session)
  else
    match c.reason n with
    | .error e => .error e
    | .ok r =>
      match c.history n with
      | some id => .error (.rewroteHistory id)
      | none => .ok r

/-- `Sync` with a reason: the state starts again from the snapshot. -/
def reload (S : Store C O) (c : Client C) (fs : Files O) (n : Notification) (u : Update) :
    Option Reason → Except FileErr (Client C × Update)
  | none => .ok (c, u)
  | some r => do
    let (corpus, added, discarded) ← loadSnapshot S fs n
    .ok ({ c with
            st := { c.st with
              session := n.session, version := n.snapshot.version, corpus, seen := ∅ }
            failures := 0 },
         { u with reason := some r, snapshot := true, added, discarded })

/-- The loop over the deltas: the state and the counts as far as it got, and what stopped it. -/
def deltaLoop (S : Store C O) (fs : Files O) (n : Notification) :
    List FileRef → Client C → Update → Client C × Update × Option SyncErr
  | [], c, u => (c, u, none)
  | d :: ds, c, u =>
    if d.version ≤ c.st.version then deltaLoop S fs n ds c u
    else if d.version ≠ succ64 c.st.version then
      ({ c with failures := c.failures + 1 }, u, some (.gap c.st.version d.version))
    else
      match applyDelta S fs c.database n d c.st.corpus with
      | .error e => ({ c with failures := c.failures + 1 }, u, some (.delta d.version e))
      | .ok (corpus, added, deleted, discarded) =>
        deltaLoop S fs n ds { c with st := { c.st with version := d.version, corpus } }
          { u with
            deltas := u.deltas + 1
            added := u.added + added
            deleted := u.deleted + deleted
            discarded := u.discarded + discarded }

def publish (S : Store C O) (c : Client C) (changed : Bool) : Client C :=
  if c.st.version = 0 then c
  else
    let v : View C :=
      { src := match c.view with
          | some v => if changed then c.st.corpus else v.src
          | none => c.st.corpus
        session := c.st.session
        version := c.st.version
        timestamp := c.st.stamp
        stale := c.st.stale
        objects := S.len c.st.corpus }
    { c with view := some v }

/-- The rest of `Sync` after the snapshot: remember the notification file, apply the deltas and
publish what was reached. -/
def catchUp (S : Store C O) (fs : Files O) (n : Notification) (c : Client C) (u : Update) :
    Client C × Update × Option SyncErr :=
  let c := { c with st := { c.st with
    seen := remember c.st.seen n, stamp := n.timestamp, stale := u.stale } }
  match deltaLoop S fs n n.deltas c u with
  | (c, u, derr) =>
    let c := if derr.isNone then { c with failures := 0 } else c
    (c.publish S (u.snapshot || 0 < u.deltas), { u with to_ := c.st.version }, derr)

def sync (S : Store C O) (c : Client C) (p : Poll O) : Client C × Update × Option SyncErr :=
  let u : Update := { from_ := c.st.version }
  match p.note with
  | none => (c, u, some .notification)
  | some n =>
    let u := { u with stale := n.stale p.now }
    match c.verdict p.now n with
    | .error e => (c, u, some e)
    | .ok r =>
      match c.reload S p.files n u r with
      | .error e => (c, { u with reason := r }, some (.snapshot n.snapshot.version e))
      | .ok (c, u) => catchUp S p.files n c u

/-- A client that has not synced. -/
def new (S : Store C O) (database : String) (maxAge : Int) : Client C :=
  { database, maxAge
    st := { session := "", version := 0, seen := ∅, corpus := S.empty, stamp := 0, stale := false }
    failures := 0
    view := none }

/-- The client after each `Sync` of a run. -/
def run (S : Store C O) (c : Client C) : List (Poll O) → Client C
  | [] => c
  | p :: ps => run S (c.sync S p).1 ps

end Client

end

end Rpsl.Nrtm4
