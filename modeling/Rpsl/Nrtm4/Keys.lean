import Rpsl.Nrtm4.Client

/-!
# The keys of the NRTMv4 client

`Client.notification`: which key a notification file is verified with, and how the client moves on
to the next one. A file is signed; it may announce the key that will sign later ones, and once a
file verifies with that key and not with the current one the client uses it alone.

Signatures and PEM are a parameter (`Scheme`). A PEM text and the key it parses to are always set
together, so the client holds them as one value (`Key`); `cur` is unset before the first `Sync`.
-/

namespace Rpsl.Nrtm4

/-- `ParsePublicKey`, `verifyJWS` and the decoding of a payload, over keys `K`, fetched bodies `B`
and payloads `P`. A payload decodes to the notification file and its `next_signing_key`, "" when it
has none; `parseNotification` refuses one that is not a key. -/
structure Scheme (K B P : Type) where
  parsePublicKey : String → Option K
  verifyJWS : B → K → Option P
  parseNotification : P → Option (Notification × String)
  announced : ∀ p n pem, parseNotification p = some (n, pem) → pem ≠ "" →
    (parsePublicKey pem).isSome = true

variable {K B P C O : Type}

/-- A key with the PEM text it was read from. -/
structure Key (s : Scheme K B P) where
  pem : String
  key : K
  parsed : s.parsePublicKey pem = some key

def Scheme.key? (s : Scheme K B P) (pem : String) : Option (Key s) :=
  match h : s.parsePublicKey pem with
  | none => none
  | some k => some ⟨pem, k, h⟩

/-- The keys of `state`. -/
structure Keys (s : Scheme K B P) where
  cur : Option (Key s)
  next : Option (Key s)

/-- `Client` with the keys of its state. -/
structure KeyedClient (s : Scheme K B P) (C : Type) where
  publicKey : String
  keys : Keys s
  client : Client C

/-- One `Sync`'s inputs: the clock, the body of the notification file, the fetches. -/
structure KeyedPoll (B O : Type) where
  now : Int
  body : Option B
  files : Files O

namespace KeyedClient

variable {s : Scheme K B P}

/-- The key a `Sync` verifies with first. -/
def current (c : KeyedClient s C) : Option (Key s) :=
  match c.keys.cur with
  | some k => some k
  | none => s.key? c.publicKey

/-- The keys once a body has verified, and its payload: with the current key, or with the announced
one, which is from then on the only key. -/
def verify (cur : Key s) (next : Option (Key s)) (b : B) : Option (Key s × Option (Key s) × P) :=
  match s.verifyJWS b cur.key with
  | some p => some (cur, next, p)
  | none =>
    match next with
    | none => none
    | some k => (s.verifyJWS b k.key).map fun p => (k, none, p)

/-- The next key after a file that announces `pem`. -/
def announce (cur : Key s) (next : Option (Key s)) (pem : String) : Option (Key s) :=
  if pem ≠ "" ∧ pem ≠ cur.pem then s.key? pem else next

/-- `Client.notification`: the keys it leaves, and the notification file if it accepts one. -/
def notification (c : KeyedClient s C) (body : Option B) : Keys s × Option Notification :=
  match c.current with
  | none => (c.keys, none)
  | some cur =>
    let keys := { c.keys with cur := some cur }
    match body with
    | none => (keys, none)
    | some b =>
      match verify cur keys.next b with
      | none => (keys, none)
      | some (cur, next, payload) =>
        match s.parseNotification payload with
        | none => (⟨some cur, next⟩, none)
        | some (n, pem) =>
          if !equalFold n.source c.client.database then (⟨some cur, next⟩, none)
          else (⟨some cur, announce cur next pem⟩, some n)

/-- `Client.Sync` with its keys. -/
def sync (S : Store C O) (c : KeyedClient s C) (p : KeyedPoll B O) :
    KeyedClient s C × Update × Option SyncErr :=
  let (keys, note) := c.notification p.body
  let (client, r) := c.client.sync S ⟨p.now, note, p.files⟩
  ({ c with keys, client }, r)

/-- A client that has not synced. -/
def new (s : Scheme K B P) (S : Store C O) (publicKey database : String) (maxAge : Int) :
    KeyedClient s C :=
  { publicKey, keys := ⟨none, none⟩, client := Client.new S database maxAge }

/-- The client after each `Sync` of a run. -/
def run (S : Store C O) (c : KeyedClient s C) : List (KeyedPoll B O) → KeyedClient s C
  | [] => c
  | p :: ps => run S (c.sync S p).1 ps

end KeyedClient

end Rpsl.Nrtm4
