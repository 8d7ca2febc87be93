import Mathlib

/-!
# The caching source

`resolve/cache.go`: a map from lookup keys to entries and, beside it, a list of the keys in order
of use. The two are changed separately by four paths (a miss, the refill of an expired entry, the
removal after an error, an eviction), so the list's elements keep their identity here
(`CacheElem.id`, the pointer `*list.Element`): a key may come to have two elements, of which the
entry knows one.

A lookup is modelled as completed: `fill` has returned, and its answer (`Fill`) and the time it
took are arguments. `CacheFault` is what stops the program: the dereference of an entry the map
does not hold, or a loop that never ends.
-/

namespace Rpsl

/-- What `fill` leaves in an entry: a value, `ErrNotFound` (which is an answer as well), a
context's error or any other. -/
inductive Fill (V : Type)
  | value (v : V)
  | notFound
  | contextErr
  | failed

def Fill.isContextErr {V : Type} : Fill V → Bool
  | .contextErr => true
  | _ => false

/-- `e.err != nil && !errors.Is(e.err, ErrNotFound)`: not remembered as an answer. -/
def Fill.transient {V : Type} : Fill V → Bool
  | .contextErr | .failed => true
  | _ => false

/-- An element of the order list. -/
structure CacheElem (K : Type) where
  id : Nat
  key : K
deriving DecidableEq

/-- `cacheEntry`, its `ready` channel closed; `ptr` is the entry's identity. -/
structure CacheEntry (V : Type) where
  ptr : Nat
  elem : Option Nat
  at_ : Int
  res : Fill V

inductive CacheFault
  | nilEntry
  | spin
deriving DecidableEq

/-- `Cache`, with the clock `time.Now` reads and the next identity to give out. -/
structure Cache (K V : Type) where
  ttl : Int
  maxEntries : Int
  entries : AList (fun _ : K => CacheEntry V)
  order : List (CacheElem K)
  next : Nat
  hits : Nat
  misses : Nat
  now : Int

namespace Cache

variable {K V : Type}

/-- `NewCache`, with the cap its `MaxEntries` field is set to. -/
def new (ttl maxEntries : Int) : Cache K V :=
  { ttl, maxEntries, entries := ∅, order := [], next := 0, hits := 0, misses := 0, now := 0 }

/-- The cap on entries: `DefaultCacheEntries` for zero, none when negative. -/
def cap (maxEntries : Int) : Option Nat :=
  if maxEntries < 0 then none
  else if maxEntries = 0 then some (1 <<< 16)
  else some maxEntries.toNat

def fresh (c : Cache K V) (e : CacheEntry V) : Bool :=
  decide (c.ttl ≤ 0) || decide (c.now - e.at_ < c.ttl)

/-- `list.Remove`. -/
def removeElem (i : Nat) (l : List (CacheElem K)) : List (CacheElem K) :=
  l.filter (fun x => x.id ≠ i)

def moveToBack (i : Nat) (l : List (CacheElem K)) : List (CacheElem K) :=
  removeElem i l ++ l.filter (fun x => x.id = i)

def touch (c : Cache K V) (e : CacheEntry V) : Cache K V :=
  match e.elem with
  | none => c
  | some i => { c with order := moveToBack i c.order }

variable [DecidableEq K]

def remove (c : Cache K V) (key : K) (e : CacheEntry V) : Cache K V :=
  { c with
    entries := c.entries.erase key
    order := match e.elem with
      | none => c.order
      | some i => removeElem i c.order }

/-- The loop of `Cache.evict` under the cap `m`; a turn takes one element off the list. -/
def evictLoop (m : Nat) : Nat → Cache K V → Except CacheFault (Cache K V)
  | 0, c => if m < c.order.length then .error .spin else .ok c
  | fuel + 1, c =>
    if m < c.order.length then
      match c.order.head?.bind fun oldest =>
        (c.entries.lookup oldest.key).map (remove c oldest.key) with
      | none => .error .nilEntry
      | some c' => evictLoop m fuel c'
    else .ok c

def evict (c : Cache K V) : Except CacheFault (Cache K V) :=
  match cap c.maxEntries with
  | none => .ok c
  | some m => evictLoop m c.order.length c

/-- `Cache.lookup`'s miss, up to `evict`: a new entry under the key, its element at the back. -/
def miss (c : Cache K V) (key : K) : Cache K V :=
  { c with
    misses := c.misses + 1
    entries := c.entries.insert key ⟨c.next, some c.next, c.now, .failed⟩
    order := c.order ++ [⟨c.next, key⟩]
    next := c.next + 1 }

/-- The end of a miss: `fill` took `dt` and left `res` in the entry `ptr`, which goes again when
the lookup failed. Both show in the map only while it still holds that entry. -/
def filled (c : Cache K V) (key : K) (ptr : Nat) (res : Fill V) (dt : Nat) : Cache K V :=
  let c := { c with now := c.now + dt }
  match c.entries.lookup key with
  | none => c
  | some e =>
    if e.ptr = ptr then
      if res.transient then remove c key e
      else { c with entries := c.entries.insert key { e with at_ := c.now, res } }
    else c

/-- `Cache.lookup`, with what `fill` would leave and how long it would take. -/
def lookup (c : Cache K V) (key : K) (res : Fill V) (dt : Nat) :
    Except CacheFault (Cache K V) :=
  match (c.entries.lookup key).filter (fresh c) with
  | some e =>
    -- `continue`, back to the same entry
    if e.res.isContextErr then .error .spin
    else .ok (touch { c with hits := c.hits + 1 } e)
  | none => (evict (miss c key)).map fun c' => filled c' key c.next res dt

def purge (c : Cache K V) : Cache K V := { c with entries := ∅, order := [] }

end Cache

/-- What a caller or the clock does to a cache. -/
inductive CacheOp (K V : Type)
  | lookup (key : K) (res : Fill V) (dt : Nat)
  | advance (dt : Nat)
  | purge

namespace Cache

variable {K V : Type} [DecidableEq K]

def step (c : Cache K V) : CacheOp K V → Except CacheFault (Cache K V)
  | .lookup key res dt => lookup c key res dt
  | .advance dt => .ok { c with now := c.now + dt }
  | .purge => .ok (purge c)

def run (c : Cache K V) : List (CacheOp K V) → Except CacheFault (Cache K V)
  | [] => .ok c
  | op :: ops => (step c op).bind fun c' => run c' ops

end Cache

end Rpsl
