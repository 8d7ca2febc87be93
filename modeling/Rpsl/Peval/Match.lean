import Rpsl.Lib.Memo
import Rpsl.Peval.Policy
import Rpsl.Resolve.ExpandMore

/-!
# Matching a peering

`resolve/peval/match.go`: whether a peering covers a BGP session. The answer has three values: a
peering that names a router the session does not give, or that is a regexp, is undecided.

The functions are given what they look up (`Lookups`). A `call` looks each set and inet-rtr up once
and keeps it: `Evaluator.call`. Asked without keeping anything, the same functions say what the
Source's answers come to: `Evaluator.asked`.
-/

namespace Rpsl.Peval

open Text Resolve Rpsl.Policy

/-- `Session`; a router not given is none. -/
structure Session where
  localAS : ASN
  peer : ASN
  localRtr : Option Addr
  peerRtr : Option Addr
  af : AddrFamily

inductive Verdict
  | noMatch
  | covers
  | undecided
deriving DecidableEq, Repr

/-- The reasons matching gives for an undecided term. -/
inductive Why
  | peerRouter
  | localRouter
  | peeringRegexp
  | unknownPeering
deriving DecidableEq, Repr

def Why.text : Why → Text
  | .peerRouter => lit "peer router not given"
  | .localRouter => lit "local router not given"
  | .peeringRegexp => lit "peering regexp"
  | .unknownPeering => lit "unknown peering"

/-- A verdict, and why it is undecided. -/
abbrev Decision := Verdict × Option Why

/-- What matching looks up: the members of as-sets, the peerings and routers of peering-sets and
rtr-sets (none where there is no such set), and the addresses of an inet-rtr. -/
structure Lookups (m : Type → Type) where
  inASSet : SetName → ASN → m Bool
  peeringSet : SetName → m (Option (List Peering))
  routerSet : SetName → m (Option (List RouterID))
  rtrAddrs : Text → m (List Addr)

namespace Lookups

variable {m : Type → Type} [Monad m] (q : Lookups m)

def asExpr (peer : ASN) : ASExpr → m Bool
  | .nil => pure false
  | .num a => pure (a == peer)
  | .setRef n => q.inASSet n peer
  | .template t => q.inASSet (t.instantiate peer) peer
  | .binary op l r => do
    let l ← asExpr peer l
    let r ← asExpr peer r
    match op with
    | .or => pure (l || r)
    | .and => pure (l && r)
    | .except => pure (l && !r)

def rtrHas (name : Text) (a : Addr) : m Bool := do
  let addrs ← q.rtrAddrs name
  pure (addrs.contains a)

/-- `router`'s loop over the routers of an rtr-set. -/
def anyRouter (a : Addr) : List RouterID → m Bool
  | [] => pure false
  | .addr x :: ids => if x.unmap = a then pure true else anyRouter a ids
  | .name n :: ids => do
    if ← q.rtrHas n a then pure true else anyRouter a ids

def router (a : Addr) : RouterExpr → m Bool
  | .addr x => pure (x.unmap == a.unmap)
  | .name n => q.rtrHas n a.unmap
  | .setRef n => do
    match ← q.routerSet n with
    | none => pure false
    | some ids => q.anyRouter a.unmap ids
  | .binary op l r => do
    let l ← router a l
    let r ← router a r
    match op with
    | .and => pure (l && r)
    | .or => pure (l || r)
    | .except => pure (l && !r)

/-- `peering`'s loop over the two sides of an AS peering. -/
def sides : List (Option RouterExpr × Option Addr × Why) → Decision → m Decision
  | [], v => pure v
  | (none, _, _) :: rest, v => sides rest v
  | (some _, none, why) :: rest, v =>
    sides rest (if v.1 ≠ .undecided then (.undecided, some why) else v)
  | (some e, some a, _) :: rest, v => do
    if ← q.router a e then sides rest v else pure (.noMatch, none)

variable (s : Session)

/-- `peering`, of a peering other than a set. -/
def peeringAS (as : ASExpr) (router atRouter : Option RouterExpr) : m Decision := do
  if ← q.asExpr s.peer as then
    q.sides [(router, s.peerRtr, .peerRouter), (atRouter, s.localRtr, .localRouter)]
      (.covers, none)
  else pure (.noMatch, none)

/-- `peering`'s loop over the peerings of a set. -/
def members : List Peering → Decision → m Decision
  | [], v => pure v
  | .setRef _ :: ps, v => members ps v
  | .as_ as router atRouter :: ps, v => do
    let (qv, why) ← q.peeringAS s as router atRouter
    match qv with
    | .covers => pure (.covers, none)
    | .undecided => members ps (if v.1 = .noMatch then (.undecided, why) else v)
    | .noMatch => members ps v
  | .regexp _ _ :: ps, v =>
    members ps (if v.1 = .noMatch then (.undecided, some .peeringRegexp) else v)

/-- `peering`; none is the nil interface. -/
def peering : Option Peering → m Decision
  | some (.as_ as router atRouter) => q.peeringAS s as router atRouter
  | some (.setRef n) => do
    match ← q.peeringSet n with
    | none => pure (.noMatch, none)
    | some ps => q.members s ps (.noMatch, none)
  | some (.regexp _ _) => pure (.undecided, some .peeringRegexp)
  | none => pure (.undecided, some .unknownPeering)

end Lookups

/-! ## A call -/

/-- `Evaluator`: its Source, and the Expander whose limits each call takes. -/
structure Evaluator (E : Type) where
  src : PolicySource E
  expander : Expander E

structure ASMembers where
  set : List ASN
  any : Bool

/-- What a `call` has fetched and what it found missing. -/
structure Call where
  asns : List (SetName × ASMembers)
  prngs : List (SetName × Option (List Peering))
  rtrSets : List (SetName × Option (List RouterID))
  rtrs : List (Text × List Addr)
  missing : List SetRef
  noRtr : List Text

/-- `newCall`. -/
def Call.new : Call := ⟨[], [], [], [], [], []⟩

abbrev CallM (E : Type) := StateT Call (Except (ExpandError E))

/-- `note`, of several sets. -/
def note {E : Type} (refs : List SetRef) : CallM E Unit :=
  fun c => .ok ((), { c with missing := refs.foldl (fun out r => out.insert r) c.missing })

/-- An inet-rtr not found is recorded. -/
def noteRtr {E : Type} (key : Text) : CallM E Unit :=
  fun c => .ok ((), { c with noRtr := c.noRtr.insert (Lib.toLower key) })

namespace Evaluator

variable {E : Type} (parseAddr : Text → Option (Addr × Text)) (ev : Evaluator E) (s : Session)

/-- The Expander of `newCall` for peerings and routers: nothing is excluded. -/
def matcher : Expander E :=
  { ev.expander with src := ev.src.toSource, afi := s.af.afi, peer := s.peer, exclude := ⟨[], []⟩ }

/-- What an expansion gives a call: a set not found gives `none_`, with its name noted; otherwise
the result and the sets it misses. -/
def expanded {α β : Type} (n : SetName) (x : Except (ExpandError E) α) (none_ : β) (some_ : α → β)
    (missing : α → List SetRef) : Except (ExpandError E) (β × List SetRef) :=
  match x with
  | .ok a => .ok (some_ a, missing a)
  | .error err => if err.isNotFound then .ok (none_, [n.ref]) else .error err

/-- The members `inASSet` finds in an as-set; one that reaches AS-ANY holds every AS. -/
def askAS (n : SetName) : Except (ExpandError E) (ASMembers × List SetRef) :=
  match (ev.matcher s).expandAS n.ref false with
  | .error (.anySet _) => .ok (⟨[], true⟩, [])
  | x => expanded n x ⟨[], false⟩ (fun r => ⟨r.1.asns, false⟩) fun r => r.1.missing

/-- What `peeringSet` finds. -/
def askPeerings (n : SetName) : Except (ExpandError E) (Option (List Peering) × List SetRef) :=
  expanded n ((ev.matcher s).expandPeerings n.ref) none (fun ps => some ps.list) (·.missing)

/-- What `routerSet` finds. -/
def askRouters (n : SetName) : Except (ExpandError E) (Option (List RouterID) × List SetRef) :=
  expanded n ((ev.matcher s).expandRouters parseAddr n.ref) none (fun rs => some rs.list)
    (·.missing)

/-- What `rtrHas` finds of an inet-rtr, none where there is no such router. -/
def askRtr (name : Text) : Except (ExpandError E) (Option (List Addr)) :=
  match ev.src.inetRtr name [] with
  | .error .notFound | .ok none => .ok none
  | .error (.failed err) => .error (.source (.failed err))
  | .ok (some ir) => .ok (some (ir.ifaddr.map Addr.unmap ++ ir.interface.map Addr.unmap))

/-- What is asked for the first time is noted where it misses something. -/
def fetch {β : Type} (x : Except (ExpandError E) (β × List SetRef)) : CallM E β :=
  match x with
  | .error err => fun _ => .error err
  | .ok (b, refs) => do
    note refs
    pure b

def fetchRtr (name : Text) : CallM E (List Addr) :=
  match ev.askRtr name with
  | .error err => fun _ => .error err
  | .ok (some addrs) => pure addrs
  | .ok none => do
    noteRtr (rtrKey name)
    pure []

/-- The lookups of a `call`, each made once. An inet-rtr is kept by its name in upper case, and
asked for as it is first written. -/
def call : Lookups (CallM E) where
  inASSet n peer := if n.isAny then pure true else do
    let ms ← Lib.memo (fun c => c.asns.lookup n) (fetch (ev.askAS s n))
      fun ms c => { c with asns := (n, ms) :: c.asns }
    pure (ms.any || ms.set.contains peer)
  peeringSet n := Lib.memo (fun c => c.prngs.lookup n) (fetch (ev.askPeerings s n))
    fun ps c => { c with prngs := (n, ps) :: c.prngs }
  routerSet n := Lib.memo (fun c => c.rtrSets.lookup n) (fetch (ev.askRouters parseAddr s n))
    fun rs c => { c with rtrSets := (n, rs) :: c.rtrSets }
  rtrAddrs name := Lib.memo (fun c => c.rtrs.lookup (rtrKey name)) (ev.fetchRtr name)
    fun addrs c => { c with rtrs := (rtrKey name, addrs) :: c.rtrs }

/-- The Source's answers, nothing kept. -/
def asked : Lookups (Except (ExpandError E)) where
  inASSet n peer := if n.isAny then pure true else do
    let (ms, _) ← ev.askAS s n
    pure (ms.any || ms.set.contains peer)
  peeringSet n := do
    let (ps, _) ← ev.askPeerings s n
    pure ps
  routerSet n := do
    let (rs, _) ← ev.askRouters parseAddr s n
    pure rs
  rtrAddrs name := do
    let addrs ← ev.askRtr name
    pure (addrs.getD [])

def peering (p : Option Peering) : CallM E Decision := (ev.call parseAddr s).peering s p

end Evaluator

end Rpsl.Peval
