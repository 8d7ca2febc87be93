import Rpsl.Resolve.Claims
import Rpsl.Resolve.NormalForm
import Rpsl.Resolve.OpStack

/-!
# Set expansion

`resolve/expander.go`: discovery walks the set graph breadth-first from the named set and fetches
every reachable set once, with its indirect members and its ASes' routes; evaluation then walks
(set, operator stack) states and collects prefix ranges.

A Source answers each query the same way every time and the context is never cancelled, so the
number of fetches in flight does not matter and is left out.
-/

namespace Rpsl.Resolve

open Text Rpsl.Policy Object

inductive Limit
  | prefixes
  | visited
  | depth
  | conjuncts
deriving DecidableEq, Repr

/-- What a Source answers instead of a result: `ErrNotFound`, or a failure of its own. -/
inductive SourceError (E : Type)
  | notFound
  | failed (e : E)

/-- The errors of an expansion. A `NotEnumerableError` holds its term as text; here it holds the
term. -/
inductive ExpandError (E : Type)
  | notFound (top : SetRef)
  | setClass (ref : SetRef)
  | anySet (name : SetName)
  | tooLarge (name : SetRef) (limit : Limit) (max count : Nat)
  | wrongSet (ref : SetRef) (got : SetName)
  | wrongSource (ref : SetRef) (got : Text)
  | membersByRef (set : SetName) (e : SourceError E)
  | source (e : SourceError E)
  | notEnumerable (term : Filter) (why : Text)
  | unboundPeer (term : Filter)

/-- `Source`. `GetSet` may return a nil set; a prefix of `OriginatedRoutes` may be invalid, and it
reports "nothing there" as an empty result, never as `ErrNotFound`, which means a missing set. -/
structure Source (E : Type) where
  getSet : SetRef → Except (SourceError E) (Option NamedSet)
  originatedRoutes : ASN → AFI → Except E (List (Option Prefix))
  membersByRef : NamedSet → Except (SourceError E) (List Object)

structure Exclusion where
  sets : List SetName
  asns : List ASN

/-- Does the error wrap `ErrNotFound`? -/
def ExpandError.isNotFound {E : Type} : ExpandError E → Bool
  | .notFound _ => true
  | .source .notFound => true
  | _ => false

/-- `Expander`: a limit of 0 is the default, a negative one no limit. -/
structure Expander (E : Type) where
  src : Source E
  maxDepth : Int
  maxPrefixes : Int
  maxVisited : Int
  maxConjuncts : Int
  afi : AFI
  exclude : Exclusion
  peer : ASN

def limit (v : Int) (dflt : Nat) : Nat :=
  if v = 0 then dflt else if v < 0 then 2 ^ 63 - 1 else v.toNat

namespace Expander

variable {E : Type}

def depthLimit (e : Expander E) : Nat := limit e.maxDepth 32
def prefixLimit (e : Expander E) : Nat := limit e.maxPrefixes (2 ^ 20)
def visitLimit (e : Expander E) : Nat := limit e.maxVisited (2 ^ 17)
def conjunctLimit (e : Expander E) : Nat := limit e.maxConjuncts (2 ^ 12)

/-- `excluded.set`. -/
def excludesSet (e : Expander E) (n : SetName) : Bool := e.exclude.sets.any (·.text = n.text)

/-- `excluded.as`. -/
def excludesAS (e : Expander E) (a : ASN) : Bool := e.exclude.asns.contains a

def afiAllows (e : Expander E) (p : Prefix) : Bool :=
  match e.afi with
  | .v4 => p.is4
  | .v6 => !p.is4
  | _ => true

end Expander

/-! ## What a set points to -/

/-- `nestable`: may a set of class `child` be a member of one of class `parent`? -/
def nestable (parent child : SetClass) : Bool :=
  match parent with
  | .asSet => child = .asSet
  | .routeSet => child = .routeSet || child = .asSet
  | .rtrSet => child = .rtrSet
  | .peeringSet => child = .peeringSet
  | _ => false

def members (set : NamedSet) : List SetMember :=
  match set.body with
  | .members listed src => directMembers listed src
  | _ => []

def nestedRefs (set : NamedSet) : List SetRef :=
  match set.body with
  | .members listed src =>
    (directMembers listed src).filterMap fun m =>
      match m with
      | .set name source _ =>
        if nestable set.name.cls name.cls then SetRef.new source name else none
      | _ => none
  | .routers ms =>
    ms.filterMap fun m =>
      match m with
      | .set name => if nestable set.name.cls name.cls then some name.ref else none
      | _ => none
  | .peerings ps =>
    ps.filterMap fun p =>
      match p with
      | some (.setRef name) => if nestable set.name.cls name.cls then some name.ref else none
      | _ => none
  | _ => []

/-! ## Discovery -/

structure SetNode where
  set : NamedSet
  claims : List Object

/-- `setGraph`; the fetched sets are in discovery order. -/
structure SetGraph where
  top : SetRef
  nodes : List (SetRef × SetNode)
  missing : List SetRef
  any : List SetRef
  reached : Nat
  routes : List (ASN × List (Option Prefix))

namespace SetGraph

def node (g : SetGraph) (ref : SetRef) : Option SetNode := (g.nodes.find? (·.1 = ref)).map Prod.snd

/-- The routes fetched for an AS. -/
def routesOf (g : SetGraph) (a : ASN) : List (Option Prefix) :=
  ((g.routes.find? (·.1 = a)).map Prod.snd).getD []

/-- `ordered`: the top set first, then the rest by reference. -/
def ordered (g : SetGraph) : List SetNode :=
  let rest := g.nodes.filter (·.1 ≠ g.top)
  (g.node g.top).toList ++
    (rest.insertionSort fun a b => a.1.text ≤ b.1.text).map Prod.snd

end SetGraph

/-- The state of `discover`'s loop. -/
structure Discovery where
  nodes : List (SetRef × NamedSet)
  missing : List SetRef
  any : List SetRef
  seen : List SetRef
  next : List SetRef
  anyRef : Option SetRef

namespace Expander

variable {E : Type} (e : Expander E)

def checkSet (ref : SetRef) (set : Option NamedSet) : Except (ExpandError E) NamedSet :=
  match set with
  | none => .error (.source .notFound)
  | some s =>
    if s.name ≠ ref.name then .error (.wrongSet ref s.name)
    else if ref.isScoped && !equalFoldASCII (trimSpace s.source) ref.source then
      .error (.wrongSource ref s.source)
    else if s.cls ≠ ref.name.cls then .error (.source .notFound)
    else .ok s

def fetchOne (ref : SetRef) : Except (ExpandError E) NamedSet :=
  match e.src.getSet ref with
  | .error err => .error (.source err)
  | .ok s => checkSet ref s

/-- One turn of `discover`'s loop over the references a fetched set points to. -/
def noteRef (top : SetRef) (anyLeaf : Bool) (depth : Nat) (st : Discovery) (ref : SetRef) :
    Except (ExpandError E) Discovery :=
  if st.seen.contains ref || e.excludesSet ref.name then .ok st
  else if e.depthLimit < depth + 1 then
    .error (.tooLarge top .depth e.depthLimit (depth + 1))
  else if e.visitLimit ≤ st.seen.length then
    .error (.tooLarge top .visited e.visitLimit (st.seen.length + 1))
  else if ref.name.isAny then
    .ok { st with
      seen := ref :: st.seen
      anyRef := st.anyRef.or (some ref)
      any := if anyLeaf then st.any ++ [ref] else st.any }
  else .ok { st with seen := ref :: st.seen, next := st.next ++ [ref] }

/-- One turn of `discover`'s loop over a level. -/
def visitRef (top : SetRef) (anyLeaf : Bool) (depth : Nat) (st : Discovery) (ref : SetRef) :
    Except (ExpandError E) Discovery :=
  match e.fetchOne ref with
  | .error (.source .notFound) =>
    if depth = 0 then .error (.notFound top) else .ok { st with missing := st.missing ++ [ref] }
  | .error err => .error err
  | .ok s =>
    (nestedRefs s).foldlM (e.noteRef top anyLeaf depth)
      { st with nodes := st.nodes ++ [(ref, s)] }

/-- `discover`'s loop over the levels. A level past the depth limit is empty, so `fuel`, the limit
and two more, does not run out. -/
def discoverLoop (top : SetRef) (anyLeaf : Bool) :
    Nat → Nat → List SetRef → Discovery → Except (ExpandError E) Discovery
  | _, _, [], st => .ok st
  | 0, depth, _ :: _, _ => .error (.tooLarge top .depth e.depthLimit depth)
  | fuel + 1, depth, level, st => do
    let st ← level.foldlM (e.visitRef top anyLeaf depth) { st with next := [], anyRef := none }
    match st.anyRef with
    | some ref => if anyLeaf then .ok st else .error (.anySet ref.name)
    | none => discoverLoop top anyLeaf fuel (depth + 1) st.next st

def claimsOf (set : NamedSet) : Except (ExpandError E) (List Object) :=
  if set.refMntners.isEmpty then .ok []
  else
    match e.src.membersByRef set with
    | .error err => .error (.membersByRef set.name err)
    | .ok objs => .ok (objs.filter fun o => claimClassOK set o && claimAllowed o set)

def fetchClaims (nodes : List (SetRef × NamedSet)) :
    Except (ExpandError E) (List (SetRef × SetNode)) :=
  nodes.mapM fun (ref, s) => do
    let claims ← e.claimsOf s
    .ok (ref, ⟨s, claims⟩)

def discover (top : SetRef) (anyLeaf : Bool) : Except (ExpandError E) SetGraph :=
  if top.name.isAny then .error (.anySet top.name)
  else do
    let st ← e.discoverLoop top anyLeaf (e.depthLimit + 2) 0 [top]
      ⟨[], [], [], [top], [], none⟩
    let nodes ← if st.any.isEmpty then e.fetchClaims st.nodes
      else .ok (st.nodes.map fun (ref, s) => (ref, ⟨s, []⟩))
    .ok { top := top
          nodes := nodes
          missing := st.missing.insertionSort fun a b => a.text ≤ b.text
          any := st.any
          reached := st.seen.length
          routes := [] }

/-- The ASes whose routes an expansion needs: members and claimed aut-nums, each once. -/
def neededASes (g : SetGraph) : List ASN :=
  (g.ordered.flatMap fun nd =>
    (members nd.set).filterMap (fun m =>
      match m with
      | .as_ a _ => if e.excludesAS a then none else some a
      | _ => none) ++
    nd.claims.filterMap fun o =>
      match o with
      | .autNum a => if e.excludesAS a.asn then none else some a.asn
      | _ => none).eraseDups

def fetchRoutes (g : SetGraph) : Except (ExpandError E) SetGraph := do
  let routes ← (e.neededASes g).mapM fun a =>
    match e.src.originatedRoutes a e.afi with
    | .error err => .error (.source (.failed err))
    | .ok ps => .ok (a, ps)
  .ok { g with routes := routes }

end Expander

/-! ## Evaluation -/

structure EvalState where
  set : SetRef
  ops : OpStack
deriving DecidableEq

/-- What an `evaluator` changes as it walks. -/
structure Eval where
  out : RangeSet
  done : List EvalState
  visits : Nat

namespace Expander

variable {E : Type} (e : Expander E) (g : SetGraph) (maxRanges : Nat)

/-- `evaluator.add`. -/
def addRange (ops : OpStack) (v : Eval) (r : PrefixRange) : Except (ExpandError E) Eval :=
  match ops.apply r with
  | none => .ok v
  | some r =>
    if r.pfx.all e.afiAllows then
      let out := v.out.add r
      if maxRanges < out.len then .error (.tooLarge g.top .prefixes maxRanges out.len)
      else .ok { v with out := out }
    else .ok v

/-- A route as an exact range; an invalid prefix is none. -/
def exactRange (p : Option Prefix) : Option PrefixRange :=
  p.bind fun p => PrefixRange.new p.masked p.masked.bits p.masked.bits

def addRoutes (ops : OpStack) (v : Eval) (routes : List (Option Prefix)) :
    Except (ExpandError E) Eval :=
  (routes.filterMap exactRange).foldlM (e.addRange g maxRanges ops) v

/-- The routes a claim adds. -/
def claimRoutes (o : Object) : List (Option Prefix) :=
  match o with
  | .route r | .route6 r => [r.pfx]
  | .autNum a => g.routesOf a.asn
  | _ => []

/-- One turn of `walk`'s loop over a set's members; `walkChild` is the recursive call. -/
def walkMember (walkChild : EvalState → Eval → Except (ExpandError E) Eval) (x : EvalState)
    (v : Eval) (m : SetMember) : Except (ExpandError E) Eval :=
  match m with
  | .range r => e.addRange g maxRanges x.ops v r
  | .as_ a op => e.addRoutes g maxRanges (x.ops.push op) v (g.routesOf a)
  | .set name source op =>
    if !nestable x.set.name.cls name.cls || e.excludesSet name then .ok v
    else
      match SetRef.new source name with
      | none => .ok v
      | some child =>
        if (g.node child).isNone || v.done.contains ⟨child, x.ops.push op⟩ then .ok v
        else walkChild ⟨child, x.ops.push op⟩ v
  | .invalid => .ok v

/-- `evaluator.walk`. Every call is a visit, so the visit limit bounds how deep it goes and `fuel`,
the limit and one more, does not run out. -/
def walk : Nat → EvalState → Eval → Except (ExpandError E) Eval
  | 0, _, v => .error (.tooLarge g.top .visited e.visitLimit (v.visits + 1))
  | fuel + 1, x, v =>
    let v := { v with done := x :: v.done, visits := v.visits + 1 }
    if e.visitLimit < v.visits then .error (.tooLarge g.top .visited e.visitLimit v.visits)
    else
      match g.node x.set with
      | none => .ok v
      | some nd => do
        let v ← (members nd.set).foldlM (e.walkMember g maxRanges (walk fuel) x) v
        nd.claims.foldlM (fun v o => e.addRoutes g maxRanges x.ops v (claimRoutes g o)) v

end Expander

namespace Expander

variable {E : Type} (e : Expander E)

/-- `expandRanges`: also how many references discovery reached. -/
def expandRanges (ref : SetRef) (maxRanges : Nat) : Except (ExpandError E) (RangeSet × Nat) :=
  if ref.name.cls ≠ .asSet ∧ ref.name.cls ≠ .routeSet then .error (.setClass ref)
  else do
    let g ← e.discover ref false
    let g ← e.fetchRoutes g
    let v ← e.walk g maxRanges (e.visitLimit + 1) ⟨ref, .empty⟩ ⟨.empty, [], 0⟩
    .ok ({ v.out with missing := g.missing }, g.reached)

def expandPrefixRanges (ref : SetRef) : Except (ExpandError E) RangeSet :=
  (e.expandRanges ref e.prefixLimit).map Prod.fst

/-- `expandAS`: with `anyLeaf`, a set that reaches AS-ANY is every AS. -/
def expandAS (ref : SetRef) (anyLeaf : Bool) : Except (ExpandError E) (ASNSet × Nat) :=
  if ref.name.cls ≠ .asSet then .error (.setClass ref)
  else do
    let g ← e.discover ref anyLeaf
    if !g.any.isEmpty then .ok (⟨[], [], true⟩, g.reached)
    else .ok (⟨e.neededASes g, g.missing, false⟩, g.reached)

end Expander

end Rpsl.Resolve
