import Rpsl.Auth.MemDatabase

/-!
# Who may change an object

`auth/auth.go`, `auth/irt.go`, `auth/route.go` and `auth/rules.go`: whether a credential may make an
update, by the rules of the RIPE Database or of IRRd. Verifying a credential against an auth: line,
and looking objects up, are the caller's (`Verifier`, `Database`).

A check's reasons so far are its state; an error of a lookup or of the verifier ends it.
-/

namespace Rpsl.Auth

open Text Lib Rpsl.Resolve Rpsl.Object

/-! ## Credentials -/

structure Credential where
  password : Text
  signature : Text
  message : Text
  sender : Text

/-- `Verifier`, and `none` the nil one. -/
abbrev Verifier := Option (Auth → Credential → Except Err Bool)

/-- `checkAuth`: whether a line accepts the credential, and whether a scheme was not supported. -/
def checkAuth (cred : Credential) (v : Verifier) : Bool → List Auth → Except Err (Bool × Bool)
  | unsupported, [] => .ok (false, unsupported)
  | unsupported, a :: lines =>
    match v with
    | none => checkAuth cred v true lines
    | some verify =>
      match verify a cred with
      | .error .unsupportedMethod => checkAuth cred v true lines
      | .error e => .error e
      | .ok true => .ok (true, unsupported)
      | .ok false => checkAuth cred v unsupported lines

structure Decision where
  ok : Bool
  reasons : List Text

/-- `Decision.String`. -/
def Decision.text (d : Decision) : Text :=
  let head := if d.ok then lit "authorised" else lit "refused"
  if d.reasons = [] then head else head ++ lit ": " ++ (lit "; ").intercalate d.reasons

/-- The loop of `CheckMntners` and `CheckIrts`, over what is found under a name: its auth: lines, or
`none` when the registry has none by that name. -/
def checkNames (find : Text → Except Err (Option (List Auth))) (missing : Text) (cred : Credential)
    (v : Verifier) : List Text → List Text → Except Err Decision
  | reasons, [] => .ok ⟨false, reasons⟩
  | reasons, name :: names =>
    match find name with
    | .error e => .error e
    | .ok none => checkNames find missing cred v (reasons ++ [name ++ missing]) names
    | .ok (some lines) =>
      match checkAuth cred v false lines with
      | .error e => .error e
      | .ok (true, _) => .ok ⟨true, reasons ++ [name ++ lit ": credential accepted"]⟩
      | .ok (false, unsupported) =>
        let reason :=
          if lines = [] then lit ": has no auth: lines, so accepts no credential"
          else if unsupported then lit ": no verifier for its auth scheme"
          else lit ": credential rejected"
        checkNames find missing cred v (reasons ++ [name ++ reason]) names

/-- A maintainer's auth: lines; a nil one is not found. -/
def findMntner (db : Database) (name : Text) : Except Err (Option (List Auth)) :=
  match db.mntner name with
  | .error .noMntner => .ok none
  | .error e => .error e
  | .ok m => .ok (m.map Mntner.auth)

def checkMntners (db : Database) (names : List Text) (cred : Credential) (v : Verifier) :
    Except Err Decision :=
  if names = [] then .ok ⟨false, [lit "no maintainer guards this object"]⟩
  else checkNames (findMntner db) (lit ": no such maintainer") cred v [] names

/-- `lookup`: a nil object is not found. -/
def lookup (db : Database) (cls key : Text) : Except Err Object :=
  match db.object cls key with
  | .error e => .error e
  | .ok none => .error .notFound
  | .ok (some o) => .ok o

/-- `irtLookup`, as the irt's auth: lines. -/
def findIrt (db : Database) (name : Text) : Except Err (Option (List Auth)) :=
  match lookup db (lit "irt") name with
  | .error .notFound => .ok none
  | .error .noIrt => .ok none
  | .error e => .error e
  | .ok (.irt i) => .ok (some i.auth)
  | .ok _ => .ok none

def checkIrts (db : Database) (names : List Text) (cred : Credential) (v : Verifier) :
    Except Err Decision :=
  checkNames (findIrt db) (lit ": no such irt") cred v [] names

/-- The names not had before, each once. -/
def added (had : List Text) : List Text → List Text
  | [] => []
  | name :: names =>
    let key := toUpper (trimSpace name)
    if key = [] ∨ key ∈ had then added had names else name :: added (key :: had) names

def addedMntIrt (before : Option Object) (after : Object) : List Text :=
  added ((before.elim [] mntIrt).map fun n => toUpper (trimSpace n)) (mntIrt after)

/-! ## Routes -/

/-- `rangeCovers`: whether the range covers the prefix, and whether it is exactly it. -/
def rangeCovers (lo hi : Addr) (p : Prefix) : Option Bool :=
  let first := p.addr
  let last := lastAddr p
  if lo.bitLen ≠ first.bitLen ∨ hi.bitLen ≠ first.bitLen then none
  else if first.lt lo || hi.lt last then none
  else some (lo = first && hi = last)

/-- `covers`: `some` when the object covers the prefix, with whether it is exactly it. -/
def covers (o : Object) (p : Option Prefix) : Option Bool :=
  match p with
  | none => none
  | some p =>
    let p := p.masked
    let within (q : Option Prefix) : Option Bool :=
      match q with
      | none => none
      | some q =>
        let q := q.masked
        if q.bitLen ≠ p.bitLen ∨ p.bits < q.bits ∨ !q.contains p.addr then none
        else some (q.bits = p.bits)
    match o with
    | .inetnum i =>
      match i.lo, i.hi with
      | some lo, some hi => rangeCovers lo hi p
      | _, _ => none
    | .inet6num i => within i.pfx
    | .route r | .route6 r => within r.pfx
    | _ => none

def authorities : Object → Option Authorities
  | .autNum _ a _ => some a
  | .route r | .route6 r => some r.authorities
  | .inetnum i => some i.authorities
  | .inet6num i => some i.authorities
  | _ => none

/-- `scopedMntners`; no range contains a prefix that is not valid. -/
def scopedMntners (entries : List MntRoutes) (p : Option Prefix) : List Text :=
  (entries.filter fun m => m.mntner ≠ [] &&
    ((m.any && m.ranges.isEmpty) || m.ranges.any fun r => p.any r.contains)).map MntRoutes.mntner

def routeAuthority (o : Object) (p : Option Prefix) : List Text :=
  match authorities o with
  | none => []
  | some a =>
    if a.mntRoutes ≠ [] then scopedMntners a.mntRoutes p
    else if a.mntLower ≠ [] ∧ covers o p = some false then a.mntLower
    else a.mntBy

/-! ## Checks -/

/-- `Action`; a number that is none of the three is unknown. -/
inductive Action
  | create
  | modify
  | delete
  | unknown (n : UInt8)
deriving DecidableEq, Repr

/-- `Action.String`. -/
def Action.text : Action → Text
  | create => lit "create"
  | modify => lit "modify"
  | delete => lit "delete"
  | unknown n => lit "Action(" ++ ofNat n.toNat ++ lit ")"

/-- `Update`; an update may carry no object. -/
structure Update where
  action : Action
  object : Option Object

/-- A check: the reasons so far are its state. -/
abbrev Check := StateT (List Text) (Except Err)

/-- A reason is recorded. -/
def say (reason : Text) : Check Unit := modify (· ++ [reason])

def fail (reason : Text) : Check Bool := do
  say reason
  return false

/-- A list of names as a reason shows it. -/
def showNames (names : List Text) : Text := '[' :: [' '].intercalate names ++ [']']

/-- A family of attributes, as names. -/
abbrev attrs (names : List String) : List Text := names.map lit

section

variable (db : Database) (cred : Credential) (v : Verifier)

/-- The loop of `mntners` over the names that name the maintainer being created. -/
def selfAccepts (what : Text) (names : List Text) (self : Mntner) : List Text → Check Bool
  | [] => return false
  | n :: ns =>
    if !equalFold (trimSpace n) self.handle then selfAccepts what names self ns
    else do
      let (ok, _) ← checkAuth cred v false self.auth
      if ok then
        say (what ++ lit " (" ++ showNames names ++ lit "): " ++ n ++
          lit ": credential accepted by the new maintainer itself")
        return true
      else selfAccepts what names self ns

def mntners (what : Text) (names : List Text) (self : Option Mntner) : Check Bool := do
  if names = [] then fail (what ++ lit ": names no maintainer")
  else
    let bySelf ← match self with
      | none => pure false
      | some m => selfAccepts cred v what names m names
    if bySelf then return true
    else
      let got ← checkMntners db names cred v
      say (what ++ lit " (" ++ showNames names ++ lit "): " ++ got.text)
      return got.ok

/-- `current`: a nil object is not found. -/
def current (o : Object) : Except Err Object :=
  match db.current o with
  | .error e => .error e
  | .ok none => .error .notFound
  | .ok (some cur) => .ok cur

/-- `covering`, without nil elements. -/
def covering (cls : Text) (lo hi : Addr) : Except Err (List Object) :=
  (db.covering cls lo hi).map fun cov => cov.filterMap id

/-- `asBlocks`, without nil elements. -/
def asBlocks (as : ASN) : Except Err (List AsBlock) :=
  (db.asBlocks as).map fun blocks => blocks.filterMap id

def firstCovering (lo hi : Addr) : List Text → Except Err (Option Object)
  | [] => .ok none
  | cls :: rest =>
    match covering db cls lo hi with
    | .error e => .error e
    | .ok (o :: _) => .ok (some o)
    | .ok [] => firstCovering lo hi rest

/-- `addressParent`, of a valid range. -/
def addressParent (cls : Text) (lo hi : Addr) : Check Bool := do
  let cov ← covering db cls lo hi
  match cov.find? fun p => addressRange p ≠ some (lo, hi) with
  | some p =>
    mntners db cred v (lit "the parent " ++ describeObject p)
      (firstPresent p.raw (attrs ["mnt-lower", "mnt-by"])) none
  | none =>
    fail (lit "no less specific " ++ cls ++ lit " holds " ++ lo.text ++ lit " - " ++ hi.text)

def routeParent (routeClass spaceClass : Text) (p : Option Prefix) : Check Bool := do
  match p with
  | none => fail (lit "the " ++ routeClass ++ lit " has no valid prefix")
  | some p =>
    let parent ← firstCovering db p.masked.addr (lastAddr p.masked) [routeClass, spaceClass]
    match parent with
    | none => fail (lit "no " ++ routeClass ++ lit " or " ++ spaceClass ++ lit " covers " ++ p.text)
    | some parent =>
      let names := routeAuthority parent (some p)
      if names = [] then
        fail (lit "the parent " ++ describeObject parent ++ lit " delegates no maintainer for " ++
          p.text)
      else mntners db cred v (lit "the parent " ++ describeObject parent) names none

/-- The class of address space that holds an address. -/
def spaceClass (lo : Addr) : Text := if lo.fam = .v6 then lit "inet6num" else lit "inetnum"

def domainParent (name : Text) : Check Bool := do
  match reverseRange name with
  | none =>
    if isReverseName name then
      fail (lit "the domain " ++ name ++ lit " is not a reverse zone this model can place")
    else return true
  | some (lo, hi) =>
    let parent ← firstCovering db lo hi [spaceClass lo]
    match parent with
    | none => fail (lit "no " ++ spaceClass lo ++ lit " holds the domain " ++ name)
    | some parent =>
      let names :=
        if addressRange parent = some (lo, hi) then attrs ["mnt-domains", "mnt-by"]
        else attrs ["mnt-domains", "mnt-lower", "mnt-by"]
      mntners db cred v (lit "the parent " ++ describeObject parent)
        (firstPresent parent.raw names) none

/-- `domainHolder`: the first object with exactly the domain's addresses and mnt-domains:. -/
def domainHolder (stored : Object) : Check Bool := do
  match stored with
  | .domain name _ =>
    match reverseRange name with
    | none => return false
    | some (lo, hi) =>
      let cov ← covering db (spaceClass lo) lo hi
      match cov.find? fun p =>
          addressRange p = some (lo, hi) ∧ values p (lit "mnt-domains") ≠ [] with
      | none => return false
      | some p =>
        mntners db cred v (lit "the address space " ++ describeObject p ++ lit "'s mnt-domains")
          (values p (lit "mnt-domains")) none
  | _ => return false

/-- The class `namedParent` looks the name left of the last colon up in. -/
def parentClass (cls : SetClass) (parentKey : Text) : Text :=
  if (ASN.parse parentKey).isSome then lit "aut-num"
  else if (SetName.parse parentKey).any fun n => n.cls = .asSet then lit "as-set"
  else cls.text

/-- The part before the last colon. -/
def beforeLastColon (key : Text) : Option Text :=
  if ':' ∈ key then some ((key.reverse.dropWhile (· != ':')).drop 1).reverse else none

def namedParent (cls : SetClass) (name : SetName) : Check Bool := do
  match beforeLastColon name.text with
  | none => return true
  | some parentKey =>
    let pc := parentClass cls parentKey
    match lookup db pc parentKey with
    | .error .notFound =>
      fail (lit "the parent " ++ pc ++ lit " " ++ parentKey ++ lit " does not exist")
    | .error e => throw e
    | .ok parent =>
      mntners db cred v (lit "the parent " ++ pc ++ lit " " ++ parentKey)
        (firstPresent parent.raw (attrs ["mnt-lower", "mnt-by"])) none

def ripeParent (o : Object) : Check Bool := do
  match o with
  | .inetnum i =>
    match i.lo, i.hi with
    | some lo, some hi => addressParent db cred v (lit "inetnum") lo hi
    | _, _ => fail (lit "the inetnum has no valid range")
  | .inet6num i =>
    match prefixRange i.pfx with
    | none => fail (lit "the inet6num has no valid prefix")
    | some (lo, hi) => addressParent db cred v (lit "inet6num") lo hi
  | .autNum as _ _ =>
    let blocks ← asBlocks db as
    match blocks with
    | [] => fail (lit "no as-block holds " ++ as.text)
    | b :: _ =>
      mntners db cred v (lit "the parent as-block " ++ b.lo.text ++ lit " - " ++ b.hi.text)
        (firstPresent b.raw (attrs ["mnt-lower", "mnt-by"])) none
  | .route r => routeParent db cred v (lit "route") (lit "inetnum") r.pfx
  | .route6 r => routeParent db cred v (lit "route6") (lit "inet6num") r.pfx
  | .domain name _ => domainParent db cred v name
  | .set cls name _ => namedParent db cred v cls name
  | _ => return true

/-- `referenceAttrs`: the attributes whose new references are guarded, and the classes each may
name. -/
def referenceAttrs : List (Text × List Text) :=
  [ (lit "admin-c", attrs ["person", "role"]), (lit "tech-c", attrs ["person", "role"]),
    (lit "zone-c", attrs ["person", "role"]), (lit "abuse-c", attrs ["role", "person"]),
    (lit "author", attrs ["person", "role"]), (lit "ping-hdl", attrs ["person", "role"]),
    (lit "mnt-by", attrs ["mntner"]), (lit "mnt-lower", attrs ["mntner"]),
    (lit "mnt-routes", attrs ["mntner"]), (lit "mnt-domains", attrs ["mntner"]),
    (lit "mnt-ref", attrs ["mntner"]), (lit "org", attrs ["organisation"]) ]

/-- `referenced`: the name in the first of the classes that has it. -/
def referenced (name : Text) : List Text → Except Err (Option (Object × Text))
  | [] => .ok none
  | cls :: rest =>
    match lookup db cls name with
    | .ok o => .ok (some (o, cls))
    | .error .notFound => referenced name rest
    | .error e => .error e

/-- The loop of `ripeReferences` over the items of one attribute. -/
def newReferences (o : Object) (attr : Text) (classes : List Text) :
    List Text → List Text → Check Bool
  | _, [] => return true
  | had, name :: names =>
    if toUpper name ∈ had then newReferences o attr classes had names
    else do
      let had := toUpper name :: had
      let selfKey := ((primaryKey o).map Prod.snd).getD []
      match ← (referenced db name classes : Except Err _) with
      | none => newReferences o attr classes had names
      | some (ref, cls) =>
        if cls = o.cls ∧ normalKey cls name = selfKey then newReferences o attr classes had names
        else
          let refs := values ref (lit "mnt-ref")
          if refs = [] ∧ cls ≠ lit "organisation" then newReferences o attr classes had names
          else
            let what := lit "the " ++ cls ++ lit " " ++ name ++ lit " referenced in " ++ attr
            if ← mntners db cred v (what ++ lit ", its mnt-ref") refs none then
              newReferences o attr classes had names
            else return false

/-- The loop of `ripeReferences` over the attributes. -/
def attrReferences (stored : Option Object) (o : Object) :
    List (Text × List Text) → Check Bool
  | [] => return true
  | (attr, classes) :: rest => do
    let had := (stored.elim [] (values · attr)).map toUpper
    if ← newReferences db cred v o attr classes had (values o attr) then
      attrReferences stored o rest
    else return false

def ripeReferences (stored : Option Object) (o : Object) : Check Bool := do
  let names := addedMntIrt stored o
  if names ≠ [] then
    let d ← checkIrts db names cred v
    say (lit "the added irts (" ++ showNames names ++ lit "): " ++ d.text)
    if !d.ok then return false
  attrReferences db cred v stored o referenceAttrs

/-- The stored version an update is about; `none` when there is none, which refuses the update. -/
def storedVersion (o : Object) (a : Action) : Check (Option Object) := do
  match current db o with
  | .error .notFound =>
    say (lit "there is no stored " ++ o.cls ++ lit " to " ++ a.text)
    return none
  | .error e => throw e
  | .ok stored => return some stored

/-- The maintainer an object is, when it is one. -/
def asMntner : Object → Option Mntner
  | .mntner m => some m
  | _ => none

def ripe (a : Action) (o : Object) : Check Bool := do
  match a with
  | .create =>
    if !(← mntners db cred v (lit "the object's own maintainers") (values o (lit "mnt-by"))
        (asMntner o)) then return false
    if !(← ripeParent db cred v o) then return false
    ripeReferences db cred v none o
  | .modify =>
    let some stored ← storedVersion db o a | return false
    let names := values stored (lit "mnt-by")
    -- the stored object had none: the new version's decide
    let names := if names = [] then values o (lit "mnt-by") else names
    if !(← mntners db cred v (lit "the stored object's maintainers") names none) then return false
    ripeReferences db cred v (some stored) o
  | .delete =>
    let some stored ← storedVersion db o a | return false
    if ← mntners db cred v (lit "the stored object's maintainers") (values stored (lit "mnt-by"))
        none then return true
    domainHolder db cred v stored
  | .unknown _ => return false

/-- `irrdRelated`, of a route: the smallest space, else the smallest less specific route. -/
def irrdRoute (routeClass spaceClass : Text) (p : Option Prefix) : Check Bool := do
  match prefixRange p with
  | none => fail (lit "the " ++ routeClass ++ lit " has no valid prefix")
  | some (lo, hi) =>
    let space ← firstCovering db lo hi [spaceClass]
    let related ← match space with
      | some o => pure (some o)
      | none => do
        let cov ← covering db routeClass lo hi
        pure (cov.find? fun r => addressRange r ≠ some (lo, hi))
    match related with
    | none => return true
    | some r =>
      mntners db cred v (lit "the related " ++ describeObject r) (values r (lit "mnt-by")) none

def irrdRelated (o : Object) : Check Bool := do
  match o with
  | .route r => irrdRoute db cred v (lit "route") (lit "inetnum") r.pfx
  | .route6 r => irrdRoute db cred v (lit "route6") (lit "inet6num") r.pfx
  | .set _ name _ =>
    match ASN.parse (name.text.takeWhile (· != ':')) with
    | none => return true
    | some as =>
      match lookup db (lit "aut-num") as.text with
      -- only an aut-num that exists is asked
      | .error .notFound => return true
      | .error e => throw e
      | .ok autnum =>
        mntners db cred v (lit "the related aut-num " ++ as.text)
          (values autnum (lit "mnt-by")) none
  | _ => return true

def irrd (a : Action) (o : Object) : Check Bool := do
  if a = .create ∧ (asMntner o).isSome then
    fail (lit "a new mntner is an administrator's to create")
  else if !(← mntners db cred v (lit "the submitted object's maintainers")
      (values o (lit "mnt-by")) none) then return false
  else if a = .create then irrdRelated db cred v o
  else
    let some stored ← storedVersion db o a | return false
    if !(← mntners db cred v (lit "the stored object's maintainers")
        (values stored (lit "mnt-by")) none) then return false
    match asMntner o with
    | none => return true
    | some m =>
      if a ≠ .modify then return true
      let (ok, _) ← checkAuth cred v false m.auth
      if ok then
        say (lit "the new version's own auth: lines: credential accepted")
        return true
      else fail (lit "the new version's own auth: lines: credential rejected")

inductive Rules
  | ripe
  | irrd
deriving DecidableEq, Repr

def authorise (r : Rules) (u : Update) : Except Err Decision :=
  let check : Check Bool :=
    match u.object with
    | none => fail (lit "the update carries no object")
    | some o =>
      if o.raw = none then fail (lit "the update carries no object")
      else
        match u.action with
        | .unknown n => fail (lit "unknown action " ++ (Action.unknown n).text)
        | a =>
          match r with
          | .ripe => ripe db cred v a o
          | .irrd => irrd db cred v a o
  (check.run []).map fun (ok, reasons) => ⟨ok, reasons⟩

end

end Rpsl.Auth
