import Rpsl.Peval.Policy

/-!
# Consistency between neighbours

`resolve/consist/consist.go`: for a BGP session, what one side's export permits announcing is
compared with what the other side's import accepts. Prefixes are compared exactly; AS-path and
community tests only by their text, and a part that cannot be decided is an undecided finding.
-/

namespace Rpsl.Consist

open Text Rpsl.Policy Resolve Peval

/-! ## Findings -/

inductive Kind
  | notImported
  | notExported
  | noImport
  | noExport
  | noAutNum
  | undecided
deriving DecidableEq, Repr

/-- A kind's number in the source, which findings are ordered by. -/
def Kind.toNat : Kind → Nat
  | notImported => 0
  | notExported => 1
  | noImport => 2
  | noExport => 3
  | noAutNum => 4
  | undecided => 5

/-- `ast.Severity`, the two of it a finding has. -/
inductive Severity
  | warning
  | info
deriving DecidableEq, Repr

def Kind.severity : Kind → Severity
  | notImported | noImport | noAutNum => .warning
  | _ => .info

/-- The reasons an undecided finding gives. -/
inductive Why
  | symbolic
  | importerUndecided
  | exporterUndecided
deriving DecidableEq, Repr

def Why.text : Why → Text
  | symbolic => lit "symbolic test on one side only"
  | importerUndecided => lit "importer has undecided terms"
  | exporterUndecided => lit "exporter has undecided terms"

/-- `Finding`. A field with a zero value in the source's literals has it as its default here. -/
structure Finding where
  kind : Kind
  of : Kind := .notImported
  severity : Severity := .info
  as_ : ASN := 0
  example_ : Option Prefix := none
  ranges : List PrefixRange := []
  truncated : Bool := false
  given : List Text := []
  export_ : List Nat := []
  import_ : List Nat := []
  why : Option Why := none

/-- `Checker`, as far as `direction` reads it. -/
structure Checker where
  maxRanges : Int

/-- `Checker.maxRanges`: 0 means 64. -/
def Checker.max (c : Checker) : Nat := if 0 < c.maxRanges then c.maxRanges.toNat else 64

/-! ## Sides -/

/-- `conj`: a decided conjunct as consistency reads it. -/
structure Conj where
  sig : List Text
  space : PrefixSpace
  index : Nat
  path : Bool
  comm : Bool
  commActs : Bool

/-- `side`: a policy as consistency reads it. -/
structure Side where
  conjs : List Conj
  clauses : Bool
  undecided : Bool
  undIdx : List Nat

def compact {α : Type} [DecidableEq α] : List α → List α
  | a :: b :: l => if a = b then compact (b :: l) else a :: compact (b :: l)
  | l => l

/-- `slices.Sort`, then `slices.Compact`. -/
def sortCompact {α : Type} [DecidableEq α] [LE α] [DecidableLE α] (l : List α) : List α :=
  compact (l.insertionSort (· ≤ ·))

def signature (c : Conjunct) : List Text :=
  sortCompact (c.paths.map PathMatch.text ++ c.communities.map CommunityMatch.text)

/-- Do the clause's actions change communities? -/
def changesCommunities (cl : Clause) : Bool :=
  cl.actions.any fun a => a.attr == lit "community"

/-- `sideOf`'s inner loop: one clause's conjuncts. -/
def clauseConjs (cl : Clause) : List Conj :=
  cl.filter.conjuncts.map fun cj =>
    { sig := signature cj
      space := cj.space
      index := cl.index
      path := !cj.paths.isEmpty
      comm := !cj.communities.isEmpty
      commActs := changesCommunities cl }

def sideOf (p : Policy) : Side :=
  { conjs := p.clauses.flatMap clauseConjs
    clauses := !p.clauses.isEmpty
    undecided := !p.undecided.isEmpty
    undIdx := sortCompact (p.undecided.map Undecided.index) }

/-- `subset`; both are sorted, so the source's binary search is membership. -/
def subset (a b : List Text) : Bool := a.all b.contains

def union (cs : List Conj) : PrefixSpace := cs.foldl (fun s c => s.union c.space) PrefixSpace.empty

/-- `plain`: the conjuncts with no symbolic test. -/
def plain (cs : List Conj) : List Conj := cs.filter fun c => c.sig.isEmpty

def indexes (cs : List Conj) (sp : PrefixSpace) : List Nat :=
  sortCompact ((cs.filter fun c => !(c.space.intersect sp).isEmpty).map Conj.index)

def roles (f : Finding) (src dst : List Conj) (sp : PrefixSpace) (kind : Kind) : Finding :=
  let s := indexes src sp
  let d := indexes dst sp
  if kind = .notImported then { f with export_ := s, import_ := d }
  else { f with import_ := s, export_ := d }

def Checker.finish (c : Checker) (f : Finding) (sp : PrefixSpace) : Finding :=
  { f with
    severity := f.kind.severity
    example_ := sp.exampleOf
    ranges := f.ranges ++ sp.ranges.take c.max
    truncated := f.truncated || decide (c.max < sp.ranges.length) }

/-! ## Comparing two sides -/

/-- The key a conjunct is grouped under. -/
def Conj.key (c : Conj) : Text := ['\x00'].intercalate c.sig

/-- The keys of a side's groups, sorted. -/
def groupKeys (cs : List Conj) : List Text := (cs.map Conj.key).dedup.insertionSort (· ≤ ·)

def group (cs : List Conj) (k : Text) : List Conj := cs.filter fun c => c.key == k

/-- Does the dst conjunct `d` decide the routes of a src group? Only when its tests are among the
group's and mean the same across the session. -/
def sure (kind : Kind) (sig : List Text) (groupActs : Bool) (d : Conj) : Bool :=
  let acts := if kind = .notImported then groupActs else d.commActs
  subset d.sig sig && !d.path && !(d.comm && acts)

/-- One turn of `compare`'s loop over the groups. -/
def Checker.compareGroup (c : Checker) (g dst : List Conj) (kind : Kind) : List Finding :=
  let sig := (g.head?.map Conj.sig).getD []
  let groupActs := g.any Conj.commActs
  let maybe := dst.filter fun d => !sure kind sig groupActs d
  let rest := (union g).minus (union (dst.filter (sure kind sig groupActs)))
  if rest.isEmpty then []
  else
    let mb := union maybe
    let def_ := rest.minus mb
    let und := rest.intersect mb
    (if def_.isEmpty then []
      else [c.finish (roles { kind := kind, given := sig } g [] def_ kind) def_]) ++
    (if und.isEmpty then []
      else [c.finish (roles { kind := .undecided, of := kind, why := some .symbolic, given := sig }
        g maybe und kind) und])

/-- `compare`: what src's conjuncts accept and dst's do not. -/
def Checker.compare (c : Checker) (src dst : Side) (kind : Kind) : List Finding :=
  (groupKeys src.conjs).flatMap fun k => c.compareGroup (group src.conjs k) dst.conjs kind

/-- What an example's place in the order is read from: IPv4 first, then the address by its length
and value, then the prefix length; no example is the zero `netip.Prefix`. -/
def exampleKey : Option Prefix → Nat × Nat × Nat × Int
  | none => (1, 0, 0, -1)
  | some p => (if p.is4 then 0 else 1, p.bitLen, p.addr.val.toNat, p.bits)

def compareFindings (a b : Finding) : Ordering :=
  let x := exampleKey a.example_
  let y := exampleKey b.example_
  (Ord.compare a.kind.toNat b.kind.toNat).then <|
  (Ord.compare a.of.toNat b.of.toNat).then <|
  (Ord.compare (['\x00'].intercalate a.given) (['\x00'].intercalate b.given)).then <|
  (Ord.compare x.1 y.1).then <| (Ord.compare x.2.1 y.2.1).then <|
  (Ord.compare x.2.2.1 y.2.2.1).then <| (Ord.compare x.2.2.2 y.2.2.2).then <|
  Ord.compare ((a.why.map Why.text).getD []) ((b.why.map Why.text).getD [])

/-- A definite finding of `kind` becomes undecided where the other side has undecided terms. -/
def demote (undecided : Bool) (kind : Kind) (why : Why) (f : Finding) : Finding :=
  if f.kind = kind ∧ undecided then
    { f with kind := .undecided, of := kind, why := some why, severity := Kind.undecided.severity }
  else f

/-- `direction`: From's export side against To's import side. -/
def Checker.direction (c : Checker) (exp imp : Side) (afi : AFI) : List Finding :=
  -- a one-sided direction whose decided side permits nothing is read as if that side had no
  -- decided clause
  let expD := exp.clauses && !(!imp.clauses && (union exp.conjs).isEmpty)
  let impD := imp.clauses && !(!exp.clauses && (union imp.conjs).isEmpty)
  match expD, impD with
  | false, false =>
    (if exp.undecided then
      [c.finish { kind := .undecided, of := .noImport, why := some .exporterUndecided } .empty]
      else []) ++
    (if imp.undecided then
      [c.finish { kind := .undecided, of := .noExport, why := some .importerUndecided } .empty]
      else [])
  | true, false =>
    let export_ := indexes exp.conjs (PrefixSpace.fullSpace .any)
    let f : Finding :=
      if imp.undecided then
        { kind := .undecided, of := .noImport, why := some .importerUndecided, export_ := export_ }
      else { kind := .noImport, export_ := export_ }
    [c.finish f (union exp.conjs)]
  | false, true =>
    let import_ := indexes imp.conjs (PrefixSpace.fullSpace .any)
    let f : Finding :=
      if exp.undecided then
        { kind := .undecided, of := .noExport, why := some .exporterUndecided, import_ := import_ }
      else { kind := .noExport, import_ := import_ }
    [c.finish f (union imp.conjs)]
  | true, true =>
    let notImported := (c.compare exp imp .notImported).map
      (demote imp.undecided .notImported .importerUndecided)
    let notExported := (c.compare imp exp .notExported).map
      (demote exp.undecided .notExported .exporterUndecided)
    -- the undecided terms of one side may concern any route of the family; the other side surely
    -- accepts only what its conjuncts without a symbolic test do
    let expSpace := (PrefixSpace.fullSpace afi).minus (union (plain imp.conjs))
    let expUndecided : List Finding :=
      if exp.undecided && !expSpace.isEmpty then
        [c.finish { kind := .undecided, of := .notImported, why := some .exporterUndecided,
                    export_ := exp.undIdx } expSpace]
      else []
    let impSpace := (PrefixSpace.fullSpace afi).minus (union (plain exp.conjs))
    let impUndecided : List Finding :=
      if imp.undecided && !impSpace.isEmpty then
        [c.finish { kind := .undecided, of := .notExported, why := some .importerUndecided,
                    import_ := imp.undIdx } impSpace]
      else []
    (notImported ++ notExported ++ expUndecided ++ impUndecided).insertionSort
      fun a b => compareFindings a b ≠ .gt

end Rpsl.Consist
