import Mathlib.Data.List.Sort
import Rpsl.Auth.Object
import Rpsl.Types.RangeText

/-!
# The registry being updated

`auth/memdb.go`: what authorising an update looks up in a registry, and the registry of a list of
decoded objects. It has three indexes, filled in one pass: the objects by class and key, the
address-space objects of each class, and the as-blocks.
-/

namespace Rpsl.Auth

open Text Lib Rpsl.Resolve

/-- The errors lookups return; a registry's own are `other`. -/
inductive Err
  | notFound
  | noMntner
  | noIrt
  | unsupportedMethod
  | other (msg : Text)
deriving DecidableEq

/-- `Database`: `none` is a nil object, or a typed nil. -/
structure Database where
  mntner : Text → Except Err (Option Mntner)
  current : Object → Except Err (Option Object)
  object : Text → Text → Except Err (Option Object)
  covering : Text → Addr → Addr → Except Err (List (Option Object))
  asBlocks : ASN → Except Err (List (Option AsBlock))

structure SpaceEntry where
  lo : Addr
  hi : Addr
  o : Object

structure MemDatabase where
  objects : Text → Option Object
  spaces : Text → List SpaceEntry
  blocks : List AsBlock

/-- A key of `objects`. -/
def mapKey (cls key : Text) : Text := cls ++ '\x00' :: key

namespace SpaceEntry

/-- Does the entry hold the addresses from `lo` to `hi`? -/
def hit (e : SpaceEntry) (lo hi : Addr) : Bool :=
  e.lo.bitLen == lo.bitLen && !lo.lt e.lo && !e.hi.lt hi

/-- The order of `Covering`'s answers: one that starts later first, of those that start together one
that ends sooner. -/
def less (a b : SpaceEntry) : Bool := if a.lo ≠ b.lo then b.lo.lt a.lo else a.hi.lt b.hi

end SpaceEntry

namespace MemDatabase

def empty : MemDatabase := ⟨fun _ => none, fun _ => [], []⟩

/-- One turn of the loop of `NewMemDatabase`. -/
def add (db : MemDatabase) (o : Object) : MemDatabase :=
  match primaryKey o with
  | none => db
  | some (cls, key) =>
    { objects := Function.update db.objects (mapKey cls key) (some o)
      spaces :=
        match addressRange o with
        | some (lo, hi) => Function.update db.spaces cls (db.spaces cls ++ [⟨lo, hi, o⟩])
        | none => db.spaces
      blocks :=
        match o with
        | .asBlock b => db.blocks ++ [b]
        | _ => db.blocks }

/-- `NewMemDatabase`. -/
def new (objs : List Object) : MemDatabase := objs.foldl add empty

def mntner (db : MemDatabase) (name : Text) : Except Err Mntner :=
  match db.objects (mapKey (lit "mntner") (normalKey (lit "mntner") name)) with
  | some (.mntner m) => .ok m
  | _ => .error .noMntner

def current (db : MemDatabase) (o : Object) : Except Err Object :=
  match primaryKey o with
  | none => .error .notFound
  | some (cls, key) =>
    match db.objects (mapKey cls key) with
    | some got => .ok got
    | none => .error .notFound

def object (db : MemDatabase) (cls key : Text) : Except Err Object :=
  let cls := toLower (trimSpace cls)
  match db.objects (mapKey cls (normalKey cls key)) with
  | some got => .ok got
  | none => .error .notFound

def covering (db : MemDatabase) (cls : Text) (lo hi : Addr) : List Object :=
  let hits := (db.spaces (toLower cls)).filter (·.hit lo hi)
  (hits.insertionSort fun a b => !b.less a).map SpaceEntry.o

def asBlocks (db : MemDatabase) (as : ASN) : List AsBlock :=
  let out := db.blocks.filter fun b => b.lo ≤ as && as ≤ b.hi
  out.insertionSort fun a b => a.hi - a.lo ≤ b.hi - b.lo

/-- A `MemDatabase` as a `Database`. -/
def database (db : MemDatabase) : Database where
  mntner := fun name => (db.mntner name).map some
  current := fun o => (db.current o).map some
  object := fun cls key => (db.object cls key).map some
  covering := fun cls lo hi => .ok ((db.covering cls lo hi).map some)
  asBlocks := fun as => .ok ((db.asBlocks as).map some)

end MemDatabase

end Rpsl.Auth
