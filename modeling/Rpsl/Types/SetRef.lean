import Rpsl.Types.SetName

/-!
# Set references

`types/setref.go`: a set name, optionally scoped to one registry ("RIPE::AS-FOO").
-/

namespace Rpsl

open Text

/-- A set name, in one registry when `source` is not empty. -/
structure SetRef where
  source : Text
  name : SetName
deriving DecidableEq

/-- `types.Ref`: the unscoped reference. -/
def SetName.ref (n : SetName) : SetRef := ⟨[], n⟩

def maxSourceNameLen : Nat := 64

def parseSourceName (s : Text) : Option Text :=
  if s.isEmpty || decide (maxSourceNameLen < s.length) then none
  else if s.all fun c => isAlnum c || c == '-' || c == '_' then some (upper s)
  else none

/-- `strings.Cut(s, "::")`. -/
def cutScope : Text → Option (Text × Text)
  | [] => none
  | [_] => none
  | a :: b :: s =>
    if a = ':' ∧ b = ':' then some ([], s)
    else (cutScope (b :: s)).map fun (src, rest) => (a :: src, rest)

namespace SetRef

def isScoped (r : SetRef) : Bool := !r.source.isEmpty

/-- `SetRef.String`. -/
def text (r : SetRef) : Text :=
  if r.source.isEmpty then r.name.text else r.source ++ lit "::" ++ r.name.text

/-- `NewSetRef`. -/
def new (source : Text) (name : SetName) : Option SetRef :=
  if name.isZero then none
  else if source.isEmpty then some name.ref
  else (parseSourceName source).map fun s => ⟨s, name⟩

/-- `ParseSetRef`. -/
def parse (s : Text) : Option SetRef :=
  match cutScope (trimBlank s) with
  | none => (SetName.parse (trimBlank s)).map SetName.ref
  | some (src, rest) =>
    if rest.head?.all isBlank then none
    else
      (SetName.parse rest).bind fun n => if src.isEmpty then none else new src n

end SetRef

end Rpsl
