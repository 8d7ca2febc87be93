import Rpsl.Policy.ASPath
import Rpsl.Resolve.Claims

/-!
# Reading set-name templates

`ParseSetNameTemplate` of `policy/template.go`, and `SetName.Components`. A template is checked
once, with AS1 for the peer; `SetNameTemplate.instantiate` then takes a name that cannot be read
for the zero one.
-/

namespace Rpsl

open Text

def SetName.components (n : SetName) : List Text :=
  if n.canon = [] then [] else n.canon.splitOn ':'

namespace Policy.SetNameTemplate

open Resolve (trimSpace)

/-- `ParseSetNameTemplate`. -/
def parse (s : Text) : Option SetNameTemplate :=
  let t := trimSpace s
  if hp : (t.splitOn ':').any isPeerAS = true then
    match h : SetName.parse (substitutePeerAS t 1) with
    | none => none
    | some n => some ⟨t, n.cls, hp, by rw [h]; rfl⟩
  else none

end Policy.SetNameTemplate

end Rpsl
