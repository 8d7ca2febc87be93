import Rpsl.Lib.UnionSystem
import Rpsl.Resolve.Expander
import Rpsl.Types.Proof.Range

/-!
# The set equations

What a set stands for, in the terms of RFC 2622 §5: a set is the union of the prefix ranges it
lists, of the sets it lists and of the routes of the ASes it lists, each under the operator it is
listed with, and of what claims membership of it. Sets may list each other, so the value of a set
is its part of the least solution.
-/

namespace Rpsl.Resolve

open Rpsl.Policy Object Lib

/-- The prefixes a set of ranges denotes. -/
def RangeSet.denote (s : RangeSet) : Set Net := {q | ∃ r ∈ s.ranges, q ∈ r.denote}

namespace Source

variable {E : Type} (src : Source E)

/-- The set a reference finds: one of its name, its registry and its name's class. -/
def found (ref : SetRef) : Option NamedSet :=
  match src.getSet ref with
  | .ok s => (Expander.checkSet (E := E) ref s).toOption
  | .error _ => none

/-- The routes an AS originates. -/
def originated (afi : AFI) (a : ASN) : Set Net :=
  {q | ∃ ps, src.originatedRoutes a afi = .ok ps ∧ ∃ p, some p ∈ ps ∧ q.1 = p.masked}

/-- The objects whose claim of membership `s` honours. -/
def honours (s : NamedSet) : Set Object :=
  {o | ∃ objs, src.membersByRef s = .ok objs ∧ o ∈ objs ∧ claimClassOK s o = true ∧
    claimAllowed o s = true}

/-- What a claim adds: a route itself, an aut-num's routes. -/
def claimed (afi : AFI) : Object → Set Net
  | .route r | .route6 r => {q | ∃ p, r.pfx = some p ∧ q.1 = p.masked}
  | .autNum a => src.originated afi a.asn
  | _ => ∅

/-- The set equations of a registry: the value of `ref`, given the values of the sets. -/
def equations (afi : AFI) : (SetRef → Set Net) →o (SetRef → Set Net) where
  toFun value ref := {q | ∃ s, src.found ref = some s ∧
    ((∃ r, .range r ∈ members s ∧ q ∈ r.denote) ∨
     (∃ name source o child, .set name source o ∈ members s ∧
        nestable s.name.cls name.cls = true ∧ SetRef.new source name = some child ∧
        (src.found child).isSome = true ∧ q ∈ o.image (value child)) ∨
     (∃ a o, .as_ a o ∈ members s ∧ q ∈ o.image (src.originated afi a)) ∨
     (∃ c ∈ src.honours s, q ∈ src.claimed afi c))}
  monotone' := by
    intro V W h ref q ⟨s, hs, hq⟩
    refine ⟨s, hs, ?_⟩
    rcases hq with hq | ⟨name, source, o, child, hm, hn, hr, hf, hq⟩ | hq
    · exact .inl hq
    · exact .inr (.inl ⟨name, source, o, child, hm, hn, hr, hf, o.image_mono (h child) hq⟩)
    · exact .inr (.inr hq)

end Source

namespace Expander

variable {E : Type} (e : Expander E)

/-- What a set holds besides other sets, less what the expansion excludes. -/
def own (s : NamedSet) : Set Net :=
  {q | (∃ r, .range r ∈ members s ∧ q ∈ r.denote) ∨
    (∃ a o, .as_ a o ∈ members s ∧ e.excludesAS a = false ∧
      q ∈ o.image (e.src.originated e.afi a)) ∨
    (∃ c ∈ e.src.honours s, (∀ a, c = .autNum a → e.excludesAS a.asn = false) ∧
      q ∈ e.src.claimed e.afi c)}

/-- `s` lists `child` under `o`, and the expansion follows it. -/
def Lists (s : NamedSet) (o : RangeOperator) (child : SetRef) : Prop :=
  ∃ name source, .set name source o ∈ members s ∧ nestable s.name.cls name.cls = true ∧
    e.excludesSet name = false ∧ SetRef.new source name = some child

/-- The equations of an expansion, which leaves out what it excludes. -/
def system : UnionSystem SetRef RangeOperator Net where
  base ref := {q | ∃ s, e.src.found ref = some s ∧ q ∈ e.own s}
  edge ref o child := (∃ s, e.src.found ref = some s ∧ e.Lists s o child) ∧
    (e.src.found child).isSome = true
  rel o p q := o.Allows p.1 q.1

theorem value_system (h : e.exclude = ⟨[], []⟩) :
    e.system.value = OrderHom.lfp (e.src.equations e.afi) := by
  have hset : ∀ n, e.excludesSet n = false := by simp [excludesSet, h]
  have has : ∀ a, e.excludesAS a = false := by simp [excludesAS, h]
  refine congrArg OrderHom.lfp (OrderHom.ext _ _ ?_)
  funext V ref
  ext q
  simp only [UnionSystem.eqns, Source.equations, system, own, Lists, hset, has, OrderHom.coe_mk,
    Set.mem_union, Set.mem_ofPred_eq, RangeOperator.image]
  refine ⟨fun h => ?_, fun h => ?_⟩
  · rcases h with ⟨s, hs, hr | ⟨a, o, hm, -, ha⟩ | ⟨c, hc, -, hq⟩⟩ |
      ⟨o, child, ⟨⟨s, hs, name, source, hm, hn, -, hr⟩, hf⟩, hq⟩
    · exact ⟨s, hs, .inl hr⟩
    · exact ⟨s, hs, .inr (.inr (.inl ⟨a, o, hm, ha⟩))⟩
    · exact ⟨s, hs, .inr (.inr (.inr ⟨c, hc, hq⟩))⟩
    · exact ⟨s, hs, .inr (.inl ⟨name, source, o, child, hm, hn, hr, hf, hq⟩)⟩
  · obtain ⟨s, hs, h⟩ := h
    rcases h with hr | ⟨name, source, o, child, hm, hn, hr, hf, hq⟩ | ⟨a, o, hm, ha⟩ |
      ⟨c, hc, hq⟩
    · exact .inl ⟨s, hs, .inl hr⟩
    · exact .inr ⟨o, child, ⟨⟨s, hs, name, source, hm, hn, trivial, hr⟩, hf⟩, hq⟩
    · exact .inl ⟨s, hs, .inr (.inl ⟨a, o, hm, trivial, ha⟩)⟩
    · exact .inl ⟨s, hs, .inr (.inr ⟨c, hc, fun _ _ => trivial, hq⟩)⟩

end Expander

end Rpsl.Resolve
