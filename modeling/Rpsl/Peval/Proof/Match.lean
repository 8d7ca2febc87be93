import Rpsl.Peval.Match

/-!
# What an unset router leaves open

Matching computes what the Source's answers come to (`Implements.peering`), so a verdict is a
matter of those answers and the session. Giving a router that was not given changes neither a
match nor a refusal (`Lookups.peering_settled`), and what is undecided is so for a router not given
or a regexp (`Lookups.leavesOpen_of_undecided`).
-/

namespace Rpsl.Peval

open Text Resolve Rpsl.Policy Lib

/-! ## Lookups that are kept -/

structure Implements {σ ε : Type} (I : σ → Prop) (q : Lookups (StateT σ (Except ε)))
    (q' : Lookups (Except ε)) : Prop where
  inASSet : ∀ n peer, Computes I (q.inASSet n peer) (q'.inASSet n peer)
  peeringSet : ∀ n, Computes I (q.peeringSet n) (q'.peeringSet n)
  routerSet : ∀ n, Computes I (q.routerSet n) (q'.routerSet n)
  rtrAddrs : ∀ name, Computes I (q.rtrAddrs name) (q'.rtrAddrs name)

namespace Implements

variable {σ ε : Type} {I : σ → Prop} {q : Lookups (StateT σ (Except ε))}
  {q' : Lookups (Except ε)} (h : Implements I q q')

include h

theorem asExpr (peer : ASN) (e : ASExpr) : Computes I (q.asExpr peer e) (q'.asExpr peer e) := by
  induction e with
  | nil => exact .pure _
  | num a => exact .pure _
  | setRef n => exact h.inASSet n peer
  | template t => exact h.inASSet _ peer
  | binary op l r ihl ihr =>
    refine ihl.bind fun l => ihr.bind fun r => ?_
    cases op <;> exact .pure _

theorem rtrHas (name : Text) (a : Addr) : Computes I (q.rtrHas name a) (q'.rtrHas name a) :=
  (h.rtrAddrs name).bind fun _ => .pure _

theorem anyRouter (a : Addr) (ids : List RouterID) :
    Computes I (q.anyRouter a ids) (q'.anyRouter a ids) := by
  induction ids with
  | nil => exact .pure _
  | cons id ids ih =>
    cases id with
    | addr x =>
      rw [Lookups.anyRouter, Lookups.anyRouter]
      split_ifs
      · exact .pure _
      · exact ih
    | name n =>
      refine (h.rtrHas n a).bind fun b => ?_
      cases b
      · exact ih
      · exact .pure _

theorem router (a : Addr) (e : RouterExpr) : Computes I (q.router a e) (q'.router a e) := by
  induction e with
  | addr x => exact .pure _
  | name n => exact h.rtrHas n a.unmap
  | setRef n =>
    refine (h.routerSet n).bind fun ids => ?_
    cases ids with
    | none => exact .pure _
    | some ids => exact h.anyRouter a.unmap ids
  | binary op l r ihl ihr =>
    refine ihl.bind fun l => ihr.bind fun r => ?_
    cases op <;> exact .pure _

theorem sides (l : List (Option RouterExpr × Option Addr × Why)) (v : Decision) :
    Computes I (q.sides l v) (q'.sides l v) := by
  induction l generalizing v with
  | nil => exact .pure _
  | cons x l ih =>
    obtain ⟨e, a, why⟩ := x
    cases e with
    | none => exact ih v
    | some e =>
      cases a with
      | none => exact ih _
      | some a =>
        refine (h.router a e).bind fun b => ?_
        cases b
        · exact .pure _
        · exact ih v

variable (s : Session)

theorem peeringAS (as : ASExpr) (router atRouter : Option RouterExpr) :
    Computes I (q.peeringAS s as router atRouter) (q'.peeringAS s as router atRouter) := by
  refine (h.asExpr s.peer as).bind fun b => ?_
  cases b
  · exact .pure _
  · exact h.sides _ _

theorem members (ps : List Peering) (v : Decision) :
    Computes I (q.members s ps v) (q'.members s ps v) := by
  induction ps generalizing v with
  | nil => exact .pure _
  | cons p ps ih =>
    cases p with
    | setRef n => exact ih v
    | regexp raw re => exact ih _
    | as_ as router atRouter =>
      refine (h.peeringAS s as router atRouter).bind fun d => ?_
      obtain ⟨qv, why⟩ := d
      cases qv
      · exact ih v
      · exact .pure _
      · exact ih _

theorem peering (p : Option Peering) : Computes I (q.peering s p) (q'.peering s p) := by
  cases p with
  | none => exact .pure _
  | some p =>
    cases p with
    | as_ as router atRouter => exact h.peeringAS s as router atRouter
    | regexp raw re => exact .pure _
    | setRef n =>
      refine (h.peeringSet n).bind fun ps => ?_
      cases ps with
      | none => exact .pure _
      | some ps => exact h.members s ps _

end Implements

/-! ## Sessions with more routers given -/

/-- `s'` is `s` with routers given that `s` does not give. -/
structure Session.Completes (s' s : Session) : Prop where
  localAS : s'.localAS = s.localAS
  peer : s'.peer = s.peer
  af : s'.af = s.af
  localRtr : ∀ a, s.localRtr = some a → s'.localRtr = some a
  peerRtr : ∀ a, s.peerRtr = some a → s'.peerRtr = some a

namespace Lookups

variable {ε : Type} {q : Lookups (Except ε)} {s s' : Session}

section

variable (q)

def Fails (x : Option RouterExpr × Option Addr × Why) : Prop :=
  ∃ e a, x.1 = some e ∧ x.2.1 = some a ∧ q.router a e = .ok false

def Holds (x : Option RouterExpr × Option Addr × Why) : Prop :=
  ∀ e a, x.1 = some e → x.2.1 = some a → q.router a e = .ok true

end

def Unset (x : Option RouterExpr × Option Addr × Why) : Prop := x.1.isSome = true ∧ x.2.1 = none

theorem Holds.not_fails {x : Option RouterExpr × Option Addr × Why} (h : q.Holds x) :
    ¬ q.Fails x := by
  intro hyp
  obtain ⟨e, a, he, ha, hf⟩ := hyp
  rw [h e a he ha] at hf
  cases hf

theorem sides_ok {l : List (Option RouterExpr × Option Addr × Why)} {v d : Decision}
    (hv : v.1 ≠ .noMatch) (h : q.sides l v = .ok d) :
    (d.1 = .noMatch ∧ ∃ x ∈ l, q.Fails x) ∨
      ((∀ x ∈ l, q.Holds x) ∧ d.1 ≠ .noMatch ∧
        (d.1 = .undecided ↔ v.1 = .undecided ∨ ∃ x ∈ l, Unset x)) := by
  induction l generalizing v with
  | nil =>
    cases h
    exact .inr ⟨by simp, hv, by simp⟩
  | cons x l ih =>
    obtain ⟨e, a, why⟩ := x
    -- the head side neither fails nor is unset, or is unset
    have hcons : ∀ {v' : Decision}, v'.1 ≠ .noMatch → q.sides l v' = .ok d →
        q.Holds (e, a, why) →
        (v'.1 = .undecided ↔ v.1 = .undecided ∨ Unset (e, a, why)) →
        (d.1 = .noMatch ∧ ∃ x ∈ (e, a, why) :: l, q.Fails x) ∨
          ((∀ x ∈ (e, a, why) :: l, q.Holds x) ∧ d.1 ≠ .noMatch ∧
            (d.1 = .undecided ↔ v.1 = .undecided ∨ ∃ x ∈ (e, a, why) :: l, Unset x)) := by
      intro v' hv' hrest hhead hund
      rcases ih hv' hrest with ⟨hno, x, hx, hf⟩ | ⟨hall, hne, hiff⟩
      · exact .inl ⟨hno, x, List.mem_cons_of_mem _ hx, hf⟩
      · refine .inr ⟨?_, hne, ?_⟩
        · intro x hx
          rcases List.mem_cons.1 hx with hx | hx
          · rw [hx]
            exact hhead
          · exact hall x hx
        · rw [hiff, hund, List.exists_mem_cons_iff, or_assoc]
    cases e with
    | none => exact hcons hv h (fun _ _ he => by cases he) (by simp [Unset])
    | some e =>
      cases a with
      | none =>
        rw [sides] at h
        refine hcons ?_ h (fun _ _ _ ha => by cases ha) ?_
        · split_ifs <;> simp_all
        · split_ifs with hu <;> simp_all [Unset]
      | some a =>
        have hb : (do if ← q.router a e then q.sides l v else pure (.noMatch, none)) =
            (.ok d : Except ε Decision) := h
        cases hr : q.router a e with
        | error err =>
          rw [hr] at hb
          cases hb
        | ok b =>
          rw [hr] at hb
          cases b with
          | false =>
            cases hb
            exact .inl ⟨rfl, _, List.mem_cons_self, e, a, rfl, rfl, hr⟩
          | true =>
            refine hcons hv hb (fun e' a' he ha => ?_) (by simp [Unset])
            cases he
            cases ha
            exact hr

def sidesOf (s : Session) (router atRouter : Option RouterExpr) :
    List (Option RouterExpr × Option Addr × Why) :=
  [(router, s.peerRtr, .peerRouter), (atRouter, s.localRtr, .localRouter)]

theorem peeringAS_ok {as : ASExpr} {router atRouter : Option RouterExpr} {d : Decision}
    (h : q.peeringAS s as router atRouter = .ok d) :
    (q.asExpr s.peer as = .ok false ∧ d.1 = .noMatch) ∨
      (q.asExpr s.peer as = .ok true ∧
        q.sides (sidesOf s router atRouter) (.covers, none) = .ok d) := by
  have hb : (do
      if ← q.asExpr s.peer as then q.sides (sidesOf s router atRouter) (.covers, none)
      else pure (.noMatch, none)) = (.ok d : Except ε Decision) := h
  cases ha : q.asExpr s.peer as with
  | error err =>
    rw [ha] at hb
    cases hb
  | ok b =>
    rw [ha] at hb
    cases b with
    | false =>
      cases hb
      exact .inl ⟨rfl, rfl⟩
    | true => exact .inr ⟨rfl, hb⟩

theorem sidesOf_completes (hs : s'.Completes s) (router atRouter : Option RouterExpr) :
    List.Forall₂ (fun x x' => x'.1 = x.1 ∧ ∀ a, x.2.1 = some a → x'.2.1 = some a)
      (sidesOf s router atRouter) (sidesOf s' router atRouter) :=
  .cons ⟨rfl, hs.peerRtr⟩ (.cons ⟨rfl, hs.localRtr⟩ .nil)

theorem peeringAS_settled (hs : s'.Completes s) {as : ASExpr} {router atRouter : Option RouterExpr}
    {d d' : Decision} (h : q.peeringAS s as router atRouter = .ok d)
    (h' : q.peeringAS s' as router atRouter = .ok d') (hd : d.1 ≠ .undecided) : d'.1 = d.1 := by
  obtain ⟨hto, hfrom⟩ := forall₂_mem (sidesOf_completes hs router atRouter)
  rcases peeringAS_ok h with ⟨ha, hno⟩ | ⟨ha, hl⟩
  · rcases peeringAS_ok h' with ⟨-, hno'⟩ | ⟨ha', -⟩
    · rw [hno, hno']
    · rw [hs.peer, ha] at ha'
      cases ha'
  · rcases peeringAS_ok h' with ⟨ha', -⟩ | ⟨-, hl'⟩
    · rw [hs.peer, ha] at ha'
      cases ha'
    · have hv : (Verdict.covers, (none : Option Why)).1 ≠ .noMatch := by decide
      rcases sides_ok hv hl with ⟨hno, x, hx, e, a, he, hxa, hf⟩ | ⟨hall, hne, hiff⟩
      · -- a side that fails still does
        obtain ⟨y, hy, hye, hya⟩ := hto x hx
        rcases sides_ok hv hl' with ⟨hno', -⟩ | ⟨hall', -⟩
        · rw [hno, hno']
        · exact absurd ⟨e, a, hye.trans he, hya a hxa, hf⟩ (hall' y hy).not_fails
      · -- every side that names routers had one given
        have hset : ∀ y ∈ sidesOf s' router atRouter, ∀ e, y.1 = some e →
            ∃ a, y.2.1 = some a ∧ q.router a e = .ok true := by
          intro y hy e he
          obtain ⟨x, hx, hye, hya⟩ := hfrom y hy
          cases hxa : x.2.1 with
          | none =>
            refine absurd (hiff.2 (.inr ⟨x, hx, ?_, hxa⟩)) hd
            rw [← hye, he]
            rfl
          | some a => exact ⟨a, hya a hxa, hall x hx e a (hye ▸ he) hxa⟩
        rcases sides_ok hv hl' with ⟨-, y, hy, e, a, he, ha, hf⟩ | ⟨-, hne', hiff'⟩
        · obtain ⟨a', ha', hr⟩ := hset y hy e he
          rw [ha] at ha'
          cases ha'
          rw [hf] at hr
          cases hr
        · have hund' : d'.1 ≠ .undecided := by
            intro hu
            rcases hiff'.1 hu with hu | ⟨y, hy, hsome, hnone⟩
            · cases hu
            · obtain ⟨e, he⟩ := Option.isSome_iff_exists.1 hsome
              obtain ⟨a, ha, -⟩ := hset y hy e he
              rw [hnone] at ha
              cases ha
          cases hd1 : d.1 <;> cases hd1' : d'.1 <;> simp_all

/-! ## Peering-sets -/

variable (q s) in
def single : Peering → Except ε Decision
  | .as_ as router atRouter => q.peeringAS s as router atRouter
  | .regexp _ _ => .ok (.undecided, some .peeringRegexp)
  | .setRef _ => .ok (.noMatch, none)

theorem single_settled (hs : s'.Completes s) {p : Peering} {d d' : Decision}
    (h : q.single s p = .ok d) (h' : q.single s' p = .ok d') (hd : d.1 ≠ .undecided) :
    d'.1 = d.1 := by
  cases p with
  | as_ as router atRouter => exact peeringAS_settled hs h h' hd
  | regexp raw re =>
    cases h
    exact absurd rfl hd
  | setRef n =>
    cases h
    cases h'
    rfl

theorem members_cons (p : Peering) (ps : List Peering) (v : Decision) :
    q.members s (p :: ps) v = (do
      let d ← q.single s p
      match d.1 with
      | .covers => pure (.covers, none)
      | .undecided => q.members s ps (if v.1 = .noMatch then (.undecided, d.2) else v)
      | .noMatch => q.members s ps v) := by
  cases p with
  | as_ as router atRouter => rfl
  | regexp raw re => rfl
  | setRef n => rfl

theorem members_ok {ps : List Peering} {v d : Decision} (hv : v.1 ≠ .covers)
    (h : q.members s ps v = .ok d) :
    (d.1 = .covers ∧ ∃ p ∈ ps, ∃ w, q.single s p = .ok (.covers, w)) ∨
      (d.1 ≠ .covers ∧ (∀ p ∈ ps, ∃ w, q.single s p = .ok w ∧ w.1 ≠ .covers) ∧
        (d.1 = .noMatch ↔ v.1 = .noMatch ∧ ∀ p ∈ ps, ∃ w, q.single s p = .ok (.noMatch, w))) := by
  induction ps generalizing v with
  | nil =>
    cases h
    exact .inr ⟨hv, by simp, by simp⟩
  | cons p ps ih =>
    rw [members_cons] at h
    cases hp : q.single s p with
    | error err =>
      rw [hp] at h
      cases h
    | ok w =>
      rw [hp] at h
      -- the rest goes on with `v'`
      have hcons : ∀ {v' : Decision}, v'.1 ≠ .covers → q.members s ps v' = .ok d →
          w.1 ≠ .covers → (v'.1 = .noMatch ↔ v.1 = .noMatch ∧ w.1 = .noMatch) →
          (d.1 = .covers ∧ ∃ p' ∈ p :: ps, ∃ w, q.single s p' = .ok (.covers, w)) ∨
            (d.1 ≠ .covers ∧ (∀ p' ∈ p :: ps, ∃ w, q.single s p' = .ok w ∧ w.1 ≠ .covers) ∧
              (d.1 = .noMatch ↔ v.1 = .noMatch ∧
                ∀ p' ∈ p :: ps, ∃ w, q.single s p' = .ok (.noMatch, w))) := by
        intro v' hv' hrest hw hno
        have hhead : (∃ w, q.single s p = .ok (.noMatch, w)) ↔ w.1 = .noMatch := by
          rw [hp]
          constructor
          · intro hyp
            obtain ⟨w', hw'⟩ := hyp
            cases hw'
            rfl
          · intro h
            exact ⟨w.2, by rw [← h]⟩
        rcases ih hv' hrest with ⟨hc, p', hp', hsingle⟩ | ⟨hne, hall, hiff⟩
        · exact .inl ⟨hc, p', List.mem_cons_of_mem _ hp', hsingle⟩
        · refine .inr ⟨hne, ?_, ?_⟩
          · intro p' hp'
            rcases List.mem_cons.1 hp' with hp' | hp'
            · rw [hp']
              exact ⟨w, hp, hw⟩
            · exact hall p' hp'
          · rw [hiff, hno, List.forall_mem_cons, hhead, and_assoc]
      have hgo : (match w.1 with
          | .covers => pure (.covers, none)
          | .undecided => q.members s ps (if v.1 = .noMatch then (.undecided, w.2) else v)
          | .noMatch => q.members s ps v) = (.ok d : Except ε Decision) := h
      obtain ⟨wv, why⟩ := w
      cases wv with
      | noMatch => exact hcons hv hgo (by simp) (by simp)
      | covers =>
        cases hgo
        exact .inl ⟨rfl, p, List.mem_cons_self, why, hp⟩
      | undecided =>
        refine hcons ?_ hgo (by simp) ?_
        · split_ifs
          · simp
          · exact hv
        · split_ifs with hv0 <;> simp [hv0]

theorem peering_setRef {n : SetName} {ps : List Peering} (h : q.peeringSet n = .ok (some ps)) :
    q.peering s (some (.setRef n)) = q.members s ps (.noMatch, none) := by
  unfold peering
  dsimp only
  rw [h]
  rfl

theorem peering_setRef_none {n : SetName} (h : q.peeringSet n = .ok none) :
    q.peering s (some (.setRef n)) = .ok (.noMatch, none) := by
  unfold peering
  dsimp only
  rw [h]
  rfl

theorem peering_setRef_error {n : SetName} {err : ε} (h : q.peeringSet n = .error err) :
    q.peering s (some (.setRef n)) = .error err := by
  unfold peering
  dsimp only
  rw [h]
  rfl

/-- **A verdict stands when more routers are given.** -/
theorem peering_settled (hs : s'.Completes s) {p : Option Peering} {d d' : Decision}
    (h : q.peering s p = .ok d) (h' : q.peering s' p = .ok d') (hd : d.1 ≠ .undecided) :
    d'.1 = d.1 := by
  match p with
  | none =>
    cases h
    exact absurd rfl hd
  | some (.as_ as router atRouter) => exact peeringAS_settled hs h h' hd
  | some (.regexp raw re) =>
    cases h
    exact absurd rfl hd
  | some (.setRef n) =>
    cases hset : q.peeringSet n with
    | error err =>
      rw [peering_setRef_error hset] at h
      cases h
    | ok ps =>
      cases ps with
      | none =>
        rw [peering_setRef_none hset] at h h'
        cases h
        cases h'
        rfl
      | some ps =>
        have hv : (Verdict.noMatch, (none : Option Why)).1 ≠ .covers := by decide
        have hm : q.members s ps (.noMatch, none) = .ok d := (peering_setRef hset).symm.trans h
        have hm' : q.members s' ps (.noMatch, none) = .ok d' := (peering_setRef hset).symm.trans h'
        rcases members_ok hv hm with ⟨hc, p, hp, w, hw⟩ | ⟨hne, -, hiff⟩
        · -- a peering that matches still does
          rcases members_ok hv hm' with ⟨hc', -⟩ | ⟨-, hall', -⟩
          · rw [hc, hc']
          · obtain ⟨w', hw', hne'⟩ := hall' p hp
            exact absurd (single_settled hs hw hw' (by simp)) hne'
        · have hno : d.1 = .noMatch := by
            cases hd1 : d.1 <;> simp_all
          have hall := (hiff.1 hno).2
          rcases members_ok hv hm' with ⟨-, p, hp, w', hw'⟩ | ⟨-, hall', hiff'⟩
          · obtain ⟨w, hw⟩ := hall p hp
            have := single_settled hs hw hw' (by simp)
            cases this
          · rw [hno]
            refine hiff'.2 ⟨rfl, fun p hp => ?_⟩
            obtain ⟨w, hw⟩ := hall p hp
            obtain ⟨w', hw', -⟩ := hall' p hp
            have hv' : w'.1 = .noMatch := single_settled hs hw hw' (by simp)
            exact ⟨w'.2, by rw [hw', ← hv']⟩

/-! ## Undecided peerings -/

section

variable (q s)

/-- The peering is a regexp, or it names a router the session does not give while its AS
expression, and its router expression for a router given, hold. -/
def Open : Peering → Prop
  | .regexp _ _ => True
  | .setRef _ => False
  | .as_ as router atRouter =>
    q.asExpr s.peer as = .ok true ∧
    (router.isSome = true ∧ s.peerRtr = none ∨ atRouter.isSome = true ∧ s.localRtr = none) ∧
    (∀ e a, router = some e → s.peerRtr = some a → q.router a e = .ok true) ∧
    ∀ e a, atRouter = some e → s.localRtr = some a → q.router a e = .ok true

/-- The peering is open, or one of the set it names is and none of them matches. -/
def LeavesOpen : Peering → Prop
  | .setRef n => ∃ ps, q.peeringSet n = .ok (some ps) ∧ (∃ p ∈ ps, q.Open s p) ∧
      ∀ p ∈ ps, ∀ why, q.peering s (some p) ≠ .ok (.covers, why)
  | p => q.Open s p

end

theorem open_of_single {p : Peering} {d : Decision} (h : q.single s p = .ok d)
    (hd : d.1 = .undecided) : q.Open s p := by
  cases p with
  | regexp raw re => trivial
  | setRef n =>
    cases h
    cases hd
  | as_ as router atRouter =>
    rcases peeringAS_ok h with ⟨-, hno⟩ | ⟨ha, hl⟩
    · rw [hno] at hd
      cases hd
    · rcases sides_ok (by decide) hl with ⟨hno, -⟩ | ⟨hall, -, hiff⟩
      · rw [hno] at hd
        cases hd
      · have hx := hall (router, s.peerRtr, .peerRouter) (by simp [sidesOf])
        have hy := hall (atRouter, s.localRtr, .localRouter) (by simp [sidesOf])
        refine ⟨ha, ?_, hx, hy⟩
        rcases hiff.1 hd with hu | hu
        · cases hu
        · simpa [sidesOf, Unset] using hu

theorem leavesOpen_of_undecided {p : Peering} {d : Decision}
    (hflat : ∀ n ps, q.peeringSet n = .ok (some ps) → ∀ m, .setRef m ∉ ps)
    (h : q.peering s (some p) = .ok d) (hd : d.1 = .undecided) : q.LeavesOpen s p := by
  cases p with
  | as_ as router atRouter => exact open_of_single (p := .as_ as router atRouter) h hd
  | regexp raw re => trivial
  | setRef n =>
    cases hset : q.peeringSet n with
    | error err =>
      rw [peering_setRef_error hset] at h
      cases h
    | ok ps =>
      cases ps with
      | none =>
        rw [peering_setRef_none hset] at h
        cases h
        cases hd
      | some ps =>
        have hm : q.members s ps (.noMatch, none) = .ok d := (peering_setRef hset).symm.trans h
        rcases members_ok (by decide) hm with ⟨hc, -⟩ | ⟨-, hall, hiff⟩
        · rw [hc] at hd
          cases hd
        · have hsome : ∃ p ∈ ps, q.Open s p := by
            by_contra hnone
            push Not at hnone
            have hno : d.1 = .noMatch := by
              refine hiff.2 ⟨rfl, fun p hp => ?_⟩
              obtain ⟨w, hw, hwc⟩ := hall p hp
              obtain ⟨wv, why⟩ := w
              cases wv with
              | noMatch => exact ⟨why, hw⟩
              | covers => exact absurd rfl hwc
              | undecided => exact absurd (open_of_single hw rfl) (hnone p hp)
            rw [hno] at hd
            cases hd
          refine ⟨ps, hset, hsome, fun p hp why hcov => ?_⟩
          obtain ⟨w, hw, hwc⟩ := hall p hp
          cases p with
          | setRef m => exact hflat n ps hset m hp
          | regexp raw re => cases hcov
          | as_ as router atRouter =>
            have hcov' : q.single s (.as_ as router atRouter) = .ok (.covers, why) := hcov
            rw [hcov'] at hw
            cases hw
            exact hwc rfl

end Lookups

/-! ## A call's lookups -/

/-- The Source answers the query for an inet-rtr, if only that there is none of the name. -/
def Answers {E : Type} (src : PolicySource E) (name : Text) : Prop :=
  ∀ e, src.inetRtr name [] ≠ .error (.failed e)

/-- Two spellings of an inet-rtr's name that are answered get one answer. A Source may refuse a
spelling. -/
def FoldsNames {E : Type} (src : PolicySource E) : Prop :=
  ∀ name name', rtrKey name = rtrKey name' → Answers src name → Answers src name' →
    src.inetRtr name [] = src.inetRtr name' []

section

variable {E : Type} {parseAddr : Text → Option (Addr × Text)} {ev : Evaluator E} {s s' : Session}

variable (ev) in
/-- The addresses the Source gives for a spelling of the name. -/
def GivesRtr (name : Text) (addrs : List Addr) : Prop :=
  ∃ name' x, rtrKey name' = rtrKey name ∧ ev.askRtr name' = .ok x ∧ x.getD [] = addrs

variable (parseAddr ev s) in
open Classical in
/-- The Source's answers, an inet-rtr's to whatever spelling of its name is answered. -/
noncomputable def answers : Lookups (Except (ExpandError E)) :=
  { ev.asked parseAddr s with
    rtrAddrs := fun name =>
      if h : ∃ addrs, GivesRtr ev name addrs then .ok h.choose
      else (ev.asked parseAddr s).rtrAddrs name }

theorem GivesRtr.unique (hnames : FoldsNames ev.src) {name : Text} {addrs addrs' : List Addr}
    (h : GivesRtr ev name addrs) (h' : GivesRtr ev name addrs') : addrs = addrs' := by
  have hanswers : ∀ {n x}, ev.askRtr n = .ok x → Answers ev.src n := by
    intro n x hask e he
    rw [Evaluator.askRtr, he] at hask
    cases hask
  obtain ⟨n, x, hn, hx, rfl⟩ := h
  obtain ⟨n', x', hn', hx', rfl⟩ := h'
  have hask : ev.askRtr n = ev.askRtr n' := by
    unfold Evaluator.askRtr
    rw [hnames n n' (hn.trans hn'.symm) (hanswers hx) (hanswers hx')]
  rw [hx, hx'] at hask
  cases hask
  rfl

theorem answers_rtrAddrs (hnames : FoldsNames ev.src) {name : Text} {addrs : List Addr} :
    (answers parseAddr ev s).rtrAddrs name = .ok addrs ↔ GivesRtr ev name addrs := by
  unfold answers
  dsimp only
  split_ifs with h
  · rw [Except.ok.injEq]
    constructor
    · rintro rfl
      exact h.choose_spec
    · exact h.choose_spec.unique hnames
  · refine iff_of_false (fun hask => h ?_) fun hg => h ⟨_, hg⟩
    obtain ⟨x, hx, hret⟩ := bind_eq_ok.1 hask
    exact ⟨_, name, x, rfl, hx, rfl⟩

variable (parseAddr ev s) in
structure Kept (c : Call) : Prop where
  asns : ∀ n ms, c.asns.lookup n = some ms → ∃ refs, ev.askAS s n = .ok (ms, refs)
  prngs : ∀ n ps, c.prngs.lookup n = some ps → ∃ refs, ev.askPeerings s n = .ok (ps, refs)
  rtrSets : ∀ n rs, c.rtrSets.lookup n = some rs →
    ∃ refs, ev.askRouters parseAddr s n = .ok (rs, refs)
  rtrs : ∀ name addrs, c.rtrs.lookup (rtrKey name) = some addrs → GivesRtr ev name addrs

theorem kept_new : Kept parseAddr ev s Call.new :=
  ⟨by simp [Call.new], by simp [Call.new], by simp [Call.new], by simp [Call.new]⟩

theorem computes_note (refs : List SetRef) :
    Computes (Kept parseAddr ev s) (note refs) (.ok () : Except (ExpandError E) Unit) :=
  .modify fun _ hc => ⟨hc.asns, hc.prngs, hc.rtrSets, hc.rtrs⟩

theorem computes_fetch {β : Type} (x : Except (ExpandError E) (β × List SetRef)) :
    Computes (Kept parseAddr ev s) (Evaluator.fetch x) (x.map Prod.fst) := by
  cases x with
  | error err => exact .throw err
  | ok r => exact (computes_note r.2).bind fun _ => .pure r.1

theorem computes_fetchRtr (hnames : FoldsNames ev.src) (name : Text) :
    Computes (Kept parseAddr ev s) (ev.fetchRtr name)
      ((answers parseAddr ev s).rtrAddrs name) := by
  unfold Evaluator.fetchRtr
  cases hask : ev.askRtr name with
  | error err => exact .throw err
  | ok x =>
    rw [(answers_rtrAddrs hnames).2 ⟨name, x, rfl, hask, rfl⟩]
    cases x with
    | some addrs => exact .pure addrs
    | none =>
      have hnote : Computes (Kept parseAddr ev s) (noteRtr (rtrKey name))
          (.ok () : Except (ExpandError E) Unit) :=
        .modify fun _ hc => ⟨hc.asns, hc.prngs, hc.rtrSets, hc.rtrs⟩
      exact hnote.bind fun _ => .pure []

theorem lookup_cons_some {κ ν : Type} [BEq κ] [LawfulBEq κ] {k k' : κ} {v w : ν} {l : List (κ × ν)}
    (h : ((k, v) :: l).lookup k' = some w) : k' = k ∧ v = w ∨ l.lookup k' = some w := by
  rw [List.lookup_cons] at h
  cases hk : k' == k with
  | true =>
    rw [hk] at h
    cases h
    exact .inl ⟨eq_of_beq hk, rfl⟩
  | false =>
    rw [hk] at h
    exact .inr h

theorem map_fst_eq_ok {β γ ε : Type} {x : Except ε (β × γ)} {b : β} (h : x.map Prod.fst = .ok b) :
    ∃ c, x = .ok (b, c) := by
  cases x with
  | error err => cases h
  | ok r =>
    cases h
    exact ⟨r.2, rfl⟩

theorem answers_peeringSet (n : SetName) :
    (answers parseAddr ev s).peeringSet n = (ev.askPeerings s n).map Prod.fst := by
  unfold answers Evaluator.asked
  dsimp only
  cases ev.askPeerings s n <;> rfl

theorem answers_routerSet (n : SetName) :
    (answers parseAddr ev s).routerSet n = (ev.askRouters parseAddr s n).map Prod.fst := by
  unfold answers Evaluator.asked
  dsimp only
  cases ev.askRouters parseAddr s n <;> rfl

/-- **A call answers as the Source does.** -/
theorem implements_call (hnames : FoldsNames ev.src) :
    Implements (Kept parseAddr ev s) (ev.call parseAddr s) (answers parseAddr ev s) where
  inASSet n peer := by
    have hmemo : Computes (Kept parseAddr ev s)
        (memo (fun c => c.asns.lookup n) (Evaluator.fetch (ev.askAS s n))
          fun ms c => { c with asns := (n, ms) :: c.asns }) ((ev.askAS s n).map Prod.fst) := by
      refine .memo (fun c hc ms h => ?_) (computes_fetch _) fun c ms hc h => ?_
      · obtain ⟨refs, hask⟩ := hc.asns n ms h
        rw [hask]
        rfl
      · refine ⟨fun n' ms' h' => ?_, hc.prngs, hc.rtrSets, hc.rtrs⟩
        rcases lookup_cons_some h' with ⟨hn, hms⟩ | h'
        · rw [hn, ← hms]
          exact map_fst_eq_ok h
        · exact hc.asns n' ms' h'
    have hasked : (answers parseAddr ev s).inASSet n peer = if n.isAny then .ok true else
        ((ev.askAS s n).map Prod.fst).bind fun ms => .ok (ms.any || ms.set.contains peer) := by
      change (if n.isAny = true then _ else _) = _
      split_ifs
      · rfl
      · cases ev.askAS s n <;> rfl
    rw [hasked]
    change Computes _ (if n.isAny = true then _ else _) _
    split_ifs
    · exact .pure true
    · exact hmemo.bind fun ms => .pure _
  peeringSet n := by
    rw [answers_peeringSet]
    unfold Evaluator.call
    dsimp only
    refine .memo (fun c hc ps h => ?_) (computes_fetch _) fun c ps hc h => ?_
    · obtain ⟨refs, hask⟩ := hc.prngs n ps h
      rw [hask]
      rfl
    · refine ⟨hc.asns, fun n' ps' h' => ?_, hc.rtrSets, hc.rtrs⟩
      rcases lookup_cons_some h' with ⟨hn, hps⟩ | h'
      · rw [hn, ← hps]
        exact map_fst_eq_ok h
      · exact hc.prngs n' ps' h'
  routerSet n := by
    rw [answers_routerSet]
    unfold Evaluator.call
    dsimp only
    refine .memo (fun c hc rs h => ?_) (computes_fetch _) fun c rs hc h => ?_
    · obtain ⟨refs, hask⟩ := hc.rtrSets n rs h
      rw [hask]
      rfl
    · refine ⟨hc.asns, hc.prngs, fun n' rs' h' => ?_, hc.rtrs⟩
      rcases lookup_cons_some h' with ⟨hn, hrs⟩ | h'
      · rw [hn, ← hrs]
        exact map_fst_eq_ok h
      · exact hc.rtrSets n' rs' h'
  rtrAddrs name := by
    unfold Evaluator.call
    dsimp only
    refine .memo (fun c hc addrs h => ?_) (computes_fetchRtr hnames name) fun c addrs hc h => ?_
    · exact (answers_rtrAddrs hnames).2 (hc.rtrs name addrs h)
    · refine ⟨hc.asns, hc.prngs, hc.rtrSets, fun name' addrs' h' => ?_⟩
      rcases lookup_cons_some h' with ⟨hkey, rfl⟩ | h'
      · -- the name may be written in another way
        obtain ⟨n, x, hn, hx⟩ := (answers_rtrAddrs hnames).1 h
        exact ⟨n, x, hn.trans hkey.symm, hx⟩
      · exact hc.rtrs name' addrs' h'

/-! ## Peering-sets name no set -/

theorem mem_foldl_addPeering {ps qs : List Peering} {p : Peering}
    (h : p ∈ ps.foldl addPeering qs) : p ∈ qs ∨ p ∈ ps := by
  induction ps generalizing qs with
  | nil => exact .inl h
  | cons x ps ih =>
    rcases ih h with h | h
    · unfold addPeering at h
      split_ifs at h
      · exact .inl h
      · rcases List.mem_append.1 h with h | h
        · exact .inl h
        · exact .inr (by rw [List.mem_singleton.1 h]; exact List.mem_cons_self)
    · exact .inr (List.mem_cons_of_mem _ h)

theorem setRef_not_mem_peeringsOf (nd : SetNode) (m : SetName) :
    .setRef m ∉ Expander.peeringsOf nd := by
  unfold Expander.peeringsOf
  split
  · intro h
    obtain ⟨p, -, hp⟩ := List.mem_filterMap.1 h
    split at hp
    · cases hp
    · rename_i hne
      exact hne m hp
  · simp

theorem setRef_not_mem {n : SetName} {ps : List Peering}
    (h : (answers parseAddr ev s).peeringSet n = .ok (some ps)) (m : SetName) : .setRef m ∉ ps := by
  rw [answers_peeringSet] at h
  obtain ⟨refs, hask⟩ := map_fst_eq_ok h
  unfold Evaluator.askPeerings Evaluator.expanded at hask
  split at hask
  · rename_i r hr
    cases hask
    unfold Expander.expandPeerings at hr
    split_ifs at hr
    cases hg : (ev.matcher s).discover n.ref false with
    | error err =>
      rw [hg] at hr
      cases hr
    | ok g =>
      rw [hg] at hr
      cases hr
      intro hm
      rcases mem_foldl_addPeering hm with hm | hm
      · cases hm
      · obtain ⟨nd, -, hnd⟩ := List.mem_flatMap.1 hm
        exact setRef_not_mem_peeringsOf nd m hnd
  · split_ifs at hask
    cases hask

/-! ## Calls -/

variable (parseAddr ev s) in
/-- The states a call goes through as it matches peerings. -/
inductive Reached : Call → Prop
  | new : Reached Call.new
  | peering {c c' : Call} {p : Option Peering} {d : Decision} :
      Reached c → ev.peering parseAddr s p c = .ok (d, c') → Reached c'

theorem Reached.kept (hnames : FoldsNames ev.src) {c : Call} (h : Reached parseAddr ev s c) :
    Kept parseAddr ev s c := by
  induction h with
  | new => exact kept_new
  | peering _ hp ih => exact ((implements_call hnames).peering s _ _ _ _ ih hp).2

theorem answers_completes (hs : s'.Completes s) :
    answers parseAddr ev s' = answers parseAddr ev s := by
  have hm : ev.matcher s' = ev.matcher s := by
    unfold Evaluator.matcher
    rw [hs.peer, hs.af]
  unfold answers Evaluator.asked Evaluator.askAS Evaluator.askPeerings Evaluator.askRouters
  rw [hm]

variable (parseAddr ev) in
/-- In every call for a session, a verdict on a peering is the one of every call for that session
with more routers given, and an undecided one is left open by the routers not given. -/
def Settles : Prop :=
  ∀ (s s' : Session) (c c' c₁ : Call) (p : Peering) (d : Decision), s'.Completes s →
    Reached parseAddr ev s c → Reached parseAddr ev s' c' →
    ev.peering parseAddr s (some p) c = .ok (d, c₁) →
    (d.1 ≠ .undecided → ∀ d' c₁', ev.peering parseAddr s' (some p) c' = .ok (d', c₁') →
      d'.1 = d.1) ∧
    (d.1 = .undecided → (answers parseAddr ev s).LeavesOpen s p)

/-- **Matching with routers not given is sound**, for a Source that does not tell the spellings of
an inet-rtr's name apart that it answers. -/
theorem settles_of_foldsNames (hnames : FoldsNames ev.src) : Settles parseAddr ev := by
  intro s s' c c' c₁ p d hs hc hc' h
  have hd := (implements_call hnames).peering s (some p) _ _ _ (hc.kept hnames) h
  refine ⟨fun hdec d' c₁' h' => ?_, fun hund => ?_⟩
  · have hsame := ((implements_call hnames).peering s' (some p) _ _ _ (hc'.kept hnames) h').1
    rw [answers_completes hs] at hsame
    exact Lookups.peering_settled hs hd.1 hsame hdec
  · exact Lookups.leavesOpen_of_undecided (fun n ps => setRef_not_mem) hd.1 hund

end

/-! ## An inet-rtr named in two ways -/

/-- A Source with no sets and one inet-rtr; which spellings of its name it refuses and which of the
others it knows is given. -/
def oneRouter (refuses knows : Text → Bool) : PolicySource Unit where
  getSet _ := .error .notFound
  originatedRoutes _ _ := .ok []
  membersByRef _ := .ok []
  inetRtr name _ :=
    if refuses name then .error (.failed ())
    else if knows name then
      .ok (some ⟨lit "rtr.example", [⟨.v4, 0xC0000201#32⟩], [], [], [], [], none⟩)
    else .error .notFound

def oneRouterEvaluator (refuses knows : Text → Bool) : Evaluator Unit where
  src := oneRouter refuses knows
  expander := ⟨(oneRouter refuses knows).toSource, 0, 0, 0, 0, .any, ⟨[], []⟩, 0⟩

def twoSpellings : Peering :=
  .as_ (.num 1) (some (.name (lit "rtr.example"))) (some (.name (lit "RTR.example")))

def localOnly : Session := ⟨2, 1, some ⟨.v4, 0xC0000201#32⟩, none, ipv4Unicast⟩

def bothGiven : Session := { localOnly with peerRtr := some ⟨.v4, 0xC0000201#32⟩ }

theorem bothGiven_completes : bothGiven.Completes localOnly :=
  ⟨rfl, rfl, rfl, fun _ h => h, fun _ h => by cases h⟩

/-- A Source that knows the router by one spelling only: the lookup of the peer's router leaves
what it found for the local one. -/
theorem spelling_not_settles :
    ¬ Settles (fun _ => none) (oneRouterEvaluator (fun _ => false) (· = lit "rtr.example")) := by
  intro h
  have hno : (oneRouterEvaluator (fun _ => false) (· = lit "rtr.example")).peering (fun _ => none)
      localOnly (some twoSpellings) Call.new = .ok ((.noMatch, none), _) := rfl
  have hyes : (oneRouterEvaluator (fun _ => false) (· = lit "rtr.example")).peering (fun _ => none)
      bothGiven (some twoSpellings) Call.new = .ok ((.covers, none), _) := rfl
  have := (h _ _ _ _ _ _ _ bothGiven_completes .new .new hno).1 (by decide) _ _ hyes
  cases this

/-- One that compares names without regard to case, and refuses those with blanks around them,
settles it. -/
theorem folded_settles :
    let refuses (name : Text) : Bool := trimSpace name ≠ name
    let knows (name : Text) : Bool := rtrKey name = lit "RTR.EXAMPLE"
    FoldsNames (oneRouter refuses knows) ∧
      Settles (fun _ => none) (oneRouterEvaluator refuses knows) := by
  intro refuses knows
  have hfold : FoldsNames (oneRouter refuses knows) := by
    intro name name' h hname hname'
    have hrefuses : ∀ n, Answers (oneRouter refuses knows) n → refuses n = false := by
      intro n hn
      cases hr : refuses n with
      | false => rfl
      | true => exact absurd (by simp [oneRouter, hr]) (hn ())
    have hknows : knows name = knows name' := by simp only [knows, h]
    simp only [oneRouter, hrefuses _ hname, hrefuses _ hname', hknows]
  exact ⟨hfold, settles_of_foldsNames hfold⟩

end Rpsl.Peval
