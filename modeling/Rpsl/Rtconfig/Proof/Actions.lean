import Mathlib.Data.Set.Basic
import Mathlib.Order.SetNotation
import Rpsl.Lib.Outcome
import Rpsl.Rtconfig.Actions

/-!
# Actions folded and actions in order

`compileActions` folds the community actions of a clause into sets. What the actions do to a route
one after another is `applyCommunity` and `applyPrepend`; what the folded operations do is
`SetOps.communities` and `SetOps.prepend`. Each action changes the second as the first says
(`compileAction_folds`), and what is added stays apart from what is deleted, so the order a vendor
applies the two in does not matter.
-/

namespace Rpsl.Rtconfig

open Text Policy Lib

/-! ## Actions in order -/

/-- What a community action does. -/
inductive CommunityEdit
  | replace
  | add
  | remove
deriving DecidableEq

/-- "=" replaces, ".=" and append add, delete removes. -/
def communityEdit (a : Action) : CommunityEdit :=
  if a.op = .assign then .replace
  else if a.method = lit "delete" then .remove
  else .add

/-- The values an action lists: a method's arguments, or those of the right side. -/
def communityTexts (a : Action) : List Text := if a.op = .method then a.args else braceList a.value

/-- The communities an action names. -/
def carried (a : Action) : Set Community := {c | ∃ s ∈ communityTexts a, Community.parse s = some c}

/-- A route's communities after an action. -/
def applyCommunity (s : Set Community) (a : Action) : Set Community :=
  if a.attr = lit "community" then
    match communityEdit a with
    | .replace => carried a
    | .add => s ∪ carried a
    | .remove => s \ carried a
  else s

/-- A route's AS path after an action. -/
def applyPrepend (path : List ASN) (a : Action) : List ASN := (a.prepends.getD []) ++ path

/-! ## Operations -/

/-- A list as a set. -/
def asSet (cs : List Community) : Set Community := {c | c ∈ cs}

def SetOps.communities (ops : SetOps) (s : Set Community) : Set Community :=
  if ops.commSetGiven then asSet ops.commSet else (s \ asSet ops.commDel) ∪ asSet ops.commAdd

def SetOps.Apart (ops : SetOps) : Prop := Disjoint (asSet ops.commAdd) (asSet ops.commDel)

theorem asSet_union (a b : List Community) : asSet (union a b) = asSet a ∪ asSet b := by
  ext c
  exact mem_union

theorem asSet_without (a b : List Community) : asSet (without a b) = asSet a \ asSet b := by
  ext c
  simp [asSet, without]

namespace Generator

variable {parseAddr : Text → Option (Addr × Text)} {g : Generator}

theorem texts_of_communityVals {a : Action} {vals : List Text} (ha : a.attr = lit "community")
    (h : g.communityVals a = .ok vals) : vals = communityTexts a := by
  unfold communityVals at h
  unfold communityTexts
  split_ifs at h with hadd hdel
  · cases h
    cases hop : a.op with
    | method =>
      have hm : a.method = lit "append" := by simpa [hop] using hadd
      simp [Action.communities, ha, hop, hm]
    | _ => simp [Action.communities, ha, hop]
  · cases h
    rw [if_pos hdel.1]

variable {ops ops' : SetOps}

theorem communityAction_folds {a : Action} (ha : a.attr = lit "community")
    (h : g.communityAction ops a = .ok ops') :
    (∀ s, ops'.communities s = applyCommunity (ops.communities s) a) ∧ (ops.Apart → ops'.Apart) ∧
      ops'.prepend = ops.prepend := by
  unfold communityAction at h
  obtain ⟨vals, hvals, h⟩ := bind_eq_ok.1 h
  obtain ⟨cs, hcs, h⟩ := bind_eq_ok.1 h
  have hnamed : carried a = asSet cs := by
    ext c
    rw [carried, ← texts_of_communityVals ha hvals]
    exact (mem_parseCommunities hcs c).symm
  have hcomm : ∀ s, applyCommunity s a = match communityEdit a with
      | .replace => asSet cs
      | .add => s ∪ asSet cs
      | .remove => s \ asSet cs := by
    intro s
    rw [applyCommunity, if_pos ha, hnamed]
  unfold communityEdit at hcomm
  unfold SetOps.communities SetOps.Apart
  split_ifs at h hcomm with hassign hdel hgiven hgiven
  · cases h
    refine ⟨fun s => (hcomm _).symm, fun _ => ?_, rfl⟩
    simp [asSet]
  · cases h
    refine ⟨fun s => ?_, fun hapart => hapart, rfl⟩
    rw [hcomm, if_pos hgiven, if_pos hgiven, asSet_without]
  · cases h
    refine ⟨fun s => ?_, fun hapart => ?_, rfl⟩
    · rw [hcomm, if_neg hgiven, if_neg hgiven, asSet_without, asSet_union, Set.union_sdiff_distrib,
        Set.sdiff_sdiff]
    · dsimp only
      rw [asSet_without, asSet_union, Set.disjoint_union_right]
      exact ⟨hapart.mono_left Set.sdiff_subset, Set.disjoint_sdiff_left⟩
  · cases h
    refine ⟨fun s => ?_, fun hapart => hapart, rfl⟩
    rw [hcomm, if_pos hgiven, if_pos hgiven, asSet_union]
  · cases h
    refine ⟨fun s => ?_, fun hapart => ?_, rfl⟩
    · rw [hcomm, if_neg hgiven, if_neg hgiven, asSet_without, asSet_union]
      ext c
      simp only [Set.mem_union, Set.mem_sdiff]
      tauto
    · dsimp only
      rw [asSet_without, asSet_union, Set.disjoint_union_left]
      exact ⟨hapart.mono_right Set.sdiff_subset, Set.disjoint_sdiff_right⟩

theorem folds_of_other {a : Action} {attr : Text} (ha : a.attr = attr)
    (hcomm : attr ≠ lit "community") (hpath : attr ≠ lit "aspath")
    (hset : ops'.communities = ops.communities) (hapart : ops'.Apart = ops.Apart)
    (hpre : ops'.prepend = ops.prepend) :
    (∀ s, ops'.communities s = applyCommunity (ops.communities s) a) ∧ (ops.Apart → ops'.Apart) ∧
      ∀ path, ops'.prepend ++ path = applyPrepend (ops.prepend ++ path) a := by
  have hno : a.prepends = none := by
    unfold Action.prepends
    rw [if_pos (.inr (.inl (ha ▸ hpath)))]
  refine ⟨fun s => ?_, fun h => hapart ▸ h, fun path => ?_⟩
  · rw [hset, applyCommunity, if_neg (ha ▸ hcomm)]
  · rw [hpre, applyPrepend, hno]
    rfl

variable {afi : AFI}

/-- **Each action changes what the operations do as it changes a route.** -/
theorem compileAction_folds {a : Action}
    (h : g.compileAction parseAddr afi ops a = .ok ops') :
    (∀ s, ops'.communities s = applyCommunity (ops.communities s) a) ∧ (ops.Apart → ops'.Apart) ∧
      ∀ path, ops'.prepend ++ path = applyPrepend (ops.prepend ++ path) a := by
  unfold compileAction at h
  split at h
  · rename_i hpref
    split at h
    · cases h
    · split_ifs at h
      cases h
      exact folds_of_other hpref.1 (by decide) (by decide) rfl rfl rfl
  split at h
  · rename_i hmed
    split at h
    · split_ifs at h
      cases h
      exact folds_of_other hmed.1 (by decide) (by decide) rfl rfl rfl
    · split at h
      · cases h
      · split_ifs at h
        cases h
        exact folds_of_other hmed.1 (by decide) (by decide) rfl rfl rfl
  split at h
  · rename_i hcomm
    obtain ⟨hset, hapart, hpre⟩ := communityAction_folds hcomm h
    refine ⟨hset, hapart, fun path => ?_⟩
    have hno : a.prepends = none := by
      unfold Action.prepends
      rw [if_pos (.inr (.inl (hcomm ▸ by decide)))]
    rw [hpre, applyPrepend, hno]
    rfl
  split at h
  · rename_i hcomm hpre
    split at h
    · cases h
    · rename_i as has
      cases h
      refine ⟨fun s => ?_, fun hapart => hapart, fun path => ?_⟩
      · rw [applyCommunity, if_neg hcomm]
        rfl
      · rw [applyPrepend, has, List.append_assoc]
        rfl
  split at h
  · rename_i hhop
    split at h
    · split_ifs at h
      cases h
      exact folds_of_other hhop.1 (by decide) (by decide) rfl rfl rfl
    · split at h
      · cases h
      · split_ifs at h
        cases h
        exact folds_of_other hhop.1 (by decide) (by decide) rfl rfl rfl
  · cases h

theorem foldlM_folds {acts : List Action}
    (h : acts.foldlM (g.compileAction parseAddr afi) ops = .ok ops') :
    (∀ s, ops'.communities s = acts.foldl applyCommunity (ops.communities s)) ∧
      (ops.Apart → ops'.Apart) ∧
      ∀ path, ops'.prepend ++ path = acts.foldl applyPrepend (ops.prepend ++ path) := by
  induction acts generalizing ops with
  | nil =>
    cases h
    exact ⟨fun s => rfl, id, fun path => rfl⟩
  | cons a acts ih =>
    rw [List.foldlM_cons] at h
    obtain ⟨ops₁, h₁, h⟩ := bind_eq_ok.1 h
    obtain ⟨hset, hapart, hpre⟩ := compileAction_folds h₁
    obtain ⟨hset', hapart', hpre'⟩ := ih h
    refine ⟨fun s => ?_, fun hops => hapart' (hapart hops), fun path => ?_⟩
    · rw [hset', hset, List.foldl_cons]
    · rw [hpre', hpre, List.foldl_cons]

/-- **Folded actions do what the actions do in order.** What is added and what is deleted have
nothing in common, so either may be done first. -/
theorem compileActions_inOrder {acts : List Action} {term : Text}
    (h : g.compileActions parseAddr acts afi term = .ok ops) :
    (∀ s, acts.foldl applyCommunity s =
      if ops.commSetGiven then asSet ops.commSet
      else (s \ asSet ops.commDel) ∪ asSet ops.commAdd) ∧
    (∀ c ∈ ops.commAdd, c ∉ ops.commDel) ∧
    (∀ s, (s \ asSet ops.commDel) ∪ asSet ops.commAdd =
      (s ∪ asSet ops.commAdd) \ asSet ops.commDel) ∧
    ∀ path, acts.foldl applyPrepend path = ops.prepend ++ path := by
  unfold compileActions at h
  obtain ⟨ops', hfold, h⟩ := bind_eq_ok.1 h
  split_ifs at h
  cases h
  obtain ⟨hset, hapart, hpre⟩ := foldlM_folds hfold
  have hempty : SetOps.Apart {} := by simp [SetOps.Apart, asSet]
  have hdisj := hapart hempty
  refine ⟨fun s => ?_, fun c hadd hdel => ?_, fun s => ?_, fun path => ?_⟩
  · have hstart : SetOps.communities {} s = s := by simp [SetOps.communities, asSet]
    have := hset s
    rw [hstart] at this
    exact this.symm
  · exact Set.disjoint_left.1 hdisj hadd hdel
  · rw [Set.union_sdiff_distrib, hdisj.sdiff_eq_left]
  · exact (hpre path).symm

end Generator

/-- `pref = 10; community.append(1:2, 1:3); community.delete(1:1, 1:3); aspath.prepend(AS1, AS2);
aspath.prepend(AS3)`, after `community = {1:1}` where `assigned`. -/
def sampleActions (assigned : Bool) : List Action :=
  (if assigned then [⟨lit "community", [], .assign, [], lit "\x7b1:1\x7d", []⟩] else []) ++
  [⟨lit "pref", [], .assign, [], lit "10", []⟩,
    ⟨lit "community", lit "append", .method, [lit "1:2", lit "1:3"], [], []⟩,
    ⟨lit "community", lit "delete", .method, [lit "1:1", lit "1:3"], [], []⟩,
    ⟨lit "aspath", lit "prepend", .method, [lit "AS1", lit "AS2"], [], []⟩,
    ⟨lit "aspath", lit "prepend", .method, [lit "AS3"], [], []⟩]

theorem sampleActions_inOrder :
    (∀ s, (sampleActions true).foldl applyCommunity s = asSet [⟨1, 2⟩]) ∧
    (∀ s, (sampleActions false).foldl applyCommunity s =
      (s \ asSet [⟨1, 1⟩, ⟨1, 3⟩]) ∪ asSet [⟨1, 2⟩]) ∧
    ∀ assigned path, (sampleActions assigned).foldl applyPrepend path = [3, 1, 2] ++ path := by
  have hset : Generator.compileActions (fun _ => none) ⟨.ios, 0, {}, 0, 0, 0⟩ (sampleActions true)
      .v4 [] = .ok ⟨990, -1, false, [⟨1, 2⟩], true, [], [], [3, 1, 2], none, false⟩ := by
    decide +kernel
  have hfold : Generator.compileActions (fun _ => none) ⟨.ios, 0, {}, 0, 0, 0⟩
      (sampleActions false) .v4 [] =
        .ok ⟨990, -1, false, [], false, [⟨1, 2⟩], [⟨1, 1⟩, ⟨1, 3⟩], [3, 1, 2], none, false⟩ := by
    decide +kernel
  have h := Generator.compileActions_inOrder hset
  have h' := Generator.compileActions_inOrder hfold
  refine ⟨h.1, h'.1, fun assigned => ?_⟩
  cases assigned with
  | true => exact h.2.2.2
  | false => exact h'.2.2.2

end Rpsl.Rtconfig
