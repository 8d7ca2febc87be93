import Rpsl.Lexer.Proof.Append

/-!
# The kinds of a text's tokens

What the kinds of the lines say of the kinds of the tokens: lines that start no attribute make
none, lines that are not blank make no blank token, and the first line decides the first token.
-/

namespace Rpsl.Lexer

@[simp] theorem token_kind (lineBase byteOffset : Int) (g : Group) :
    (token lineBase byteOffset g).kind = g.1 := by
  obtain ⟨k, pls⟩ := g
  cases pls with
  | nil => rfl
  | cons pl pls => rcases k with _ | _ | _ | _ <;> rfl

theorem startsAttribute_not_blank {text : Bytes} (h : startsAttribute text = true) :
    isBlankLine text = false := by
  cases text with
  | nil => cases h
  | cons b bs =>
    simp only [startsAttribute] at h
    split at h
    · cases h
    · rename_i hb
      simp only [Bool.or_eq_true, not_or, Bool.not_eq_true] at hb
      simp [isBlankLine, hb.1.1]

theorem classify_blank {text : Bytes} (h : isBlankLine text = true) (haveCur : Bool) :
    classify text haveCur = (.blank, false) := by
  unfold classify
  rw [if_pos h]

theorem classify_eq_blank {text : Bytes} {haveCur cont : Bool}
    (h : classify text haveCur = (.blank, cont)) : isBlankLine text = true := by
  by_contra hb
  unfold classify at h
  rw [if_neg hb] at h
  split at h
  · cases h
  · split at h
    · split at h <;> cases h
    · split at h
      · cases h
      · split at h <;> cases h

theorem classify_opens {text : Bytes} (h : startsAttribute text = true) (haveCur : Bool) :
    classify text haveCur = (.attribute, false) := by
  have hb := startsAttribute_not_blank h
  cases text with
  | nil => cases h
  | cons b bs =>
    simp only [startsAttribute] at h
    split at h
    · cases h
    · rename_i hne
      simp only [Bool.or_eq_true, not_or, Bool.not_eq_true, beq_eq_false_iff_ne] at hne
      simp [classify, hb, hne, startsAttribute, h]

/-! ## All tokens -/

theorem groups_trivia {pls : List PhysLine}
    (h : ∀ pl ∈ pls, startsAttribute pl.text = false) : ∀ g ∈ groups pls [], g.1 ≠ .attribute := by
  induction pls with
  | nil => simp [groups, closeLines]
  | cons pl pls ih =>
    have hpl := h pl (List.mem_cons_self ..)
    have hrest := ih fun p hp => h p (List.mem_cons_of_mem _ hp)
    rcases classify_cases pl.text false with ⟨-, hs⟩ | ⟨-, hs⟩ | ⟨k, hne, hk⟩
    · cases hs
    · rw [hs] at hpl
      cases hpl
    · rw [groups_line pls hne hk]
      intro g hg
      rcases List.mem_cons.1 (by simpa [closeLines] using hg) with rfl | hg
      · exact hne
      · exact hrest g hg

theorem closeLines_kind {cur : List PhysLine} {g : Group} (h : g ∈ closeLines cur) :
    g.1 = .attribute := by
  unfold closeLines at h
  split at h
  · cases h
  · rw [List.mem_singleton.1 h]

theorem groups_not_blank {pls : List PhysLine}
    (h : ∀ pl ∈ pls, isBlankLine pl.text = false) (cur : List PhysLine) :
    ∀ g ∈ groups pls cur, g.1 ≠ .blank := by
  have hclose : ∀ (cur : List PhysLine), ∀ g ∈ closeLines cur, g.1 ≠ .blank := fun cur g hg => by
    rw [closeLines_kind hg]
    exact nofun
  induction pls generalizing cur with
  | nil => exact hclose cur
  | cons pl pls ih =>
    have hpl := h pl (List.mem_cons_self ..)
    have hrest := ih fun p hp => h p (List.mem_cons_of_mem _ hp)
    rcases classify_cases pl.text (!cur.isEmpty) with ⟨hk, -⟩ | ⟨hk, -⟩ | ⟨k, hne, hk⟩
    · rw [groups_continues pls hk]
      exact hrest _
    · rw [groups_opens pls hk]
      exact List.forall_mem_append.2 ⟨hclose cur, hrest _⟩
    · rw [groups_line pls hne hk]
      refine List.forall_mem_append.2 ⟨hclose cur, List.forall_mem_cons.2 ⟨?_, hrest _⟩⟩
      rintro rfl
      rw [classify_eq_blank hk] at hpl
      cases hpl

section
variable {src : Bytes} (line byteOffset : Int)

theorem tokenizeAt_trivia (h : ∀ pl ∈ scanLines src, startsAttribute pl.text = false) :
    ∀ t ∈ tokenizeAt src line byteOffset, t.kind ≠ .attribute := by
  rw [tokenizeAt_eq_groups]
  intro t ht
  obtain ⟨g, hg, rfl⟩ := List.mem_map.1 ht
  rw [token_kind]
  exact groups_trivia h g hg

theorem tokenizeAt_not_blank (h : ∀ pl ∈ scanLines src, isBlankLine pl.text = false) :
    ∀ t ∈ tokenizeAt src line byteOffset, t.kind ≠ .blank := by
  rw [tokenizeAt_eq_groups]
  intro t ht
  obtain ⟨g, hg, rfl⟩ := List.mem_map.1 ht
  rw [token_kind]
  exact groups_not_blank h [] g hg

/-! ## The first token -/

theorem groups_cur {cur : List PhysLine} (hcur : cur ≠ []) (pls : List PhysLine) :
    (groups pls cur).head?.map (·.1) = some .attribute := by
  have hclose : ∀ {cur : List PhysLine} (gs : List Group), cur ≠ [] →
      (closeLines cur ++ gs).head?.map (·.1) = some .attribute := fun {cur} gs h => by
    simp [closeLines, h]
  induction pls generalizing cur with
  | nil =>
    have := hclose [] hcur
    rwa [List.append_nil] at this
  | cons pl pls ih =>
    rcases classify_cases pl.text (!cur.isEmpty) with ⟨hk, -⟩ | ⟨hk, -⟩ | ⟨k, hne, hk⟩
    · rw [groups_continues pls hk]
      exact ih (by simp)
    · rw [groups_opens pls hk]
      exact hclose _ hcur
    · rw [groups_line pls hne hk]
      exact hclose _ hcur

theorem tokenizeAt_head_attribute {pl : PhysLine} (hpl : (scanLines src).head? = some pl)
    (h : startsAttribute pl.text = true) :
    (tokenizeAt src line byteOffset).head?.map (·.kind) = some .attribute := by
  obtain ⟨pls, hpls⟩ := List.head?_eq_some_iff.1 hpl
  have hg := groups_cur (show [pl] ≠ [] by simp) pls
  rw [tokenizeAt_eq_groups, hpls, groups_opens pls (classify_opens h _), closeLines,
    if_pos rfl, List.nil_append, List.head?_map, Option.map_map]
  simpa [Function.comp_def] using hg

theorem tokenizeAt_head_blank {pl : PhysLine} (hpl : (scanLines src).head? = some pl)
    (h : isBlankLine pl.text = true) :
    (tokenizeAt src line byteOffset).head?.map (·.kind) = some .blank := by
  obtain ⟨pls, hpls⟩ := List.head?_eq_some_iff.1 hpl
  rw [tokenizeAt_eq_groups, hpls, groups_line pls (k := .blank) (by decide)
    (classify_blank h _)]
  simp [closeLines]

end

theorem startsFresh_of_head {src : Bytes} {pl : PhysLine} (hpl : (scanLines src).head? = some pl)
    (h : isBlankLine pl.text = true ∨ startsAttribute pl.text = true) : StartsFresh src := by
  intro p hp
  obtain rfl := Option.some.inj (hpl.symm.trans hp)
  rcases h with h | h
  · rw [isContinuation, classify_blank h]
  · rw [isContinuation, classify_opens h]

end Rpsl.Lexer
