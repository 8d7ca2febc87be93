import Mathlib.Data.List.Basic

/-!
# Outcomes of fallible computations

`Ends x Q E`: the computation `x` returns a value with `Q` or fails with an error with `E`. The
rules follow the program: one for each construct, with an invariant for a loop that stops at the
first error (`Ends.foldlM`) or what the loop's body does to the state (`Ends.foldlM_grow`).
-/

namespace Lib

universe u v

variable {ε : Type u} {α β σ : Type v}

/-- `x` returns a value with `Q` or fails with an error with `E`. -/
def Ends (x : Except ε α) (Q : α → Prop) (E : ε → Prop) : Prop :=
  match x with
  | .ok a => Q a
  | .error e => E e

@[simp] theorem ends_ok {a : α} {Q : α → Prop} {E : ε → Prop} :
    Ends (.ok a) Q E ↔ Q a := Iff.rfl

@[simp] theorem ends_error {e : ε} {Q : α → Prop} {E : ε → Prop} :
    Ends (.error e) Q E ↔ E e := Iff.rfl

namespace Ends

variable {x : Except ε α} {Q Q' : α → Prop} {E E' : ε → Prop}

theorem of_forall (hQ : ∀ a, x = .ok a → Q a) (hE : ∀ e, x = .error e → E e) : Ends x Q E := by
  cases x with
  | ok a => exact hQ a rfl
  | error e => exact hE e rfl

theorem of_ok (h : Ends x Q E) {a : α} (hx : x = .ok a) : Q a := by
  subst hx
  exact h

theorem of_error (h : Ends x Q E) {e : ε} (hx : x = .error e) : E e := by
  subst hx
  exact h

theorem mono (h : Ends x Q E) (hQ : ∀ a, Q a → Q' a) (hE : ∀ e, E e → E' e) : Ends x Q' E' :=
  of_forall (fun a hx => hQ a (h.of_ok hx)) fun e hx => hE e (h.of_error hx)

theorem and (h : Ends x Q E) (h' : Ends x Q' E') :
    Ends x (fun a => Q a ∧ Q' a) fun e => E e ∧ E' e :=
  of_forall (fun _ hx => ⟨h.of_ok hx, h'.of_ok hx⟩) fun _ hx => ⟨h.of_error hx, h'.of_error hx⟩

theorem bind {f : α → Except ε β} {R : β → Prop} (hx : Ends x Q E)
    (hf : ∀ a, Q a → Ends (f a) R E) : Ends (x >>= f) R E := by
  cases x with
  | ok a => exact hf a hx
  | error e => exact hx

theorem foldlM {f : σ → α → Except ε σ} {I : σ → Prop} {l : List α}
    (step : ∀ a ∈ l, ∀ s, I s → Ends (f s a) I E) {s : σ} (hs : I s) :
    Ends (l.foldlM f s) I E := by
  induction l generalizing s with
  | nil => exact hs
  | cons a l ih =>
    rw [List.foldlM_cons]
    exact (step a List.mem_cons_self s hs).bind fun s' hs' =>
      ih (fun b hb => step b (List.mem_cons_of_mem a hb)) hs'

theorem foldlM_grow {f : σ → α → Except ε σ} {R : σ → σ → Prop} {P : α → σ → Prop} {l : List α}
    (refl : ∀ s, R s s) (trans : ∀ {s t u}, R s t → R t u → R s u)
    (keep : ∀ a {s t}, R s t → P a s → P a t)
    (step : ∀ a ∈ l, ∀ s, Ends (f s a) (fun t => R s t ∧ P a t) E) (s : σ) :
    Ends (l.foldlM f s) (fun t => R s t ∧ ∀ a ∈ l, P a t) E := by
  induction l generalizing s with
  | nil => exact ⟨refl s, by simp⟩
  | cons a l ih =>
    rw [List.foldlM_cons]
    refine (step a List.mem_cons_self s).bind fun t ht => ?_
    refine (ih (fun b hb => step b (List.mem_cons_of_mem a hb)) t).mono (fun u hu => ?_)
      fun _ he => he
    refine ⟨trans ht.1 hu.1, fun b hb => ?_⟩
    rcases List.mem_cons.1 hb with rfl | hb
    · exact keep b hu.1 ht.2
    · exact hu.2 b hb

theorem mapM {f : α → Except ε β} {P : α → β → Prop} {l : List α}
    (step : ∀ a ∈ l, Ends (f a) (P a) E) : Ends (l.mapM f) (List.Forall₂ P l) E := by
  induction l with
  | nil => exact .nil
  | cons a l ih =>
    rw [List.mapM_cons]
    refine (step a List.mem_cons_self).bind fun b hb => ?_
    refine (ih fun c hc => step c (List.mem_cons_of_mem a hc)).bind fun bs hbs => ?_
    exact .cons hb hbs

end Ends

theorem bind_eq_ok {x : Except ε α} {f : α → Except ε β} {b : β} :
    (x >>= f) = .ok b ↔ ∃ a, x = .ok a ∧ f a = .ok b := by
  cases x <;> simp [bind, Except.bind]

theorem map_eq_ok {x : Except ε α} {f : α → β} {b : β} :
    x.map f = .ok b ↔ ∃ a, x = .ok a ∧ f a = b := by
  cases x <;> simp [Except.map]

theorem forall₂_mem {α β : Type*} {R : α → β → Prop} {l : List α} {l' : List β}
    (h : List.Forall₂ R l l') :
    (∀ a ∈ l, ∃ b ∈ l', R a b) ∧ ∀ b ∈ l', ∃ a ∈ l, R a b := by
  induction h with
  | nil => simp
  | cons hab _ ih =>
    refine ⟨fun a ha => ?_, fun b hb => ?_⟩
    · rcases List.mem_cons.1 ha with rfl | ha
      · exact ⟨_, List.mem_cons_self, hab⟩
      · obtain ⟨b, hb, hr⟩ := ih.1 a ha
        exact ⟨b, List.mem_cons_of_mem _ hb, hr⟩
    · rcases List.mem_cons.1 hb with rfl | hb
      · exact ⟨_, List.mem_cons_self, hab⟩
      · obtain ⟨a, ha, hr⟩ := ih.2 b hb
        exact ⟨a, List.mem_cons_of_mem _ ha, hr⟩

/-! ## Stateful computations -/

variable {x : StateT σ (Except ε) α} {f : α → StateT σ (Except ε) β} {s : σ}

theorem run_bind_eq_ok {r : β × σ} :
    (x >>= f) s = .ok r ↔ ∃ a s', x s = .ok (a, s') ∧ f a s' = .ok r := by
  have h : (x >>= f) s = (x s).bind fun p => f p.1 p.2 := rfl
  rw [h]
  cases x s with
  | error e => simp [Except.bind]
  | ok p =>
    obtain ⟨a, s'⟩ := p
    simp [Except.bind]

theorem run_lift_eq_ok {x : Except ε α} {a : α} {s' : σ} :
    (liftM x : StateT σ (Except ε) α) s = .ok (a, s') ↔ x = .ok a ∧ s' = s := by
  cases x with
  | error e => exact ⟨nofun, nofun⟩
  | ok b =>
    change Except.ok (b, s) = Except.ok (a, s') ↔ _
    simp [eq_comm]

end Lib
