import Rpsl.Lib.Outcome

/-!
# Remembered lookups

A computation that keeps tables of what it has looked up returns, from a state whose tables are
right, what it would return without them, and leaves such a state (`Computes`).
-/

namespace Lib

variable {σ ε α β ν : Type}

/-- The value a state remembers, or else what `fetch` finds, which is then remembered. -/
def memo (find : σ → Option ν) (fetch : StateT σ (Except ε) ν) (store : ν → σ → σ) :
    StateT σ (Except ε) ν := fun s =>
  match find s with
  | some v => .ok (v, s)
  | none => do
    let (v, s) ← fetch s
    .ok (v, store v s)

/-- From a state that satisfies `I`, what `x` returns is what `v` does, and `I` is kept. It may fail
where `v` does not. -/
def Computes (I : σ → Prop) (x : StateT σ (Except ε) α) (v : Except ε α) : Prop :=
  ∀ s a s', I s → x s = .ok (a, s') → v = .ok a ∧ I s'

namespace Computes

variable {I : σ → Prop} {x : StateT σ (Except ε) α} {v : Except ε α}

theorem pure (a : α) : Computes I (Pure.pure a) (Pure.pure a : Except ε α) := by
  intro s b s' hs h
  cases h
  exact ⟨rfl, hs⟩

theorem throw (e : ε) : Computes I (fun _ => .error e) v := by
  intro s a s' hs h
  cases h

theorem bind {f : α → StateT σ (Except ε) β} {g : α → Except ε β} (hx : Computes I x v)
    (hf : ∀ a, Computes I (f a) (g a)) : Computes I (x >>= f) (v >>= g) := by
  intro s b s' hs h
  obtain ⟨a, s₁, hxs, hfs⟩ := run_bind_eq_ok.1 h
  obtain ⟨hv, hs₁⟩ := hx s a s₁ hs hxs
  rw [hv]
  exact hf a s₁ b s' hs₁ hfs

theorem modify {f : σ → σ} (hf : ∀ s, I s → I (f s)) :
    Computes I (fun s => .ok ((), f s)) (.ok () : Except ε Unit) := by
  intro s a s' hs h
  cases h
  exact ⟨rfl, hf s hs⟩

theorem memo {find : σ → Option ν} {fetch : StateT σ (Except ε) ν} {store : ν → σ → σ}
    {w : Except ε ν} (hfind : ∀ s, I s → ∀ a, find s = some a → w = .ok a)
    (hfetch : Computes I fetch w) (hstore : ∀ s a, I s → w = .ok a → I (store a s)) :
    Computes I (Lib.memo find fetch store) w := by
  intro s a s' hs h
  unfold Lib.memo at h
  cases hf : find s with
  | some _ =>
    rw [hf] at h
    cases h
    exact ⟨hfind s hs a hf, hs⟩
  | none =>
    rw [hf] at h
    obtain ⟨⟨_, s₁⟩, hx, hret⟩ := bind_eq_ok.1 h
    cases hret
    obtain ⟨hw, hs₁⟩ := hfetch s a s₁ hs hx
    exact ⟨hw, hstore s₁ a hs₁ hw⟩

end Computes

end Lib
