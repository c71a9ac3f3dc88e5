import Mathlib.Data.Nat.Init

namespace Ltfs.Machine

variable {σ τ β γ : Type}

/-- The result of a machine within a number of steps -/
def run (step : σ → σ ⊕ β) : Nat → σ → Option β
  | 0, _ => none
  | k + 1, s =>
    match step s with
    | .inl s' => run step k s'
    | .inr b => some b

variable {step : σ → σ ⊕ β} {next : τ → τ ⊕ γ} {s s' : σ} {t : τ} {b : β} {k : Nat}

theorem run_more (h : run step k s = some b) (n : Nat) (hn : k ≤ n) : run step n s = some b := by
  induction k generalizing s n with
  | zero => cases h
  | succ k ih =>
    obtain ⟨n, rfl⟩ : ∃ m, n = m + 1 := ⟨n - 1, by omega⟩
    rw [run] at h ⊢
    cases hs : step s with
    | inl s' =>
      rw [hs] at h
      exact ih h n (Nat.le_of_succ_le_succ hn)
    | inr c =>
      rw [hs] at h
      exact h

/-- What a step of the second machine has to be for it to follow the first one -/
def Follows (R : σ → τ → Prop) (Q : β → γ → Prop) : σ ⊕ β → τ ⊕ γ → Prop
  | .inl s', r => ∃ t', r = .inl t' ∧ R s' t'
  | .inr b, r => ∃ c, r = .inr c ∧ Q b c

/-- A machine that follows another one has a result with it. -/
theorem run_follows {R : σ → τ → Prop} {Q : β → γ → Prop} (hstep : ∀ s t, R s t → Follows R Q (step s) (next t))
    (h : R s t) (hrun : run step k s = some b) : ∃ c, run next k t = some c ∧ Q b c := by
  induction k generalizing s t with
  | zero => cases hrun
  | succ k ih =>
    have hst := hstep s t h
    rw [run] at hrun ⊢
    cases hs : step s with
    | inl s' =>
      rw [hs] at hst hrun
      obtain ⟨t', ht, hR⟩ := hst
      rw [ht]
      exact ih hR hrun
    | inr b' =>
      rw [hs] at hst hrun
      obtain rfl : b' = b := Option.some.inj hrun
      obtain ⟨c, hc, hQ⟩ := hst
      rw [hc]
      exact ⟨c, rfl, hQ⟩

/-- A step keeps the invariant and lowers the measure, or gives a result that is good. -/
def Keeps {μ : Type} (rel : μ → μ → Prop) (rank : σ → μ) (Inv : σ → Prop) (Good : β → Prop) (s : σ) : σ ⊕ β → Prop
  | .inl s' => Inv s' ∧ rel (rank s') (rank s)
  | .inr b => Good b

theorem run_ends {μ : Type} {rel : μ → μ → Prop} (hwf : WellFounded rel) (rank : σ → μ) {Inv : σ → Prop}
    {Good : β → Prop} (hstep : ∀ s, Inv s → Keeps rel rank Inv Good s (step s)) (hs : Inv s) :
    ∃ k b, run step k s = some b ∧ Good b := by
  induction h : rank s using hwf.induction generalizing s with
  | h m ih =>
    have hst := hstep s hs
    cases hnext : step s with
    | inl s' =>
      rw [hnext] at hst
      obtain ⟨k, b, hrun, hb⟩ := ih (rank s') (h ▸ hst.2) hst.1 rfl
      refine ⟨k + 1, b, ?_, hb⟩
      rw [run, hnext]
      exact hrun
    | inr b =>
      rw [hnext] at hst
      refine ⟨1, b, ?_, hst⟩
      rw [run, hnext]

end Ltfs.Machine
