import Mathlib.Data.List.Basic
import Mathlib.Order.Basic

namespace Ltfs.Lib.Run

variable {σ α : Type} (step : σ → α → σ) (ok : σ → α → Prop)

/-- The state after a sequence of actions. -/
def run (s : σ) (as : List α) : σ :=
  as.foldl step s

/-- Every action of a sequence meets a condition on the state it is taken in. -/
def Meets : σ → List α → Prop
  | _, [] => True
  | s, a :: as => ok s a ∧ Meets (step s a) as

instance Meets.decidable [∀ s a, Decidable (ok s a)] : (s : σ) → (as : List α) → Decidable (Meets step ok s as)
  | _, [] => isTrue trivial
  | s, a :: as =>
    have := Meets.decidable (step s a) as
    inferInstanceAs (Decidable (ok s a ∧ Meets step ok (step s a) as))

variable {step ok} {Inv : σ → Prop}

@[simp] theorem run_nil (s : σ) : run step s [] = s := rfl

@[simp] theorem run_cons (s : σ) (a : α) (as : List α) : run step s (a :: as) = run step (step s a) as := rfl

theorem run_append (s : σ) (as bs : List α) : run step s (as ++ bs) = run step (run step s as) bs :=
  List.foldl_append ..

/-- What every action that meets the condition keeps holds after the whole sequence. -/
theorem Meets.invariant (hstep : ∀ s a, Inv s → ok s a → Inv (step s a)) {as : List α} {s : σ}
    (h : Meets step ok s as) (hs : Inv s) : Inv (run step s as) := by
  induction as generalizing s with
  | nil => exact hs
  | cons a as ih => exact ih h.2 (hstep s a hs h.1)

theorem Meets.congr {ok' : σ → α → Prop} (h : ∀ s a, ok s a ↔ ok' s a) {as : List α} {s : σ} :
    Meets step ok s as ↔ Meets step ok' s as := by
  induction as generalizing s with
  | nil => exact Iff.rfl
  | cons a as ih => exact and_congr (h s a) ih

section Order

variable {L : Type} [Preorder L] {m : σ → L}

theorem le_run {as : List α} {s : σ} (h : Meets step (fun s a => m s ≤ m (step s a)) s as) :
    m s ≤ m (run step s as) := by
  induction as generalizing s with
  | nil => exact le_rfl
  | cons a as ih => exact h.1.trans (ih h.2)

theorem Meets.append {as bs : List α} {s : σ} :
    Meets step ok s (as ++ bs) ↔ Meets step ok s as ∧ Meets step ok (run step s as) bs := by
  induction as generalizing s with
  | nil => exact (and_iff_right trivial).symm
  | cons a as ih => rw [List.cons_append, Meets, Meets, ih, and_assoc, run_cons]

/-- No action lowers a measure exactly if it is nowhere lower than at an earlier place of the run. -/
theorem meets_le_iff {as : List α} {s : σ} : Meets step (fun s a => m s ≤ m (step s a)) s as ↔
    ∀ pre mid post, as = pre ++ (mid ++ post) → m (run step s pre) ≤ m (run step s (pre ++ mid)) := by
  constructor
  · rintro h pre mid post rfl
    rw [run_append]
    exact le_run (Meets.append.mp (Meets.append.mp h).2).1
  · intro h
    induction as generalizing s with
    | nil => trivial
    | cons a as ih =>
      refine ⟨h [] [a] as rfl, ih ?_⟩
      rintro pre mid post rfl
      exact h (a :: pre) mid post rfl

end Order

section Partial

variable (next : σ → α → Option σ) (cond : σ → α → Prop)

/-- `Meets` for actions that may have no result. -/
def Admits : σ → List α → Prop
  | _, [] => True
  | s, a :: as => cond s a ∧ ∀ s', next s a = some s' → Admits s' as

variable {next cond} {P : σ → Prop}

/-- A sequence of actions that keep what makes them possible has a result. -/
theorem foldlM_invariant (hstep : ∀ s a, Inv s → ∃ s', next s a = some s' ∧ Inv s') (as : List α) {s : σ}
    (hs : Inv s) : ∃ s', as.foldlM next s = some s' ∧ Inv s' := by
  induction as generalizing s with
  | nil => exact ⟨s, rfl, hs⟩
  | cons a as ih =>
    obtain ⟨s₁, h₁, hs₁⟩ := hstep s a hs
    obtain ⟨s₂, h₂, hs₂⟩ := ih hs₁
    refine ⟨s₂, ?_, hs₂⟩
    rw [List.foldlM_cons, h₁]
    exact h₂

/-- If the condition is just what an action needs to keep a property, then it is just what a sequence needs to
have the property all along. -/
theorem admits_iff (hinv : ∀ s a, Inv s → ∃ s', next s a = some s' ∧ Inv s')
    (hstep : ∀ s a s', Inv s → P s → next s a = some s' → (P s' ↔ cond s a)) {as : List α} {s : σ}
    (hs : Inv s) (hp : P s) :
    Admits next cond s as ↔ ∀ bs, bs <+: as → ∃ s', bs.foldlM next s = some s' ∧ P s' := by
  induction as generalizing s with
  | nil =>
    refine ⟨fun _ bs hbs => ?_, fun _ => trivial⟩
    obtain rfl := List.prefix_nil.1 hbs
    exact ⟨s, rfl, hp⟩
  | cons a as ih =>
    obtain ⟨s₁, h₁, hs₁⟩ := hinv s a hs
    have hfold : ∀ bs : List α, (a :: bs).foldlM next s = bs.foldlM next s₁ := by
      intro bs
      rw [List.foldlM_cons, h₁]
      rfl
    have hfirst := hstep s a s₁ hs hp h₁
    constructor
    · rintro ⟨hcond, hrest⟩ bs hbs
      rcases List.prefix_cons_iff.1 hbs with rfl | ⟨bs', rfl, hbs'⟩
      · exact ⟨s, rfl, hp⟩
      · rw [hfold]
        exact (ih hs₁ (hfirst.2 hcond)).1 (hrest s₁ h₁) bs' hbs'
    · intro h
      obtain ⟨s', hs', hp'⟩ := h [a] (by simp)
      rw [hfold] at hs'
      obtain rfl : s₁ = s' := Option.some.inj hs'
      refine ⟨hfirst.1 hp', fun s₂ h₂ => ?_⟩
      obtain rfl : s₁ = s₂ := Option.some.inj (h₁.symm.trans h₂)
      refine (ih hs₁ hp').2 (fun bs hbs => ?_)
      rw [← hfold]
      exact h (a :: bs) (List.cons_prefix_cons.2 ⟨rfl, hbs⟩)

end Partial

end Ltfs.Lib.Run
