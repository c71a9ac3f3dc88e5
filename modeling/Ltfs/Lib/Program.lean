import Mathlib.Logic.Basic

namespace Ltfs.Lib.Program

/-- A program that acts on the world outside and goes on with the answers. -/
inductive Prog (E : Type) (A : E → Type) (α : Type) where
  | ret (a : α)
  | act (e : E) (k : A e → Prog E A α)

variable {E R α β : Type} {A : E → Type}

namespace Prog

def bind : Prog E A α → (α → Prog E A β) → Prog E A β
  | ret a, f => f a
  | act e k, f => act e (fun x => (k x).bind f)

instance : Monad (Prog E A) where
  pure := ret
  bind := bind

/-- A single action. -/
def perform (e : E) : Prog E A (A e) := act e ret

end Prog

open Prog

/-- What an action needs of the resources of a program, which answers are reckoned with, and what becomes of the
resources. -/
structure Rules (E : Type) (A : E → Type) (R : Type) where
  allowed : R → E → Prop
  given : (e : E) → A e → Prop
  after : R → (e : E) → A e → R

variable (ρ : Rules E A R)

/-- Every action of a program is allowed, and the postcondition holds at the end. -/
def Safe : Prog E A α → R → (α → R → Prop) → Prop
  | ret a, r, Q => Q a r
  | act e k, r, Q => ρ.allowed r e ∧ ∀ x, ρ.given e x → Safe (k x) (ρ.after r e x) Q

variable {ρ} {r : R} {p : Prog E A α} {Q Q' : α → R → Prop}

@[simp] theorem safe_pure (a : α) : Safe ρ (pure a) r Q ↔ Q a r := Iff.rfl

@[simp] theorem safe_bind (f : α → Prog E A β) (S : β → R → Prop) :
    Safe ρ (p >>= f) r S ↔ Safe ρ p r (fun a r' => Safe ρ (f a) r' S) := by
  change Safe ρ (p.bind f) r S ↔ _
  induction p generalizing r with
  | ret a => rfl
  | act e k ih =>
    refine and_congr_right (fun _ => forall_congr' (fun x => imp_congr_right (fun _ => ?_)))
    exact ih x

theorem safe_perform {e : E} {Q : A e → R → Prop} (h : ρ.allowed r e) (hk : ∀ x, ρ.given e x → Q x (ρ.after r e x)) :
    Safe ρ (perform e) r Q := ⟨h, hk⟩

theorem Safe.mono (h : Safe ρ p r Q) (hQ : ∀ a r', Q a r' → Q' a r') : Safe ρ p r Q' := by
  induction p generalizing r with
  | ret a => exact hQ a r h
  | act e k ih => exact ⟨h.1, fun x hx => ih x (h.2 x hx)⟩

end Ltfs.Lib.Program
