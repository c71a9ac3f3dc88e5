import Mathlib.Data.List.Basic

namespace Ltfs.Lib.Oracle

variable {ι κ α β σ : Type} (f g : ι → Option κ)

/-- Whatever the first oracle answers to one of the questions, the second one does. -/
def Agrees (qs : List ι) : Prop := ∀ q ∈ qs, ∀ k, f q = some k → g q = some k

def Answers (qs : List ι) : Prop := ∀ q ∈ qs, (f q).isSome

/-- Two computations that ask the questions `qs`, the one of `f` and the other of `g`: where the oracles agree, a
result of the first is one of the second, and then every question has been answered. -/
def Passes (qs : List ι) (x y : Option α) : Prop := ∀ a, x = some a → Agrees f g qs → y = some a ∧ Answers f qs

variable {f g} {qs rs : List ι} {x y : Option α}

theorem Agrees.append (h : Agrees f g (qs ++ rs)) : Agrees f g qs ∧ Agrees f g rs :=
  ⟨fun q hq => h q (List.mem_append_left _ hq), fun q hq => h q (List.mem_append_right _ hq)⟩

theorem answers_append : Answers f (qs ++ rs) ↔ Answers f qs ∧ Answers f rs := List.forall_mem_append

theorem passes_same (x : Option α) : Passes f g [] x x := fun _ hx _ => ⟨hx, fun _ hq => by cases hq⟩

theorem passes_ask (q : ι) : Passes f g [q] (f q) (g q) := by
  intro k hk h
  refine ⟨h q List.mem_cons_self k hk, fun r hr => ?_⟩
  obtain rfl := List.mem_singleton.1 hr
  exact Option.isSome_iff_exists.2 ⟨k, hk⟩

/-- One computation behind the other -/
theorem Passes.bind {k k' : α → Option β} (hx : Passes f g qs x y)
    (hk : ∀ a, x = some a → Passes f g rs (k a) (k' a)) : Passes f g (qs ++ rs) (x >>= k) (y >>= k') := by
  intro b hb h
  obtain ⟨hqs, hrs⟩ := h.append
  obtain ⟨a, ha, hka⟩ := Option.bind_eq_some_iff.1 hb
  obtain ⟨hy, hans⟩ := hx a ha hqs
  obtain ⟨hk', hans'⟩ := hk a ha b hka hrs
  refine ⟨?_, answers_append.2 ⟨hans, hans'⟩⟩
  rw [hy]
  exact hk'

/-- The questions are all asked by the first of two. -/
theorem Passes.andThen (hx : Passes f g qs x y) (k : α → Option β) : Passes f g qs (x >>= k) (y >>= k) := by
  have h := hx.bind fun a _ => passes_same (k a)
  rwa [List.append_nil] at h

/-- The questions are all asked by the second of two. -/
theorem Passes.after {k k' : α → Option β} (x : Option α) (hk : ∀ a, x = some a → Passes f g qs (k a) (k' a)) :
    Passes f g qs (x >>= k) (x >>= k') :=
  (passes_same x).bind hk

/-- A loop over a list, each round with its questions -/
theorem passes_foldlM {step step' : σ → β → Option σ} {asked : β → List ι} (bs : List β)
    (hstep : ∀ s, ∀ b ∈ bs, Passes f g (asked b) (step s b) (step' s b)) (s : σ) :
    Passes f g (bs.flatMap asked) (bs.foldlM step s) (bs.foldlM step' s) := by
  induction bs generalizing s with
  | nil => exact passes_same (some s)
  | cons b bs ih =>
    rw [List.flatMap_cons, List.foldlM_cons, List.foldlM_cons]
    exact (hstep s b List.mem_cons_self).bind fun t _ => ih (fun s c hc => hstep s c (List.mem_cons_of_mem b hc)) t

end Ltfs.Lib.Oracle
