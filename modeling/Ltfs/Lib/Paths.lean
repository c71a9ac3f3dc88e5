import Mathlib.Data.List.Basic
import Mathlib.Data.List.Induction

namespace Ltfs.Lib.Paths

variable {V K : Type} {child child' : V → K → Option V} {root d e c p p' : V} {k k' : K}
  {xs ys : List K}

/-- Where a list of names leads from a node, when every node gives at most one
successor for a name. -/
def follow (child : V → K → Option V) (d : V) : List K → Option V
  | [] => some d
  | k :: ks => (child d k).bind (fun e => follow child e ks)

def Reached (child : V → K → Option V) (root d : V) : Prop := ∃ xs, follow child root xs = some d

@[simp] theorem follow_nil : follow child d [] = some d := rfl

@[simp] theorem follow_cons :
    follow child d (k :: xs) = (child d k).bind (fun e => follow child e xs) := rfl

theorem follow_append : follow child d (xs ++ ys) =
    (follow child d xs).bind (fun e => follow child e ys) := by
  induction xs generalizing d with
  | nil => rfl
  | cons k xs ih =>
    cases h : child d k with
    | none => simp [h]
    | some e => simp [h, ih]

theorem follow_concat (h : follow child d xs = some p) : follow child d (xs ++ [k]) = child p k := by
  rw [follow_append, h]
  cases hc : child p k <;> simp [hc]

theorem follow_concat_inv (h : follow child root (xs ++ [k]) = some d) :
    ∃ p, follow child root xs = some p ∧ child p k = some d := by
  rw [follow_append] at h
  cases hx : follow child root xs with
  | none => simp [hx] at h
  | some p =>
    refine ⟨p, rfl, ?_⟩
    rw [hx] at h
    cases hc : child p k with
    | none => simp [hc] at h
    | some c => simpa [hc] using h

theorem Reached.step (h : Reached child root p) (hc : child p k = some c) :
    Reached child root c := by
  obtain ⟨xs, hx⟩ := h
  exact ⟨xs ++ [k], by rw [follow_concat hx, hc]⟩

theorem reached_root : Reached child root root := ⟨[], rfl⟩

/-- Two successor functions agree on a path when they agree on every edge of it. -/
theorem follow_congr (h : ∀ ys k zs e, xs = ys ++ k :: zs → follow child d ys = some e →
    child' e k = child e k) : follow child' d xs = follow child d xs := by
  induction xs generalizing d with
  | nil => rfl
  | cons k xs ih =>
    have he : child' d k = child d k := h [] k xs d rfl rfl
    rw [follow_cons, follow_cons, he]
    cases hc : child d k with
    | none => rfl
    | some e =>
      refine ih (fun ys k' zs e' hx hf => h (k :: ys) k' zs e' (by rw [hx]; rfl) ?_)
      simp [hc, hf]

theorem follow_mono (h : ∀ p k c, child' p k = some c → child p k = some c)
    (hf : follow child' d xs = some e) : follow child d xs = some e := by
  induction xs generalizing d with
  | nil => exact hf
  | cons k xs ih =>
    rw [follow_cons] at hf
    cases hc : child' d k with
    | none => rw [hc] at hf; cases hf
    | some c =>
      rw [hc] at hf
      rw [follow_cons, h d k c hc]
      exact ih hf

/-- No node has two incoming edges and the root has none. -/
structure Forest (child : V → K → Option V) (root : V) : Prop where
  unique : ∀ {p p' k k' c}, child p k = some c → child p' k' = some c → p = p' ∧ k = k'
  source : ∀ {p k}, child p k ≠ some root

namespace Forest

variable (F : Forest child root)
include F

theorem path_unique (hx : follow child root xs = some d) (hy : follow child root ys = some d) :
    xs = ys := by
  induction xs using List.reverseRecOn generalizing d ys with
  | nil =>
    cases ys using List.reverseRecOn with
    | nil => rfl
    | append_singleton ys k =>
      obtain ⟨p, -, hp⟩ := follow_concat_inv hy
      simp only [follow_nil, Option.some.injEq] at hx
      exact absurd (hx ▸ hp) F.source
  | append_singleton xs k ih =>
    obtain ⟨p, hxp, hp⟩ := follow_concat_inv hx
    cases ys using List.reverseRecOn with
    | nil =>
      simp only [follow_nil, Option.some.injEq] at hy
      exact absurd (hy ▸ hp) F.source
    | append_singleton ys k' =>
      obtain ⟨p', hyp, hp'⟩ := follow_concat_inv hy
      obtain ⟨rfl, rfl⟩ := F.unique hp hp'
      rw [ih hxp hyp]

theorem no_cycle (hd : Reached child root d) (h : follow child d xs = some d) : xs = [] := by
  obtain ⟨ys, hy⟩ := hd
  have h2 : follow child root (ys ++ xs) = some d := by rw [follow_append, hy]; exact h
  simpa using F.path_unique h2 hy

theorem ne_root (h : child p k = some c) : c ≠ root := fun he => F.source (he ▸ h)

end Forest

variable [DecidableEq V] [DecidableEq K]

/-- The successor function after the edge to `c` is taken from (`p`, `k`) and put at (`p'`, `k'`). -/
def move (child : V → K → Option V) (p : V) (k : K) (p' : V) (k' : K) (c : V) : V → K → Option V :=
  fun d n => if d = p' ∧ n = k' then some c else if d = p ∧ n = k then none else child d n

section Move

variable {fp tp : List K} (F : Forest child root) (hfp : follow child root fp = some p)
  (hpc : child p k = some c) (htp : follow child root tp = some p')
  (hloop : ∀ zs, follow child c zs ≠ some p')
include F hfp htp

theorem move_other {zs : List K} (hf : ¬ (fp ++ [k]) <+: zs) (ht : ¬ (tp ++ [k']) <+: zs) :
    follow (move child p k p' k' c) root zs = follow child root zs := by
  apply follow_congr
  intro ys n ws e hz hy
  have h1 : ¬ (e = p' ∧ n = k') := by
    rintro ⟨rfl, rfl⟩
    refine ht ⟨ws, ?_⟩
    rw [hz, F.path_unique hy htp, List.append_assoc]
    rfl
  have h2 : ¬ (e = p ∧ n = k) := by
    rintro ⟨rfl, rfl⟩
    refine hf ⟨ws, ?_⟩
    rw [hz, F.path_unique hy hfp, List.append_assoc]
    rfl
  simp [move, h1, h2]

include hpc hloop

omit htp in
/-- Nothing below the moved node changes: neither edge starts there. -/
theorem move_below (zs : List K) :
    follow (move child p k p' k' c) c zs = follow child c zs := by
  apply follow_congr
  intro ys n ws e hz hy
  have h1 : ¬ (e = p' ∧ n = k') := fun h => hloop ys (h.1 ▸ hy)
  have h2 : ¬ (e = p ∧ n = k) := by
    rintro ⟨rfl, rfl⟩
    have hc : Reached child root c := Reached.step ⟨fp, hfp⟩ hpc
    have hf : follow child c (ys ++ [n]) = some c := by rw [follow_concat hy, hpc]
    have h3 := F.no_cycle hc hf
    simp at h3
  simp [move, h1, h2]

theorem move_target (zs : List K) :
    follow (move child p k p' k' c) root ((tp ++ [k']) ++ zs) = follow child c zs := by
  have hto : follow (move child p k p' k' c) root tp = some p' := by
    rw [move_other F hfp htp, htp]
    · rintro ⟨zs, hz⟩
      refine hloop zs ?_
      rw [← hz, follow_append, follow_concat hfp, hpc] at htp
      exact htp
    · rintro ⟨zs, hz⟩
      have := congrArg List.length hz
      simp only [List.length_append, List.length_cons, List.length_nil] at this
      omega
  rw [follow_append, follow_concat hto]
  simpa [move] using move_below F hfp hpc hloop zs

omit hpc hloop in
theorem move_source (hup : ¬ (tp ++ [k']) <+: fp) (hne : ¬ (p = p' ∧ k = k')) :
    follow (move child p k p' k' c) root (fp ++ [k]) = none := by
  have hfrom : follow (move child p k p' k' c) root fp = some p := by
    rw [move_other F hfp htp, hfp]
    · rintro ⟨zs, hz⟩
      have := congrArg List.length hz
      simp only [List.length_append, List.length_cons, List.length_nil] at this
      omega
    · exact hup
  rw [follow_concat hfrom]
  simp [move, hne]

end Move

end Ltfs.Lib.Paths
