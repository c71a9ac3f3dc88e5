import Mathlib.Data.List.Nodup
import Mathlib.Data.Fintype.Card
import Ltfs.Lib.Paths
import Ltfs.Handles

namespace Ltfs.DentryTree

open Ltfs.Dentry Ltfs.Lib.Paths

variable {s : Fs} {d p c : Ino} {k : Name} {xs ys : List Name}

def childOf (s : Fs) (p : Ino) (k : Name) : Option Ino :=
  ((s.childList p).find? (fun e => e.1 == k)).map Prod.snd

/-- Some path leads to the dentry. -/
def Linked (s : Fs) (d : Ino) : Prop := Reached (childOf s) s.root d

/-- The dentries below the root form a tree: parent pointers agree with the tables of the
directories, and every dentry with a parent is reached from the root. -/
structure Tree (s : Fs) : Prop where
  root_parent : s.parent s.root = none
  root_dir : s.isdir s.root
  entry : ∀ {p k c}, (k, c) ∈ s.childList p → s.name c = some k ∧ s.parent c = some p
  listed : ∀ {c p}, s.parent c = some p → ∃ k, s.name c = some k ∧ (k, c) ∈ s.childList p
  keys : ∀ p, ((s.childList p).map Prod.fst).Nodup
  linked : ∀ {c p}, s.parent c = some p → Linked s c
  owned : ∀ {p}, s.childList p ≠ [] → Linked s p ∧ s.isdir p
  counted : ∀ {c}, Linked s c → 0 < s.numhandles c
  known : ∀ {c}, Linked s c → c < s.nextIno
  alive : ∀ {c}, Linked s c → s.live c

theorem find_eq_some {es : Entries} (h : (es.map Prod.fst).Nodup) :
    es.find? (fun e => e.1 == k) = some (k, c) ↔ (k, c) ∈ es := by
  constructor
  · intro hf
    exact List.mem_of_find?_eq_some hf
  · intro hm
    induction es with
    | nil => simp at hm
    | cons e es ih =>
      simp only [List.map_cons, List.nodup_cons] at h
      rcases List.mem_cons.mp hm with rfl | hm
      · simp
      · have hne : e.1 ≠ k := by
          intro he
          exact h.1 (List.mem_map.mpr ⟨(k, c), hm, he.symm⟩)
        rw [List.find?_cons_of_neg (by simpa using hne)]
        exact ih h.2 hm

theorem mem_of_childOf (h : childOf s p k = some c) : (k, c) ∈ s.childList p := by
  simp only [childOf, Option.map_eq_some_iff, Prod.exists] at h
  obtain ⟨k', c', hf, rfl⟩ := h
  have hk : k' = k := by simpa using List.find?_some hf
  exact hk ▸ List.mem_of_find?_eq_some hf

theorem childOf_eq_none : childOf s p k = none ↔ ∀ c, (k, c) ∉ s.childList p := by
  simp only [childOf, Option.map_eq_none_iff, List.find?_eq_none, beq_iff_eq, Prod.forall]
  constructor
  · intro h c hm
    exact h k c hm rfl
  · rintro h k' c hm rfl
    exact h c hm

theorem childOf_nil (h : s.childList p = []) : childOf s p k = none := by simp [childOf, h]

namespace Tree

variable (T : Tree s)
include T

theorem childOf_iff : childOf s p k = some c ↔ (k, c) ∈ s.childList p := by
  constructor
  · exact mem_of_childOf
  · intro h
    simp only [childOf, Option.map_eq_some_iff, Prod.exists]
    exact ⟨k, c, (find_eq_some (T.keys p)).mpr h, rfl⟩

theorem forest : Forest (childOf s) s.root where
  unique := by
    intro p p' k k' c h h'
    have h1 := T.entry (mem_of_childOf h)
    have h2 := T.entry (mem_of_childOf h')
    constructor
    · exact Option.some.inj (h1.2.symm.trans h2.2)
    · exact Option.some.inj (h1.1.symm.trans h2.1)
  source := by
    intro p k h
    have h1 := (T.entry (mem_of_childOf h)).2
    rw [T.root_parent] at h1
    cases h1

theorem childOf_parent (h : childOf s p k = some c) : s.parent c = some p :=
  (T.entry (mem_of_childOf h)).2

theorem childOf_name (h : childOf s p k = some c) : s.name c = some k :=
  (T.entry (mem_of_childOf h)).1

theorem childOf_linked (h : childOf s p k = some c) : Linked s c := T.linked (T.childOf_parent h)

theorem parent_linked (h : childOf s p k = some c) : Linked s p := by
  refine (T.owned ?_).1
  intro he
  rw [childOf_nil he] at h
  cases h

theorem parent_isdir (h : childOf s p k = some c) : s.isdir p := by
  refine (T.owned ?_).2
  intro he
  rw [childOf_nil he] at h
  cases h

theorem linked_iff : Linked s d ↔ d = s.root ∨ s.parent d ≠ none := by
  constructor
  · rintro ⟨xs, hx⟩
    cases xs using List.reverseRecOn with
    | nil => exact .inl (Option.some.inj hx).symm
    | append_singleton xs k =>
      obtain ⟨p, -, hp⟩ := follow_concat_inv hx
      refine .inr ?_
      rw [T.childOf_parent hp]
      nofun
  · rintro (rfl | h)
    · exact reached_root
    · obtain ⟨p, hp⟩ := Option.ne_none_iff_exists'.mp h
      exact T.linked hp

theorem childOf_ne (h : childOf s p k = some c) : c ≠ p := by
  rintro rfl
  have hf : follow (childOf s) c [k] = some c := by simp [h]
  have h1 := T.forest.no_cycle (T.parent_linked h) hf
  simp at h1

theorem not_linked_of_le (h : s.nextIno ≤ d) : ¬ Linked s d := fun hl =>
  absurd (T.known hl) (Nat.not_lt.mpr h)

theorem unlinked (h : ¬ Linked s d) : s.parent d = none ∧ s.childList d = [] := by
  constructor
  · cases hp : s.parent d with
    | none => rfl
    | some p => exact absurd (T.linked hp) h
  · by_contra hne
    exact h (T.owned hne).1

end Tree

/-- A path to a dentry passes through as many dentries as it has names. -/
theorem length_lt (T : Tree s) (h : follow (childOf s) s.root xs = some d) : xs.length < s.nextIno := by
  have hstep : ∀ i : Fin (xs.length + 1), ∃ e : Fin s.nextIno,
      follow (childOf s) s.root (xs.take i) = some e.val := by
    intro i
    rw [← List.take_append_drop i.val xs, follow_append] at h
    cases he : follow (childOf s) s.root (xs.take i) with
    | none => rw [he] at h; cases h
    | some e => exact ⟨⟨e, T.known ⟨_, he⟩⟩, rfl⟩
  choose f hf using hstep
  have hinj : Function.Injective f := by
    intro i j hij
    have h1 := hf j
    rw [← hij] at h1
    have h2 := congrArg List.length (T.forest.path_unique (hf i) h1)
    simp only [List.length_take] at h2
    exact Fin.ext (by omega)
  have hcard := Fintype.card_le_of_injective f hinj
  simp only [Fintype.card_fin] at hcard
  exact hcard

theorem mem_parents (T : Tree s) {n : Nat} (h : follow (childOf s) s.root xs = some d)
    (hn : xs.length < n) {a : Ino} :
    a ∈ parents s n d ↔ ∃ ys zs, xs = ys ++ zs ∧ follow (childOf s) s.root ys = some a := by
  induction xs using List.reverseRecOn generalizing d n with
  | nil =>
    obtain ⟨n, rfl⟩ : ∃ k, n = k + 1 := ⟨n - 1, by simp at hn; omega⟩
    obtain rfl : s.root = d := Option.some.inj h
    simp only [parents, T.root_parent, List.mem_singleton, List.nil_eq, List.append_eq_nil_iff]
    constructor
    · rintro rfl
      exact ⟨[], [], ⟨rfl, rfl⟩, rfl⟩
    · rintro ⟨ys, zs, ⟨rfl, rfl⟩, hf⟩
      exact (Option.some.inj hf).symm
  | append_singleton xs k ih =>
    obtain ⟨n, rfl⟩ : ∃ k, n = k + 1 := ⟨n - 1, by simp at hn; omega⟩
    obtain ⟨p, hp, hc⟩ := follow_concat_inv h
    simp only [List.length_append, List.length_cons, List.length_nil] at hn
    simp only [parents, T.childOf_parent hc, List.mem_cons]
    rw [ih hp (by omega)]
    constructor
    · rintro (rfl | ⟨ys, zs, rfl, hf⟩)
      · exact ⟨xs ++ [k], [], by simp, h⟩
      · exact ⟨ys, zs ++ [k], by simp, hf⟩
    · rintro ⟨ys, zs, hx, hf⟩
      cases zs using List.reverseRecOn with
      | nil =>
        rw [List.append_nil] at hx
        rw [hx, hf] at h
        exact .inl (Option.some.inj h)
      | append_singleton zs k' =>
        rw [← List.append_assoc] at hx
        have hx' := List.append_inj_left' hx rfl
        exact .inr ⟨ys, zs, hx', hf⟩

/-- `fs_is_predecessor` finds exactly the dentries on the path. -/
theorem isPredecessor_iff (T : Tree s) (h : follow (childOf s) s.root xs = some d) {a : Ino} :
    fsIsPredecessor s a d ↔ ∃ ys zs, xs = ys ++ zs ∧ follow (childOf s) s.root ys = some a := by
  have hl := length_lt T h
  simp only [fsIsPredecessor, List.contains_iff_mem]
  exact mem_parents T h (by omega)

theorem isPredecessor_below (T : Tree s) (hd : Linked s d) {a : Ino} :
    fsIsPredecessor s a d ↔ Linked s a ∧ ∃ zs, follow (childOf s) a zs = some d := by
  obtain ⟨xs, hx⟩ := hd
  rw [isPredecessor_iff T hx]
  constructor
  · rintro ⟨ys, zs, rfl, hf⟩
    rw [follow_append, hf] at hx
    exact ⟨⟨ys, hf⟩, zs, hx⟩
  · rintro ⟨⟨ys, hy⟩, zs, hz⟩
    refine ⟨ys, zs, ?_, hy⟩
    apply T.forest.path_unique hx
    rw [follow_append, hy]
    exact hz

end Ltfs.DentryTree
