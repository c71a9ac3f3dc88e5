import Ltfs.CacheManager
import Ltfs.Lib.Run
import Mathlib.Data.Finset.Card
import Mathlib.Logic.Function.Basic

namespace Ltfs.CacheRun

open Ltfs.CacheManager Ltfs.Lib.Run

/-- A pool with the reference counts of its objects. -/
structure Cache where
  pool : CachePool
  refcount : Block → BitVec 32

def init (initialCapacity maxCapacity : Nat) : Cache where
  pool := cacheManagerInit initialCapacity maxCapacity
  refcount := fun _ => 1

/-- `cache_manager_allocate_object`: the object returned has one reference, as have the new ones. -/
def allocateObject (c : Cache) (memory : Nat) : Option Block × Cache :=
  let r := cacheManagerAllocateObject c.pool memory
  (r.1, { pool := r.2, refcount := fun b => if r.1 = some b ∨ c.pool.next ≤ b then 1 else c.refcount b })

/-- `cache_manager_get_object` -/
def getObject (c : Cache) (b : Block) : Cache :=
  { c with refcount := Function.update c.refcount b (c.refcount b + 1) }

/-- `cache_manager_free_object`: nothing else happens while there are references left. -/
def freeObject (c : Cache) (b : Block) : Cache :=
  let count := c.refcount b - 1
  let pool := if count ≠ 0 then c.pool else cacheManagerFreeObject c.pool b
  { pool := pool, refcount := Function.update c.refcount b count }

inductive Op where
  | allocate (memory : Nat)
  | get (b : Block)
  | free (b : Block)

def step (c : Cache) : Op → Cache
  | .allocate memory => (allocateObject c memory).2
  | .get b => getObject c b
  | .free b => freeObject c b

/-- The objects that have been handed out and are not back. -/
def outstanding (c : Cache) : Finset Block :=
  c.pool.objects.filter (· ∉ c.pool.pool)

/-- There is memory for all that the pool grows by. -/
def HasMemory (c : Cache) (memory : Nat) : Prop :=
  newSize c.pool - c.pool.currentCapacity ≤ memory

instance (c : Cache) (memory : Nat) : Decidable (HasMemory c memory) :=
  inferInstanceAs (Decidable (_ ≤ _))

/-- Memory is available, and only an object that is out is referenced or freed. -/
def Allowed (c : Cache) : Op → Prop
  | .allocate memory => HasMemory c memory
  | .get b => b ∈ outstanding c
  | .free b => b ∈ outstanding c

/-- What the pool promises its users about its capacity. -/
structure Kept (maxCapacity : Nat) (c : Cache) : Prop where
  counted : c.pool.currentCapacity = c.pool.pool.length + (outstanding c).card
  bounded : c.pool.currentCapacity ≤ maxCapacity
  full : ∀ memory, HasMemory c memory → (allocateObject c memory).1 = none →
    (outstanding c).card = maxCapacity

/-- What each operation keeps. The pool is not shrunk below its first size. -/
structure Sound (initial max : Nat) (p : CachePool) : Prop where
  nodup : p.pool.Nodup
  pooled : ∀ b ∈ p.pool, b ∈ p.objects
  capacity : p.currentCapacity = p.objects.card
  initial_eq : p.initialCapacity = initial
  max_eq : p.maxCapacity = max
  low : initial ≤ p.currentCapacity
  high : p.currentCapacity ≤ max

variable {initial max memory n : Nat} {p : CachePool} {c : Cache} {b : Block}

theorem newSize_le (p : CachePool) : newSize p ≤ p.maxCapacity := by
  rw [newSize]
  split
  · split <;> omega
  · exact Nat.le_refl _

theorem sound_init (h : initial ≤ max) : Sound initial max (cacheManagerInit initial max) where
  nodup := List.nodup_range
  pooled := fun _ hb => Finset.mem_range.mpr (List.mem_range.mp hb)
  capacity := (Finset.card_range initial).symm
  initial_eq := rfl
  max_eq := rfl
  low := Nat.le_refl _
  high := h

/-- The new objects are none of those that exist. -/
theorem card_grow (p : CachePool) (n : Nat) : (grow p n).objects.card = p.objects.card + (n + 1) := by
  have hdisjoint : Disjoint p.objects (Finset.Ico p.next (p.next + (n + 1))) := by
    rw [Finset.disjoint_left]
    intro b hb hnew
    exact absurd (p.fresh b hb) (Nat.not_lt.mpr (Finset.mem_Ico.mp hnew).1)
  rw [grow, Finset.card_union_of_disjoint hdisjoint, Nat.card_Ico, Nat.add_sub_cancel_left]

theorem sound_grow (h : Sound initial max p) (hn : p.currentCapacity + (n + 1) ≤ max) :
    Sound initial max (grow p n) where
  nodup := List.nodup_range'
  pooled := by
    intro b hb
    obtain ⟨hlow, hhigh⟩ := List.mem_range'_1.mp hb
    have hnew : b < p.next + (n + 1) := Nat.lt_succ_of_lt hhigh
    exact Finset.mem_union_right _ (Finset.mem_Ico.mpr ⟨hlow, hnew⟩)
  capacity := by
    rw [card_grow, ← h.capacity]
    rfl
  initial_eq := h.initial_eq
  max_eq := h.max_eq
  low := Nat.le_add_right_of_le h.low
  high := hn

theorem sound_allocate (h : Sound initial max p) :
    Sound initial max (cacheManagerAllocateObject p memory).2 := by
  rw [cacheManagerAllocateObject]
  split
  · next b pool heq =>
    have hnodup := h.nodup
    rw [heq, List.nodup_cons] at hnodup
    exact { h with
      nodup := hnodup.2
      pooled := fun b hb => h.pooled b (by rw [heq]; exact List.mem_cons_of_mem _ hb) }
  · split
    · exact h
    · split
      · exact h
      · next n hn =>
        apply sound_grow h
        have hsize := newSize_le p
        rw [h.max_eq] at hsize
        omega

theorem sound_free (h : Sound initial max p) (hb : b ∈ p.objects) (hout : b ∉ p.pool) :
    Sound initial max (cacheManagerFreeObject p b) := by
  have hinit := h.initial_eq
  rw [cacheManagerFreeObject]
  split
  · next hlt =>
    exact { h with
      pooled := fun d hd => Finset.mem_erase.mpr ⟨fun heq => hout (heq ▸ hd), h.pooled d hd⟩
      capacity := by rw [Finset.card_erase_of_mem hb, ← h.capacity]
      low := by simp only; omega
      high := Nat.le_trans (Nat.sub_le _ _) h.high }
  · exact { h with
      nodup := by
        rw [List.nodup_append]
        refine ⟨h.nodup, List.nodup_singleton b, ?_⟩
        intro d hd e he heq
        rw [List.mem_singleton] at he
        exact hout (he ▸ heq ▸ hd)
      pooled := by
        intro d hd
        rcases List.mem_append.mp hd with hd | hd
        · exact h.pooled d hd
        · rw [List.mem_singleton.mp hd]
          exact hb }

theorem sound_step (c : Cache) (a : Op) (h : Sound initial max c.pool) (ha : Allowed c a) :
    Sound initial max (step c a).pool := by
  cases a with
  | allocate memory => exact sound_allocate h
  | get b => exact h
  | free b =>
    obtain ⟨hb, hout⟩ := Finset.mem_filter.mp ha
    rw [step, freeObject]
    simp only
    split
    · exact h
    · exact sound_free h hb hout

theorem counted_of_sound (h : Sound initial max c.pool) :
    c.pool.currentCapacity = c.pool.pool.length + (outstanding c).card := by
  have hout : outstanding c = c.pool.objects \ c.pool.pool.toFinset := by
    ext b
    simp [outstanding]
  have hsub : c.pool.pool.toFinset ⊆ c.pool.objects := fun b hb => h.pooled b (List.mem_toFinset.mp hb)
  have hcard := Finset.card_sdiff_add_card_eq_card hsub
  rw [List.toFinset_card_of_nodup h.nodup] at hcard
  rw [hout, h.capacity]
  omega

/-- A pool that is empty and below its maximum grows, but for one that may have a single object and has none. -/
theorem newSize_gt (h : Sound initial max p) (hlt : p.currentCapacity < max) (hone : ¬ (initial = 0 ∧ max = 1)) :
    p.currentCapacity < newSize p := by
  have hlow := h.low
  rw [newSize, h.max_eq]
  split
  · split <;> omega
  · exact hlt

theorem allocate_none (h : Sound initial max c.pool) (hone : ¬ (initial = 0 ∧ max = 1))
    (hmem : HasMemory c memory) (hnone : (allocateObject c memory).1 = none) :
    c.pool.pool = [] ∧ c.pool.currentCapacity = max := by
  have hcall : (cacheManagerAllocateObject c.pool memory).1 = none := hnone
  rw [cacheManagerAllocateObject] at hcall
  split at hcall
  · cases hcall
  · next hpool =>
    refine ⟨hpool, ?_⟩
    split at hcall
    · next heq => rw [heq, h.max_eq]
    · next hne =>
      rw [h.max_eq] at hne
      have hgt := newSize_gt h (by have := h.high; omega) hone
      rw [HasMemory] at hmem
      split at hcall
      · next hzero => omega
      · cases hcall

theorem kept_of_sound (h : Sound initial max c.pool) (hone : ¬ (initial = 0 ∧ max = 1)) : Kept max c where
  counted := counted_of_sound h
  bounded := h.high
  full := by
    intro memory hmem hnone
    obtain ⟨hpool, hfull⟩ := allocate_none h hone hmem hnone
    have hcount := counted_of_sound h
    rw [hpool, List.length_nil, hfull] at hcount
    omega

/-- The capacities for which the promises hold in every run. -/
theorem kept_iff (initial max : Nat) :
    (∀ ops, Meets step Allowed (init initial max) ops → Kept max (run step (init initial max) ops)) ↔
      initial ≤ max ∧ ¬ (initial = 0 ∧ max = 1) := by
  constructor
  · intro h
    have hkept := h [] trivial
    refine ⟨hkept.bounded, ?_⟩
    rintro ⟨rfl, rfl⟩
    exact absurd (hkept.full 0 (by decide) (by decide)) (by decide)
  · rintro ⟨hle, hone⟩ ops hops
    have hsound : Sound initial max (run step (init initial max) ops).pool :=
      @Meets.invariant _ _ step Allowed (fun c => Sound initial max c.pool) sound_step ops _ hops
        (sound_init hle)
    exact kept_of_sound hsound hone

/-- With none allocated at first and at most one allowed, the pool never hands anything out. -/
theorem none_outstanding : ∃ memory, HasMemory (init 0 1) memory ∧ (allocateObject (init 0 1) memory).1 = none ∧
    (outstanding (init 0 1)).card = 0 := by
  exact ⟨0, by decide, by decide, by decide⟩

end Ltfs.CacheRun
