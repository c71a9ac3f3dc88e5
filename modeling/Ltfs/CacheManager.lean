import Mathlib.Data.Finset.Basic
import Mathlib.Data.Multiset.AddSub
import Mathlib.Order.Interval.Finset.Nat

namespace Ltfs.CacheManager

/-- The address of a cache object. -/
abbrev Block := Nat

/-- `struct cache_pool`. The objects that exist are those in the pool and those that are in use; the addresses
from `next` on have not been used yet. -/
structure CachePool where
  initialCapacity : Nat
  maxCapacity : Nat
  currentCapacity : Nat
  pool : List Block
  objects : Finset Block
  next : Block
  fresh : ∀ b ∈ objects, b < next

/-- `cache_manager_init` -/
def cacheManagerInit (initialCapacity maxCapacity : Nat) : CachePool where
  initialCapacity := initialCapacity
  maxCapacity := maxCapacity
  currentCapacity := initialCapacity
  pool := List.range initialCapacity
  objects := Finset.range initialCapacity
  next := initialCapacity
  fresh := fun _ hb => Finset.mem_range.1 hb

/-- The capacity that `cache_manager_allocate_object` aims at when the pool is empty. -/
def newSize (p : CachePool) : Nat :=
  if p.currentCapacity * 2 < p.maxCapacity then
    if p.currentCapacity ≠ 0 then p.currentCapacity * 2 else p.maxCapacity / 2
  else p.maxCapacity

/-- `n` new objects, of which the last one does not stay in the pool. -/
def grow (p : CachePool) (n : Nat) : CachePool where
  initialCapacity := p.initialCapacity
  maxCapacity := p.maxCapacity
  currentCapacity := p.currentCapacity + (n + 1)
  pool := List.range' p.next n
  objects := p.objects ∪ Finset.Ico p.next (p.next + (n + 1))
  next := p.next + (n + 1)
  fresh := fun b hb => by
    rcases Finset.mem_union.1 hb with hb | hb
    · exact Nat.lt_add_right _ (p.fresh b hb)
    · exact (Finset.mem_Ico.1 hb).2

/-- `cache_manager_allocate_object`. There is memory for `memory` more objects. -/
def cacheManagerAllocateObject (p : CachePool) (memory : Nat) : Option Block × CachePool :=
  match p.pool with
  | b :: pool => (some b, { p with pool := pool })
  | [] =>
    if p.currentCapacity = p.maxCapacity then (none, p)
    else
      match min memory (newSize p - p.currentCapacity) with
      | 0 => (none, p)
      | n + 1 => (some (p.next + n), grow p n)

/-- `cache_manager_free_object` for an object with one reference: a pool that has grown shrinks again. -/
def cacheManagerFreeObject (p : CachePool) (b : Block) : CachePool :=
  if p.initialCapacity < p.currentCapacity then
    { p with
      currentCapacity := p.currentCapacity - 1
      objects := p.objects.erase b
      fresh := fun c hc => p.fresh c (Finset.mem_of_mem_erase hc) }
  else { p with pool := p.pool ++ [b] }

end Ltfs.CacheManager
