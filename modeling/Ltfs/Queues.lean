import Ltfs.Unified
import Mathlib.Algebra.BigOperators.Finprod

namespace Ltfs.Queues

open Requests RequestState Unified

variable {ι : Type}

/-- `struct dentry_priv` with its counters: `in_working_set`, `in_dp_queue` and `in_ip_queue` are `inQueue` at
the three request states. -/
structure CountedPriv where
  dpr : DentryPriv
  inQueue : RequestState → Nat

/-- The lists and counters of `struct unified_data`: `working_set`, `dp_queue` and `ip_queue`, their lengths
and the numbers of requests, and `ext_queue`. The files are the dentries, with `iosched_priv` for each. -/
structure Scheduler (ι : Type) where
  priv : ι → Option CountedPriv
  queue : RequestState → List ι
  count : RequestState → Nat
  requestCount : RequestState → Nat
  extQueue : List ι

/-- `unified_init` -/
def unifiedInit : Scheduler ι := ⟨fun _ => none, fun _ => [], fun _ => 0, fun _ => 0, []⟩

/-- The requests of a file in write_ip mode that wait for the data partition are hidden from the global
counter. -/
def CountedPriv.hidden (p : CountedPriv) (q : RequestState) : Bool := q = requestDp && p.dpr.writeIp

namespace Scheduler

def inQueue (s : Scheduler ι) (i : ι) (q : RequestState) : Nat := (s.priv i).elim 0 (fun p => p.inQueue q)

def requests (s : Scheduler ι) (i : ι) : List WriteRequest := (s.priv i).elim [] (fun p => p.dpr.requests)

def writeIp (s : Scheduler ι) (i : ι) : Bool := (s.priv i).elim false (fun p => p.dpr.writeIp)

/-- What a file adds to the global counter of a state. -/
def shown (s : Scheduler ι) (q : RequestState) (i : ι) : Nat :=
  if q = requestDp && s.writeIp i then 0 else s.inQueue i q

end Scheduler

variable [DecidableEq ι]

/-- `TAILQ_INSERT_TAIL` and the increment of the length. Nothing good comes of linking a file twice. -/
def enqueue (i : ι) (l : List ι) (n : Nat) : Option (List ι × Nat) :=
  if i ∈ l then none else some (l ++ [i], n + 1)

/-- `TAILQ_REMOVE` and the decrement of the length. The file has to be there, and the length must not wrap. -/
def dequeue (i : ι) (l : List ι) (n : Nat) : Option (List ι × Nat) :=
  if i ∈ l ∧ 0 < n then some (l.erase i, n - 1) else none

/-- A decrement of an unsigned counter that does not wrap. -/
def decrease (n k : Nat) : Option Nat := if k ≤ n then some (n - k) else none

namespace Scheduler

def setPriv (s : Scheduler ι) (i : ι) (p : Option CountedPriv) : Scheduler ι :=
  { s with priv := Function.update s.priv i p }

def setQueue (s : Scheduler ι) (q : RequestState) (l : List ι × Nat) (total : Nat) : Scheduler ι :=
  { s with
    queue := Function.update s.queue q l.1
    count := Function.update s.count q l.2
    requestCount := Function.update s.requestCount q total }

end Scheduler

def CountedPriv.setCount (p : CountedPriv) (q : RequestState) (n : Nat) : CountedPriv :=
  { p with inQueue := Function.update p.inQueue q n }

/-- The scheduler after one call: a list, its counters, and the counter of one file have changed. -/
def Scheduler.called (s : Scheduler ι) (q : RequestState) (m : List ι × Nat) (total : Nat) (i : ι)
    (p : CountedPriv) (n : Nat) : Scheduler ι :=
  (s.setQueue q m total).setPriv i (p.setCount q n)

/-- A file is linked with its first request in a state. -/
def linkFirst (q : RequestState) (i : ι) (p : CountedPriv) (s : Scheduler ι) : Option (List ι × Nat) :=
  if p.inQueue q = 0 then enqueue i (s.queue q) (s.count q) else some (s.queue q, s.count q)

/-- `_unified_update_queue_membership` with `add` set -/
def addMember (q : RequestState) (i : ι) (p : CountedPriv) (s : Scheduler ι) : Option (Scheduler ι) := do
  let l ← linkFirst q i p s
  return s.called q l (if p.hidden q then s.requestCount q else s.requestCount q + 1) i p (p.inQueue q + 1)

/-- A file is unlinked with its last request in a state, or at once when `all` is set. -/
def unlinkLast (all : Bool) (q : RequestState) (i : ι) (p : CountedPriv) (s : Scheduler ι) :
    Option (List ι × Nat) :=
  if all = true ∧ p.inQueue q ≠ 0 ∨ p.inQueue q = 1 then dequeue i (s.queue q) (s.count q)
  else some (s.queue q, s.count q)

/-- How many of `n` requests leave the queue. -/
def leaving (all : Bool) (n : Nat) : Nat := if all then n else if n = 0 then 0 else 1

/-- The global counter after `k` requests of a file left the queue. -/
def lower (k : Nat) (q : RequestState) (p : CountedPriv) (s : Scheduler ι) : Option Nat :=
  if p.hidden q then some (s.requestCount q) else decrease (s.requestCount q) k

/-- `_unified_update_queue_membership` with `add` unset -/
def removeMember (all : Bool) (q : RequestState) (i : ι) (p : CountedPriv) (s : Scheduler ι) :
    Option (Scheduler ι) := do
  let l ← unlinkLast all q i p s
  let total ← lower (leaving all (p.inQueue q)) q p s
  return s.called q l total i p (p.inQueue q - leaving all (p.inQueue q))

/-- The arguments of a call of `_unified_update_queue_membership` -/
structure Call where
  add : Bool
  all : Bool
  queue : RequestState
  deriving DecidableEq, Repr

def addTo (q : RequestState) : Call := ⟨true, false, q⟩

def removeFrom (q : RequestState) : Call := ⟨false, false, q⟩

def removeAll (q : RequestState) : Call := ⟨false, true, q⟩

/-- `_unified_update_queue_membership` for the file `i` -/
def updateQueueMembership (i : ι) (s : Scheduler ι) (c : Call) : Option (Scheduler ι) :=
  match s.priv i with
  | none => none
  | some p => if c.add then addMember c.queue i p s else removeMember c.all c.queue i p s

def calls (i : ι) (cs : List Call) (s : Scheduler ι) : Option (Scheduler ι) :=
  cs.foldlM (updateQueueMembership i) s

/-- What a call does to the counters of the file. -/
def bumpOne (t : RequestState → Nat) (c : Call) : RequestState → Nat :=
  Function.update t c.queue (if c.add then t c.queue + 1 else t c.queue - leaving c.all (t c.queue))

def bump (cs : List Call) (t : RequestState → Nat) : RequestState → Nat := cs.foldl bumpOne t

end Ltfs.Queues
