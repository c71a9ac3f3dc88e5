import Ltfs.CacheManager
import Ltfs.Lib.Program
import Ltfs.Unified

namespace Ltfs.BlockCalls

open CacheManager Lib.Program Prog Requests RequestState RawFile

/-- `struct write_request` with its cache block. What is in the block makes no difference here. -/
structure BlockRequest where
  offset : Nat
  count : Nat
  state : RequestState
  writeCache : Block
  deriving DecidableEq, Repr

namespace BlockRequest

def fin (r : BlockRequest) : Nat := r.offset + r.count

/-- Drop the first `n` bytes. -/
def behind (r : BlockRequest) (n : Nat) : BlockRequest := { r with offset := r.offset + n, count := r.count - n }

/-- Keep the bytes before file offset `x`. -/
def upTo (r : BlockRequest) (x : Nat) : BlockRequest := { r with count := x - r.offset }

end BlockRequest

/-- The parts of `struct dentry_priv` that the fate of cache blocks depends on. -/
structure BlockPriv where
  writeIp : Bool
  writeError : Option WriteError
  requests : List BlockRequest
  deriving DecidableEq, Repr

inductive Lock (ι : Type) where
  | privRead
  | privWrite
  | volume
  | cache
  | queue
  | iosched (i : ι)
  | io (i : ι)
  | writeError (i : ι)
  | metadata (i : ι)
  deriving DecidableEq, Repr

/-- What the threads do to what they share. A thread that works on the scheduler's data of a file enters it and
leaves it again, with a lock that keeps others out; `restart` marks a write that starts again with a spare block.
What the rest of the world has to say is asked for: whether there is memory for a request, the outcome of a write to
tape, the next file of a queue, and everything else that is true or false. -/
inductive Action (ι : Type) where
  | lock (l : Lock ι)
  | unlock (l : Lock ι)
  | enter (i : ι) (restart : Bool)
  | leave (i : ι) (f : Option BlockPriv)
  | allocate
  | await
  | free (b : Block)
  | calloc
  | ask
  | tape
  | pick

def Answer {ι : Type} : Action ι → Type
  | .enter _ _ => Option BlockPriv
  | .allocate => Option Block
  | .await => Block
  | .calloc => Bool
  | .ask => Bool
  | .tape => Option WriteError
  | .pick => Option ι
  | _ => Unit

abbrev Code (ι : Type) := Prog (Action ι) Answer

variable {ι : Type}

def lock (l : Lock ι) : Code ι Unit := perform (Action.lock l)

def unlock (l : Lock ι) : Code ι Unit := perform (Action.unlock l)

def enter (i : ι) (restart : Bool) : Code ι (Option BlockPriv) := perform (Action.enter i restart)

def leave (i : ι) (f : Option BlockPriv) : Code ι Unit := perform (Action.leave i f)

def allocate : Code ι (Option Block) := perform Action.allocate

def await : Code ι Block := perform Action.await

def free (b : Block) : Code ι Unit := perform (Action.free b)

def calloc : Code ι Bool := perform Action.calloc

def ask : Code ι Bool := perform Action.ask

def tape : Code ι (Option WriteError) := perform Action.tape

def pick : Code ι (Option ι) := perform Action.pick

/-- A question that is not asked when the answer makes no difference. -/
def askIf (cond : Bool) : Code ι Bool := if cond then ask else pure false

/-- A critical section in which nothing happens to cache blocks. -/
def touch (l : Lock ι) : Code ι Unit := do
  lock l
  unlock l

/-- A number of calls of `_unified_update_queue_membership` -/
def unifiedUpdateQueueMembership : Nat → Code ι Unit
  | 0 => pure ()
  | n + 1 => do
    touch .queue
    unifiedUpdateQueueMembership n

/-- `ltfs_get_volume_lock`, for reading; the lock is held on success. -/
def ltfsGetVolumeLock : Code ι Bool := do
  if ← ask then
    lock .volume
    return true
  else return false

/-- `_unified_cache_free` -/
def unifiedCacheFree (b : Block) : Code ι Unit := do
  lock .cache
  free b
  unlock .cache

/-- `_unified_free_request` -/
def unifiedFreeRequest (req : BlockRequest) : Code ι Unit := unifiedCacheFree req.writeCache

/-- A walk over the request list that frees some requests and leaves the others. -/
def freeWhere (p : BlockRequest → Bool) : List BlockRequest → Code ι (List BlockRequest)
  | [] => pure []
  | req :: rest => do
    if p req then
      unifiedFreeRequest req
      freeWhere p rest
    else do
      let rest ← freeWhere p rest
      return req :: rest

/-- `_unified_cache_alloc`. The flag tells that the locks were released because there was no block. The loop around
`ltfs_thread_cond_wait` ends when there is one; the request list is left to others before. -/
def unifiedCacheAlloc (i : ι) (d : BlockPriv) : Code ι (Block × Bool) := do
  lock .cache
  match ← allocate with
  | some b =>
    unlock .cache
    return (b, false)
  | none =>
    leave i (some d)
    unlock (.iosched i)
    touch .queue
    unlock .privRead
    unlock .cache
    let b ← await
    unlock .cache
    lock .privRead
    touch .queue
    return (b, true)

/-- What `_unified_insert_new_request` did: no memory for a request, no block at first, or a new request. With it
comes what is in `*cache` then. -/
inductive Insert where
  | failed (cache : Option Block)
  | restart (cache : Option Block)
  | done (req : BlockRequest)

/-- `_unified_insert_new_request` -/
def unifiedInsertNewRequest (cacheSize : Nat) (i : ι) (d : BlockPriv) (offset count : Nat) (cache : Option Block)
    (ipState : Bool) : Code ι Insert := do
  let (b, restart) ← match cache with
    | some b => pure (b, false)
    | none => unifiedCacheAlloc i d
  if restart then return .restart (some b)
  else if ← calloc then
    unifiedUpdateQueueMembership 1
    return .done
      { offset := offset
        count := min count cacheSize
        state := if ipState then requestIp else if min count cacheSize = cacheSize then requestDp else requestPartial
        writeCache := b }
  else
    unifiedCacheFree b
    leave i (some d)
    unlock (.iosched i)
    unlock .privRead
    return .failed (some b)

/-- The loop at the end of `_unified_update_request`. -/
def promoteOne (full : Option Nat) (r : BlockRequest) : BlockRequest :=
  match full with
  | none => r
  | some offset => if r.state = requestPartial ∧ r.offset ≤ offset then { r with state := requestDp } else r

def promote (full : Option Nat) (l : List BlockRequest) : List BlockRequest := l.map (promoteOne full)

/-- How often that loop calls `_unified_update_queue_membership`. -/
def promoteUpdates (full : Option Nat) (l : List BlockRequest) : Nat :=
  match full with
  | none => 0
  | some offset => 2 * l.countP (fun r => decide (r.state = requestPartial ∧ r.offset ≤ offset))

/-- `_unified_update_request` on the request itself: the updated request, the number of bytes taken, and the offset
up to which partial requests become ready. -/
def updateRequest (cacheSize : Nat) (req : BlockRequest) (offset size : Nat) : BlockRequest × Nat × Option Nat :=
  let copyCount := min (req.offset + cacheSize - offset) size
  let count := max req.count (offset - req.offset + copyCount)
  if size = 0 then (req, 0, none)
  else if req.state = requestPartial ∧ count = cacheSize then
    ({ req with count := count, state := requestDp }, copyCount, some offset)
  else ({ req with count := count }, copyCount, none)

/-- What `_unified_merge_requests` makes of two requests, and the number of its own calls of
`_unified_update_queue_membership`. -/
structure Merged where
  dest : BlockRequest
  src : Option BlockRequest
  full : Option Nat
  changed : Bool
  updates : Nat

/-- The last part of `_unified_merge_requests`: `n` bytes of `src` are covered by `dest`. -/
def trimSource (dest src : BlockRequest) (full : Option Nat) (n : Nat) : Merged :=
  if n = 0 then ⟨dest, some src, full, false, 0⟩
  else if n < src.count then
    if src.state = requestDp then ⟨dest, some { src.behind n with state := requestPartial }, full, true, 2⟩
    else ⟨dest, some (src.behind n), full, true, 0⟩
  else ⟨dest, none, full, true, 1⟩

def mergeRequests (cacheSize : Nat) (dest src : BlockRequest) : Merged :=
  if dest.fin < src.offset then ⟨dest, some src, none, false, 0⟩
  else
    let copyOffset := dest.fin - src.offset
    if dest.state ≠ src.state ∧ (dest.state = requestIp ∨ src.state = requestIp) then
      trimSource dest src none copyOffset
    else if dest.count < cacheSize ∧ copyOffset < src.count then
      let (dest, copyCount, full) :=
        updateRequest cacheSize dest (src.offset + copyOffset) (src.count - copyOffset)
      trimSource dest (promoteOne full src) full (copyOffset + copyCount)
    else
      trimSource dest src none copyOffset

variable (cacheSize : Nat)

/-- `_unified_merge_requests` on two members of the request list `l`. With `keep`, a block that gets free may become
the spare one. -/
def unifiedMergeRequests (l : List BlockRequest) (dest src : BlockRequest) (keep : Bool) (spare : Option Block) :
    Code ι (Merged × Option Block) := do
  let m := mergeRequests cacheSize dest src
  unifiedUpdateQueueMembership (promoteUpdates m.full l + m.updates)
  if m.src = none then
    if keep ∧ spare = none then return (m, some src.writeCache)
    else
      unifiedFreeRequest src
      return (m, spare)
  else return (m, spare)

/-- The merge of a request on its way to the index partition into the one before it, if there is one. A request for
the index partition never makes others ready. -/
def mergeLast (done : List BlockRequest) (req : BlockRequest) (rest : List BlockRequest) :
    Code ι (List BlockRequest) :=
  match done.getLast? with
  | none => return done ++ [req]
  | some prev => do
    let (m, _) ← unifiedMergeRequests cacheSize (done ++ req :: rest) prev req false none
    return done.dropLast ++ m.dest :: m.src.toList

/-- `_unified_handle_write_error`. `failed` is the state of the request that could not be written. -/
def unifiedHandleWriteError (i : ι) (e : WriteError) (failed : RequestState) (d : BlockPriv) :
    Code ι BlockPriv := do
  let space := Unified.WriteError.isSpace e
  let soft := failed = requestIp ∧ space = true
  if ¬ soft then touch (.writeError i)
  let writeError := if soft then d.writeError else d.writeError.or (some e)
  let readonly ← askIf space
  let clearIp := failed == requestIp || !space || readonly
  let clearDp := failed != requestIp || !space || readonly
  touch (.metadata i)
  if d.requests = [] then return { d with writeError := writeError }
  else
    unifiedUpdateQueueMembership ((if clearDp then 2 else 0) + if clearIp then 1 else 0)
    let requests ← freeWhere (fun r => if r.state = requestIp then clearIp else clearDp) d.requests
    return { d with writeError := writeError, requests := requests }

/-- `_unified_set_write_ip`; the counters of the queues are asked for. -/
def unifiedSetWriteIp (d : BlockPriv) : Code ι BlockPriv := do
  if ← ask then touch .queue
  return { d with writeIp := true }

/-- `_unified_unset_write_ip` -/
def unifiedUnsetWriteIp (d : BlockPriv) : Code ι BlockPriv := do
  let requests ← if ← ask then do
      let requests ← freeWhere (fun r => r.state = requestIp) d.requests
      unifiedUpdateQueueMembership 1
      pure requests
    else pure d.requests
  if ← ask then touch .queue
  if ← ask then touch .queue
  return { d with writeIp := false, requests := requests }

/-- The end of `unified_truncate` and of `unified_update_data_placement`; sizes and names decide. -/
def replace (i : ι) (d : BlockPriv) : Code ι BlockPriv := do
  touch (.metadata i)
  if ← askIf (!d.writeIp) then unifiedSetWriteIp d
  else if ← askIf d.writeIp then unifiedUnsetWriteIp d
  else return d

/-- `_unified_get_write_error` -/
def unifiedGetWriteError (i : ι) (d : BlockPriv) : Code ι (Option WriteError × BlockPriv) := do
  touch (.writeError i)
  return (d.writeError, { d with writeError := none })

/-- `_unified_free_dentry_priv_conditional`; the handles and the extents are asked for. -/
def unifiedFreeDentryPrivConditional (i : ι) (d : BlockPriv) : Code ι (Option BlockPriv) := do
  touch (.metadata i)
  if ← askIf (d.requests = []) then
    touch (.io i)
    return none
  else return some d

/-- The walk over the requests of one file that `_unified_flush_unlocked` and `_unified_process_data_queue` share:
what stays, and the private list. -/
def drain (i : ι) (hold : Bool) (take : BlockRequest → Bool) (d : BlockPriv) :
    List BlockRequest → List BlockRequest → List BlockRequest → Code ι (BlockPriv × List BlockRequest)
  | [], done, held => return ({ d with requests := done }, held)
  | req :: rest, done, held =>
    if req.state = requestIp then do
      let done ← mergeLast cacheSize done req rest
      drain i hold take d rest done held
    else if take req then
      if d.writeIp ∨ ¬ hold then do
        match ← tape with
        | some e =>
          let d ← unifiedHandleWriteError i e req.state { d with requests := done ++ req :: rest }
          return (d, held)
        | none =>
          if d.writeIp then
            unifiedUpdateQueueMembership 1
            let done ← mergeLast cacheSize done { req with state := requestIp } rest
            drain i hold take d rest done held
          else
            unifiedFreeRequest req
            drain i hold take d rest done held
      else drain i hold take d rest done (held ++ [req])
    else drain i hold take d rest (done ++ [req]) held

/-- `_unified_flush_unlocked` -/
def unifiedFlushUnlocked (i : ι) (d : BlockPriv) : Code ι (Option WriteError × BlockPriv) := do
  let (e, d) ← unifiedGetWriteError i d
  if e ≠ none ∨ d.requests = [] then return (e, d)
  else
    unifiedUpdateQueueMembership 2
    lock (.io i)
    let (d, _) ← drain cacheSize i false (fun _ => true) d d.requests [] []
    unlock (.io i)
    unifiedGetWriteError i d

/-- The reverse walk of `unified_truncate` over the requests. -/
def truncateRequests (length : Nat) : List BlockRequest → Code ι (List BlockRequest)
  | [] => return []
  | req :: before =>
    if length ≤ req.offset then do
      unifiedUpdateQueueMembership 1
      unifiedFreeRequest req
      truncateRequests length before
    else if length < req.fin then do
      let before ← truncateRequests length before
      return before ++ [req.upTo length]
    else return (req :: before).reverse

/-- The loop of `_unified_process_index_queue` over the requests of one file; memory for an extent is asked for. -/
def indexLoop (i : ι) (d : BlockPriv) : List BlockRequest → List BlockRequest → Code ι BlockPriv
  | [], done => return { d with requests := done }
  | req :: rest, done =>
    if req.state = requestIp then do
      let result ← if ← ask then tape else pure (some WriteError.other)
      match result with
      | some e => unifiedHandleWriteError i e requestIp { d with requests := done ++ req :: rest }
      | none =>
        if ← ask then touch .queue
        unifiedFreeRequest req
        indexLoop i d rest done
    else indexLoop i d rest (done ++ [req])

/-- "Send requests to tape": what could not be written, with the error. -/
def sendHeld : List BlockRequest → Code ι (Option WriteError × List BlockRequest)
  | [] => return (none, [])
  | req :: rest => do
    match ← tape with
    | some e => return (some e, req :: rest)
    | none =>
      unifiedFreeRequest req
      sendHeld rest

end Ltfs.BlockCalls
