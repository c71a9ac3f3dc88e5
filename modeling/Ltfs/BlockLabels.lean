import Ltfs.BlockCalls

namespace Ltfs.BlockLabels

open CacheManager Lib.Program Requests RequestState RawFile BlockCalls

variable {ι : Type}

/-- The arguments and local variables of `unified_write` that outlive a pass through the request list. -/
structure WriteCall (ι : Type) where
  file : ι
  offset : Nat
  size : Nat
  isupdatetime : Bool
  spareCache : Option Block
  checkedReadonly : Bool

def WriteCall.advance (c : WriteCall ι) (n : Nat) : WriteCall ι :=
  { c with offset := c.offset + n, size := c.size - n }

/-- The request list up to where `unified_write` has come: `front`, then `prev_req`, then what was passed over
since. -/
structure Walk where
  front : List BlockRequest
  prev : Option BlockRequest
  between : List BlockRequest

namespace Walk

def passed (w : Walk) : List BlockRequest := w.front ++ w.prev.toList ++ w.between

def skip (w : Walk) (req : BlockRequest) : Walk := { w with between := w.between ++ [req] }

/-- `prev_req = req` -/
def moveTo (w : Walk) (req : BlockRequest) : Walk := ⟨w.passed, some req, []⟩

def promoted (w : Walk) (full : Option Nat) : Walk :=
  ⟨promote full w.front, w.prev.map (promoteOne full), promote full w.between⟩

end Walk

/-- Where a thread is: the labels of `unified_write` and its loops, the loops of the other calls, and the calls
themselves. -/
inductive Label (ι : Type) where
  | returned
  | write (c : WriteCall ι)
  | writeStart (c : WriteCall ι)
  | doAppend (c : WriteCall ι) (d : BlockPriv)
  | append (c : WriteCall ι) (d : BlockPriv)
  | forEach (c : WriteCall ι) (d : BlockPriv) (w : Walk) (rest : List BlockRequest)
  | doInsertBefore (c : WriteCall ι) (d : BlockPriv) (w : Walk) (req : BlockRequest) (rest : List BlockRequest)
  | out (c : WriteCall ι) (d : Option BlockPriv) (success : Bool)
  | flush (i : ι)
  | close (i : ι) (flush : Bool)
  | truncate (i : ι) (length : Nat)
  | place (i : ι)
  | flushAll
  | flushNext
  | index
  | indexNext
  | data (full : Bool)
  | dataNext (full : Bool)

variable (cacheSize : Nat)

/-- `unified_write` up to `write_start` -/
def write (c : WriteCall ι) : Code ι (Label ι) := do
  if c.size = 0 then return .returned
  else
    lock .privRead
    if ← ltfsGetVolumeLock then
      unlock .volume
      return .writeStart c
    else
      unlock .privRead
      return .returned

/-- The end of `unified_write` where it returns an error from the middle. -/
def giveUp (c : WriteCall ι) (d : BlockPriv) : Code ι (Label ι) := do
  leave c.file (some d)
  unlock (.iosched c.file)
  unlock .privRead
  return .returned

/-- `_unified_get_dentry_priv`; memory for new data and the name criteria are asked for. -/
def unifiedGetDentryPriv (i : ι) (f : Option BlockPriv) : Code ι (Option BlockPriv) :=
  match f with
  | some d => return some d
  | none => do
    if ← ask then
      touch (.metadata i)
      return some ⟨← ask, none, []⟩
    else return none

/-- `write_start` up to `do_append` -/
def writeStart (c : WriteCall ι) : Code ι (Label ι) := do
  lock (.iosched c.file)
  let f ← enter c.file c.spareCache.isSome
  match ← unifiedGetDentryPriv c.file f with
  | none =>
    leave c.file none
    return .out c none false
  | some d =>
    let (e, d) ← unifiedGetWriteError c.file d
    if e ≠ none then giveUp c d
    else if ← askIf (!c.checkedReadonly) then giveUp c d
    else
      let d ← if ← askIf d.writeIp then unifiedUnsetWriteIp d else pure d
      return .doAppend { c with checkedReadonly := true } d

def lastOffset (l : List BlockRequest) : Nat :=
  match l.getLast? with
  | none => 0
  | some req => req.fin

/-- `do_append` up to one of the loops. -/
def doAppend (c : WriteCall ι) (d : BlockPriv) : Code ι (Label ι) := do
  if lastOffset d.requests ≤ c.offset then
    match d.requests.getLast? with
    | none => return .append c d
    | some req =>
      if req.count < cacheSize ∧ c.offset = req.fin ∧ req.state ≠ requestIp then
        let (new, copyCount, full) := updateRequest cacheSize req c.offset c.size
        unifiedUpdateQueueMembership (promoteUpdates full d.requests)
        return .append (c.advance copyCount) { d with requests := promote full d.requests.dropLast ++ [new] }
      else return .append c d
  else return .forEach c d ⟨[], none, []⟩ d.requests

/-- The loop that appends new requests to the end of the list. -/
def append (c : WriteCall ι) (d : BlockPriv) : Code ι (Label ι) := do
  if c.size = 0 then return .out c (some d) true
  else
    match ← unifiedInsertNewRequest cacheSize c.file d c.offset c.size c.spareCache false with
    | .failed cache => return .out { c with spareCache := cache } none false
    | .restart cache => return .writeStart { c with spareCache := cache }
    | .done new =>
      return .append ({ c with spareCache := none }.advance new.count) { d with requests := d.requests ++ [new] }

/-- The head of the loop over the request list. -/
def forEach (c : WriteCall ι) (d : BlockPriv) (w : Walk) (rest : List BlockRequest) : Code ι (Label ι) :=
  match rest with
  | [] =>
    if c.size = 0 then return .out c (some { d with requests := w.passed }) true
    else return .doAppend c { d with requests := w.passed }
  | req :: rest =>
    if req.fin < c.offset then return .forEach c d (w.skip req) rest
    else return .doInsertBefore c d w req rest

/-- `prev_req = req` at the end of the loop's body, and `goto out` when all is written and nothing was merged -/
def settle (c : WriteCall ι) (d : BlockPriv) (w : Walk) (req : BlockRequest) (rest : List BlockRequest)
    (didMerge : Bool) : Label ι :=
  if c.size = 0 ∧ didMerge = false then .out c (some { d with requests := w.passed ++ req :: rest }) true
  else .forEach c d (w.moveTo req) rest

/-- The merge of `req` into `prev_req`, with what is to be walked then, whether anything was merged, and the spare
block. -/
def mergePrev (c : WriteCall ι) (w : Walk) (req : BlockRequest) (rest : List BlockRequest) :
    Code ι (Option BlockRequest × Walk × List BlockRequest × Bool × Option Block) :=
  match w.prev with
  | none => return (some req, w, rest, false, c.spareCache)
  | some prev => do
    let (m, spare) ← unifiedMergeRequests cacheSize (w.passed ++ req :: rest) prev req true c.spareCache
    return (m.src, ⟨promote m.full w.front, some m.dest, promote m.full w.between⟩, promote m.full rest, m.changed,
      spare)

/-- What `unified_write` does with a request that it has come to and that its data does not lie before. -/
def overlap (c : WriteCall ι) (d : BlockPriv) (w : Walk) (req : BlockRequest) (rest : List BlockRequest)
    (didMerge : Bool) : Code ι (Label ι) := do
  if c.size = 0 then return settle c d w req rest didMerge
  else if c.offset < req.offset then return .doInsertBefore c d w req rest
  else if req.state ≠ requestIp ∧ (c.offset < req.fin ∨ c.offset = req.fin ∧ req.count < cacheSize) then
    let (new, copyCount, full) := updateRequest cacheSize req c.offset c.size
    unifiedUpdateQueueMembership (promoteUpdates full (w.passed ++ req :: rest))
    return settle (c.advance copyCount) d (w.promoted full) new (promote full rest) true
  else if req.state = requestIp ∧ c.offset < req.fin then
    if c.offset = req.offset ∧ req.count ≤ c.size then
      unifiedUpdateQueueMembership 1
      if c.spareCache = none then return .forEach { c with spareCache := some req.writeCache } d w rest
      else
        unifiedFreeRequest req
        return .forEach c d w rest
    else if c.offset = req.offset then return .doInsertBefore c d w (req.behind c.size) rest
    else if req.fin ≤ c.offset + c.size then return settle c d w (req.upTo c.offset) rest didMerge
    else
      let copyOffset := c.offset - req.offset + c.size
      match ← unifiedInsertNewRequest cacheSize c.file { d with requests := w.passed ++ req :: rest }
          (req.offset + copyOffset) (req.count - copyOffset) c.spareCache true with
      | .failed cache => return .out { c with spareCache := cache } none false
      | .restart cache => return .writeStart { c with spareCache := cache }
      | .done tail => return .doInsertBefore { c with spareCache := none } d (w.skip (req.upTo c.offset)) tail rest
  else return settle c d w req rest didMerge

/-- `do_insert_before` up to the end of the loop's body, or one turn of the loop there. -/
def doInsertBefore (c : WriteCall ι) (d : BlockPriv) (w : Walk) (req : BlockRequest) (rest : List BlockRequest) :
    Code ι (Label ι) := do
  if 0 < c.size ∧ c.offset < req.offset then
    match ← unifiedInsertNewRequest cacheSize c.file { d with requests := w.passed ++ req :: rest } c.offset c.size
        c.spareCache false with
    | .failed cache => return .out { c with spareCache := cache } none false
    | .restart cache => return .writeStart { c with spareCache := cache }
    | .done new =>
      return .doInsertBefore ({ c with spareCache := none }.advance new.count) d (w.moveTo new) req rest
  else
    let (src, w, rest, didMerge, spare) ← mergePrev cacheSize c w req rest
    match src with
    | none => return .forEach { c with spareCache := spare } d w rest
    | some req => overlap cacheSize { c with spareCache := spare } d w req rest didMerge

/-- `out` -/
def out (c : WriteCall ι) (d : Option BlockPriv) (success : Bool) : Code ι (Label ι) := do
  if success then
    if ← ltfsGetVolumeLock then
      if c.isupdatetime then touch (.metadata c.file)
      unlock .volume
  if d ≠ none then leave c.file d
  unlock (.iosched c.file)
  match c.spareCache with
  | some b => unifiedCacheFree b
  | none => pure ()
  unlock .privRead
  return .returned

/-- Do something with the scheduler's data of a file, under the locks for it. -/
def locked (i : ι) (f : BlockPriv → Code ι (Option BlockPriv)) : Code ι (Label ι) := do
  lock .privRead
  lock (.iosched i)
  match ← enter i false with
  | none => leave i none
  | some d => leave i (← f d)
  unlock (.iosched i)
  unlock .privRead
  return .returned

/-- `unified_flush` of one file -/
def flush (i : ι) : Code ι (Label ι) :=
  locked i fun d => do
    let (_, d) ← unifiedFlushUnlocked cacheSize i d
    return some d

/-- `unified_close`, up to the release of the dentry -/
def close (i : ι) (flush : Bool) : Code ι (Label ι) :=
  locked i fun d => do
    let d ← if flush then do
        let (_, d) ← unifiedFlushUnlocked cacheSize i d
        pure d
      else pure d
    let (_, d) ← unifiedGetWriteError i d
    unifiedFreeDentryPrivConditional i d

/-- `unified_truncate`; the size of the file is asked for. -/
def truncate (i : ι) (length : Nat) : Code ι (Label ι) := do
  if ← ask then return .returned
  else
    locked i fun d => do
      let requests ← if ← ask then truncateRequests length d.requests.reverse else pure d.requests
      let d ← replace i { d with requests := requests }
      touch (.io i)
      return some d

/-- `unified_update_data_placement` -/
def place (i : ι) : Code ι (Label ι) := locked i fun d => return some (← replace i d)

/-- The loops of `_unified_flush_all` over the files of two queues. -/
def flushNext : Code ι (Label ι) := do
  match ← pick with
  | none =>
    unlock .privWrite
    return .returned
  | some i =>
    match ← enter i false with
    | none =>
      leave i none
      return .flushNext
    | some d =>
      let (e, d) ← unifiedFlushUnlocked cacheSize i d
      leave i (some d)
      if e ≠ none then
        unlock .privWrite
        return .returned
      else return .flushNext

/-- The loop of `_unified_process_index_queue` over the files of the queue. -/
def indexNext : Code ι (Label ι) := do
  match ← pick with
  | none =>
    unlock .privWrite
    return .returned
  | some i =>
    match ← enter i false with
    | none => leave i none
    | some d =>
      unifiedUpdateQueueMembership 1
      let d ← indexLoop i d d.requests []
      leave i (← unifiedFreeDentryPrivConditional i d)
    return .indexNext

/-- What `_unified_process_data_queue` does after an error: the file's data may be gone meanwhile. The lock that is
held afterwards is released by the caller. -/
def dropHeld (i : ι) (e : WriteError) (failed : RequestState) (held : List BlockRequest) : Code ι Bool := do
  unlock (.io i)
  lock (.iosched i)
  let there ← match ← enter i false with
    | none => do
      leave i none
      pure false
    | some d => do
      lock (.io i)
      let d ← unifiedHandleWriteError i e failed d
      leave i (some d)
      pure true
  unlock (.iosched i)
  let _ ← freeWhere (fun _ => true) held
  return there

/-- The loop of `_unified_process_data_queue`. `full` is set when the working set is processed too. -/
def dataNext (full : Bool) : Code ι (Label ι) := do
  touch .queue
  match ← pick with
  | none =>
    unlock .privRead
    return .returned
  | some i =>
    lock (.iosched i)
    match ← enter i false with
    | none =>
      leave i none
      unlock (.iosched i)
    | some d =>
      unifiedUpdateQueueMembership (if full then 2 else 1)
      lock (.io i)
      let (d, held) ← drain cacheSize i true (fun r => full || r.state == requestDp) d d.requests [] []
      leave i (some d)
      unlock (.iosched i)
      match ← sendHeld held with
      | (some e, req :: rest) => if ← dropHeld i e req.state (req :: rest) then unlock (.io i)
      | _ => unlock (.io i)
    return .dataNext full

/-- The code from a label to the next one. -/
def block : Label ι → Code ι (Label ι)
  | .returned => return .returned
  | .write c => write c
  | .writeStart c => writeStart c
  | .doAppend c d => doAppend cacheSize c d
  | .append c d => append cacheSize c d
  | .forEach c d w rest => forEach c d w rest
  | .doInsertBefore c d w req rest => doInsertBefore cacheSize c d w req rest
  | .out c d success => out c d success
  | .flush i => flush cacheSize i
  | .close i closing => close cacheSize i closing
  | .truncate i length => truncate i length
  | .place i => place i
  | .flushAll => do
    lock .privWrite
    return .flushNext
  | .flushNext => flushNext cacheSize
  | .index => do
    lock .privWrite
    return .indexNext
  | .indexNext => indexNext
  | .data full => do
    lock .privRead
    touch .queue
    return .dataNext full
  | .dataNext full => dataNext cacheSize full

end Ltfs.BlockLabels
