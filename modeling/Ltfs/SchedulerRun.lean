import Ltfs.RequestCalls

namespace Ltfs.SchedulerRun

open Format Requests RequestState Unified RawFile Queues RequestCalls

variable {ι : Type} [DecidableEq ι] (c : UnifiedData)

/-- What a step meets outside the scheduler: the file's dentry and the tape. -/
structure World where
  contents : Contents
  matchesNameCriteria : Bool
  deleted : Bool
  tape : Tape

/-- New data for a file, with the calls that go with it. -/
def setDpr (i : ι) (p : CountedPriv) (dpr : DentryPriv) (cs : List Call) (s : Scheduler ι) : Option (Scheduler ι) :=
  calls i cs (s.setPriv i (some { p with dpr := dpr }))

/-- `_unified_get_dentry_priv` -/
def unifiedGetDentryPriv (w : World) (i : ι) (s : Scheduler ι) : Scheduler ι :=
  match s.priv i with
  | some _ => s
  | none =>
    s.setPriv i (some ⟨Unified.unifiedGetDentryPriv c
      ⟨w.contents, w.matchesNameCriteria, w.deleted, none, w.tape⟩, fun _ => 0⟩)

/-- `_unified_set_write_ip` -/
def unifiedSetWriteIp (i : ι) (p : CountedPriv) (s : Scheduler ι) : Option (Scheduler ι) := do
  let total ← decrease (s.requestCount requestDp) (p.inQueue requestDp)
  return { s with requestCount := Function.update s.requestCount requestDp total }.setPriv i
    (some { p with dpr := { p.dpr with writeIp := true } })

def withoutIp (dpr : DentryPriv) : DentryPriv :=
  { dpr with requests := dpr.requests.filter (·.state ≠ requestIp) }

/-- The first part of `_unified_unset_write_ip`: the file leaves the IP queue. -/
def leaveIpQueue (i : ι) (p : CountedPriv) (s : Scheduler ι) : Option (Scheduler ι) :=
  if p.inQueue requestIp = 0 then some s
  else setDpr i p (withoutIp p.dpr) [removeAll requestIp] s

/-- `write_ip` is unset, and the requests that it hid are counted again. -/
def unhide (i : ι) (p : CountedPriv) (s : Scheduler ι) : Scheduler ι :=
  { s with
    requestCount := Function.update s.requestCount requestDp (s.requestCount requestDp + p.inQueue requestDp)
    }.setPriv i (some { p with dpr := { p.dpr with writeIp := false } })

/-- `_unified_clear_alt_extentlist`, dropping the extents -/
def unifiedClearAltExtentlist (i : ι) (p : CountedPriv) (s : Scheduler ι) : Scheduler ι :=
  if p.dpr.altExtentlist = [] then s
  else { s with extQueue := s.extQueue.erase i }.setPriv i (some { p with dpr := { p.dpr with altExtentlist := [] } })

/-- Do something with the data of a file that has some. -/
def withPriv (i : ι) (f : CountedPriv → Scheduler ι → Option (Scheduler ι)) (s : Scheduler ι) : Option (Scheduler ι) :=
  match s.priv i with
  | none => some s
  | some p => f p s

/-- `_unified_unset_write_ip`. Between the parts the flag is not looked at. -/
def unifiedUnsetWriteIp (i : ι) (p : CountedPriv) (s : Scheduler ι) : Option (Scheduler ι) := do
  let s ← leaveIpQueue i p s
  let s ← withPriv i (fun p s => some (unhide i p s)) s
  withPriv i (fun p s => some (unifiedClearAltExtentlist i p s)) s

/-- A file starts or stops to be written to the index partition. -/
def replace (start stop : CountedPriv → Bool) (i : ι) : Scheduler ι → Option (Scheduler ι) :=
  withPriv i fun p s =>
    if p.dpr.writeIp = false ∧ start p = true then unifiedSetWriteIp i p s
    else if p.dpr.writeIp = true ∧ stop p = true then unifiedUnsetWriteIp i p s
    else some s

/-- The request list part of a pass of `unified_write`. -/
def writeRequests (room : Option Nat) (offset : Nat) (buf : Bytes) (i : ι) : Scheduler ι → Option (Scheduler ι) :=
  withPriv i fun p s =>
    let start : Pass := ⟨p.dpr.requests, p.dpr.fileSize, offset, buf, room⟩
    let pass := writePass c.cacheSize start
    setDpr i p { p.dpr with requests := pass.requests, fileSize := pass.fileSize } (writePassCalls c.cacheSize start) s

/-- One pass of `unified_write` from `write_start` on. Between two passes the file is not locked. -/
def unifiedWrite (w : World) (ipFull : Bool) (room : Option Nat) (offset : Nat) (buf : Bytes) (i : ι)
    (s : Scheduler ι) : Option (Scheduler ι) :=
  if buf = [] then some s
  else
    withPriv i (fun p s =>
      if p.dpr.writeError = none then do
        let s ← replace (fun _ => false) (fun _ => decide (c.maxFilesize < offset + buf.length ∨ ipFull = true)) i s
        writeRequests c room offset buf i s
      else setDpr i p { p.dpr with writeError := none } [] s) (unifiedGetDentryPriv c w i s)

/-- `unified_truncate` up to the data placement -/
def truncateLists (length : Nat) (i : ι) : Scheduler ι → Option (Scheduler ι) :=
  withPriv i fun p s =>
    if length < p.dpr.fileSize then
      setDpr i p
        { p.dpr with
          fileSize := length
          requests := truncateRequests length p.dpr.requests.reverse
          altExtentlist := truncateAlt length p.dpr.altExtentlist }
        (truncateCalls length p.dpr.requests.reverse) s
    else setDpr i p { p.dpr with fileSize := length } [] s

/-- `unified_truncate` -/
def unifiedTruncate (w : World) (length : Nat) (i : ι) (s : Scheduler ι) : Option (Scheduler ι) := do
  let s ← truncateLists length i s
  replace
    (fun _ => decide (0 < c.maxFilesize ∧ length = 0 ∧ w.matchesNameCriteria = true ∧ w.deleted = false))
    (fun p => decide (c.maxFilesize < p.dpr.fileSize ∨ w.matchesNameCriteria = false ∨ w.deleted = true)) i s

/-- `unified_update_data_placement` -/
def unifiedUpdateDataPlacement (w : World) (i : ι) : Scheduler ι → Option (Scheduler ι) :=
  replace
    (fun p => decide (0 < c.maxFilesize ∧ p.dpr.fileSize ≤ c.maxFilesize ∧ w.matchesNameCriteria = true ∧
      w.deleted = false))
    (fun p => decide (c.maxFilesize < p.dpr.fileSize ∨ w.matchesNameCriteria = false ∨ w.deleted = true)) i

/-- `_unified_get_write_error` -/
def unifiedGetWriteError (i : ι) : Scheduler ι → Option (Scheduler ι) :=
  withPriv i fun p s => setDpr i p { p.dpr with writeError := none } [] s

/-- `_unified_flush_unlocked` -/
def unifiedFlushUnlocked (w : World) (i : ι) : Scheduler ι → Option (Scheduler ι) :=
  withPriv i fun p s =>
    if p.dpr.writeError ≠ none then unifiedGetWriteError i s
    else if p.dpr.requests = [] then some s
    else do
      let s ← setDpr i p (drain c false (fun _ => true) p.dpr p.dpr.requests [] [] w.contents w.tape).1
        (removeAll requestDp :: removeAll requestPartial ::
          drainCalls c false (fun _ => true) p.dpr.writeIp p.dpr.requests [] w.contents w.tape) s
      unifiedGetWriteError i s

/-- `_unified_free_dentry_priv_conditional`; `idle` tells that few enough handles are left. -/
def unifiedFreeDentryPrivConditional (idle : Bool) (i : ι) : Scheduler ι → Option (Scheduler ι) :=
  withPriv i fun p s =>
    if idle = true ∧ p.dpr.requests = [] ∧ p.dpr.altExtentlist = [] then some (s.setPriv i none) else some s

/-- `unified_close`, up to the release of the dentry -/
def unifiedClose (w : World) (flush idle : Bool) (i : ι) (s : Scheduler ι) : Option (Scheduler ι) := do
  let s ← (if flush then unifiedFlushUnlocked c w i else some) s
  let s ← unifiedGetWriteError i s
  unifiedFreeDentryPrivConditional idle i s

/-- `_unified_process_data_queue` for one file, up to where the private list is sent to tape. `full` is set
when the working set is processed too. -/
def unifiedProcessDataQueue (w : World) (full : Bool) (i : ι) : Scheduler ι → Option (Scheduler ι) :=
  withPriv i fun p s =>
    let take : WriteRequest → Bool := fun r => full || r.state == requestDp
    setDpr i p (drain c true take p.dpr p.dpr.requests [] [] w.contents w.tape).1
      ((if full then [removeAll requestPartial, removeAll requestDp] else [removeAll requestDp]) ++
        drainCalls c true take p.dpr.writeIp p.dpr.requests [] w.contents w.tape) s

/-- How often the loop of `_unified_process_index_queue` finds an empty list of index partition extents and
links the file in `ext_queue`. -/
def extInserts : List WriteRequest → DentryPriv → Tape → Nat
  | [], _, _ => 0
  | req :: rest, dpr, t =>
    if req.state = requestIp then
      match ltfsFsrawWriteData c.label c.drive .ip req.cache t with
      | (.error _, _) => 0
      | (.ok start, t) =>
        let new : ExtentInfo := ⟨⟨start, c.label.partidIp⟩, 0, req.count, req.offset⟩
        (if dpr.altExtentlist = [] then 1 else 0) + extInserts rest (unifiedUpdateAltExtentlist c new dpr) t
    else extInserts rest dpr t

/-- `_unified_process_index_queue` for one file -/
def unifiedProcessIndexQueue (w : World) (idle : Bool) (i : ι) (s : Scheduler ι) : Option (Scheduler ι) := do
  let s ← withPriv i (fun p s => do
    let s ← setDpr i p (indexLoop c w.contents p.dpr.requests [] p.dpr w.tape).1
      (removeAll requestIp :: indexCalls c p.dpr.requests [] w.tape) s
    return { s with extQueue := s.extQueue ++ List.replicate (extInserts c p.dpr.requests p.dpr w.tape) i }) s
  unifiedFreeDentryPrivConditional idle i s

/-- `_unified_handle_write_error`, for a request of the private list of `_unified_process_data_queue` -/
def unifiedHandleWriteError (w : World) (e : WriteError) (failed : RequestState) (i : ι) :
    Scheduler ι → Option (Scheduler ι) :=
  withPriv i fun p s =>
    setDpr i p (Unified.unifiedHandleWriteError c e failed w.contents w.tape p.dpr)
      (handleWriteErrorCalls c e failed w.tape p.dpr.requests) s

inductive Op where
  | write (ipFull : Bool) (room : Option Nat) (offset : Nat) (buf : Bytes)
  | truncate (length : Nat)
  | flush
  | close (flush idle : Bool)
  | place
  | data (full : Bool)
  | index (idle : Bool)
  | error (e : WriteError) (failed : RequestState)

def act (w : World) : Op → ι → Scheduler ι → Option (Scheduler ι)
  | .write ipFull room offset buf => unifiedWrite c w ipFull room offset buf
  | .truncate length => unifiedTruncate c w length
  | .flush => unifiedFlushUnlocked c w
  | .close flush idle => unifiedClose c w flush idle
  | .place => unifiedUpdateDataPlacement c w
  | .data full => unifiedProcessDataQueue c w full
  | .index idle => unifiedProcessIndexQueue c w idle
  | .error e failed => unifiedHandleWriteError c w e failed

/-- A step on a file, in whatever world it is taken. -/
structure Step (ι : Type) where
  file : ι
  world : World
  op : Op

def step (s : Scheduler ι) (a : Step ι) : Option (Scheduler ι) := act c a.world a.op a.file s

/-- A run of the scheduler. There is no result if a counter wraps or a list is corrupted. -/
def run (as : List (Step ι)) : Option (Scheduler ι) := as.foldlM (step c) unifiedInit

end Ltfs.SchedulerRun
