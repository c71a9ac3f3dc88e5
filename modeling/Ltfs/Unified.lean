import Ltfs.RawFile
import Ltfs.Requests

namespace Ltfs.Unified

open Format Records RawFile Requests RequestState

/-- The parts of `struct unified_data` and of its volume that requests depend on -/
structure UnifiedData where
  cacheSize : Nat
  cacheSize_pos : 0 < cacheSize
  maxFilesize : Nat
  label : Label
  drive : Drive

/-- `struct dentry_priv`. The counters `in_working_set`, `in_dp_queue` and `in_ip_queue` are the numbers of
requests in each state and are not kept. -/
structure DentryPriv where
  fileSize : Nat
  writeIp : Bool
  writeError : Option WriteError
  requests : List WriteRequest
  altExtentlist : List ExtentInfo
  deriving DecidableEq, Repr

/-- A file: its dentry, the scheduler's data for it, and the tape it is on. -/
structure File where
  contents : Contents
  matchesNameCriteria : Bool
  deleted : Bool
  dpr : Option DentryPriv
  tape : Tape

variable (c : UnifiedData)

/-- `_unified_get_dentry_priv` -/
def unifiedGetDentryPriv (f : File) : DentryPriv :=
  match f.dpr with
  | some dpr => dpr
  | none =>
    { fileSize := f.contents.size
      writeIp := f.matchesNameCriteria && !(c.maxFilesize == 0 || c.maxFilesize < f.contents.size)
      writeError := none
      requests := []
      altExtentlist := [] }

/-- `_unified_set_write_ip` -/
def unifiedSetWriteIp (dpr : DentryPriv) : DentryPriv :=
  { dpr with writeIp := true }

/-- `_unified_unset_write_ip` -/
def unifiedUnsetWriteIp (dpr : DentryPriv) : DentryPriv :=
  { dpr with
    writeIp := false
    requests := dpr.requests.filter (·.state ≠ requestIp)
    altExtentlist := [] }

def WriteError.isSpace : WriteError → Bool
  | .noSpace | .lessSpace => true
  | .other => false

/-- `_unified_handle_write_error`. `failed` is the state of the request that could not be written. -/
def unifiedHandleWriteError (e : WriteError) (failed : RequestState) (d : Contents) (t : Tape)
    (dpr : DentryPriv) : DentryPriv :=
  let hard := !WriteError.isSpace e
  let clearIp := failed = requestIp ∨ hard ∨ c.drive.readonly t.writes .ip
  let clearDp := failed ≠ requestIp ∨ hard ∨ c.drive.readonly t.writes .dp
  let kept := dpr.requests.filter fun r =>
    ¬ (r.state = requestIp ∧ clearIp ∨ r.state ≠ requestIp ∧ clearDp)
  { dpr with
    writeError := if failed = requestIp ∧ ¬ hard then dpr.writeError else dpr.writeError.or (some e)
    fileSize := kept.foldl (fun n r => max n r.fin) d.size
    requests := kept }

/-- `_unified_merge_requests` of a request on its way to the index partition into the one before it. A
request for the index partition never makes others ready. -/
def mergeLast (done : List WriteRequest) (req : WriteRequest) : List WriteRequest :=
  match done.getLast? with
  | none => done ++ [req]
  | some prev =>
    let m := mergeRequests c.cacheSize prev req
    done.dropLast ++ m.dest :: m.src.toList

/-- The walk over the requests of one file that `_unified_flush_unlocked` and
`_unified_process_data_queue` share: the requests in `take` go to the data partition, or on a private
list when the file is not written to the index partition as well and `hold` is set. -/
def drain (hold : Bool) (take : WriteRequest → Bool) (dpr : DentryPriv) :
    List WriteRequest → List WriteRequest → List WriteRequest → Contents → Tape →
    DentryPriv × List WriteRequest × Contents × Tape
  | [], done, held, d, t => ({ dpr with requests := done }, held, d, t)
  | req :: rest, done, held, d, t =>
    if req.state = requestIp then
      drain hold take dpr rest (mergeLast c done req) held d t
    else if take req then
      if dpr.writeIp ∨ ¬ hold then
        match ltfsFsrawWrite c.label c.drive .dp req.cache req.offset d t with
        | (.error e, t) =>
          (unifiedHandleWriteError c e req.state d t { dpr with requests := done ++ req :: rest }, held, d, t)
        | (.ok d, t) =>
          if dpr.writeIp then
            drain hold take dpr rest (mergeLast c done { req with state := requestIp }) held d t
          else
            drain hold take dpr rest done held d t
      else
        drain hold take dpr rest done (held ++ [req]) d t
    else
      drain hold take dpr rest (done ++ [req]) held d t

/-- "Send requests to tape": the private list is written in order, up to the first error. -/
def sendHeld (dpr : DentryPriv) : List WriteRequest → Contents → Tape → DentryPriv × Contents × Tape
  | [], d, t => (dpr, d, t)
  | req :: rest, d, t =>
    match ltfsFsrawWrite c.label c.drive .dp req.cache req.offset d t with
    | (.error e, t) => (unifiedHandleWriteError c e req.state d t dpr, d, t)
    | (.ok d, t) => sendHeld dpr rest d t

/-- `_unified_get_write_error` -/
def unifiedGetWriteError (f : File) : Option WriteError × File :=
  match f.dpr with
  | none => (none, f)
  | some dpr => (dpr.writeError, { f with dpr := some { dpr with writeError := none } })

/-- `_unified_flush_unlocked` -/
def unifiedFlushUnlocked (f : File) : Option WriteError × File :=
  match unifiedGetWriteError f with
  | (some e, f) => (some e, f)
  | (none, f) =>
    match f.dpr with
    | none => (none, f)
    | some dpr =>
      if dpr.requests = [] then
        (none, f)
      else
        match drain c false (fun _ => true) dpr dpr.requests [] [] f.contents f.tape with
        | (dpr, _, d, t) => unifiedGetWriteError { f with dpr := some dpr, contents := d, tape := t }

/-- `_unified_process_data_queue` for one file. `full` is set when the working set is processed too. -/
def unifiedProcessDataQueue (full : Bool) (f : File) : File :=
  match f.dpr with
  | none => f
  | some dpr =>
    match drain c true (fun r => full || r.state == requestDp) dpr dpr.requests [] [] f.contents f.tape with
    | (dpr, held, d, t) =>
      match sendHeld c dpr held d t with
      | (dpr, d, t) => { f with dpr := some dpr, contents := d, tape := t }

/-- The walk of `_unified_update_alt_extentlist` over a list that is not empty. -/
def updateAltWalk (new : ExtentInfo) : Bool → List ExtentInfo → List ExtentInfo
  | used, [] => if used then [] else [new]
  | used, entry :: rest =>
    let here := if used = false ∧ new.fileoffset ≤ entry.fileoffset then [new] else []
    let used := used || new.fileoffset ≤ entry.fileoffset
    let bs := c.label.blocksize
    if entry.fileoffsetEnd < new.fileoffset then
      here ++ entry :: updateAltWalk new used rest
    else if entry.fileoffsetEnd = new.fileoffset then
      if new.byteoffset = 0 ∧ entry.byteoffsetEnd % bs = 0 ∧
          entry.start.block + entry.byteoffsetEnd / bs = new.start.block then
        here ++ entry.grow new.bytecount :: updateAltWalk new true rest
      else
        here ++ entry :: updateAltWalk new used rest
    else if entry.fileoffset < new.fileoffset then
      if entry.fileoffsetEnd ≤ new.fileoffsetEnd then
        here ++ entry.truncateEnd new.fileoffset :: updateAltWalk new used rest
      else
        here ++ entry :: updateAltWalk new used rest
    else if entry.fileoffsetEnd ≤ new.fileoffsetEnd then
      here ++ updateAltWalk new used rest
    else if entry.fileoffset < new.fileoffsetEnd then
      here ++ entry.truncateFront bs (new.fileoffsetEnd - entry.fileoffset) :: updateAltWalk new used rest
    else
      here ++ entry :: rest

/-- `_unified_update_alt_extentlist` -/
def unifiedUpdateAltExtentlist (new : ExtentInfo) (dpr : DentryPriv) : DentryPriv :=
  { dpr with altExtentlist := updateAltWalk c new false dpr.altExtentlist }

/-- The loop of `_unified_process_index_queue` over the requests of one file. -/
def indexLoop (d : Contents) : List WriteRequest → List WriteRequest → DentryPriv → Tape → DentryPriv × Tape
  | [], done, dpr, t => ({ dpr with requests := done }, t)
  | req :: rest, done, dpr, t =>
    if req.state = requestIp then
      match ltfsFsrawWriteData c.label c.drive .ip req.cache t with
      | (.error e, t) =>
        (unifiedHandleWriteError c e requestIp d t { dpr with requests := done ++ req :: rest }, t)
      | (.ok start, t) =>
        let new : ExtentInfo := ⟨⟨start, c.label.partidIp⟩, 0, req.count, req.offset⟩
        indexLoop d rest done (unifiedUpdateAltExtentlist c new dpr) t
    else
      indexLoop d rest (done ++ [req]) dpr t

/-- `_unified_free_dentry_priv_conditional`; `idle` tells that few enough handles are left. -/
def unifiedFreeDentryPrivConditional (idle : Bool) (f : File) : File :=
  match f.dpr with
  | none => f
  | some dpr => if idle ∧ dpr.requests = [] ∧ dpr.altExtentlist = [] then { f with dpr := none } else f

/-- `_unified_process_index_queue` for one file -/
def unifiedProcessIndexQueue (idle : Bool) (f : File) : File :=
  match f.dpr with
  | none => f
  | some dpr =>
    match indexLoop c f.contents dpr.requests [] dpr f.tape with
    | (dpr, t) => unifiedFreeDentryPrivConditional idle { f with dpr := some dpr, tape := t }

/-- `_unified_clear_alt_extentlist`, saving the extents -/
def unifiedClearAltExtentlist (alt : List ExtentInfo) (d : Contents) : Contents :=
  alt.foldl (fun d e => ltfsFsrawAddExtent c.label e d) d

/-- `_unified_free_dentry_priv` -/
def unifiedFreeDentryPriv (f : File) : File :=
  match f.dpr with
  | none => f
  | some dpr =>
    { f with
      dpr := none
      contents := if dpr.writeIp then unifiedClearAltExtentlist c dpr.altExtentlist f.contents else f.contents }

/-- The work of the background thread on one file. -/
inductive Background where
  | data (full : Bool)
  | index (idle : Bool)
  deriving DecidableEq, Repr

def background (f : File) : Background → File
  | .data full => unifiedProcessDataQueue c full f
  | .index idle => unifiedProcessIndexQueue c idle f

/-- One wait of `unified_write` for a cache block: the pool had `room` blocks, and while the writer waited
the background thread did some work. -/
structure Pause where
  room : Nat
  work : List Background
  deriving DecidableEq, Repr

/-- What happens between `write_start` and the request list: errors met by the background thread are
returned, and a file that outgrew the index partition is no longer written there. -/
def writeStart (ipFull : Bool) (offset : Nat) (buf : Bytes) (dpr : DentryPriv) : DentryPriv :=
  if dpr.writeIp ∧ (c.maxFilesize < offset + buf.length ∨ ipFull) then unifiedUnsetWriteIp dpr else dpr

/-- One pass of `unified_write`; what is left to be written is returned. -/
def writeOnce (ipFull : Bool) (room : Option Nat) (offset : Nat) (buf : Bytes) (f : File) : Nat × Bytes × File :=
  let dpr := writeStart c ipFull offset buf (unifiedGetDentryPriv c f)
  let p := writePass c.cacheSize ⟨dpr.requests, dpr.fileSize, offset, buf, room⟩
  (p.offset, p.buf, { f with dpr := some { dpr with requests := p.requests, fileSize := p.fileSize } })

/-- `unified_write` from `write_start` on. `ipFull` tells that the index partition is low on space. -/
def writeFrom (ipFull : Bool) : List Pause → Nat → Bytes → File → Option WriteError × File
  | pauses, offset, buf, f =>
    match (unifiedGetDentryPriv c f).writeError with
    | some e => (some e, { f with dpr := some { unifiedGetDentryPriv c f with writeError := none } })
    | none =>
      match pauses with
      | [] => (none, (writeOnce c ipFull none offset buf f).2.2)
      | pause :: pauses =>
        match writeOnce c ipFull (some pause.room) offset buf f with
        | (_, [], f) => (none, f)
        | (offset, b :: buf, f) =>
          writeFrom ipFull pauses offset (b :: buf) (pause.work.foldl (background c) f)

/-- `unified_write` -/
def unifiedWrite (ipFull : Bool) (pauses : List Pause) (buf : Bytes) (offset : Nat) (f : File) :
    Option WriteError × File :=
  if buf = [] then (none, f) else writeFrom c ipFull pauses offset buf f

/-- What `unified_read` finds for one stretch of the file: bytes of a request, or a hole to be read from
tape. -/
inductive Piece where
  | cached (b : Bytes)
  | hole (offset count : Nat)
  deriving DecidableEq, Repr

/-- The walk of `unified_read` over the requests: the pieces found, and the offset and size that are left. -/
def readPieces : List WriteRequest → Nat → Nat → List Piece × Nat × Nat
  | [], offset, size => ([], offset, size)
  | req :: rest, offset, size =>
    let gap := min (req.offset - offset) size
    let holes := if offset < req.offset then [Piece.hole offset gap] else []
    let offset := offset + gap
    let size := size - gap
    if size = 0 then
      (holes, offset, size)
    else if offset < req.fin then
      let n := min (req.fin - offset) size
      let piece := Piece.cached ((req.cache.drop (offset - req.offset)).take n)
      if size - n = 0 then
        (holes ++ [piece], offset + n, size - n)
      else
        match readPieces rest (offset + n) (size - n) with
        | (ps, offset, size) => (holes ++ piece :: ps, offset, size)
    else
      match readPieces rest offset size with
      | (ps, offset, size) => (holes ++ ps, offset, size)

/-- The queued tape reads. After the first one that ends early everything is past the end of what libltfs
has, and reads as zeros. -/
def fillHoles (read : Nat → Nat → Option Bytes) : Bool → List Piece → Option Bytes
  | _, [] => some []
  | pastEof, .cached b :: ps => (fillHoles read pastEof ps).map (b ++ ·)
  | true, .hole _ count :: ps => (fillHoles read true ps).map (List.replicate count 0 ++ ·)
  | false, .hole offset count :: ps =>
    match read count offset with
    | none => none
    | some b =>
      (fillHoles read (decide (b.length < count)) ps).map (b ++ List.replicate (count - b.length) 0 ++ ·)

/-- `unified_read`; no result stands for an error of the tape. -/
def unifiedRead (size offset : Nat) (f : File) : Option Bytes :=
  let raw := ltfsFsrawRead c.label f.tape.store f.contents
  if size = 0 then
    some []
  else
    match f.dpr with
    | none => raw size offset
    | some dpr =>
      if dpr.requests = [] then
        raw size offset
      else
        match readPieces dpr.requests offset size with
        | (ps, offset, size) =>
          match fillHoles raw false ps with
          | none => none
          | some b => if size = 0 then some b else (raw size offset).map (b ++ ·)

/-- The reverse walk of `unified_truncate` over the requests. -/
def truncateRequests (length : Nat) : List WriteRequest → List WriteRequest
  | [] => []
  | req :: before =>
    if length ≤ req.offset then
      truncateRequests length before
    else if length < req.fin then
      truncateRequests length before ++ [req.upTo length]
    else
      (req :: before).reverse

/-- The walk of `unified_truncate` over the extents on the index partition. -/
def truncateAlt (length : Nat) : List ExtentInfo → List ExtentInfo
  | [] => []
  | ext :: rest =>
    if length ≤ ext.fileoffset then truncateAlt length rest
    else if length < ext.fileoffsetEnd then ext.truncateEnd length :: truncateAlt length rest
    else ext :: truncateAlt length rest

/-- The part of `unified_truncate` that works on the scheduler's data. -/
def truncateDpr (f : File) (length : Nat) (dpr : DentryPriv) : DentryPriv :=
  let dpr :=
    if length < dpr.fileSize then
      { dpr with
        requests := truncateRequests length dpr.requests.reverse
        altExtentlist := truncateAlt length dpr.altExtentlist }
    else dpr
  let dpr := { dpr with fileSize := length }
  if dpr.writeIp = false ∧ 0 < c.maxFilesize ∧ length = 0 ∧ f.matchesNameCriteria ∧ f.deleted = false then
    unifiedSetWriteIp dpr
  else if dpr.writeIp ∧ (c.maxFilesize < dpr.fileSize ∨ f.matchesNameCriteria = false ∨ f.deleted) then
    unifiedUnsetWriteIp dpr
  else dpr

/-- `unified_truncate` -/
def unifiedTruncate (length : Nat) (f : File) : File :=
  { f with
    dpr := f.dpr.map (truncateDpr c f length)
    contents := ltfsFsrawTruncate length f.contents }

/-- `unified_update_data_placement` -/
def unifiedUpdateDataPlacement (f : File) : File :=
  match f.dpr with
  | none => f
  | some dpr =>
    if dpr.writeIp = false ∧ 0 < c.maxFilesize ∧ dpr.fileSize ≤ c.maxFilesize ∧ f.matchesNameCriteria ∧
        f.deleted = false then
      { f with dpr := some (unifiedSetWriteIp dpr) }
    else if dpr.writeIp ∧ (c.maxFilesize < dpr.fileSize ∨ f.matchesNameCriteria = false ∨ f.deleted) then
      { f with dpr := some (unifiedUnsetWriteIp dpr) }
    else f

/-- `unified_flush` of one file -/
def unifiedFlush (f : File) : Option WriteError × File :=
  unifiedFlushUnlocked c f

/-- `unified_close`, up to the release of the dentry -/
def unifiedClose (flush idle : Bool) (f : File) : Option WriteError × File :=
  let (ret, f) := if flush then unifiedFlushUnlocked c f else (none, f)
  let (writeError, f) := unifiedGetWriteError f
  (ret.or writeError, unifiedFreeDentryPrivConditional idle f)

/-- `unified_destroy` for one file: the writer thread flushes and writes the index partition queue before it
ends, then the extents on the index partition are handed over. -/
def unifiedDestroy (f : File) : File :=
  unifiedFreeDentryPriv c (unifiedProcessIndexQueue c true (unifiedFlushUnlocked c f).2)

end Ltfs.Unified
