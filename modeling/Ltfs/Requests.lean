import Ltfs.Format
import Ltfs.Lib.Cells

namespace Ltfs.Requests

open Format Lib.Cells

/-- `enum request_state` -/
inductive RequestState where
  | requestPartial
  | requestDp
  | requestIp
  deriving DecidableEq, Repr

open RequestState

/-- `struct write_request`. Of the cache block only the first `count` bytes are ever looked at. -/
structure WriteRequest where
  offset : Nat
  cache : Bytes
  state : RequestState
  deriving DecidableEq, Repr

namespace WriteRequest

def count (r : WriteRequest) : Nat :=
  r.cache.length

def fin (r : WriteRequest) : Nat :=
  r.offset + r.count

def byte (r : WriteRequest) (x : Nat) : Option UInt8 :=
  cell r.offset r.cache x

/-- Drop the first `n` bytes. -/
def behind (r : WriteRequest) (n : Nat) : WriteRequest :=
  { r with offset := r.offset + n, cache := r.cache.drop n }

/-- Keep the bytes before file offset `x`. -/
def upTo (r : WriteRequest) (x : Nat) : WriteRequest :=
  { r with cache := r.cache.take (x - r.offset) }

end WriteRequest

/-- The loop at the end of `_unified_update_request`: when a partial request gets full, every partial
request up to the write offset becomes ready. -/
def promoteOne (full : Option Nat) (r : WriteRequest) : WriteRequest :=
  match full with
  | none => r
  | some offset =>
    if r.state = requestPartial ∧ r.offset ≤ offset then { r with state := requestDp } else r

def promote (full : Option Nat) (l : List WriteRequest) : List WriteRequest :=
  l.map (promoteOne full)

/-- `_unified_update_request` on the request itself: the updated request, the number of bytes taken, and
the offset up to which partial requests become ready. -/
def updateRequest (cacheSize : Nat) (req : WriteRequest) (offset : Nat) (buf : Bytes) :
    WriteRequest × Nat × Option Nat :=
  let copyOffset := offset - req.offset
  let copyCount := min (req.offset + cacheSize - offset) buf.length
  let cache := req.cache.take copyOffset ++ (buf.take copyCount ++ req.cache.drop (copyOffset + copyCount))
  if req.state = requestPartial ∧ cache.length = cacheSize then
    ({ req with cache := cache, state := requestDp }, copyCount, some offset)
  else
    ({ req with cache := cache }, copyCount, none)

/-- What `_unified_merge_requests` leaves: the two requests (the second may be gone), the offset up to
which partial requests become ready, the end of `dest` if it was updated, and whether anything happened
to `src`. -/
structure Merged where
  dest : WriteRequest
  src : Option WriteRequest
  full : Option Nat
  reach : Nat
  changed : Bool

/-- A request that lost its first bytes is no longer full. -/
def cutFront (r : WriteRequest) (n : Nat) : WriteRequest :=
  { r.behind n with state := if r.state = requestDp then requestPartial else r.state }

/-- The last part of `_unified_merge_requests`: `n` bytes of `src` are covered by `dest`. -/
def trimSource (dest src : WriteRequest) (full : Option Nat) (reach n : Nat) : Merged :=
  if n = 0 then ⟨dest, some src, full, reach, false⟩
  else if n < src.count then ⟨dest, some (cutFront src n), full, reach, true⟩
  else ⟨dest, none, full, reach, true⟩

/-- `_unified_merge_requests` for a `dest` that is there -/
def mergeRequests (cacheSize : Nat) (dest src : WriteRequest) : Merged :=
  if dest.fin < src.offset then
    ⟨dest, some src, none, 0, false⟩
  else
    let copyOffset := dest.fin - src.offset
    if dest.state ≠ src.state ∧ (dest.state = requestIp ∨ src.state = requestIp) then
      trimSource dest src none 0 copyOffset
    else if dest.count < cacheSize ∧ copyOffset < src.count then
      let (dest, copyCount, full) :=
        updateRequest cacheSize dest (src.offset + copyOffset) (src.cache.drop copyOffset)
      trimSource dest (promoteOne full src) full dest.fin (copyOffset + copyCount)
    else
      trimSource dest src none 0 copyOffset

/-- A request made by `_unified_insert_new_request` from the front of `buf` -/
def newRequest (cacheSize offset : Nat) (buf : Bytes) (ipState : Bool) : WriteRequest where
  offset := offset
  cache := buf.take cacheSize
  state :=
    if ipState then requestIp
    else if min buf.length cacheSize = cacheSize then requestDp
    else requestPartial

/-- The walk of `unified_write` through the request list. The list is `front`, then `prev_req`, then what
was passed over since, then what is still to come. `room` is the number of cache blocks to be had
before the pool runs dry, if it does. -/
structure Walk where
  front : List WriteRequest
  prev : Option WriteRequest
  between : List WriteRequest
  fileSize : Nat
  offset : Nat
  buf : Bytes
  room : Option Nat

namespace Walk

def passed (w : Walk) : List WriteRequest :=
  w.front ++ w.prev.toList ++ w.between

def skip (w : Walk) (req : WriteRequest) : Walk :=
  { w with between := w.between ++ [req] }

/-- `prev_req = req` -/
def moveTo (w : Walk) (req : WriteRequest) : Walk :=
  { w with front := w.passed, prev := some req, between := [] }

def promoted (w : Walk) (full : Option Nat) : Walk :=
  { w with
    front := promote full w.front
    prev := w.prev.map (promoteOne full)
    between := promote full w.between }

def advance (w : Walk) (n : Nat) : Walk :=
  { w with offset := w.offset + n, buf := w.buf.drop n }

def grow (w : Walk) (size : Nat) : Walk :=
  { w with fileSize := max w.fileSize size }

end Walk

/-- Take a cache block from the pool. -/
def takeRoom : Option Nat → Option (Option Nat)
  | none => some none
  | some 0 => none
  | some (n + 1) => some (some n)

/-- How a pass through the request list goes on: with the next request, to `out`, or from the beginning
because the pool was empty. -/
inductive Flow where
  | next
  | out
  | restart
  deriving DecidableEq, Repr

variable (cacheSize : Nat)

/-- The loop at `do_insert_before`, for a request at file offset `limit`. The flag tells that the pool was
empty. -/
def insertBefore (limit : Nat) : Nat → Walk → Walk × Bool
  | 0, w => (w, false)
  | fuel + 1, w =>
    if w.buf = [] ∨ limit ≤ w.offset then
      (w, false)
    else
      match takeRoom w.room with
      | none => (w, true)
      | some room =>
        let new := newRequest cacheSize w.offset w.buf false
        insertBefore limit fuel ((({ w with room := room }.moveTo new).advance new.count).grow new.fin)

/-- The merge of `req` into `prev_req`. -/
def mergePrev (w : Walk) (req : WriteRequest) (rest : List WriteRequest) :
    Walk × Option WriteRequest × List WriteRequest × Bool :=
  match w.prev with
  | none => (w, some req, rest, false)
  | some prev =>
    let m := mergeRequests cacheSize prev req
    ({ w with
        front := promote m.full w.front
        prev := some m.dest
        between := promote m.full w.between
        fileSize := max w.fileSize m.reach },
      m.src, promote m.full rest, m.changed)

/-- `prev_req = req`, and `goto out` when all is written and nothing was merged -/
def settle (w : Walk) (req : WriteRequest) (rest : List WriteRequest) (didMerge : Bool) :
    Flow × Walk × List WriteRequest :=
  (if w.buf = [] ∧ didMerge = false then .out else .next, w.moveTo req, rest)

/-- The body of the loop of `unified_write` for a request that the write reaches. -/
def visit : Nat → Walk → WriteRequest → List WriteRequest → Flow × Walk × List WriteRequest
  | 0, w, req, rest => (.next, w.skip req, rest)
  | fuel + 1, w, req, rest =>
    match insertBefore cacheSize req.offset w.buf.length w with
    | (w, true) => (.restart, w.skip req, rest)
    | (w, false) =>
      match mergePrev cacheSize w req rest with
      | (w, none, rest, _) => (.next, w, rest)
      | (w, some req, rest, didMerge) =>
        if w.buf = [] then
          settle w req rest didMerge
        else if w.offset < req.offset then
          visit fuel w req rest
        else if req.state ≠ requestIp ∧
            (w.offset < req.fin ∨ w.offset = req.fin ∧ req.count < cacheSize) then
          let (req, copyCount, full) := updateRequest cacheSize req w.offset w.buf
          settle (((w.promoted full).advance copyCount).grow req.fin) req (promote full rest) true
        else if req.state = requestIp ∧ w.offset < req.fin then
          if w.offset = req.offset ∧ req.count ≤ w.buf.length then
            (.next, w, rest)
          else if w.offset = req.offset then
            visit fuel w (req.behind w.buf.length) rest
          else if req.fin ≤ w.offset + w.buf.length then
            settle w (req.upTo w.offset) rest didMerge
          else
            match takeRoom w.room with
            | none => (.restart, w.skip req, rest)
            | some room =>
              let copyOffset := w.offset - req.offset + w.buf.length
              let tail := newRequest cacheSize (req.offset + copyOffset) (req.cache.drop copyOffset) true
              visit fuel (({ w with room := room }.skip (req.upTo w.offset)).grow tail.fin) tail rest
        else
          settle w req rest didMerge

/-- The loop of `unified_write` over the request list. -/
def traverse : Nat → Walk → List WriteRequest → Flow × Walk × List WriteRequest
  | 0, w, rest => (.next, w, rest)
  | _ + 1, w, [] => (.next, w, [])
  | fuel + 1, w, req :: rest =>
    if req.fin < w.offset then
      traverse fuel (w.skip req) rest
    else
      match visit cacheSize (w.buf.length + 1) w req rest with
      | (.next, w, rest) => traverse fuel w rest
      | (flow, w, rest) => (flow, w, rest)

/-- What one pass of `unified_write` works on, from `write_start` to `out` or to the next `write_start`. -/
structure Pass where
  requests : List WriteRequest
  fileSize : Nat
  offset : Nat
  buf : Bytes
  room : Option Nat
  deriving DecidableEq, Repr

/-- New requests at the end of the list. -/
def appendNew : Nat → Pass → Pass
  | 0, p => p
  | fuel + 1, p =>
    if p.buf = [] then
      p
    else
      match takeRoom p.room with
      | none => p
      | some room =>
        let new := newRequest cacheSize p.offset p.buf false
        appendNew fuel ⟨p.requests ++ [new], max p.fileSize new.fin, p.offset + new.count,
          p.buf.drop new.count, room⟩

/-- Data that goes on right behind the last request is put into it, if it has room. -/
def appendLast (p : Pass) : Pass :=
  match p.requests.getLast? with
  | none => p
  | some req =>
    if req.count < cacheSize ∧ p.offset = req.fin ∧ req.state ≠ requestIp then
      let (req, copyCount, full) := updateRequest cacheSize req p.offset p.buf
      { p with
        requests := promote full p.requests.dropLast ++ [req]
        fileSize := max p.fileSize req.fin
        offset := p.offset + copyCount
        buf := p.buf.drop copyCount }
    else p

def lastOffset (l : List WriteRequest) : Nat :=
  match l.getLast? with
  | none => 0
  | some req => req.fin

/-- From `do_append` on. What is left in `buf` has to be tried again from `write_start`. -/
def doAppend : Nat → Pass → Pass
  | 0, p => p
  | fuel + 1, p =>
    if lastOffset p.requests ≤ p.offset then
      let p := appendLast cacheSize p
      appendNew cacheSize p.buf.length p
    else
      match traverse cacheSize p.requests.length ⟨[], none, [], p.fileSize, p.offset, p.buf, p.room⟩ p.requests with
      | (flow, w, rest) =>
        let p : Pass := ⟨w.passed ++ rest, w.fileSize, w.offset, w.buf, w.room⟩
        if flow = .next ∧ w.buf ≠ [] then doAppend fuel p else p

/-- One pass of `unified_write` through the request list. -/
def writePass (p : Pass) : Pass :=
  doAppend cacheSize (p.requests.length + p.buf.length + 1) p

end Ltfs.Requests
