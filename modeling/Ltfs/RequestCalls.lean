import Ltfs.Queues

namespace Ltfs.RequestCalls

open Format Requests RequestState Unified RawFile Queues

/-- The loop at the end of `_unified_update_request` over the request list `l`. -/
def promoteCalls (full : Option Nat) (l : List WriteRequest) : List Call :=
  match full with
  | none => []
  | some offset =>
    l.flatMap fun r =>
      if r.state = requestPartial ∧ r.offset ≤ offset then [removeFrom requestPartial, addTo requestDp] else []

/-- The calls at the end of `_unified_merge_requests`. -/
def trimCalls (src : WriteRequest) (n : Nat) : List Call :=
  if n = 0 then []
  else if n < src.count then
    if src.state = requestDp then [removeFrom requestDp, addTo requestPartial] else []
  else [removeFrom src.state]

variable (cacheSize : Nat)

/-- The calls of `_unified_update_request` on a member `req` of the request list `l`. -/
def updateCalls (l : List WriteRequest) (req : WriteRequest) (offset : Nat) (buf : Bytes) : List Call :=
  promoteCalls (updateRequest cacheSize req offset buf).2.2 l

/-- The calls of `_unified_merge_requests` on two members of the request list `l`. -/
def mergeCalls (l : List WriteRequest) (dest src : WriteRequest) : List Call :=
  if dest.fin < src.offset then []
  else
    let copyOffset := dest.fin - src.offset
    if dest.state ≠ src.state ∧ (dest.state = requestIp ∨ src.state = requestIp) then
      trimCalls src copyOffset
    else if dest.count < cacheSize ∧ copyOffset < src.count then
      let (_, copyCount, full) :=
        updateRequest cacheSize dest (src.offset + copyOffset) (src.cache.drop copyOffset)
      updateCalls cacheSize l dest (src.offset + copyOffset) (src.cache.drop copyOffset) ++
        trimCalls (promoteOne full src) (copyOffset + copyCount)
    else
      trimCalls src copyOffset

/-- The calls of `insertBefore`, one for each new request. -/
def insertBeforeCalls (limit : Nat) : Nat → Walk → List Call
  | 0, _ => []
  | fuel + 1, w =>
    if w.buf = [] ∨ limit ≤ w.offset then []
    else
      match takeRoom w.room with
      | none => []
      | some room =>
        let new := newRequest cacheSize w.offset w.buf false
        addTo new.state ::
          insertBeforeCalls limit fuel ((({ w with room := room }.moveTo new).advance new.count).grow new.fin)

/-- The calls of `mergePrev`. -/
def mergePrevCalls (w : Walk) (req : WriteRequest) (rest : List WriteRequest) : List Call :=
  match w.prev with
  | none => []
  | some prev => mergeCalls cacheSize (w.passed ++ req :: rest) prev req

/-- The calls of `visit`. -/
def visitCalls : Nat → Walk → WriteRequest → List WriteRequest → List Call
  | 0, _, _, _ => []
  | fuel + 1, w, req, rest =>
    insertBeforeCalls cacheSize req.offset w.buf.length w ++
      match insertBefore cacheSize req.offset w.buf.length w with
      | (_, true) => []
      | (w, false) =>
        mergePrevCalls cacheSize w req rest ++
          match mergePrev cacheSize w req rest with
          | (_, none, _, _) => []
          | (w, some req, rest, _) =>
            if w.buf = [] then []
            else if w.offset < req.offset then visitCalls fuel w req rest
            else if req.state ≠ requestIp ∧
                (w.offset < req.fin ∨ w.offset = req.fin ∧ req.count < cacheSize) then
              updateCalls cacheSize (w.passed ++ req :: rest) req w.offset w.buf
            else if req.state = requestIp ∧ w.offset < req.fin then
              if w.offset = req.offset ∧ req.count ≤ w.buf.length then [removeFrom requestIp]
              else if w.offset = req.offset then visitCalls fuel w (req.behind w.buf.length) rest
              else if req.fin ≤ w.offset + w.buf.length then []
              else
                match takeRoom w.room with
                | none => []
                | some room =>
                  let copyOffset := w.offset - req.offset + w.buf.length
                  let tail := newRequest cacheSize (req.offset + copyOffset) (req.cache.drop copyOffset) true
                  addTo tail.state ::
                    visitCalls fuel (({ w with room := room }.skip (req.upTo w.offset)).grow tail.fin) tail rest
            else []

/-- The calls of `traverse`. -/
def traverseCalls : Nat → Walk → List WriteRequest → List Call
  | 0, _, _ => []
  | _ + 1, _, [] => []
  | fuel + 1, w, req :: rest =>
    if req.fin < w.offset then traverseCalls fuel (w.skip req) rest
    else
      visitCalls cacheSize (w.buf.length + 1) w req rest ++
        match visit cacheSize (w.buf.length + 1) w req rest with
        | (.next, w, rest) => traverseCalls fuel w rest
        | _ => []

/-- The calls of `appendNew`. -/
def appendNewCalls : Nat → Pass → List Call
  | 0, _ => []
  | fuel + 1, p =>
    if p.buf = [] then []
    else
      match takeRoom p.room with
      | none => []
      | some room =>
        let new := newRequest cacheSize p.offset p.buf false
        addTo new.state ::
          appendNewCalls fuel ⟨p.requests ++ [new], max p.fileSize new.fin, p.offset + new.count,
            p.buf.drop new.count, room⟩

/-- The calls of `appendLast`. -/
def appendLastCalls (p : Pass) : List Call :=
  match p.requests.getLast? with
  | none => []
  | some req =>
    if req.count < cacheSize ∧ p.offset = req.fin ∧ req.state ≠ requestIp then
      updateCalls cacheSize p.requests req p.offset p.buf
    else []

/-- The calls of `doAppend`. -/
def doAppendCalls : Nat → Pass → List Call
  | 0, _ => []
  | fuel + 1, p =>
    if lastOffset p.requests ≤ p.offset then
      appendLastCalls cacheSize p ++
        appendNewCalls cacheSize (appendLast cacheSize p).buf.length (appendLast cacheSize p)
    else
      let start : Walk := ⟨[], none, [], p.fileSize, p.offset, p.buf, p.room⟩
      traverseCalls cacheSize p.requests.length start p.requests ++
        match traverse cacheSize p.requests.length start p.requests with
        | (flow, w, rest) =>
          if flow = .next ∧ w.buf ≠ [] then
            doAppendCalls fuel ⟨w.passed ++ rest, w.fileSize, w.offset, w.buf, w.room⟩
          else []

/-- The calls of one pass of `unified_write` through the request list. -/
def writePassCalls (p : Pass) : List Call :=
  doAppendCalls cacheSize (p.requests.length + p.buf.length + 1) p

/-- The calls of the reverse walk of `unified_truncate`. -/
def truncateCalls (length : Nat) : List WriteRequest → List Call
  | [] => []
  | req :: before =>
    if length ≤ req.offset then removeFrom req.state :: truncateCalls length before
    else if length < req.fin then truncateCalls length before
    else []

variable (c : UnifiedData)

/-- The calls of `mergeLast`. -/
def mergeLastCalls (done : List WriteRequest) (req : WriteRequest) (rest : List WriteRequest) : List Call :=
  match done.getLast? with
  | none => []
  | some prev => mergeCalls c.cacheSize (done ++ req :: rest) prev req

/-- The partitions whose requests `_unified_handle_write_error` drops. -/
def clearsIp (e : WriteError) (failed : RequestState) (t : Tape) : Prop :=
  failed = requestIp ∨ (!WriteError.isSpace e) = true ∨ c.drive.readonly t.writes .ip

def clearsDp (e : WriteError) (failed : RequestState) (t : Tape) : Prop :=
  failed ≠ requestIp ∨ (!WriteError.isSpace e) = true ∨ c.drive.readonly t.writes .dp

instance (e : WriteError) (failed : RequestState) (t : Tape) : Decidable (clearsIp c e failed t) :=
  inferInstanceAs (Decidable (_ ∨ _ ∨ _))

instance (e : WriteError) (failed : RequestState) (t : Tape) : Decidable (clearsDp c e failed t) :=
  inferInstanceAs (Decidable (_ ∨ _ ∨ _))

/-- The calls of `_unified_handle_write_error` -/
def handleWriteErrorCalls (e : WriteError) (failed : RequestState) (t : Tape) (l : List WriteRequest) : List Call :=
  if l = [] then []
  else
    (if clearsDp c e failed t then [removeAll requestDp, removeAll requestPartial] else []) ++
      if clearsIp c e failed t then [removeAll requestIp] else []

/-- The calls of `drain`. -/
def drainCalls (hold : Bool) (take : WriteRequest → Bool) (writeIp : Bool) :
    List WriteRequest → List WriteRequest → Contents → Tape → List Call
  | [], _, _, _ => []
  | req :: rest, done, d, t =>
    if req.state = requestIp then
      mergeLastCalls c done req rest ++ drainCalls hold take writeIp rest (mergeLast c done req) d t
    else if take req then
      if writeIp ∨ ¬ hold then
        match ltfsFsrawWrite c.label c.drive .dp req.cache req.offset d t with
        | (.error e, t) => handleWriteErrorCalls c e req.state t (done ++ req :: rest)
        | (.ok d, t) =>
          if writeIp then
            addTo requestIp :: mergeLastCalls c done { req with state := requestIp } rest ++
              drainCalls hold take writeIp rest (mergeLast c done { req with state := requestIp }) d t
          else drainCalls hold take writeIp rest done d t
      else drainCalls hold take writeIp rest done d t
    else drainCalls hold take writeIp rest (done ++ [req]) d t

/-- The calls of `indexLoop`. -/
def indexCalls : List WriteRequest → List WriteRequest → Tape → List Call
  | [], _, _ => []
  | req :: rest, done, t =>
    if req.state = requestIp then
      match ltfsFsrawWriteData c.label c.drive .ip req.cache t with
      | (.error e, t) => handleWriteErrorCalls c e requestIp t (done ++ req :: rest)
      | (.ok _, t) => indexCalls rest done t
    else indexCalls rest (done ++ [req]) t

end Ltfs.RequestCalls
