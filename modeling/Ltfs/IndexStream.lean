import Ltfs.Records
import Ltfs.Lib.Log

namespace Ltfs.IndexStream

open Format Records Lib.Log

/-- `struct xml_output_tape`: the used part of the buffer, and the records sent to the drive so far -/
structure OutputTape where
  buf : Bytes
  written : List Bytes
  deriving DecidableEq, Repr

/-- The loop of `xml_output_tape_write_callback`: the buffer is filled up and written until no more than
one block of input is left, which stays in the buffer. -/
def writeBlocks (bufSize : Nat) : Nat → Bytes → OutputTape → OutputTape
  | 0, _, ctx => ctx
  | fuel + 1, input, ctx =>
    let copyCount := bufSize - ctx.buf.length
    let ctx : OutputTape := ⟨[], ctx.written ++ [ctx.buf ++ input.take copyCount]⟩
    let input := input.drop copyCount
    if bufSize < input.length then writeBlocks bufSize fuel input ctx else { ctx with buf := input }

/-- `xml_output_tape_write_callback` on a drive that takes every block -/
def xmlOutputTapeWriteCallback (bufSize : Nat) (ctx : OutputTape) (buffer : Bytes) : OutputTape :=
  if buffer = [] then ctx
  else if ctx.buf.length + buffer.length < bufSize then { ctx with buf := ctx.buf ++ buffer }
  else writeBlocks bufSize (buffer.length + 2) buffer ctx

/-- `xml_output_tape_close_callback` -/
def xmlOutputTapeCloseCallback (ctx : OutputTape) : List Bytes :=
  if ctx.buf = [] then ctx.written else ctx.written ++ [ctx.buf]

/-- The records of a document that reaches the callbacks in pieces. -/
def tapeBlocks (bufSize : Nat) (chunks : List Bytes) : List Bytes :=
  xmlOutputTapeCloseCallback (chunks.foldl (xmlOutputTapeWriteCallback bufSize) ⟨[], []⟩)

/-- `tape_read`: the bytes of a data record, nothing for a filemark, an error for anything else -/
def tapeRead (recs : List Record) (pos : Nat) : Option Bytes :=
  match recs[pos]? with
  | some (.data b) => some b
  | some .filemark => some []
  | _ => none

/-- `tape_spacefm(-1)`: back to the front of the last filemark passed -/
def tapeSpacefmBack (recs : List Record) (pos : Nat) : Option Nat :=
  (List.range pos).reverse.find? fun i => decide (recs[i]? = some .filemark)

/-- `struct xml_input_tape`, with the head of the drive. `buf` is the part of the buffer still to be
handed out. -/
structure InputTape where
  pos : Nat
  currentPos : Nat
  eodPos : Nat
  sawSmallBlock : Bool
  sawFileMark : Bool
  buf : Bytes
  deriving DecidableEq, Repr

variable (bufSize : Nat) (recs : List Record)

/-- Back over the filemark that was just read. -/
def stopAtFileMark (ctx : InputTape) : Option InputTape :=
  (tapeSpacefmBack recs ctx.pos).map fun pos => { ctx with pos := pos, sawFileMark := true }

/-- What `xml_input_tape_read_callback` does with a block of `nread` bytes that is shorter than the
buffer. -/
def smallBlock (nread : Nat) (ctx : InputTape) : Option InputTape :=
  let ctx := { ctx with sawSmallBlock := true }
  if nread = 0 then
    stopAtFileMark recs ctx
  else if ctx.eodPos = 0 ∨ ctx.currentPos < ctx.eodPos then
    match tapeRead recs ctx.pos with
    | none => none
    | some b =>
      let ctx := { ctx with pos := ctx.pos + 1 }
      if b = [] then stopAtFileMark recs ctx else some ctx
  else some ctx

/-- The loop of `xml_input_tape_read_callback`: blocks are read until the request is filled or the end of
the index is known. -/
def readBlocks : Nat → Nat → Bytes → InputTape → Option (Bytes × InputTape)
  | 0, _, saved, ctx => some (saved, ctx)
  | fuel + 1, remaining, saved, ctx =>
    if remaining = 0 then
      some (saved, ctx)
    else if 0 < ctx.eodPos ∧ ctx.currentPos = ctx.eodPos then
      some (saved, ctx)
    else if ctx.sawSmallBlock then
      some (saved, ctx)
    else
      match tapeRead recs ctx.pos with
      | none => none
      | some b =>
        let ctx := { ctx with pos := ctx.pos + 1, currentPos := ctx.currentPos + 1 }
        match (if b.length < bufSize then smallBlock recs b.length ctx else some ctx) with
        | none => none
        | some ctx =>
          if b.length < remaining then readBlocks fuel (remaining - b.length) (saved ++ b) ctx
          else some (saved ++ b.take remaining, { ctx with buf := b.drop remaining })

/-- `xml_input_tape_read_callback`; no result stands for an error. -/
def xmlInputTapeReadCallback (len : Nat) (ctx : InputTape) : Option (Bytes × InputTape) :=
  if len ≤ ctx.buf.length then
    some (ctx.buf.take len, { ctx with buf := ctx.buf.drop len })
  else
    readBlocks bufSize recs (len + 1) (len - ctx.buf.length) ctx.buf { ctx with buf := [] }

/-- A sequence of requests. -/
def readAll : List Nat → InputTape → Option (List Bytes × InputTape)
  | [], ctx => some ([], ctx)
  | len :: lens, ctx =>
    match xmlInputTapeReadCallback bufSize recs len ctx with
    | none => none
    | some (b, ctx) => (readAll lens ctx).map fun (bs, ctx) => (b :: bs, ctx)

/-- Consecutive pieces of a byte string. -/
def pieces : Bytes → List Nat → List Bytes
  | _, [] => []
  | doc, len :: lens => doc.take len :: pieces (doc.drop len) lens

/-- The context that `xml_schema_from_tape` makes at block `pos` of a partition. -/
def inputTape (pos eodPos : Nat) : InputTape :=
  ⟨pos, pos, eodPos, false, false, []⟩

section Writer

variable {bufSize : Nat} {ctx : OutputTape} {doc : Bytes}

/-- Full blocks, the last one possibly short. -/
def Blocked (bufSize : Nat) : List Bytes → Prop
  | [] => True
  | b :: bs => 0 < b.length ∧ b.length ≤ bufSize ∧ (b.length < bufSize → bs = []) ∧ Blocked bufSize bs

theorem blocked_of_full (hpos : 0 < bufSize) {bs : List Bytes} (h : ∀ b ∈ bs, b.length = bufSize) {last : Bytes}
    (hlast : last.length ≤ bufSize) :
    Blocked bufSize (if last = [] then bs else bs ++ [last]) := by
  induction bs with
  | nil =>
    split
    · trivial
    · rename_i hne
      exact ⟨List.length_pos_iff.2 hne, hlast, fun _ => rfl, trivial⟩
  | cons b bs ih =>
    have hb : b.length = bufSize := h b (by simp)
    have hrest := ih fun c hc => h c (List.mem_cons_of_mem _ hc)
    split at hrest <;> rename_i hl
    · rw [if_pos hl]
      exact ⟨by omega, by omega, fun hlt => by omega, hrest⟩
    · rw [if_neg hl]
      exact ⟨by omega, by omega, fun hlt => by omega, hrest⟩

/-- What the output context holds after `doc` has gone through it. -/
structure Holding (bufSize : Nat) (ctx : OutputTape) (doc : Bytes) : Prop where
  bytes : ctx.written.flatten ++ ctx.buf = doc
  full : ∀ b ∈ ctx.written, b.length = bufSize
  fits : ctx.buf.length ≤ bufSize

theorem writeBlocks_holding (hpos : 0 < bufSize) (fuel : Nat) (input : Bytes) (ctx : OutputTape)
    (h : Holding bufSize ctx doc) (hfill : bufSize ≤ ctx.buf.length + input.length)
    (hfuel : input.length + (if ctx.buf.length = bufSize then 1 else 0) < fuel) :
    Holding bufSize (writeBlocks bufSize fuel input ctx) (doc ++ input) := by
  induction fuel generalizing input ctx doc with
  | zero => omega
  | succ fuel ih =>
    have hfits := h.fits
    generalize hn : bufSize - ctx.buf.length = n
    have hblock : (ctx.buf ++ input.take n).length = bufSize := by
      simp only [List.length_append, List.length_take]
      omega
    have hnext : Holding bufSize ⟨[], ctx.written ++ [ctx.buf ++ input.take n]⟩ (doc ++ input.take n) := by
      refine ⟨?_, ?_, Nat.zero_le _⟩
      · simp [← h.bytes]
      · intro b hb
        obtain hb | hb := List.mem_append.1 hb
        · exact h.full b hb
        · rw [List.mem_singleton.1 hb, hblock]
    have hdoc : doc ++ input = doc ++ input.take n ++ input.drop n := by
      rw [List.append_assoc, List.take_append_drop]
    rw [writeBlocks]
    simp only [hn]
    rw [hdoc]
    split
    · rename_i hmore
      rw [List.length_drop] at hmore
      apply ih _ _ hnext
      · simp only [List.length_nil, List.length_drop]
        omega
      · rw [List.length_drop, List.length_nil, if_neg (by omega)]
        split at hfuel <;> omega
    · rename_i hdone
      refine ⟨?_, hnext.full, Nat.not_lt.1 hdone⟩
      rw [← hnext.bytes]
      simp

theorem xmlOutputTapeWriteCallback_holding (hpos : 0 < bufSize) (buffer : Bytes) (h : Holding bufSize ctx doc) :
    Holding bufSize (xmlOutputTapeWriteCallback bufSize ctx buffer) (doc ++ buffer) := by
  unfold xmlOutputTapeWriteCallback
  split_ifs with hnil hroom
  · rw [hnil, List.append_nil]
    exact h
  · refine ⟨?_, h.full, ?_⟩
    · rw [← h.bytes, List.append_assoc]
    · rw [List.length_append]
      omega
  · apply writeBlocks_holding hpos _ _ _ h (by omega)
    split <;> omega

theorem foldl_holding (hpos : 0 < bufSize) (chunks : List Bytes) (h : Holding bufSize ctx doc) :
    Holding bufSize (chunks.foldl (xmlOutputTapeWriteCallback bufSize) ctx) (doc ++ chunks.flatten) := by
  induction chunks generalizing ctx doc with
  | nil => simpa using h
  | cons c cs ih =>
    have := ih (xmlOutputTapeWriteCallback_holding hpos c h)
    rwa [List.append_assoc] at this

/-- However the document is cut into pieces, its records are full blocks with a possibly short last one, and
together they are the document. -/
theorem tapeBlocks_spec (hpos : 0 < bufSize) (chunks : List Bytes) :
    Blocked bufSize (tapeBlocks bufSize chunks) ∧ (tapeBlocks bufSize chunks).flatten = chunks.flatten := by
  have hempty : Holding bufSize ⟨[], []⟩ [] := ⟨rfl, by simp, Nat.zero_le _⟩
  have h := foldl_holding hpos chunks hempty
  rw [List.nil_append] at h
  unfold tapeBlocks xmlOutputTapeCloseCallback
  generalize chunks.foldl (xmlOutputTapeWriteCallback bufSize) ⟨[], []⟩ = ctx at h ⊢
  refine ⟨blocked_of_full hpos h.full h.fits, ?_⟩
  rw [← h.bytes]
  split
  · rename_i hnil
    rw [hnil, List.append_nil]
  · simp

end Writer

section Reader

variable {bufSize fm : Nat} {recs : List Record} {ctx : InputTape} {rest : Bytes} {bs : List Bytes}

/-- The reader has `rest` still to hand out: what is in its buffer, then the blocks up to the filemark at
`fm`. -/
structure Reading (bufSize fm : Nat) (recs : List Record) (ctx : InputTape) (bs : List Bytes) : Prop where
  blocked : Blocked bufSize bs
  ahead : Holds recs ctx.pos (bs.map .data ++ [.filemark])
  mark : ctx.pos + bs.length = fm
  small : ctx.sawSmallBlock = true → bs = []
  current : ctx.sawSmallBlock = false → ctx.currentPos = ctx.pos
  eod : ctx.eodPos = 0 ∨ fm < ctx.eodPos

theorem tapeRead_filemark {pos : Nat} (h : Holds recs pos [.filemark]) : tapeRead recs pos = some [] := by
  have := h.getElem? (k := 0) (by simp)
  rw [Nat.add_zero] at this
  simp [tapeRead, this]

theorem tapeSpacefmBack_filemark {pos : Nat} (h : Holds recs pos [.filemark]) :
    tapeSpacefmBack recs (pos + 1) = some pos := by
  have := h.getElem? (k := 0) (by simp)
  rw [Nat.add_zero] at this
  rw [tapeSpacefmBack, List.range_succ, List.reverse_append]
  simp [this]

/-- The filemark that ends the index stops the reader in front of it. -/
theorem Reading.filemark (h : Reading bufSize fm recs ctx []) (cur : Nat) (small : Bool) (c : Bytes) :
    stopAtFileMark recs ⟨ctx.pos + 1, cur, ctx.eodPos, true, small, c⟩ = some ⟨ctx.pos, cur, ctx.eodPos, true, true, c⟩ ∧
      Reading bufSize fm recs ⟨ctx.pos, cur, ctx.eodPos, true, true, c⟩ [] := by
  refine ⟨?_, trivial, h.ahead, h.mark, fun _ => rfl, nofun, h.eod⟩
  rw [stopAtFileMark, tapeSpacefmBack_filemark h.ahead]
  rfl

theorem readBlocks_small (h : ctx.sawSmallBlock = true) (fuel remaining : Nat) (saved : Bytes) :
    readBlocks bufSize recs fuel remaining saved ctx = some (saved, ctx) := by
  cases fuel with
  | zero => rfl
  | succ fuel =>
    rw [readBlocks]
    split_ifs <;> rfl

theorem Holds.tail {r : Record} {rs : List Record} {pos : Nat} (h : Holds recs pos (r :: rs)) :
    recs[pos]? = some r ∧ Holds recs (pos + 1) rs := by
  obtain ⟨pre, post, rfl, rfl⟩ := h
  refine ⟨by simp, pre ++ [r], post, by simp, by simp⟩

/-- A block is read: the reader has one block less ahead, or knows that it was the last one. -/
theorem Reading.block {b : Bytes} (h : Reading bufSize fm recs ctx (b :: bs)) (hs : ctx.sawSmallBlock = false) :
    tapeRead recs ctx.pos = some b ∧
      ∃ ctx', (if b.length < bufSize then
          smallBlock recs b.length { ctx with pos := ctx.pos + 1, currentPos := ctx.currentPos + 1 }
        else some { ctx with pos := ctx.pos + 1, currentPos := ctx.currentPos + 1 }) = some ctx' ∧
        Reading bufSize fm recs ctx' bs ∧ ctx'.buf = ctx.buf := by
  obtain ⟨hpos, hle, hlast, hblocked⟩ := h.blocked
  have hall := h.ahead
  rw [List.map_cons, List.cons_append] at hall
  obtain ⟨hget, hahead⟩ := Holds.tail hall
  have hmark := h.mark
  have hcur := h.current hs
  refine ⟨by simp [tapeRead, hget], ?_⟩
  rw [List.length_cons] at hmark
  split
  · rename_i hlt
    obtain rfl := hlast hlt
    rw [List.map_nil, List.nil_append] at hahead
    have hsmall : Reading bufSize fm recs ⟨ctx.pos + 1, ctx.currentPos + 1, ctx.eodPos, true, ctx.sawFileMark, ctx.buf⟩ [] :=
      ⟨trivial, hahead, by simp only [List.length_nil] at *; omega, fun _ => rfl, nofun, h.eod⟩
    obtain ⟨hstop, hreading⟩ := hsmall.filemark (ctx.currentPos + 1) ctx.sawFileMark ctx.buf
    refine ⟨_, ?_, hreading, rfl⟩
    have heod := h.eod
    simp only [List.length_nil] at hmark
    rw [smallBlock, if_neg (by omega), if_pos (by simp only; omega)]
    rw [show tapeRead recs (ctx.pos + 1) = some [] from tapeRead_filemark hahead]
    simp only [if_true]
    exact hstop
  · refine ⟨_, rfl, ⟨hblocked, hahead, ?_, fun ht => by simp [hs] at ht, fun _ => ?_, h.eod⟩, rfl⟩
    · simp only
      omega
    · simp only
      omega

/-- The loop hands out what was asked for, or all there is. -/
theorem readBlocks_reading (hpos : 0 < bufSize) (fuel remaining : Nat) (saved : Bytes) (bs : List Bytes) (ctx : InputTape)
    (h : Reading bufSize fm recs ctx bs) (hbuf : ctx.buf = []) (hfuel : remaining < fuel) :
    ∃ ctx' bs', readBlocks bufSize recs fuel remaining saved ctx = some (saved ++ bs.flatten.take remaining, ctx') ∧
      Reading bufSize fm recs ctx' bs' ∧ ctx'.buf ++ bs'.flatten = bs.flatten.drop remaining := by
  induction fuel generalizing remaining saved bs ctx with
  | zero => omega
  | succ fuel ih =>
    by_cases hs : ctx.sawSmallBlock = true
    · obtain rfl := h.small hs
      exact ⟨ctx, [], by rw [readBlocks_small hs]; simp, h, by simp [hbuf]⟩
    · rw [Bool.not_eq_true] at hs
      have hcur := h.current hs
      have hmark := h.mark
      have heod := h.eod
      by_cases hzero : remaining = 0
      · subst hzero
        exact ⟨ctx, bs, by rw [readBlocks, if_pos rfl]; simp, h, by simp [hbuf]⟩
      · rw [readBlocks, if_neg hzero, if_neg (by omega), if_neg (by simp [hs])]
        cases bs with
        | nil =>
          rw [show tapeRead recs ctx.pos = some [] from tapeRead_filemark h.ahead]
          obtain ⟨hstop, hreading⟩ := h.filemark (ctx.currentPos + 1) ctx.sawFileMark ctx.buf
          simp only [List.length_nil, hpos, if_true, smallBlock, hstop]
          rw [if_pos (by omega), readBlocks_small rfl]
          exact ⟨_, [], by simp, hreading, by simp [hbuf]⟩
        | cons b bs =>
          obtain ⟨hb, -, -, -⟩ := h.blocked
          obtain ⟨hread, ctx', hnext, hreading, hsame⟩ := h.block hs
          simp only [hread, hnext]
          split
          · rename_i hlt
            obtain ⟨ctx'', bs'', heq, hr, hrest⟩ := ih (remaining - b.length) (saved ++ b) bs ctx' hreading
              (hsame.trans hbuf) (by omega)
            refine ⟨ctx'', bs'', ?_, hr, ?_⟩
            · rw [heq, List.flatten_cons, List.take_append, List.take_of_length_le (Nat.le_of_lt hlt), List.append_assoc]
            · rw [hrest, List.flatten_cons, List.drop_append, List.drop_of_length_le (Nat.le_of_lt hlt), List.nil_append]
          · rename_i hge
            have hle : remaining ≤ b.length := Nat.not_lt.1 hge
            refine ⟨{ ctx' with buf := b.drop remaining }, bs, ?_, ?_, ?_⟩
            · rw [List.flatten_cons, List.take_append_of_le_length hle]
            · exact ⟨hreading.blocked, hreading.ahead, hreading.mark, hreading.small, hreading.current, hreading.eod⟩
            · rw [List.flatten_cons, List.drop_append_of_le_length hle]

/-- One request is answered with the next bytes of the document. -/
theorem xmlInputTapeReadCallback_reading (hpos : 0 < bufSize) (len : Nat) (h : Reading bufSize fm recs ctx bs)
    (hrest : ctx.buf ++ bs.flatten = rest) :
    ∃ ctx' bs', xmlInputTapeReadCallback bufSize recs len ctx = some (rest.take len, ctx') ∧
      Reading bufSize fm recs ctx' bs' ∧ ctx'.buf ++ bs'.flatten = rest.drop len := by
  unfold xmlInputTapeReadCallback
  rw [← hrest]
  split
  · rename_i hle
    refine ⟨{ ctx with buf := ctx.buf.drop len }, bs, ?_, ?_, ?_⟩
    · rw [List.take_append_of_le_length hle]
    · exact ⟨h.blocked, h.ahead, h.mark, h.small, h.current, h.eod⟩
    · rw [List.drop_append_of_le_length hle]
  · rename_i hgt
    have hlt : ctx.buf.length ≤ len := by omega
    have h' : Reading bufSize fm recs { ctx with buf := [] } bs :=
      ⟨h.blocked, h.ahead, h.mark, h.small, h.current, h.eod⟩
    obtain ⟨ctx', bs', heq, hr, hb⟩ := readBlocks_reading hpos (len + 1) (len - ctx.buf.length) ctx.buf bs _ h' rfl
      (by omega)
    refine ⟨ctx', bs', ?_, hr, ?_⟩
    · rw [heq, List.take_append, List.take_of_length_le hlt]
    · rw [hb, List.drop_append, List.drop_of_length_le hlt, List.nil_append]

theorem readAll_reading (hpos : 0 < bufSize) (lens : List Nat) (h : Reading bufSize fm recs ctx bs)
    (hrest : ctx.buf ++ bs.flatten = rest) :
    ∃ ctx' bs', readAll bufSize recs lens ctx = some (pieces rest lens, ctx') ∧ Reading bufSize fm recs ctx' bs' := by
  induction lens generalizing ctx bs rest with
  | nil => exact ⟨ctx, bs, rfl, h⟩
  | cons len lens ih =>
    obtain ⟨ctx', bs', heq, hr, hb⟩ := xmlInputTapeReadCallback_reading hpos len h hrest
    obtain ⟨ctx'', bs'', heq', hr'⟩ := ih hr hb
    refine ⟨ctx'', bs'', ?_, hr'⟩
    rw [readAll, heq]
    simp only [heq', Option.map_some, pieces]

end Reader

theorem pieces_flatten (doc : Bytes) (lens : List Nat) : (pieces doc lens).flatten = doc.take lens.sum := by
  induction lens generalizing doc with
  | nil => simp [pieces]
  | cons len lens ih =>
    rw [pieces, List.flatten_cons, ih, List.sum_cons, List.take_add]

/-- A document that goes to tape in any pieces and is read back by requests of any lengths comes out piece
by piece, then reads as ended; the head stays in front of the filemark. -/
theorem read_written (l : Label) (chunks : List Bytes) (pre post : List Record) (eodKnown : Bool) (lens : List Nat) :
    let blocks := tapeBlocks l.blocksize chunks
    let recs := pre ++ (blocks.map .data ++ .filemark :: post)
    let eod := if eodKnown then recs.length else 0
    Blocked l.blocksize blocks ∧
    ∃ ctx, readAll l.blocksize recs lens (inputTape pre.length eod) = some (pieces chunks.flatten lens, ctx) ∧
      (pieces chunks.flatten lens).flatten = chunks.flatten.take lens.sum ∧
      ctx.pos ≤ pre.length + blocks.length := by
  intro blocks recs eod
  obtain ⟨hblocked, hdoc⟩ := tapeBlocks_spec l.blocksize_pos chunks
  have hlen : recs.length = pre.length + blocks.length + (1 + post.length) := by
    simp only [recs, List.length_append, List.length_map, List.length_cons]
    omega
  have hstart : Reading l.blocksize (pre.length + blocks.length) recs (inputTape pre.length eod) blocks := by
    refine ⟨hblocked, ?_, rfl, nofun, fun _ => rfl, ?_⟩
    · exact ⟨pre, post, by simp [recs], rfl⟩
    · simp only [inputTape, eod]
      split <;> omega
  obtain ⟨ctx, bs, heq, hr⟩ := readAll_reading l.blocksize_pos lens hstart hdoc
  have hmark := hr.mark
  exact ⟨hblocked, ctx, heq, pieces_flatten _ _, by omega⟩

end Ltfs.IndexStream
