import Ltfs.BlockCache

namespace Ltfs.BlockCacheSpec

open Format Lib.Cells RawFile RawSpec RawWrite RawRead ExtentWords BlockCache

variable {l : Label} {r : Reader} {e : ExtentInfo} {part : Part} {v : Scan} {x lastOff : Nat} {c : Bytes}

/-- The cache holds what is recorded at its position. -/
def Coherent (l : Label) (r : Reader) : Prop :=
  ∀ p, r.lastPos.partition = l.id p →
    r.lastPos.block < r.store.append.get p ∧ r.store.block l (l.id p) r.lastPos.block = some r.lastBlock

/-- The tape stands at the block that is looked for, or right behind it if it is in the cache. -/
def Placed (e : ExtentInfo) (part : Part) (v : Scan) : Prop :=
  v.reader.pos = (part, v.seekBlock) ∧ ¬ InCache e part v.reader v.curpos v.seekBlock ∨
    InCache e part v.reader v.curpos v.seekBlock ∧ v.reader.pos = (part, word (v.seekBlock + 1))

/-- The loop has come to byte `x` of the file, with more to read. -/
structure AtByte (l : Label) (e : ExtentInfo) (part : Part) (v : Scan) (x : Nat) : Prop where
  next : v.nextOff = x
  seek : v.seekBlock = blockOf l.blocksize e x
  first : v.firstbyte = word (x + 2 ^ 64 - innerOf l.blocksize e x)
  last : v.lastbyte = v.firstbyte
  placed : Placed e part v

/-- The block just fetched is in the buffer, and the tape behind it. -/
structure Fetched (l : Label) (e : ExtentInfo) (part : Part) (v : Scan) (c : Bytes) (r : Reader) : Prop where
  store : r.store = v.reader.store
  pos : r.pos = (part, v.seekBlock + 1)
  lastPos : r.lastPos = ⟨v.seekBlock, e.start.partition⟩
  lastBlock : r.lastBlock = c

theorem fetch_spec {blockbytes : Nat} (hpart : e.start.partition = l.id part) (hcoh : Coherent l v.reader)
    (hplaced : Placed e part v) (hc : v.reader.store.block l (l.id part) v.seekBlock = some c)
    (hlen : blockbytes ≤ c.length) (hseek : v.seekBlock + 1 < 2 ^ 64) :
    ∃ r curpos, fetch l e part blockbytes v = some (r, curpos) ∧ Fetched l e part v c r := by
  have hword : word (v.seekBlock + 1) = v.seekBlock + 1 := word_of_lt hseek
  rw [fetch]
  rcases hplaced with ⟨hpos, hnot⟩ | ⟨hin, hpos⟩
  · have hread : tapeRead l v.reader = some c := by
      rw [tapeRead, hpos]
      exact hc
    rw [if_neg hnot]
    simp only [hread, if_neg (Nat.not_lt.2 hlen)]
    exact ⟨_, _, rfl, rfl, by rw [hpos, hword], rfl, rfl⟩
  · have hid := hin.1
    have hblock := hin.2.1
    obtain ⟨-, hlast⟩ := hcoh part (by rw [← hid, hpart])
    rw [← hblock, hc] at hlast
    obtain rfl : c = v.reader.lastBlock := Option.some.inj hlast
    rw [if_pos hin, if_neg (Nat.not_lt.2 hlen)]
    refine ⟨_, _, rfl, rfl, by rw [hpos, hword], ?_, rfl⟩
    rw [hid, hblock]

theorem Fetched.coherent {r : Reader} (h : Fetched l e part v c r) (hpart : e.start.partition = l.id part)
    (hc : v.reader.store.block l (l.id part) v.seekBlock = some c)
    (happend : v.seekBlock < v.reader.store.append.get part) : Coherent l r := by
  intro p hp
  rw [h.lastPos] at hp ⊢
  obtain rfl : part = p := l.id_inj.1 (hpart.symm.trans hp)
  rw [h.store, h.lastBlock]
  exact ⟨happend, hc⟩

/-- A block of an extent is recorded, and its number is not the last there is. -/
theorem block_of_onTape (h : OnTape l r.store e) (hpart : e.start.partition = l.id part) (h₁ : e.fileoffset ≤ x)
    (h₂ : x < e.fileoffsetEnd) :
    blockOf l.blocksize e x < r.store.append.get part ∧ blockOf l.blocksize e x + 1 < 2 ^ 64 := by
  obtain ⟨p, hp, hall⟩ := h
  obtain rfl : part = p := l.id_inj.1 (hpart.symm.trans hp)
  have happend := (hall x h₁ h₂).1
  have hle := r.store.append_le part
  have hshort := r.short part
  exact ⟨happend, by omega⟩

/-- The last byte of the extent in a block is recorded, so the block is long enough. -/
theorem length_of_onTape {s : Store} (h : OnTape l s e) (h₁ : e.fileoffset ≤ x) (h₂ : x < e.fileoffsetEnd)
    (hc : s.block l e.start.partition (blockOf l.blocksize e x) = some c) :
    min (innerOf l.blocksize e x + (e.fileoffsetEnd - x)) l.blocksize ≤ c.length := by
  have hinner : innerOf l.blocksize e x < l.blocksize := Nat.mod_lt _ l.blocksize_pos
  generalize hy : min (x + (l.blocksize - innerOf l.blocksize e x)) e.fileoffsetEnd - 1 = y
  obtain ⟨hblock, hin⟩ := blockOf_within l.blocksize (y := y) h₁ (by omega) (by omega)
  obtain ⟨c', b, hc', hcb, -⟩ := OnTape.inside h (x := y) (by omega) (by omega)
  rw [hblock, hc] at hc'
  obtain rfl : c = c' := Option.some.inj hc'
  obtain ⟨hlt, -⟩ := List.getElem?_eq_some_iff.1 hcb
  rw [hin] at hlt
  omega

/-- How many bytes one turn of the loop copies. -/
def chunk (l : Label) (e : ExtentInfo) (x lastOff : Nat) : Nat :=
  min (l.blocksize - innerOf l.blocksize e x) (min e.fileoffsetEnd lastOff - x)

theorem chunk_eq {i : Nat} (hi : innerOf l.blocksize e x = i) (hle : i ≤ l.blocksize) :
    chunk l e x lastOff = min lastOff (min e.fileoffsetEnd (x + l.blocksize - i)) - x := by
  rw [chunk, hi]
  omega

theorem chunk_full {i : Nat} (hi : innerOf l.blocksize e x = i)
    (hmore : x + chunk l e x lastOff < min e.fileoffsetEnd lastOff) : chunk l e x lastOff = l.blocksize - i := by
  rw [chunk, hi] at hmore ⊢
  omega

structure Turned (l : Label) (e : ExtentInfo) (part : Part) (v v' : Scan) (x lastOff : Nat) : Prop where
  store : v'.reader.store = v.reader.store
  coherent : Coherent l v'.reader
  next : v'.nextOff = x + chunk l e x lastOff
  buf : v'.buf = v.buf ++ extentBytes l v.reader.store e x (chunk l e x lastOff)
  at_ : x + chunk l e x lastOff < min e.fileoffsetEnd lastOff → AtByte l e part v' (x + chunk l e x lastOff)

/-- The first byte of a block that begins `i` bytes before `x` may lie before the start of the file, where the
numbers wrap; one block further they do not. -/
theorem word_first_add {i n : Nat} (hi : i ≤ n) (hx : x + n < 2 ^ 64) :
    word (word (x + 2 ^ 64 - i) + n) = x + n - i := by
  rw [word, word]
  omega

theorem wordSub_first {i y : Nat} (hi : i ≤ 2 ^ 64) (hx : x ≤ y) (hy : y + i - x < 2 ^ 64) :
    wordSub y (word (x + 2 ^ 64 - i)) = y + i - x := by
  rw [wordSub, word, word]
  omega

theorem readBlock_spec (h : OnTape l v.reader.store e) (hpart : e.start.partition = l.id part)
    (hcoh : Coherent l v.reader) (hat : AtByte l e part v x) (h₁ : e.fileoffset ≤ x) (h₂ : x < e.fileoffsetEnd)
    (h₃ : x < lastOff) (hend : e.fileoffsetEnd < 2 ^ 64) (hlast : lastOff + l.blocksize ≤ 2 ^ 64) :
    ∃ v', readBlock l e part lastOff v = some v' ∧ Turned l e part v v' x lastOff := by
  have hinner : innerOf l.blocksize e x < l.blocksize := Nat.mod_lt _ l.blocksize_pos
  obtain ⟨happend, hnumber⟩ := block_of_onTape h hpart h₁ h₂
  obtain ⟨c, -, hc, -, -⟩ := OnTape.inside h h₁ h₂
  have hlen := length_of_onTape h h₁ h₂ hc
  rw [hpart, ← hat.seek] at hc
  rw [← hat.seek] at happend hnumber
  generalize hi : innerOf l.blocksize e x = i at hinner hlen
  have hfirst : v.firstbyte = word (x + 2 ^ 64 - i) := by rw [hat.first, hi]
  have hlastbyte : word (v.lastbyte + l.blocksize) = x + l.blocksize - i := by
    rw [hat.last, hfirst]
    exact word_first_add (Nat.le_of_lt hinner) (by omega)
  generalize hm : min e.fileoffsetEnd (x + l.blocksize - i) = lastbyte
  have hbytes : wordSub lastbyte v.firstbyte = lastbyte + i - x := by
    rw [hfirst]
    exact wordSub_first (by omega) (by omega) (by omega)
  have hcopy : wordSub (min lastOff lastbyte) x = chunk l e x lastOff := by
    rw [chunk_eq hi (Nat.le_of_lt hinner), hm]
    exact wordSub_of_le (by omega) (by omega)
  have hskip : wordSub x v.firstbyte = i := by
    rw [hfirst, wordSub_first (by omega) (Nat.le_refl x) (by omega)]
    omega
  have hnextfirst : word (v.firstbyte + l.blocksize) = x + l.blocksize - i := by
    rw [← hat.last]
    exact hlastbyte
  have hlong : lastbyte + i - x ≤ c.length := by omega
  obtain ⟨r, curpos, hfetch, hr⟩ := fetch_spec hpart hcoh hat.placed hc hlong hnumber
  have hchunk : (c.drop i).take (chunk l e x lastOff) = extentBytes l v.reader.store e x (chunk l e x lastOff) := by
    rw [← hi]
    refine extentBytes_block h h₁ ?_ ?_ ?_
    · rw [hpart, ← hat.seek]
      exact hc
    · rw [chunk]
      omega
    · rw [chunk]
      omega
  have hle : chunk l e x lastOff ≤ lastOff - x := by
    rw [chunk]
    omega
  rw [readBlock, fileoffsetEnd_eq hend]
  simp only [hlastbyte, hm, hbytes, hfetch, hat.next, hcopy, hskip, hnextfirst, word_of_lt hnumber, hr.lastBlock,
    hchunk, word_of_lt (show x + chunk l e x lastOff < 2 ^ 64 by omega)]
  refine ⟨_, rfl, hr.store, hr.coherent hpart hc happend, rfl, rfl, fun hmore => ?_⟩
  -- there is more to read only if the block was read to its end
  have hfull : chunk l e x lastOff = l.blocksize - i := chunk_full hi hmore
  have hclip : lastbyte = x + chunk l e x lastOff := by omega
  obtain ⟨hblock, hin⟩ := blockOf_next l.blocksize (y := x + chunk l e x lastOff) h₁ (by omega) (by omega)
    l.blocksize_pos
  refine ⟨rfl, ?_, ?_, ?_, .inl ⟨?_, ?_⟩⟩
  · rw [hblock, ← hat.seek]
  · rw [hin, Nat.sub_zero, hfull, word, Nat.add_mod_right, Nat.mod_eq_of_lt (by omega)]
    exact Nat.add_sub_assoc (Nat.le_of_lt hinner) x
  · simp only
    omega
  · exact hr.pos
  · rintro ⟨-, hblock', -⟩
    rw [hr.lastPos] at hblock'
    simp only at hblock'
    omega

theorem extentBytes_length (s : Store) (n : Nat) : (extentBytes l s e x n).length = n := by
  simp [extentBytes]

/-- What a part of the read does: bytes are added, and the cache can be trusted. -/
structure Advanced (l : Label) (r : Reader) (x : Nat) (buf : Bytes) (r' : Reader) (x' : Nat) (buf' bytes : Bytes) :
    Prop where
  store : r'.store = r.store
  coherent : Coherent l r'
  next : x' = x + bytes.length
  buf : buf' = buf ++ bytes

theorem Advanced.refl {buf : Bytes} (hcoh : Coherent l r) : Advanced l r x buf r x buf [] :=
  ⟨rfl, hcoh, rfl, (List.append_nil _).symm⟩

theorem Advanced.trans {r₁ r₂ : Reader} {x₁ x₂ : Nat} {buf buf₁ buf₂ bytes₁ bytes₂ : Bytes}
    (h : Advanced l r x buf r₁ x₁ buf₁ bytes₁) (h' : Advanced l r₁ x₁ buf₁ r₂ x₂ buf₂ bytes₂) :
    Advanced l r x buf r₂ x₂ buf₂ (bytes₁ ++ bytes₂) := by
  refine ⟨h'.store.trans h.store, h'.coherent, ?_, ?_⟩
  · rw [h'.next, h.next, List.length_append, Nat.add_assoc]
  · rw [h'.buf, h.buf, List.append_assoc]

theorem Turned.advanced {v' : Scan} (h : Turned l e part v v' x lastOff) (hnext : v.nextOff = x) :
    Advanced l v.reader v.nextOff v.buf v'.reader v'.nextOff v'.buf
      (extentBytes l v.reader.store e x (chunk l e x lastOff)) :=
  ⟨h.store, h.coherent, by rw [h.next, hnext, extentBytes_length], h.buf⟩

theorem readLoop_stop {count offset : Nat} (fuel : Nat) (hcoh : Coherent l v.reader) (hend : e.fileoffsetEnd < 2 ^ 64)
    (hcount : lastOff = offset + count) (hbuf : v.nextOff = offset + v.buf.length)
    (hdone : ¬ (v.nextOff < e.fileoffsetEnd ∧ v.buf.length < count)) :
    ∃ v', readLoop l e part count lastOff fuel v = some v' ∧
      Advanced l v.reader v.nextOff v.buf v'.reader v'.nextOff v'.buf
        (extentBytes l v.reader.store e v.nextOff (min e.fileoffsetEnd lastOff - v.nextOff)) := by
  rw [show min e.fileoffsetEnd lastOff - v.nextOff = 0 by omega]
  refine ⟨v, ?_, Advanced.refl hcoh⟩
  cases fuel with
  | zero => rw [readLoop, fileoffsetEnd_eq hend, if_neg hdone]
  | succ fuel => rw [readLoop, fileoffsetEnd_eq hend, if_neg hdone]

theorem readLoop_spec {count offset : Nat} (fuel : Nat) (v : Scan) (h : OnTape l v.reader.store e)
    (hpart : e.start.partition = l.id part) (hcoh : Coherent l v.reader)
    (hat : v.nextOff < min e.fileoffsetEnd lastOff → AtByte l e part v v.nextOff) (h₁ : e.fileoffset ≤ v.nextOff)
    (hend : e.fileoffsetEnd < 2 ^ 64) (hlast : lastOff + l.blocksize ≤ 2 ^ 64) (hcount : lastOff = offset + count)
    (hbuf : v.nextOff = offset + v.buf.length) (hfuel : lastOff - v.nextOff ≤ fuel) :
    ∃ v', readLoop l e part count lastOff fuel v = some v' ∧
      Advanced l v.reader v.nextOff v.buf v'.reader v'.nextOff v'.buf
        (extentBytes l v.reader.store e v.nextOff (min e.fileoffsetEnd lastOff - v.nextOff)) := by
  by_cases hmore : v.nextOff < e.fileoffsetEnd ∧ v.buf.length < count
  · induction fuel generalizing v with
    | zero => omega
    | succ fuel ih =>
      obtain ⟨v₁, hv₁, hturn⟩ :=
        readBlock_spec h hpart hcoh (hat (by omega)) h₁ hmore.1 (by omega) hend hlast
      have hstep := hturn.advanced rfl
      have hnext := hturn.next
      have hat₁ := hturn.at_
      have hinner : innerOf l.blocksize e v.nextOff < l.blocksize := Nat.mod_lt _ l.blocksize_pos
      have hchunk : 0 < chunk l e v.nextOff lastOff ∧
          v.nextOff + chunk l e v.nextOff lastOff ≤ min e.fileoffsetEnd lastOff := by
        rw [chunk]
        omega
      have hbuf₁ : v₁.nextOff = offset + v₁.buf.length := by
        rw [hnext, hturn.buf, List.length_append, extentBytes_length]
        omega
      rw [← hnext] at hat₁ hchunk
      have hsplit : extentBytes l v.reader.store e v.nextOff (min e.fileoffsetEnd lastOff - v.nextOff) =
          extentBytes l v.reader.store e v.nextOff (chunk l e v.nextOff lastOff) ++
            extentBytes l v₁.reader.store e v₁.nextOff (min e.fileoffsetEnd lastOff - v₁.nextOff) := by
        rw [hturn.store, hnext, extentBytes_append]
        congr 1
        omega
      rw [readLoop, fileoffsetEnd_eq hend, if_pos hmore, hv₁, Option.bind_some, hsplit]
      by_cases hmore₁ : v₁.nextOff < e.fileoffsetEnd ∧ v₁.buf.length < count
      · obtain ⟨v', hv', hrest⟩ :=
          ih v₁ (by rw [hturn.store]; exact h) hturn.coherent hat₁ (by omega) hbuf₁ (by omega) hmore₁
        exact ⟨v', hv', hstep.trans hrest⟩
      · obtain ⟨v', hv', hrest⟩ := readLoop_stop fuel hturn.coherent hend hcount hbuf₁ hmore₁
        exact ⟨v', hv', hstep.trans hrest⟩
  · exact readLoop_stop fuel hcoh hend hcount hbuf hmore

/-- The loop starts at the block with byte `x`, after a seek or right where the tape is. -/
theorem readExtent_spec {count offset : Nat} (h : OnTape l r.store e) (hcoh : Coherent l r)
    (hbyte : e.byteoffset < l.blocksize) (h₁ : e.fileoffset ≤ x) (h₂ : x < e.fileoffsetEnd)
    (hend : e.fileoffsetEnd < 2 ^ 64) (hlast : lastOff + l.blocksize ≤ 2 ^ 64) (hcount : lastOff = offset + count)
    {buf : Bytes} (hbuf : x = offset + buf.length) (hle : x ≤ lastOff) :
    ∃ v', BlockCache.readExtent l e count lastOff r x buf = some v' ∧
      Advanced l r x buf v'.reader v'.nextOff v'.buf
        (extentBytes l r.store e x (min e.fileoffsetEnd lastOff - x)) := by
  obtain ⟨part, hpart, -⟩ := id h
  have hnum : partId2num l e.start.partition = some part := by
    rw [hpart, partId2num]
    cases part with
    | ip => exact if_pos rfl
    | dp => exact (if_neg l.ids_ne.symm).trans (if_pos rfl)
  obtain ⟨-, hnumber⟩ := block_of_onTape h hpart h₁ h₂
  have hblock : blockOf l.blocksize e x = e.start.block + (x - e.fileoffset + e.byteoffset) / l.blocksize := rfl
  have hseek : word (e.start.block + word (wordSub x e.fileoffset + e.byteoffset) / l.blocksize) =
      blockOf l.blocksize e x := by
    rw [wordSub_of_le h₁ (by omega), word_of_lt (n := x - e.fileoffset + e.byteoffset) (by omega), word_of_lt (by omega),
      hblock]
  have hfirst : word (wordSub e.fileoffset e.byteoffset +
      word (wordSub (blockOf l.blocksize e x) e.start.block * l.blocksize)) =
      word (x + 2 ^ 64 - innerOf l.blocksize e x) := by
    have hdiv := Nat.div_add_mod (x - e.fileoffset + e.byteoffset) l.blocksize
    have hskip : wordSub (blockOf l.blocksize e x) e.start.block =
        (x - e.fileoffset + e.byteoffset) / l.blocksize := by
      rw [wordSub_of_le (by rw [hblock]; exact Nat.le_add_right _ _) (by omega), hblock, Nat.add_sub_cancel_left]
    rw [hskip, innerOf, Nat.mul_comm _ l.blocksize]
    generalize l.blocksize * ((x - e.fileoffset + e.byteoffset) / l.blocksize) = k at hdiv ⊢
    generalize (x - e.fileoffset + e.byteoffset) % l.blocksize = m at hdiv ⊢
    rw [wordSub, word, word, word, word]
    omega
  rw [BlockCache.readExtent]
  simp only [hnum, hseek, hfirst]
  have hfuel : lastOff - x ≤ count := by omega
  generalize hb : blockOf l.blocksize e x = b at *
  generalize hf : word (x + 2 ^ 64 - innerOf l.blocksize e x) = first
  by_cases hneed : r.pos ≠ (part, b) ∧ ¬ InCache e part r r.pos b
  · rw [if_pos hneed]
    obtain ⟨v', hv', hadv⟩ := readLoop_spec count ⟨{ r with pos := (part, b) }, r.pos, b, first, first, x, buf⟩ h hpart
      hcoh (fun _ => ⟨rfl, hb.symm, hf.symm, rfl, .inl ⟨rfl, hneed.2⟩⟩) h₁ hend hlast hcount hbuf hfuel
    exact ⟨v', hv', hadv.store, hadv.coherent, hadv.next, hadv.buf⟩
  · rw [if_neg hneed]
    refine readLoop_spec count ⟨r, r.pos, b, first, first, x, buf⟩ h hpart hcoh (fun _ => ?_) h₁ hend hlast hcount hbuf hfuel
    refine ⟨rfl, hb.symm, hf.symm, rfl, ?_⟩
    by_cases hin : InCache e part r r.pos b
    · exact .inr ⟨hin, Prod.ext hin.2.2.1.symm hin.2.2.2.symm⟩
    · exact .inl ⟨by_contra fun hpos => hneed ⟨hpos, hin⟩, hin⟩

/-- The rest of a read from byte `x` on. -/
theorem readExtents_spec {size count offset : Nat} {es : List ExtentInfo} (hsize : size < 2 ^ 64)
    (hlast : lastOff + l.blocksize ≤ 2 ^ 64) (hcount : lastOff = offset + count) (r : Reader) (x : Nat) (buf : Bytes)
    (hord : Sorted es) (hon : ∀ e ∈ es, OnTape l r.store e) (hbyte : ∀ e ∈ es, e.byteoffset < l.blocksize)
    (hends : ∀ e ∈ es, e.fileoffsetEnd ≤ size) (hcoh : Coherent l r) (hbuf : x = offset + buf.length)
    (hle : x ≤ lastOff) :
    ∃ r', BlockCache.readExtents l size count lastOff es r x buf =
        some (buf ++ overlayBytes l r.store es x (min lastOff size - x), r') ∧
      r'.store = r.store ∧ Coherent l r' := by
  induction es generalizing r x buf with
  | nil =>
    refine ⟨r, ?_, rfl, hcoh⟩
    rw [BlockCache.readExtents, overlayBytes_blank fun _ _ _ => rfl]
    split_ifs with hmore hless
    · rw [wordSub_of_le hle (by omega), Nat.min_eq_left (by omega)]
    · rw [wordSub_of_le (by omega) hsize, Nat.min_eq_right (by omega)]
    · rw [show min lastOff size - x = 0 by omega, List.replicate_zero, List.append_nil]
  | cons e es ih =>
    obtain ⟨hnext, hord'⟩ := List.pairwise_cons.1 hord
    have he := hon e (by simp)
    have hend := hends e (by simp)
    have hee : e.fileoffset ≤ e.fileoffsetEnd := Nat.le_add_right _ _
    have hrest : ∀ r' : Reader, r'.store = r.store → ∀ f ∈ es, OnTape l r'.store f := by
      intro r' hr' f hf
      rw [hr']
      exact hon f (List.mem_cons_of_mem _ hf)
    have hbyte' : ∀ f ∈ es, f.byteoffset < l.blocksize := fun f hf => hbyte f (List.mem_cons_of_mem _ hf)
    have hends' : ∀ f ∈ es, f.fileoffsetEnd ≤ size := fun f hf => hends f (List.mem_cons_of_mem _ hf)
    rw [BlockCache.readExtents]
    by_cases hfull : buf.length = count
    · refine ⟨r, ?_, rfl, hcoh⟩
      rw [if_pos hfull, show min lastOff size - x = 0 by omega]
      simp [overlayBytes]
    rw [if_neg hfull]
    by_cases hgap : x < e.fileoffset ∧ lastOff < e.fileoffset
    · refine ⟨r, ?_, rfl, hcoh⟩
      rw [if_pos hgap, wordSub_of_le hle (by omega), show min lastOff size - x = lastOff - x by omega,
        overlayBytes_blank fun y _ hy => overlay_before hnext (by omega)]
    · rw [if_neg hgap]
      generalize hm : e.fileoffset - x = gap
      have hzeros : (if x < e.fileoffset then wordSub e.fileoffset x else 0) = gap := by
        split_ifs
        · rw [wordSub_of_le (by omega) (by omega), hm]
        · omega
      have hx : (if x < e.fileoffset then e.fileoffset else x) = x + gap := by
        split_ifs <;> omega
      simp only [hzeros, hx, fileoffsetEnd_eq (Nat.lt_of_le_of_lt hend hsize)]
      generalize hk : min e.fileoffsetEnd lastOff - (x + gap) = k
      have hsplit := overlayBytes_split he hnext hend hm (by omega) hk
      have hbuf' : x + gap = offset + (buf ++ List.replicate gap (0 : UInt8)).length := by
        rw [List.length_append, List.length_replicate]
        omega
      split_ifs with hdata
      · obtain ⟨v, hv, hadv⟩ := readExtent_spec he hcoh (hbyte e (by simp)) (by omega) hdata (by omega) hlast hcount
          hbuf' (by omega)
        rw [hk] at hadv
        have hnextOff : v.nextOff = x + gap + k := by rw [hadv.next, extentBytes_length]
        obtain ⟨r', hr', hstore, hcoh'⟩ := ih v.reader v.nextOff v.buf hord' (hrest _ hadv.store) hbyte' hends' hadv.coherent
          (by rw [hnextOff, hadv.buf, List.length_append, extentBytes_length]; omega) (by omega)
        refine ⟨r', ?_, hstore.trans hadv.store, hcoh'⟩
        simp only [hv]
        rw [hr', hadv.buf, hadv.store, hnextOff, ← hsplit]
        simp only [List.append_assoc]
      · obtain ⟨r', hr', hstore, hcoh'⟩ := ih r (x + gap) _ hord' (hrest r rfl) hbyte' hends' hcoh hbuf' (by omega)
        refine ⟨r', ?_, hstore, hcoh'⟩
        rw [hr', ← hsplit, show k = 0 by omega]
        simp [extentBytes]

theorem ltfsFsrawRead_spec {d : Contents} {count offset : Nat} (hcoh : Coherent l r) (hd : Readable l r.store d)
    (hb : Bounds l count offset) :
    ∃ r', BlockCache.ltfsFsrawRead l d count offset r =
        some ((List.range' offset (min count (d.size - offset))).map (rawByte l r.store d), r') ∧
      r'.store = r.store ∧ Coherent l r' := by
  have hoffset := hb.offset
  have hcount := hb.count
  rw [BlockCache.ltfsFsrawRead]
  split_ifs with hzero
  · refine ⟨r, ?_, rfl, hcoh⟩
    simp [hzero]
  · have hlast : offset + count + l.blocksize ≤ 2 ^ 64 := by omega
    rw [word_of_lt (by omega)]
    obtain ⟨r', hr', hkept⟩ := readExtents_spec hd.size hlast rfl r offset [] hd.sorted hd.onTape
      hd.byteoffset hd.ends hcoh rfl (by omega)
    refine ⟨r', ?_, hkept⟩
    rw [hr', List.nil_append, overlayBytes, show min (offset + count) d.size - offset = min count (d.size - offset) by omega]
    rfl

theorem step_coherent (r : Reader) (ev : Event) (hcoh : Coherent l r) (h : Allowed l r ev) :
    Coherent l (step l r ev) := by
  cases ev with
  | read d count offset =>
    obtain ⟨r', hr', -, hcoh'⟩ := ltfsFsrawRead_spec hcoh h.1 h.2
    simpa [step, hr'] using hcoh'
  | other pos store short =>
    intro p hp
    obtain ⟨happend, hblock⟩ := hcoh p hp
    refine ⟨Nat.lt_of_lt_of_le happend (h p).1, ?_⟩
    exact (block_keeps h happend).trans hblock

theorem mounted_coherent (store : Store) (short : ∀ p, (store.recs.get p).length < 2 ^ 64) (pos : Part × Nat) :
    Coherent l (mounted store short pos) :=
  fun p hp => absurd hp.symm (l.id_ne_nul p)

/-- Whatever was read before and wherever the tape stands, a read gives the bytes of the file from the offset
on, as many as were asked for or the file has. -/
theorem read_after_run (l : Label) (store : Store) (short : ∀ p, (store.recs.get p).length < 2 ^ 64)
    (pos : Part × Nat) (evs : List Event) (hrun : Lib.Run.Meets (step l) (Allowed l) (mounted store short pos) evs)
    (d : Contents) (count offset : Nat) :
    let r := Lib.Run.run (step l) (mounted store short pos) evs
    Readable l r.store d → Bounds l count offset →
      ∃ r', BlockCache.ltfsFsrawRead l d count offset r =
        some ((List.range' offset (min count (d.size - offset))).map (rawByte l r.store d), r') := by
  intro r hd hb
  have hcoh : Coherent l r := hrun.invariant step_coherent (mounted_coherent store short pos)
  obtain ⟨r', hr', -⟩ := ltfsFsrawRead_spec hcoh hd hb
  exact ⟨r', hr'⟩

section Sample

/-- A volume with two blocks on the data partition. -/
def smallLabel : Label := ⟨'a', 'b', 4, Label.a_ne_b, Label.a_ne_nul, Label.b_ne_nul, Label.pos_four⟩

def twoBlocks : Store where
  recs := ⟨[], [.data [1, 2, 3, 4], .data [5, 6]]⟩
  append := ⟨0, 2⟩
  append_le p := by cases p <;> decide

theorem twoBlocks_short (p : Part) : (twoBlocks.recs.get p).length < 2 ^ 64 := by cases p <;> decide

/-- A file that begins inside the first block and has a sparse end. -/
def sparseFile : Contents := ⟨[⟨⟨0, 'b'⟩, 1, 4, 0⟩], 6⟩

theorem sparseFile_readable : Readable smallLabel twoBlocks sparseFile where
  sorted := List.pairwise_singleton _ _
  byteoffset := by decide
  ends := by decide
  onTape := by
    have hon : ∀ x < 4, blockOf 4 ⟨⟨0, 'b'⟩, 1, 4, 0⟩ x < 2 ∧
        (extentByte smallLabel twoBlocks ⟨⟨0, 'b'⟩, 1, 4, 0⟩ x).isSome := by decide
    intro e he
    obtain rfl := List.mem_singleton.1 he
    exact ⟨.dp, rfl, fun x _ hx => hon x hx⟩
  size := by decide

/-- The first block is still in the cache when it is read again. -/
theorem read_after_run_sparseFile :
    ∃ r', BlockCache.ltfsFsrawRead smallLabel sparseFile 10 0
        (Lib.Run.run (step smallLabel) (mounted twoBlocks twoBlocks_short (.ip, 0)) [.read sparseFile 2 0]) =
      some ([2, 3, 4, 5, 0, 0], r') :=
  read_after_run smallLabel twoBlocks twoBlocks_short (.ip, 0) [.read sparseFile 2 0]
    ⟨⟨sparseFile_readable, by decide, by decide⟩, trivial⟩ sparseFile 10 0 sparseFile_readable ⟨by decide, by decide⟩

end Sample

end Ltfs.BlockCacheSpec
