import Ltfs.RawWrite

namespace Ltfs.RawRead

open Format Lib.Cells Records RawFile RawSpec RawWrite

variable {l : Label} {s : Store} {d : Contents} {e : ExtentInfo} {es : List ExtentInfo} {lastOff nextOff : Nat}

theorem blockOf_within (bs : Nat) {x y : Nat} (hx : e.fileoffset ≤ x) (hxy : x ≤ y)
    (hy : innerOf bs e x + (y - x) < bs) :
    blockOf bs e y = blockOf bs e x ∧ innerOf bs e y = innerOf bs e x + (y - x) := by
  have hk : y - e.fileoffset + e.byteoffset =
      innerOf bs e x + (y - x) + bs * ((x - e.fileoffset + e.byteoffset) / bs) := by
    have := Nat.mod_add_div (x - e.fileoffset + e.byteoffset) bs
    simp only [innerOf]
    omega
  constructor
  · rw [blockOf, hk, Nat.add_mul_div_left _ _ (by omega), Nat.div_eq_of_lt hy, Nat.zero_add, blockOf]
  · rw [innerOf, hk, Nat.add_mul_mod_self_left, Nat.mod_eq_of_lt hy]

theorem blockOf_next (bs : Nat) {x y : Nat} (hx : e.fileoffset ≤ x) (hxy : x ≤ y)
    (hy : innerOf bs e x + (y - x) = bs) (hbs : 0 < bs) :
    blockOf bs e y = blockOf bs e x + 1 ∧ innerOf bs e y = 0 := by
  have hk : y - e.fileoffset + e.byteoffset = bs * ((x - e.fileoffset + e.byteoffset) / bs + 1) := by
    have := Nat.mod_add_div (x - e.fileoffset + e.byteoffset) bs
    simp only [innerOf] at hy
    rw [Nat.mul_add, Nat.mul_one]
    omega
  constructor
  · rw [blockOf, hk, Nat.mul_div_cancel_left _ hbs, blockOf, Nat.add_assoc]
  · rw [innerOf, hk, Nat.mul_mod_right]

theorem OnTape.inside {x : Nat} (h : OnTape l s e) (h₁ : e.fileoffset ≤ x) (h₂ : x < e.fileoffsetEnd) :
    ∃ block b, s.block l e.start.partition (blockOf l.blocksize e x) = some block ∧
      block[innerOf l.blocksize e x]? = some b ∧ extentByte l s e x = some b := by
  obtain ⟨p, -, hall⟩ := h
  obtain ⟨b, hb⟩ := Option.isSome_iff_exists.1 (hall x h₁ h₂).2
  have hb' := hb
  rw [extentByte, if_pos ⟨h₁, h₂⟩, Option.bind_eq_some_iff] at hb'
  obtain ⟨c, hc, hcb⟩ := hb'
  exact ⟨c, b, hc, hcb, hb⟩

/-- The bytes an extent gives for a range of the file. -/
def extentBytes (l : Label) (s : Store) (e : ExtentInfo) (x n : Nat) : Bytes :=
  (List.range' x n).map fun y => (extentByte l s e y).getD 0

theorem readBlocks_done {bs : Nat} {block : Nat → Option Bytes} {entryEnd fuel b : Nat} {firstbyte : Int}
    (h : entryEnd ≤ nextOff ∨ lastOff ≤ nextOff) :
    readBlocks bs block entryEnd lastOff fuel b firstbyte nextOff = some [] := by
  cases fuel with
  | zero => rfl
  | succ fuel => rw [readBlocks, if_pos h]

/-- A block that holds the rest of the extent up to its own end gives a piece of it. -/
theorem extentBytes_block {c : Bytes} {x n : Nat} (h : OnTape l s e) (h₁ : e.fileoffset ≤ x)
    (hc : s.block l e.start.partition (blockOf l.blocksize e x) = some c) (hn : x + n ≤ e.fileoffsetEnd)
    (hb : innerOf l.blocksize e x + n ≤ l.blocksize) :
    (c.drop (innerOf l.blocksize e x)).take n = extentBytes l s e x n := by
  apply List.ext_getElem?
  intro i
  by_cases hi : i < n
  · rw [List.getElem?_take_of_lt hi, List.getElem?_drop, extentBytes, List.getElem?_map,
      List.getElem?_range' hi, Nat.one_mul, Option.map_some]
    obtain ⟨hbl, hin⟩ := blockOf_within l.blocksize (y := x + i) h₁ (by omega) (by omega)
    obtain ⟨c', b, hc', hcb, hb⟩ := OnTape.inside h (x := x + i) (by omega) (by omega)
    rw [hbl, hc] at hc'
    obtain rfl : c = c' := Option.some.inj hc'
    rw [hb, Option.getD_some, ← hcb, hin, Nat.add_sub_cancel_left]
  · rw [List.getElem?_eq_none (by rw [List.length_take]; omega),
      List.getElem?_eq_none (by simp only [extentBytes, List.length_map, List.length_range']; omega)]

theorem extentBytes_append (x m n : Nat) :
    extentBytes l s e x m ++ extentBytes l s e (x + m) n = extentBytes l s e x (m + n) := by
  simp only [extentBytes, ← List.map_append]
  rw [List.range'_append_1]

/-- Reading on block by block gives the bytes of the extent. -/
theorem readBlocks_eq (h : OnTape l s e) (fuel : Nat) (nextOff : Nat) (h₁ : e.fileoffset ≤ nextOff)
    (hfuel : min e.fileoffsetEnd lastOff - nextOff ≤ fuel) :
    readBlocks l.blocksize (s.block l e.start.partition) e.fileoffsetEnd lastOff fuel
        (blockOf l.blocksize e nextOff) (nextOff - innerOf l.blocksize e nextOff) nextOff =
      some (extentBytes l s e nextOff (min e.fileoffsetEnd lastOff - nextOff)) := by
  induction fuel generalizing nextOff with
  | zero =>
    rw [Nat.le_zero.1 hfuel]
    rfl
  | succ fuel ih =>
    by_cases hdone : e.fileoffsetEnd ≤ nextOff ∨ lastOff ≤ nextOff
    · rw [readBlocks_done hdone, show min e.fileoffsetEnd lastOff - nextOff = 0 by omega]
      rfl
    · have hinner : innerOf l.blocksize e nextOff < l.blocksize := Nat.mod_lt _ l.blocksize_pos
      generalize hi : innerOf l.blocksize e nextOff = i at hinner ⊢
      obtain ⟨c, -, hc, -, -⟩ := OnTape.inside h h₁ (by omega)
      -- the last byte of the extent in this block is recorded, so the block is long enough
      have hlen : ¬ ((c.length : Int) < min ((nextOff : Int) - i + l.blocksize) e.fileoffsetEnd - (nextOff - i)) := by
        generalize hy : min (nextOff + (l.blocksize - i)) e.fileoffsetEnd - 1 = y
        obtain ⟨hbl, hin⟩ := blockOf_within l.blocksize (y := y) h₁ (by omega) (by rw [hi]; omega)
        obtain ⟨c', b, hc', hcb, -⟩ := OnTape.inside h (x := y) (by omega) (by omega)
        rw [hbl, hc] at hc'
        obtain rfl : c = c' := Option.some.inj hc'
        obtain ⟨hlt, -⟩ := List.getElem?_eq_some_iff.1 hcb
        rw [hin, hi] at hlt
        omega
      rw [readBlocks, if_neg hdone]
      simp only [hc, if_neg hlen]
      generalize hm : min (l.blocksize - i) (min e.fileoffsetEnd lastOff - nextOff) = m
      have hncopy : (min (min ((nextOff : Int) - i + l.blocksize) e.fileoffsetEnd) lastOff - nextOff).toNat = m := by
        omega
      rw [hncopy, show ((nextOff : Int) - (nextOff - i)).toNat = i by omega]
      have hchunk : (c.drop i).take m = extentBytes l s e nextOff m := by
        rw [← hi]
        exact extentBytes_block h h₁ hc (by omega) (by omega)
      rw [hchunk]
      by_cases hfull : m = l.blocksize - i
      · obtain ⟨hbl, hin⟩ := blockOf_next l.blocksize (y := nextOff + m) h₁ (by omega) (by omega)
          l.blocksize_pos
        have := ih (nextOff + m) (by omega) (by omega)
        rw [hbl, hin] at this
        rw [show (nextOff : Int) - i + l.blocksize = ((nextOff + m : Nat) : Int) - ((0 : Nat) : Int) by omega, this,
          Option.map_some, extentBytes_append]
        congr 2
        omega
      · rw [readBlocks_done (by omega), Option.map_some, List.append_nil]
        congr 2
        omega

theorem readExtent_eq (h : OnTape l s e) (h₁ : e.fileoffset ≤ nextOff) :
    readExtent l s e lastOff nextOff =
      some (extentBytes l s e nextOff (min e.fileoffsetEnd lastOff - nextOff)) := by
  rw [← readBlocks_eq h (lastOff - nextOff) nextOff h₁ (by omega)]
  have hdiv := Nat.div_add_mod (nextOff - e.fileoffset + e.byteoffset) l.blocksize
  have hfirst : (e.fileoffset : Int) - e.byteoffset +
      ((nextOff - e.fileoffset + e.byteoffset) / l.blocksize : Nat) * l.blocksize =
      nextOff - innerOf l.blocksize e nextOff := by
    rw [innerOf, ← Int.natCast_mul, Nat.mul_comm]
    generalize l.blocksize * ((nextOff - e.fileoffset + e.byteoffset) / l.blocksize) = k at hdiv ⊢
    generalize (nextOff - e.fileoffset + e.byteoffset) % l.blocksize = r at hdiv ⊢
    omega
  simp only [readExtent, hfirst, blockOf]

/-- The bytes that a list of extents gives for a range of the file. -/
def overlayBytes (l : Label) (s : Store) (es : List ExtentInfo) (x n : Nat) : Bytes :=
  (List.range' x n).map fun y => (overlay (extentByte l s) es y).getD 0

theorem overlayBytes_append (x m n : Nat) :
    overlayBytes l s es x m ++ overlayBytes l s es (x + m) n = overlayBytes l s es x (m + n) := by
  simp only [overlayBytes, ← List.map_append]
  rw [List.range'_append_1]

theorem overlayBytes_blank {x n : Nat} (h : ∀ y, x ≤ y → y < x + n → overlay (extentByte l s) es y = none) :
    overlayBytes l s es x n = List.replicate n 0 := by
  rw [List.eq_replicate_iff]
  refine ⟨by simp [overlayBytes], fun b hb => ?_⟩
  simp only [overlayBytes, List.mem_map, List.mem_range'_1] at hb
  obtain ⟨y, ⟨h₁, h₂⟩, rfl⟩ := hb
  rw [h y h₁ h₂]
  rfl

theorem overlayBytes_congr {es' : List ExtentInfo} {x n : Nat}
    (h : ∀ y, x ≤ y → y < x + n → overlay (extentByte l s) es y = overlay (extentByte l s) es' y) :
    overlayBytes l s es x n = overlayBytes l s es' x n := by
  apply List.map_congr_left
  intro y hy
  obtain ⟨h₁, h₂⟩ := List.mem_range'_1.1 hy
  rw [h y h₁ h₂]

/-- Extents come in the order of their first bytes. -/
def Sorted (es : List ExtentInfo) : Prop :=
  es.Pairwise fun a b => a.fileoffset ≤ b.fileoffset

theorem sorted_of_inOrder (h : InOrder es) : Sorted es :=
  h.imp fun hab => Nat.le_trans (Nat.le_add_right _ _) hab

/-- Nothing comes before the first extent. -/
theorem overlay_before (hnext : ∀ f ∈ es, e.fileoffset ≤ f.fileoffset) {y : Nat} (hy : y < e.fileoffset) :
    overlay (extentByte l s) (e :: es) y = none := by
  rw [overlay_cons, extentByte_of_lt hy, Option.none_or]
  exact overlay_of_ge (fun f hf => hnext f hf) hy

/-- The gap before an extent, the piece of it that is asked for, and what comes behind. -/
theorem overlayBytes_split {size gap k : Nat} (he : OnTape l s e) (hnext : ∀ f ∈ es, e.fileoffset ≤ f.fileoffset)
    (hend : e.fileoffsetEnd ≤ size) (hgap : e.fileoffset - nextOff = gap) (hlast : nextOff + gap ≤ lastOff)
    (hk : min e.fileoffsetEnd lastOff - (nextOff + gap) = k) :
    List.replicate gap 0 ++ extentBytes l s e (nextOff + gap) k ++
        overlayBytes l s es (nextOff + gap + k) (min lastOff size - (nextOff + gap + k)) =
      overlayBytes l s (e :: es) nextOff (min lastOff size - nextOff) := by
  have hee : e.fileoffset ≤ e.fileoffsetEnd := Nat.le_add_right _ _
  have h₁ : List.replicate gap 0 = overlayBytes l s (e :: es) nextOff gap :=
    (overlayBytes_blank fun y _ hy => overlay_before hnext (by omega)).symm
  have h₂ : extentBytes l s e (nextOff + gap) k = overlayBytes l s (e :: es) (nextOff + gap) k := by
    apply List.map_congr_left
    intro y hy
    obtain ⟨hy₁, hy₂⟩ := List.mem_range'_1.1 hy
    obtain ⟨c, b, -, -, hb⟩ := OnTape.inside he (x := y) (by omega) (by omega)
    rw [overlay_cons, hb]
    rfl
  have h₃ : overlayBytes l s es (nextOff + gap + k) (min lastOff size - (nextOff + gap + k)) =
      overlayBytes l s (e :: es) (nextOff + gap + k) (min lastOff size - (nextOff + gap + k)) := by
    apply overlayBytes_congr
    intro y hy hy'
    rw [overlay_cons, extentByte_of_ge (by omega), Option.none_or]
  rw [h₁, h₂, h₃, overlayBytes_append, Nat.add_assoc, overlayBytes_append]
  congr 1
  omega

theorem readExtents_eq (hord : Sorted es) (hon : ∀ e ∈ es, OnTape l s e) {size : Nat}
    (hsize : ∀ e ∈ es, e.fileoffsetEnd ≤ size) (hlast : nextOff ≤ lastOff) :
    readExtents l s size lastOff es nextOff =
      some (overlayBytes l s es nextOff (min lastOff size - nextOff)) := by
  induction es generalizing nextOff with
  | nil => rw [readExtents, overlayBytes_blank fun _ _ _ => rfl]
  | cons e es ih =>
    obtain ⟨hnext, hord'⟩ := List.pairwise_cons.1 hord
    have he := hon e (by simp)
    have hend := hsize e (by simp)
    have hee : e.fileoffset ≤ e.fileoffsetEnd := Nat.le_add_right _ _
    rw [readExtents]
    split_ifs with hdone hgap
    · rw [show min lastOff size - nextOff = 0 by omega]
      rfl
    · rw [show min lastOff size - nextOff = lastOff - nextOff by omega]
      rw [overlayBytes_blank fun y _ hy => overlay_before hnext (by omega)]
    · generalize hm : e.fileoffset - nextOff = gap
      generalize hk : min e.fileoffsetEnd lastOff - (nextOff + gap) = k
      have hread : (if nextOff + gap < e.fileoffsetEnd then readExtent l s e lastOff (nextOff + gap) else some []) =
          some (extentBytes l s e (nextOff + gap) k) := by
        split
        · rw [readExtent_eq he (by omega), hk]
        · rw [show k = 0 by omega]
          rfl
      simp only [hread]
      have hlen : (extentBytes l s e (nextOff + gap) k).length = k := by
        simp [extentBytes]
      rw [hlen, ih hord' (fun f hf => hon f (List.mem_cons_of_mem _ hf))
        (fun f hf => hsize f (List.mem_cons_of_mem _ hf)) (by omega), Option.map_some]
      congr 1
      exact overlayBytes_split he hnext hend hm (by omega) hk

/-- Reading a sound file gives its bytes, up to its size. -/
theorem ltfsFsrawRead_eq (h : Sound l s d) (count offset : Nat) :
    ltfsFsrawRead l s d count offset =
      some ((List.range' offset (min count (d.size - offset))).map (rawByte l s d)) := by
  unfold ltfsFsrawRead
  split
  · rename_i hc
    rw [hc, Nat.zero_min]
    rfl
  · rw [readExtents_eq (sorted_of_inOrder h.inOrder) h.onTape h.size (by omega), overlayBytes]
    congr 3
    omega

end Ltfs.RawRead
