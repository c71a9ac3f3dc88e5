import Ltfs.RawFile

namespace Ltfs.RawSpec

open Format Lib.Log Lib.Cells Records WriteIndex RawFile

variable {l : Label} {s t : Store} {e ext : ExtentInfo} {x : Nat}

/-- Where byte `x` of the file stands on tape when `e` covers it: the block, and the place in it. -/
def blockOf (bs : Nat) (e : ExtentInfo) (x : Nat) : Nat :=
  e.start.block + (x - e.fileoffset + e.byteoffset) / bs

def innerOf (bs : Nat) (e : ExtentInfo) (x : Nat) : Nat :=
  (x - e.fileoffset + e.byteoffset) % bs

/-- The partition, block and byte in the block where an extent puts byte `x` of the file. -/
def place (bs : Nat) (e : ExtentInfo) (x : Nat) : Option (Char × Nat × Nat) :=
  if e.fileoffset ≤ x ∧ x < e.fileoffsetEnd then some (e.start.partition, blockOf bs e x, innerOf bs e x) else none

/-- The byte that an extent gives for file position `x`. -/
def extentByte (l : Label) (s : Store) (e : ExtentInfo) (x : Nat) : Option UInt8 :=
  if e.fileoffset ≤ x ∧ x < e.fileoffsetEnd then
    (s.block l e.start.partition (blockOf l.blocksize e x)).bind (·[innerOf l.blocksize e x]?)
  else none

/-- Every byte of the extent is recorded, below the append position of its partition. -/
def OnTape (l : Label) (s : Store) (e : ExtentInfo) : Prop :=
  ∃ p, e.start.partition = l.id p ∧ ∀ x, e.fileoffset ≤ x → x < e.fileoffsetEnd →
    blockOf l.blocksize e x < s.append.get p ∧ (extentByte l s e x).isSome

/-- Extents come in file order and do not overlap. -/
def InOrder (es : List ExtentInfo) : Prop :=
  es.Pairwise fun a b => a.fileoffsetEnd ≤ b.fileoffset

structure Sound (l : Label) (s : Store) (d : Contents) : Prop where
  inOrder : InOrder d.extentlist
  onTape : ∀ e ∈ d.extentlist, OnTape l s e
  size : ∀ e ∈ d.extentlist, e.fileoffsetEnd ≤ d.size

/-- What the extents of a file hold at position `x`. -/
def rawByte (l : Label) (s : Store) (d : Contents) (x : Nat) : UInt8 :=
  (overlay (extentByte l s) d.extentlist x).getD 0

theorem place_of_lt {bs : Nat} (h : x < e.fileoffset) : place bs e x = none :=
  if_neg fun hx => Nat.not_lt.2 hx.1 h

theorem place_of_ge {bs : Nat} (h : e.fileoffsetEnd ≤ x) : place bs e x = none :=
  if_neg fun hx => Nat.not_lt.2 h hx.2

theorem extentByte_eq_place (l : Label) (s : Store) (e : ExtentInfo) (x : Nat) :
    extentByte l s e x = (place l.blocksize e x).bind fun y => (s.block l y.1 y.2.1).bind (·[y.2.2]?) := by
  rw [extentByte, place]
  split_ifs <;> rfl

theorem extentByte_of_lt (h : x < e.fileoffset) : extentByte l s e x = none :=
  if_neg fun hx => Nat.not_lt.2 hx.1 h

theorem extentByte_of_ge (h : e.fileoffsetEnd ≤ x) : extentByte l s e x = none :=
  if_neg fun hx => Nat.not_lt.2 h hx.2

theorem OnTape.outside (h : OnTape l s e) (hx : extentByte l s e x = none) :
    x < e.fileoffset ∨ e.fileoffsetEnd ≤ x := by
  by_contra hn
  simp only [not_or, Nat.not_lt, Nat.not_le] at hn
  obtain ⟨p, -, hall⟩ := h
  have := (hall x hn.1 hn.2).2
  rw [hx] at this
  cases this

theorem block_keeps (h : s.Keeps t) {p : Part} {b : Nat} (hb : b < s.append.get p) :
    t.block l (l.id p) b = s.block l (l.id p) b := by
  have := (h p).2 b hb
  cases p with
  | ip =>
    simp only [Store.block, Label.id, if_true]
    rw [show t.recs.ip[b]? = s.recs.ip[b]? from this]
  | dp =>
    simp only [Store.block, Label.id, if_neg l.ids_ne.symm, if_true]
    rw [show t.recs.dp[b]? = s.recs.dp[b]? from this]

theorem OnTape.extentByte_keeps (h : OnTape l s e) (hk : s.Keeps t) (x : Nat) :
    extentByte l t e x = extentByte l s e x := by
  obtain ⟨p, hp, hall⟩ := h
  unfold extentByte
  split
  · rename_i hx
    rw [hp, block_keeps hk (hall x hx.1 hx.2).1]
  · rfl

theorem OnTape.keeps (h : OnTape l s e) (hk : s.Keeps t) : OnTape l t e := by
  have hb := h.extentByte_keeps hk
  obtain ⟨p, hp, hall⟩ := h
  refine ⟨p, hp, fun x h₁ h₂ => ⟨Nat.lt_of_lt_of_le (hall x h₁ h₂).1 (hk p).1, ?_⟩⟩
  rw [hb]
  exact (hall x h₁ h₂).2

theorem overlay_keeps {es : List ExtentInfo} (h : ∀ e ∈ es, OnTape l s e) (hk : s.Keeps t) (x : Nat) :
    overlay (extentByte l t) es x = overlay (extentByte l s) es x := by
  induction es with
  | nil => rfl
  | cons e es ih =>
    rw [overlay_cons, overlay_cons, (h e (by simp)).extentByte_keeps hk,
      ih fun e' he' => h e' (List.mem_cons_of_mem _ he')]

variable {d : Contents}

theorem Sound.keeps (h : Sound l s d) (hk : s.Keeps t) : Sound l t d :=
  ⟨h.inOrder, fun e he => (h.onTape e he).keeps hk, h.size⟩

theorem Sound.rawByte_keeps (h : Sound l s d) (hk : s.Keeps t) (x : Nat) :
    rawByte l t d x = rawByte l s d x := by
  unfold rawByte
  rw [overlay_keeps h.onTape hk]

theorem Sound.rawByte_of_ge (h : Sound l s d) (hx : d.size ≤ x) : rawByte l s d x = 0 := by
  unfold rawByte
  rw [overlay_eq_none]
  · rfl
  · intro e he
    exact extentByte_of_ge (Nat.le_trans (h.size e he) hx)

theorem blockOf_truncateFront {bs diff : Nat} (hb : 0 < bs) (hx : e.fileoffset + diff ≤ x) :
    blockOf bs (e.truncateFront bs diff) x = blockOf bs e x ∧
      innerOf bs (e.truncateFront bs diff) x = innerOf bs e x := by
  have hsplit : x - e.fileoffset + e.byteoffset =
      x - (e.fileoffset + diff) + (diff + e.byteoffset) % bs + bs * ((diff + e.byteoffset) / bs) := by
    have := Nat.mod_add_div (diff + e.byteoffset) bs
    omega
  simp only [blockOf, innerOf, ExtentInfo.truncateFront]
  rw [hsplit, Nat.add_mul_div_left _ _ hb, Nat.add_mul_mod_self_left]
  omega

theorem place_truncateFront {bs diff : Nat} (hb : 0 < bs) (hd : diff ≤ e.bytecount) (x : Nat) :
    place bs (e.truncateFront bs diff) x = if x < e.fileoffset + diff then none else place bs e x := by
  by_cases hx : x < e.fileoffset + diff
  · rw [if_pos hx, place_of_lt hx]
  · rw [if_neg hx]
    obtain ⟨h₁, h₂⟩ := blockOf_truncateFront (e := e) hb (Nat.not_lt.1 hx)
    simp only [place, h₁, h₂]
    simp only [ExtentInfo.truncateFront, ExtentInfo.fileoffsetEnd]
    congr 1
    rw [eq_iff_iff]
    omega

theorem extentByte_truncateFront {diff : Nat} (hd : diff ≤ e.bytecount) (x : Nat) :
    extentByte l s (e.truncateFront l.blocksize diff) x =
      if x < e.fileoffset + diff then none else extentByte l s e x := by
  simp only [extentByte_eq_place, place_truncateFront l.blocksize_pos hd]
  split_ifs <;> rfl

theorem OnTape.truncateFront {diff : Nat} (h : OnTape l s e) (hd : diff ≤ e.bytecount) :
    OnTape l s (e.truncateFront l.blocksize diff) := by
  obtain ⟨p, hp, hall⟩ := h
  refine ⟨p, hp, fun x h₁ h₂ => ?_⟩
  simp only [ExtentInfo.truncateFront, ExtentInfo.fileoffsetEnd] at h₁ h₂
  rw [(blockOf_truncateFront l.blocksize_pos h₁).1, extentByte_truncateFront hd, if_neg (by omega)]
  exact hall x (by omega) (by simp only [ExtentInfo.fileoffsetEnd]; omega)

theorem place_truncateEnd {bs cut : Nat} (hc : cut ≤ e.fileoffsetEnd) (x : Nat) :
    place bs (e.truncateEnd cut) x = if x < cut then place bs e x else none := by
  by_cases h : x < cut
  · rw [if_pos h]
    simp only [place, ExtentInfo.truncateEnd, ExtentInfo.fileoffsetEnd, blockOf, innerOf] at hc ⊢
    congr 1
    rw [eq_iff_iff]
    omega
  · rw [if_neg h]
    by_cases h' : x < e.fileoffset
    · exact place_of_lt h'
    · apply place_of_ge
      simp only [ExtentInfo.truncateEnd, ExtentInfo.fileoffsetEnd]
      omega

theorem extentByte_truncateEnd {cut : Nat} (hc : cut ≤ e.fileoffsetEnd) (x : Nat) :
    extentByte l s (e.truncateEnd cut) x = if x < cut then extentByte l s e x else none := by
  simp only [extentByte_eq_place, place_truncateEnd hc]
  split_ifs <;> rfl

theorem OnTape.truncateEnd {cut : Nat} (h : OnTape l s e) (hc : cut ≤ e.fileoffsetEnd) :
    OnTape l s (e.truncateEnd cut) := by
  obtain ⟨p, hp, hall⟩ := h
  refine ⟨p, hp, fun x h₁ h₂ => ?_⟩
  rw [extentByte_truncateEnd hc]
  simp only [ExtentInfo.truncateEnd, ExtentInfo.fileoffsetEnd] at h₁ h₂ hc
  rw [if_pos (by omega)]
  exact hall x h₁ (by simp only [ExtentInfo.fileoffsetEnd]; omega)

/-- A joined extent reads as the two it is made of. -/
theorem blockOf_grow {bs : Nat} (hb : 0 < bs) (h : e.Adjoins bs ext) (hx : ext.fileoffset ≤ x) (n : Nat) :
    blockOf bs (e.grow n) x = blockOf bs ext x ∧ innerOf bs (e.grow n) x = innerOf bs ext x := by
  obtain ⟨hf, -, hm, hblock, hz⟩ := h
  have hsplit : x - e.fileoffset + e.byteoffset = x - ext.fileoffset + bs * (e.byteoffsetEnd / bs) := by
    have := Nat.mod_add_div e.byteoffsetEnd bs
    simp only [ExtentInfo.fileoffsetEnd, ExtentInfo.byteoffsetEnd] at *
    omega
  simp only [blockOf, innerOf, ExtentInfo.grow, hz, Nat.add_zero]
  rw [hsplit, Nat.add_mul_div_left _ _ hb, Nat.add_mul_mod_self_left]
  omega

theorem place_grow {bs : Nat} (hb : 0 < bs) (h : e.Adjoins bs ext) (x : Nat) :
    place bs (e.grow ext.bytecount) x = (place bs e x).or (place bs ext x) := by
  have hf : ext.fileoffset = e.fileoffset + e.bytecount := h.1
  by_cases hx : x < ext.fileoffset
  · rw [place_of_lt hx, Option.or_none]
    simp only [place, ExtentInfo.grow, ExtentInfo.fileoffsetEnd, blockOf, innerOf]
    congr 1
    rw [eq_iff_iff]
    omega
  · have hx' := Nat.not_lt.1 hx
    obtain ⟨h₁, h₂⟩ := blockOf_grow hb h hx' ext.bytecount
    rw [place_of_ge (e := e) (by rw [ExtentInfo.fileoffsetEnd]; omega), Option.none_or]
    simp only [place, h₁, h₂]
    simp only [ExtentInfo.grow, ExtentInfo.fileoffsetEnd, h.2.1]
    congr 1
    rw [eq_iff_iff]
    omega

theorem extentByte_grow (h : e.Adjoins l.blocksize ext) (x : Nat) :
    extentByte l s (e.grow ext.bytecount) x = (extentByte l s e x).or (extentByte l s ext x) := by
  have hf : ext.fileoffset = e.fileoffsetEnd := h.1
  simp only [extentByte_eq_place, place_grow l.blocksize_pos h]
  by_cases hx : x < ext.fileoffset
  · simp [place_of_lt hx]
  · rw [place_of_ge (e := e) (by omega), Option.none_or, Option.bind_none, Option.none_or]

theorem OnTape.grow (h : OnTape l s e) (h' : OnTape l s ext) (ha : e.Adjoins l.blocksize ext) :
    OnTape l s (e.grow ext.bytecount) := by
  have hf : ext.fileoffset = e.fileoffset + e.bytecount := ha.1
  obtain ⟨p, hp, hall⟩ := h
  obtain ⟨q, hq, hall'⟩ := h'
  obtain rfl : p = q := l.id_inj.1 (by rw [← hp, ← hq, ha.2.1])
  refine ⟨p, hp, fun x h₁ h₂ => ?_⟩
  simp only [ExtentInfo.grow, ExtentInfo.fileoffsetEnd] at h₁ h₂
  rw [extentByte_grow ha]
  by_cases hx : x < ext.fileoffset
  · obtain ⟨hb, hs⟩ := hall x h₁ (by rw [ExtentInfo.fileoffsetEnd]; omega)
    exact ⟨hb, by rw [Option.isSome_or, hs, Bool.true_or]⟩
  · obtain ⟨hb, hs⟩ := hall' x (by omega) (by rw [ExtentInfo.fileoffsetEnd]; omega)
    rw [(blockOf_grow l.blocksize_pos ha (by omega) _).1]
    exact ⟨hb, by rw [Option.isSome_or, hs, Bool.or_true]⟩

end Ltfs.RawSpec
