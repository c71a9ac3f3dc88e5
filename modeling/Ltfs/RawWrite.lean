import Ltfs.ExtentOrder

namespace Ltfs.RawWrite

open Format Lib.Log Lib.Cells Records WriteIndex RawFile RawSpec ExtentMap ExtentOrder

variable {l : Label} {s : Store} {e ext : ExtentInfo} {es before passed : List ExtentInfo} {n : Nat}

theorem overlay_of_ge {a : Nat} {x : Nat} (h : ∀ e ∈ es, a ≤ e.fileoffset) (hx : x < a) :
    overlay (extentByte l s) es x = none :=
  overlay_eq_none fun e he => extentByte_of_lt (Nat.lt_of_lt_of_le hx (h e he))

/-- The byte recorded at a place. -/
def byteAt (l : Label) (s : Store) (y : Char × Nat × Nat) : Option UInt8 :=
  (s.block l y.1 y.2.1).bind (·[y.2.2]?)

/-- Extents that are on tape are read where they place a byte. -/
theorem overlay_extentByte (h : ∀ e ∈ es, OnTape l s e) (x : Nat) :
    overlay (extentByte l s) es x = (overlay (place l.blocksize) es x).bind (byteAt l s) := by
  induction es with
  | nil => rfl
  | cons e es ih =>
    obtain ⟨he, hes⟩ := List.forall_mem_cons.1 h
    rw [overlay_cons, overlay_cons, ih hes]
    cases hp : place l.blocksize e x with
    | none => rw [extentByte_eq_place, hp, Option.bind_none, Option.none_or, Option.none_or]
    | some y =>
      obtain ⟨h₁, h₂⟩ := place_eq_some_iff.1 ⟨y, hp⟩
      obtain ⟨p, -, hall⟩ := he
      obtain ⟨c, hc⟩ := Option.isSome_iff_exists.1 (hall x h₁ h₂).2
      rw [extentByte_eq_place, hp, Option.bind_some] at hc
      rw [extentByte_eq_place, hp, Option.bind_some, Option.some_or, Option.bind_some, hc, Option.some_or]
      exact hc.symm

theorem stable_onTape (hext : OnTape l s ext) : Stable l.blocksize ext (OnTape l s) where
  front _ _ he hd := he.truncateFront (Nat.le_of_lt hd)
  back _ _ he _ hc := he.truncateEnd (Nat.le_of_lt hc)
  grow _ he hadj := he.grow hext hadj
  new := hext

/-- The bytes of an extent that is added win over what the file held there. -/
theorem sound_addExtent {d : Contents} (h : Sound l s d) (hext : OnTape l s ext) :
    Sound l s (ltfsFsrawAddExtent l ext d) ∧
      ∀ x, rawByte l s (ltfsFsrawAddExtent l ext d) x = (extentByte l s ext x).getD (rawByte l s d x) := by
  have hord : InOrder (d.extentlist.reverse.reverse ++ []) := by simpa using h.inOrder
  have hon : ∀ e ∈ d.extentlist.reverse, OnTape l s e := fun e he => h.onTape e (List.mem_reverse.1 he)
  have hsize : ∀ e ∈ d.extentlist.reverse, e.fileoffsetEnd ≤ max d.size ext.fileoffsetEnd :=
    fun e he => Nat.le_trans (h.size e (List.mem_reverse.1 he)) (Nat.le_max_left _ _)
  have hon' := addExtentWalk_forall (stable_onTape hext) d.extentlist.reverse [] hon (by simp)
  have hsize' := addExtentWalk_forall (stable_end l.blocksize (Nat.le_max_right _ _)) d.extentlist.reverse [] hsize (by simp)
  refine ⟨⟨addExtentWalk_inOrder _ [] hord (by simp), hon', hsize'⟩, fun x => ?_⟩
  have hmap : overlay (extentByte l s) (addExtentWalk l.blocksize ext d.extentlist.reverse []) x =
      (overlay (extentByte l s) (ext :: d.extentlist) x) := by
    rw [overlay_extentByte hon', overlay_extentByte (List.forall_mem_cons.2 ⟨hext, h.onTape⟩),
      overlay_addExtentWalk l.blocksize_pos _ [] (by simpa using h.inOrder), List.reverse_reverse,
      List.append_nil, overlay_cons]
  rw [rawByte, rawByte, ltfsFsrawAddExtent, hmap, overlay_cons]
  cases extentByte l s ext x <;> rfl

theorem keeps_refl (s : Store) : s.Keeps s :=
  fun _ => ⟨Nat.le_refl _, fun _ _ => rfl⟩

theorem keeps_trans {t u : Store} (h : s.Keeps t) (h' : t.Keeps u) : s.Keeps u := by
  intro p
  refine ⟨Nat.le_trans (h p).1 (h' p).1, fun c hc => ?_⟩
  rw [(h' p).2 c (Nat.lt_of_lt_of_le hc (h p).1), (h p).2 c hc]

theorem keeps_put (s : Store) (p : Part) (rs : List Record) : s.Keeps (s.put p rs) := by
  intro q
  obtain rfl | rfl := p.eq_or_other q
  · simp only [Store.put, Sides.get_set_self]
    refine ⟨Nat.le_add_right _ _, fun c hc => ?_⟩
    have hlt : c < (s.recs.get q).length := Nat.lt_of_lt_of_le hc (s.append_le q)
    rw [List.getElem?_eq_getElem hlt]
    exact getElem?_overwrite (List.getElem?_eq_getElem hlt) hc
  · simp only [Store.put, Sides.get_set_other]
    exact ⟨Nat.le_refl _, fun c _ => trivial⟩

theorem block_put (s : Store) (p : Part) (bs : List Bytes) (k : Nat) :
    (s.put p (bs.map .data)).block l (l.id p) (s.append.get p + k) = bs[k]? := by
  have hk : (overwrite (s.recs.get p) (s.append.get p) (bs.map Record.data))[s.append.get p + k]? =
      (bs.map Record.data)[k]? := getElem?_overwrite_ge (s.append_le p) k
  rw [List.getElem?_map] at hk
  cases p with
  | ip =>
    simp only [Store.block, Store.put, Label.id, if_true, Sides.set_ip_ip, Sides.get_ip] at hk ⊢
    rw [hk]
    cases bs[k]? <;> rfl
  | dp =>
    simp only [Store.block, Store.put, Label.id, if_neg l.ids_ne.symm, if_true, Sides.set_dp_dp,
      Sides.get_dp] at hk ⊢
    rw [hk]
    cases bs[k]? <;> rfl

theorem getElem?_bufferBlocks {bs : Nat} (hbs : 0 < bs) {buf : Bytes} {x : Nat} (hx : x < buf.length) :
    ((bufferBlocks bs buf)[x / bs]?).bind (·[x % bs]?) = buf[x]? := by
  have hk : x / bs < (buf.length + bs - 1) / bs := by
    rw [Nat.div_lt_iff_lt_mul hbs]
    have := Nat.div_mul_le_self x bs
    have := Nat.div_add_mod (buf.length + bs - 1) bs
    have := Nat.mod_lt (buf.length + bs - 1) hbs
    rw [Nat.mul_comm]
    omega
  rw [bufferBlocks, List.getElem?_map, List.getElem?_range hk, Option.map_some, Option.bind_some,
    List.getElem?_take_of_lt (Nat.mod_lt _ hbs), List.getElem?_drop]
  congr 1
  rw [Nat.mul_comm]
  exact Nat.div_add_mod x bs

variable {dr : Drive} {t : Tape} {p : Part} {buf : Bytes}

/-- The extent that a data write of `buf` leaves behind. -/
def newExtent (l : Label) (p : Part) (start : Nat) (buf : Bytes) (offset : Nat) : ExtentInfo :=
  ⟨⟨start, l.id p⟩, 0, buf.length, offset⟩

/-- The blocks of a buffer, recorded at the append position, hold the extent. -/
theorem onTape_put (s : Store) (buf : Bytes) (off : Nat) :
    OnTape l (s.put p ((bufferBlocks l.blocksize buf).map .data)) (newExtent l p (s.append.get p) buf off) ∧
      ∀ x, extentByte l (s.put p ((bufferBlocks l.blocksize buf).map .data))
        (newExtent l p (s.append.get p) buf off) x = cell off buf x := by
  have hbytes : ∀ x, extentByte l (s.put p ((bufferBlocks l.blocksize buf).map .data))
      (newExtent l p (s.append.get p) buf off) x = cell off buf x := by
    intro x
    unfold extentByte
    split
    · rename_i hx
      simp only [newExtent, ExtentInfo.fileoffsetEnd] at hx
      simp only [newExtent, blockOf, innerOf, Nat.add_zero]
      rw [block_put, getElem?_bufferBlocks l.blocksize_pos (by omega), cell, if_pos hx.1]
    · rename_i hx
      simp only [newExtent, ExtentInfo.fileoffsetEnd] at hx
      exact (cell_eq_none_iff.2 (by omega)).symm
  refine ⟨⟨p, rfl, fun x h₁ h₂ => ⟨?_, ?_⟩⟩, hbytes⟩
  · simp only [newExtent, ExtentInfo.fileoffsetEnd] at h₁ h₂
    simp only [newExtent, blockOf, Store.put, Sides.get_set_self, List.length_map, Nat.add_zero]
    have hlen : (x - off) / l.blocksize < (bufferBlocks l.blocksize buf).length := by
      by_contra hn
      have := getElem?_bufferBlocks l.blocksize_pos (by omega : x - off < buf.length)
      rw [List.getElem?_eq_none (Nat.not_lt.1 hn), Option.bind_none,
        List.getElem?_eq_getElem (by omega)] at this
      cases this
    omega
  · rw [hbytes]
    obtain ⟨c, hc⟩ : ∃ c, cell off buf x = some c := cell_inside h₁ h₂
    rw [hc]
    rfl

theorem onTape_empty (s : Store) (start off : Nat) :
    OnTape l s (newExtent l p start [] off) ∧
      ∀ x, extentByte l s (newExtent l p start [] off) x = cell off [] x := by
  have hend : (newExtent l p start [] off).fileoffsetEnd = off := Nat.add_zero off
  refine ⟨⟨p, rfl, fun x h₁ h₂ => absurd h₁ (Nat.not_le.2 (hend ▸ h₂))⟩, fun x => ?_⟩
  rw [cell_nil, extentByte, hend]
  exact if_neg fun hx => Nat.not_lt.2 hx.1 hx.2

/-- A data write records the buffer behind what is there already. -/
theorem ltfsFsrawWriteData_ok {start : Nat} {t' : Tape} (h : ltfsFsrawWriteData l dr p buf t = (.ok start, t')) :
    t.store.Keeps t'.store ∧ ∀ off, OnTape l t'.store (newExtent l p start buf off) ∧
      ∀ x, extentByte l t'.store (newExtent l p start buf off) x = cell off buf x := by
  rw [ltfsFsrawWriteData] at h
  split_ifs at h with hbuf
  · obtain ⟨-, rfl⟩ := Prod.mk.inj h
    rw [hbuf]
    exact ⟨keeps_refl _, onTape_empty _ _⟩
  · cases hf : dr.fault t.writes p with
    | some e => simp [hf] at h
    | none =>
      simp only [hf, Prod.mk.injEq, Except.ok.injEq] at h
      obtain ⟨rfl, rfl⟩ := h
      exact ⟨keeps_trans (dr.keeps _ _) (keeps_put _ _ _), onTape_put _ buf⟩

/-- A data write that fails keeps what is recorded. -/
theorem ltfsFsrawWriteData_keeps (l : Label) (dr : Drive) (p : Part) (buf : Bytes) (t : Tape) :
    t.store.Keeps (ltfsFsrawWriteData l dr p buf t).2.store := by
  unfold ltfsFsrawWriteData
  split
  · exact keeps_refl _
  · simp only
    split
    · exact dr.keeps _ _
    · exact keeps_trans (dr.keeps _ _) (keeps_put _ _ _)

variable {d : Contents} {off : Nat}

/-- What a file write does to the bytes of the file. -/
theorem ltfsFsrawWrite_ok {d' : Contents} {t' : Tape} (h : Sound l t.store d)
    (hw : ltfsFsrawWrite l dr p buf off d t = (.ok d', t')) :
    t.store.Keeps t'.store ∧ Sound l t'.store d' ∧ d'.size = max d.size (off + buf.length) ∧
      ∀ x, rawByte l t'.store d' x = (cell off buf x).getD (rawByte l t.store d x) := by
  rw [ltfsFsrawWrite] at hw
  cases hdata : ltfsFsrawWriteData l dr p buf t with
  | mk res t₁ =>
    cases res with
    | error e => simp [hdata] at hw
    | ok start =>
      simp only [hdata, Prod.mk.injEq, Except.ok.injEq] at hw
      obtain ⟨rfl, rfl⟩ := hw
      obtain ⟨hk, hext⟩ := ltfsFsrawWriteData_ok hdata
      obtain ⟨ho, hb⟩ := hext off
      obtain ⟨hs, hbytes⟩ := sound_addExtent (h.keeps hk) ho
      refine ⟨hk, hs, rfl, fun x => ?_⟩
      rw [← h.rawByte_keeps hk, ← hb]
      exact hbytes x

theorem sound_truncate (h : Sound l s d) (length : Nat) :
    Sound l s (ltfsFsrawTruncate length d) ∧
      ∀ x, rawByte l s (ltfsFsrawTruncate length d) x = if x < length then rawByte l s d x else 0 := by
  by_cases hlen : length < d.size
  · have hl : (ltfsFsrawTruncate length d).extentlist = truncateExtents length d.extentlist.reverse := if_pos hlen
    have hord : InOrder d.extentlist.reverse.reverse := by simpa using h.inOrder
    have hon : ∀ e ∈ truncateExtents length d.extentlist.reverse, OnTape l s e :=
      truncateExtents_forall _ (fun e he => h.onTape e (List.mem_reverse.1 he))
        fun e he _ hcut => he.truncateEnd (Nat.le_of_lt hcut)
    refine ⟨⟨?_, by rwa [hl], ?_⟩, fun x => ?_⟩
    · rw [hl]
      exact truncateExtents_inOrder length _ hord
    · rw [hl]
      exact truncateExtents_le length _ hord
    · rw [rawByte, rawByte, hl, overlay_extentByte hon, overlay_truncateExtents length _ hord,
        List.reverse_reverse, overlay_extentByte h.onTape]
      split <;> rfl
  · have hl : (ltfsFsrawTruncate length d).extentlist = d.extentlist := if_neg hlen
    refine ⟨⟨by rw [hl]; exact h.inOrder, by rw [hl]; exact h.onTape, ?_⟩, fun x => ?_⟩
    · rw [hl]
      exact fun e he => Nat.le_trans (h.size e he) (Nat.not_lt.1 hlen)
    · split
      · unfold rawByte
        rw [hl]
      · unfold rawByte
        rw [hl]
        exact h.rawByte_of_ge (by omega)

end Ltfs.RawWrite
