import Ltfs.LostFound
import Ltfs.LastRefSpec
import Ltfs.Lib.Decimal

namespace Ltfs.LostFoundSpec

open Format LastRef LastRefSpec LostFound Lib.Decimal
open TapeDevice (Errno)

variable (r : Recovery)

theorem partId2num_inj {p q : Part} : partId2num r p = partId2num r q ↔ p = q := by
  cases p <;> cases q <;> cases h : r.ipFirst <;> simp [partId2num, h]

theorem underscored_inj {k m i j : Nat} {s t u v : List Char}
    (h : s ++ Nat.toDigits 10 k ++ '_' :: t ++ Nat.toDigits 10 i ++ '_' :: u =
      s ++ Nat.toDigits 10 m ++ '_' :: t ++ Nat.toDigits 10 j ++ '_' :: v) : k = m ∧ i = j := by
  simp only [List.append_assoc, List.cons_append] at h
  obtain ⟨hk, h'⟩ := toDigits_underscore (List.append_cancel_left h)
  obtain ⟨hi, -⟩ := toDigits_underscore (List.append_cancel_left h')
  exact ⟨hk, hi⟩

/-- The name tells the partition and the block. -/
theorem fileName_inj {p q : Part} {b c m n : Nat} (h : fileName r p b m = fileName r q c n) :
    p = q ∧ b = c := by
  rw [fileName, fileName, named, named] at h
  obtain ⟨hp, hc⟩ := underscored_inj h
  exact ⟨(partId2num_inj r).mp hp, hc⟩

/-- The file that the record at block `b` gets, with these names in the directory before. -/
def newFile (names : List (List Char)) (p : Part) (b : Nat) : Option File :=
  match tapeRead r p b with
  | .ok (nr + 1) => if names.contains (fileName r p b (nr + 1)) then none else some (recoveredFile r p b (nr + 1))
  | _ => none

/-- The blocks that the loop reads. -/
def reached (p : Part) (b n : Nat) : List Nat :=
  (List.range' b n).takeWhile (readable r p)

/-- Of the names that blocks of `p` from `b` on would get, the directory has those it had before. -/
def SameNames (names : List (List Char)) (p : Part) (b : Nat) (dir : LostDir) : Prop :=
  ∀ c nr, b ≤ c → (fileName r p c nr ∈ dir.names ↔ fileName r p c nr ∈ names)

variable {r} {names : List (List Char)} {p : Part} {dir dir' : LostDir} {b : Nat}

theorem SameNames.next (h : SameNames r names p b dir) : SameNames r names p (b + 1) dir :=
  fun c nr hc => h c nr (Nat.le_of_succ_le hc)

theorem addFile_sameNames (h : SameNames r names p b dir) (nr : Nat) :
    SameNames r names p (b + 1) (addFile r p b nr dir) := by
  intro c k hc
  rw [← h c k (Nat.le_of_succ_le hc), addFile]
  by_cases hm : fileName r p b nr ∈ dir.names
  · rw [if_pos hm]
  · rw [if_neg hm, List.mem_cons]
    have hne : fileName r p c k ≠ fileName r p b nr := by
      intro he
      obtain ⟨-, rfl⟩ := fileName_inj r he
      exact absurd hc (Nat.not_succ_le_self _)
    exact or_iff_right hne

theorem addFile_files (h : SameNames r names p b dir) (nr : Nat) :
    (addFile r p b nr dir).files = dir.files ++
      (if fileName r p b nr ∈ names then none else some (recoveredFile r p b nr)).toList := by
  rw [addFile]
  by_cases hm : fileName r p b nr ∈ names
  · rw [if_pos ((h b nr (Nat.le_refl b)).mpr hm), if_pos hm, Option.toList_none, List.append_nil]
  · rw [if_neg (mt (h b nr (Nat.le_refl b)).mp hm), if_neg hm, Option.toList_some]

/-- What a read puts into the buffer. -/
def size : Block → Nat
  | .filemark => 0
  | .record nr _ => nr

theorem tapeRead_iff {nr : Nat} : tapeRead r p b = .ok nr ↔ ∃ x, (r.parts.get p).blocks[b]? = some x ∧
    (r.parts.get p).fault b = none ∧ size x = nr ∧ nr ≤ r.label.blocksize := by
  rw [tapeRead]
  cases (r.parts.get p).blocks[b]? with
  | none => simp
  | some x =>
    cases (r.parts.get p).fault b with
    | some e => simp
    | none =>
      cases x with
      | filemark =>
        simp only [size, Except.ok.injEq, Option.some.injEq, exists_eq_left', true_and]
        constructor
        · rintro rfl
          exact ⟨rfl, Nat.zero_le _⟩
        · exact And.left
      | record k pos =>
        by_cases hk : r.label.blocksize < k
        · simp [hk, size]
          omega
        · simp [hk, size]
          omega

theorem readable_iff : readable r p b = true ↔ ∃ nr, tapeRead r p b = .ok nr := by
  rw [readable]
  cases tapeRead r p b with
  | error e => simp [Except.isOk, Except.toBool]
  | ok nr => simp [Except.isOk, Except.toBool]

/-- The loop adds the files of the blocks it reads. -/
theorem scanBlocks_files (n : Nat) (h : SameNames r names p b dir) :
    (scanBlocks r p n b dir).files = dir.files ++ (reached r p b n).filterMap (newFile r names p) := by
  induction n generalizing b dir with
  | zero => simp [scanBlocks, reached]
  | succ n ih =>
    rw [scanBlocks, reached, List.range'_succ, List.takeWhile_cons]
    cases hr : tapeRead r p b with
    | error e =>
      have hb : ¬ readable r p b = true := by simp [readable_iff, hr]
      rw [if_neg hb, List.filterMap_nil, List.append_nil]
    | ok nr =>
      have hb : readable r p b = true := readable_iff.mpr ⟨nr, hr⟩
      rw [if_pos hb, List.filterMap_cons]
      cases nr with
      | zero =>
        have hf : newFile r names p b = none := by rw [newFile, hr]
        rw [hf]
        exact ih h.next
      | succ nr =>
        have hf : newFile r names p b =
            if fileName r p b (nr + 1) ∈ names then none else some (recoveredFile r p b (nr + 1)) := by
          rw [newFile, hr]
          simp only [List.contains_iff_mem]
        have hs := ih (addFile_sameNames h (nr + 1))
        rw [reached] at hs
        rw [hs, addFile_files h, ← hf, List.append_assoc]
        cases newFile r names p b with
        | none => rfl
        | some f => rfl

theorem mem_takeWhile_range' (f : Nat → Bool) (b n c : Nat) :
    c ∈ (List.range' b n).takeWhile f ↔ b ≤ c ∧ c < b + n ∧ ∀ d, b ≤ d → d ≤ c → f d = true := by
  induction n generalizing b with
  | zero =>
    simp
    omega
  | succ n ih =>
    rw [List.range'_succ, List.takeWhile_cons]
    by_cases hf : f b = true
    · rw [if_pos hf, List.mem_cons, ih]
      constructor
      · rintro (rfl | ⟨hbc, hcn, hall⟩)
        · refine ⟨Nat.le_refl _, by omega, fun d h₁ h₂ => ?_⟩
          rwa [Nat.le_antisymm h₂ h₁]
        · refine ⟨by omega, by omega, fun d h₁ h₂ => ?_⟩
          by_cases hd : d = b
          · rwa [hd]
          · exact hall d (by omega) h₂
      · rintro ⟨hbc, hcn, hall⟩
        by_cases hc : c = b
        · exact .inl hc
        · exact .inr ⟨by omega, by omega, fun d h₁ h₂ => hall d (by omega) h₂⟩
    · rw [if_neg hf]
      constructor
      · intro h
        cases h
      · rintro ⟨hbc, -, hall⟩
        exact absurd (hall b (Nat.le_refl b) hbc) hf

theorem filter_filterMap_eq {β : Type} {f : Nat → Option β} {P : β → Bool} {l : List Nat} (hl : l.Nodup)
    (hf : ∀ c g, f c = some g → (P g = true ↔ c = b)) :
    (l.filterMap f).filter P = if b ∈ l then (f b).toList else [] := by
  induction l with
  | nil => simp
  | cons c l ih =>
    obtain ⟨hc, hnd⟩ := List.nodup_cons.mp hl
    have ih := ih hnd
    rw [List.filterMap_cons]
    cases hg : f c with
    | none =>
      rw [ih]
      by_cases hb : b = c
      · subst hb
        simp [hc, hg]
      · simp [hb]
    | some g =>
      by_cases hb : b = c
      · subst hb
        rw [List.filter_cons_of_pos ((hf b g hg).mpr rfl), ih]
        simp [hc, hg]
      · rw [List.filter_cons_of_neg (mt (hf c g hg).mp (Ne.symm hb)), ih]
        simp [hb]

variable (r)

/-- The first block the loop reads. -/
def firstBlock (p : Part) : Nat :=
  let last := (ltfsLastRef r.label r.root ⟨0, 0⟩).get p
  max 4 (if r.endofidx.get p ≤ last then (last + 1) % 2 ^ 64 else r.endofidx.get p)

def visited (p : Part) : List Nat :=
  if r.endofidx.get p < eod r p then reached r p (firstBlock r p) (eod r p - firstBlock r p) else []

/-- A block that the loop comes to unless a read fails before: every extent ends before it as
`_ltfs_last_ref` counts, or one of them ends in the last word. -/
def Scanned (p : Part) (c : Nat) : Prop :=
  4 ≤ c ∧ ((∃ x, On r.label r.root p x ∧ extLastblock r.label x = 2 ^ 64 - 1) ∨
    (r.endofidx.get p ≤ c ∧ ∀ x, On r.label r.root p x → extLastblock r.label x < c))

variable {r}

theorem extLastblock_lt (l : Label) (x : ExtentInfo) : extLastblock l x < 2 ^ 64 :=
  Nat.mod_lt _ (by decide)

theorem firstBlock_le_iff (he : r.endofidx.get p < eod r p) (c : Nat) : firstBlock r p ≤ c ↔ Scanned r p c := by
  have hlt : r.endofidx.get p < 2 ^ 64 := Nat.lt_trans he (r.parts.get p).length_lt
  have hle : (ltfsLastRef r.label r.root ⟨0, 0⟩).get p ≤ 2 ^ 64 - 1 :=
    (ltfsLastRef_le r.label r.root p _).mpr fun x _ => Nat.le_sub_one_of_lt (extLastblock_lt r.label x)
  have hmax : (∃ x, On r.label r.root p x ∧ extLastblock r.label x = 2 ^ 64 - 1) ↔
      (ltfsLastRef r.label r.root ⟨0, 0⟩).get p = 2 ^ 64 - 1 := by
    have h := lt_ltfsLastRef r.label r.root p (2 ^ 64 - 2)
    constructor
    · rintro ⟨x, hx, he⟩
      have := h.mpr ⟨x, hx, by omega⟩
      omega
    · intro he
      obtain ⟨x, hx, hb⟩ := h.mp (by omega)
      have := extLastblock_lt r.label x
      exact ⟨x, hx, by omega⟩
  rw [Scanned, hmax, firstBlock]
  simp only [Nat.max_le]
  refine and_congr_right fun h4 => ?_
  have hpos : 0 < c := Nat.lt_of_lt_of_le (by decide) h4
  have hall := ltfsLastRef_lt r.label r.root p c
  rw [and_iff_right hpos] at hall
  rw [← hall]
  generalize (ltfsLastRef r.label r.root ⟨0, 0⟩).get p = last at hle
  by_cases hend : r.endofidx.get p ≤ last
  · rw [if_pos hend]
    by_cases hm : last = 2 ^ 64 - 1
    · subst hm
      simp
    · rw [Nat.mod_eq_of_lt (by omega)]
      omega
  · rw [if_neg hend]
    omega

theorem visited_nodup : (visited r p).Nodup := by
  rw [visited]
  split
  · exact List.Sublist.nodup (List.takeWhile_sublist _) List.nodup_range'
  · exact List.nodup_nil

theorem mem_visited : b ∈ visited r p ↔ r.endofidx.get p < eod r p ∧ b < eod r p ∧ Scanned r p b ∧
    ∀ c ≤ b, Scanned r p c → readable r p c = true := by
  by_cases he : r.endofidx.get p < eod r p
  · rw [visited, if_pos he, reached, mem_takeWhile_range', firstBlock_le_iff he]
    constructor
    · rintro ⟨hs, hb, hall⟩
      have hle := (firstBlock_le_iff he b).mpr hs
      exact ⟨he, by omega, hs, fun c hc hsc => hall c ((firstBlock_le_iff he c).mpr hsc) hc⟩
    · rintro ⟨-, hb, hs, hall⟩
      have hle := (firstBlock_le_iff he b).mpr hs
      exact ⟨hs, by omega, fun c hfc hc => hall c hc ((firstBlock_le_iff he c).mp hfc)⟩
  · simp [visited, he]

theorem newFile_eq_some {f : File} : newFile r names p b = some f ↔ ∃ nr pos,
    (r.parts.get p).blocks[b]? = some (.record nr pos) ∧ readable r p b = true ∧
      fileName r p b nr ∉ names ∧ recoveredFile r p b nr = f := by
  rw [newFile]
  constructor
  · intro h
    split at h
    · next nr hr =>
      obtain ⟨x, hx, -, hs, -⟩ := tapeRead_iff.mp hr
      cases x with
      | filemark => cases hs
      | record k pos =>
        obtain rfl : k = nr + 1 := hs
        split at h
        · cases h
        · next hn =>
          rw [List.contains_iff_mem] at hn
          exact ⟨nr + 1, pos, hx, readable_iff.mpr ⟨_, hr⟩, hn, Option.some.inj h⟩
    · cases h
  · rintro ⟨nr, pos, hx, hr, hn, rfl⟩
    obtain ⟨k, hk⟩ := readable_iff.mp hr
    obtain ⟨y, hy, -, hs, -⟩ := tapeRead_iff.mp hk
    obtain rfl : Block.record nr pos = y := Option.some.inj (hx.symm.trans hy)
    obtain rfl : nr = k := hs
    obtain ⟨m, rfl⟩ : ∃ m, nr = m + 1 := ⟨nr - 1, by omega⟩
    rw [← List.contains_iff_mem] at hn
    rw [hk]
    exact if_neg hn

theorem blocks_eq_one {n : Nat} (l : Label) (hpos : 0 < n) (hle : n ≤ l.blocksize) : blocks l n = 1 := by
  rw [blocks, Nat.div_eq_iff l.blocksize_pos]
  omega

/-- A recovered file takes in its own block and no other. -/
theorem holds_recoveredFile {q : Part} {c nr : Nat} (hpos : 0 < nr) (hle : nr ≤ r.label.blocksize) :
    Holds r p b ⟨⟨c, r.label.id q⟩, 0, nr, 0⟩ ↔ q = p ∧ c = b := by
  rw [Holds, Touches, extentEnd, r.label.id_inj, Nat.zero_add, blocks_eq_one r.label hpos hle]
  refine and_congr_right fun _ => ?_
  simp only
  omega

theorem newFile_any {q : Part} {c : Nat} {f : File} (h : newFile r names q c = some f) :
    f.extentlist.any (Holds r p b) = true ↔ q = p ∧ c = b := by
  obtain ⟨nr, pos, hx, hr, -, rfl⟩ := newFile_eq_some.mp h
  obtain ⟨k, hk⟩ := readable_iff.mp hr
  obtain ⟨y, hy, -, hs, hle⟩ := tapeRead_iff.mp hk
  obtain rfl : Block.record nr pos = y := Option.some.inj (hx.symm.trans hy)
  obtain rfl : nr = k := hs
  rw [← holds_recoveredFile pos hle]
  simp [recoveredFile]

theorem filter_found (q : Part) :
    ((visited r q).filterMap (newFile r names q)).filter (fun f => f.extentlist.any (Holds r p b)) =
      if q = p ∧ b ∈ visited r q then (newFile r names q b).toList else [] := by
  by_cases hq : q = p
  · subst hq
    rw [filter_filterMap_eq visited_nodup fun c f h => (newFile_any h).trans (and_iff_right rfl)]
    simp
  · rw [if_neg fun h => hq h.1, List.filter_eq_nil_iff]
    intro f hf
    obtain ⟨c, -, hc⟩ := List.mem_filterMap.mp hf
    exact fun ha => hq ((newFile_any hc).mp ha).1

theorem addFile_names_other {q : Part} {c nr : Nat} (hq : q ≠ p) (h : SameNames r names q c dir) :
    SameNames r names q c (addFile r p b nr dir) := by
  intro d k hd
  rw [← h d k hd, addFile]
  split
  · exact Iff.rfl
  · rw [List.mem_cons]
    exact or_iff_right fun he => hq (fileName_inj r he).1

/-- The loop over one partition gives no name to a block of the other. -/
theorem scanBlocks_names_other {q : Part} {c : Nat} (hq : q ≠ p) (n : Nat) (h : SameNames r names q c dir) :
    SameNames r names q c (scanBlocks r p n b dir) := by
  induction n generalizing b dir with
  | zero => exact h
  | succ n ih =>
    rw [scanBlocks]
    split
    · exact h
    · exact ih h
    · exact ih (addFile_names_other hq h)

theorem makePartition_eq (h : makePartition r ((ltfsLastRef r.label r.root ⟨0, 0⟩).get p) p dir = .ok dir') :
    dir' = dir ∧ visited r p = [] ∨
      dir' = scanBlocks r p (eod r p - firstBlock r p) (firstBlock r p) dir ∧
        visited r p = reached r p (firstBlock r p) (eod r p - firstBlock r p) := by
  have hmax : ∀ m : Nat, (if 4 < m then m else 4) = max 4 m := by
    intro m
    split <;> omega
  rw [makePartition] at h
  by_cases he : r.endofidx.get p < eod r p
  · rw [if_pos he, ← apply_ite (fun m => populateLostFound r p m dir), populateLostFound] at h
    simp only [hmax] at h
    split at h
    · cases h
    · refine .inr ⟨?_, if_pos he⟩
      exact (Except.ok.inj h).symm
  · rw [if_neg he] at h
    exact .inl ⟨(Except.ok.inj h).symm, if_neg he⟩

theorem makePartition_files (hn : ∀ c, SameNames r names p c dir)
    (h : makePartition r ((ltfsLastRef r.label r.root ⟨0, 0⟩).get p) p dir = .ok dir') :
    dir'.files = dir.files ++ (visited r p).filterMap (newFile r names p) := by
  obtain ⟨rfl, hv⟩ | ⟨rfl, hv⟩ := makePartition_eq h
  · rw [hv, List.filterMap_nil, List.append_nil]
  · rw [hv]
    exact scanBlocks_files _ (hn _)

theorem makePartition_names_other {q : Part} (hq : q ≠ p) (hn : ∀ c, SameNames r names q c dir)
    (h : makePartition r ((ltfsLastRef r.label r.root ⟨0, 0⟩).get p) p dir = .ok dir') (c : Nat) :
    SameNames r names q c dir' := by
  obtain ⟨rfl, -⟩ | ⟨rfl, -⟩ := makePartition_eq h
  · exact hn c
  · exact scanBlocks_names_other hq _ (hn c)

/-- What the whole recovery adds: the files of the blocks it reads, of the index partition first. -/
theorem makeLostFound_files (h : makeLostFound r names = .ok dir) :
    dir.files = (visited r .ip).filterMap (newFile r names .ip) ++
      (visited r .dp).filterMap (newFile r names .dp) := by
  have hn : ∀ q c, SameNames r names q c ⟨names, []⟩ := fun _ _ _ _ _ => Iff.rfl
  rw [makeLostFound] at h
  split at h
  · cases h
  · next mid hi =>
    have hmid := makePartition_files (p := .ip) (hn .ip) hi
    have hother := makePartition_names_other (p := .ip) (q := .dp) (by decide) (hn .dp) hi
    rw [makePartition_files (p := .dp) hother h, hmid, List.nil_append]

theorem filter_files (h : makeLostFound r names = .ok dir) :
    dir.files.filter (fun f => f.extentlist.any (Holds r p b)) =
      if b ∈ visited r p then (newFile r names p b).toList else [] := by
  rw [makeLostFound_files h, List.filter_append, filter_found, filter_found]
  cases p with
  | ip => simp
  | dp => simp

/-- A record is recovered, and then once, exactly if the loop reads it and its name is free. -/
theorem recoveredOnce_iff (h : makeLostFound r names = .ok dir) {nr : Nat} (pos : 0 < nr)
    (hx : (r.parts.get p).blocks[b]? = some (.record nr pos)) :
    RecoveredOnce r dir.files p b nr ↔ b ∈ visited r p ∧ fileName r p b nr ∉ names := by
  constructor
  · rintro ⟨f, x, hf, -⟩
    rw [filter_files h] at hf
    split at hf
    · next hv =>
      refine ⟨hv, ?_⟩
      have hs : newFile r names p b = some f := by simpa using hf
      obtain ⟨k, hpos, hk, -, hn, -⟩ := newFile_eq_some.mp hs
      obtain rfl : nr = k := by simpa using hx.symm.trans hk
      exact hn
    · cases hf
  · rintro ⟨hv, hn⟩
    obtain ⟨-, -, hs, hr⟩ := mem_visited.mp hv
    have hnew := newFile_eq_some.mpr ⟨nr, pos, hx, hr b (Nat.le_refl b) hs, hn, rfl⟩
    have hany := (newFile_any (p := p) (b := b) hnew).mpr ⟨rfl, rfl⟩
    refine ⟨recoveredFile r p b nr, ⟨⟨b, r.label.id p⟩, 0, nr, 0⟩, ?_, ?_, rfl, rfl, rfl⟩
    · rw [filter_files h, if_pos hv, hnew, Option.toList_some]
    · exact List.filter_eq_self.mpr (by simpa [recoveredFile] using hany)

/-- Every record behind the index and behind the last reference becomes one block of one file, exactly when
every one of them lies behind where the loop starts, no read fails up to it and its name is free. -/
theorem recovered_iff (h : makeLostFound r names = .ok dir) :
    (∀ p b nr, Unreferenced r p b nr → RecoveredOnce r dir.files p b nr) ↔
      ∀ p b nr, Unreferenced r p b nr → Scanned r p b ∧
        (∀ c ≤ b, Scanned r p c → readable r p c = true) ∧ fileName r p b nr ∉ names := by
  refine forall_congr' fun p => forall_congr' fun b => forall_congr' fun nr => forall_congr' fun hu => ?_
  obtain ⟨⟨pos, hx⟩, -, he, -⟩ := hu
  have hb : b < eod r p := (List.getElem?_eq_some_iff.mp hx).1
  rw [recoveredOnce_iff h pos hx, mem_visited]
  constructor
  · rintro ⟨⟨-, -, hs, hr⟩, hn⟩
    exact ⟨hs, hr, hn⟩
  · rintro ⟨hs, hr, hn⟩
    exact ⟨⟨Nat.lt_of_le_of_lt he hb, hb, hs, hr⟩, hn⟩

/-- A file of one block, block 7 of the data partition. -/
def oneBlockRoot : Dentry :=
  .dir ⟨[], 1, false, ⟨0, 0⟩, ⟨0, 0⟩, ⟨0, 0⟩, ⟨0, 0⟩, ⟨0, 0⟩, [], []⟩
    [.file ⟨[97], 2, false, ⟨0, 0⟩, ⟨0, 0⟩, ⟨0, 0⟩, ⟨0, 0⟩, ⟨0, 0⟩, [], []⟩ 4 (.extents [⟨⟨7, 'b'⟩, 0, 4, 0⟩])]

def record4 : Block :=
  .record 4 Label.pos_four

/-- A label and an index, and the records of a sudden end behind them. -/
def cutOff (records : List Block) (h : records.length < 10) : Partition where
  blocks := [record4, .filemark, record4, .filemark, .filemark, record4, .filemark] ++ records
  locate := none
  fault _ := none
  length_lt := by
    rw [List.length_append]
    exact Nat.lt_trans (Nat.add_lt_add_left h 7) (by decide)

/-- Blocks 7 to 9 follow the index of the data partition; the index refers to block 7. -/
def cutOffVolume : Recovery where
  label := smallBlocks
  ipFirst := true
  root := oneBlockRoot
  parts := ⟨cutOff [] (by decide), cutOff [record4, record4, record4] (by decide)⟩
  endofidx := ⟨7, 7⟩

def cutOffFiles : LostDir :=
  ⟨[fileName cutOffVolume .dp 9 4], [recoveredFile cutOffVolume .dp 9 4]⟩

theorem recovered_iff_cutOff :
    (∀ p b nr, Unreferenced cutOffVolume p b nr → RecoveredOnce cutOffVolume cutOffFiles.files p b nr) ↔
      ∀ p b nr, Unreferenced cutOffVolume p b nr → Scanned cutOffVolume p b ∧
        (∀ c ≤ b, Scanned cutOffVolume p c → readable cutOffVolume p c = true) ∧
        fileName cutOffVolume p b nr ∉ [] := by
  have h : makeLostFound cutOffVolume [] = .ok cutOffFiles := rfl
  exact recovered_iff h

/-- Block 8 is left out. -/
theorem block_skipped : makeLostFound cutOffVolume [] = .ok cutOffFiles ∧
    Unreferenced cutOffVolume .dp 8 4 ∧ ¬ RecoveredOnce cutOffVolume cutOffFiles.files .dp 8 4 := by
  refine ⟨rfl, ⟨⟨by decide, rfl⟩, by decide, by decide, ?_⟩, ?_⟩
  · rintro c ⟨x, ⟨hx, -⟩, hc⟩
    obtain rfl : x = ⟨⟨7, 'b'⟩, 0, 4, 0⟩ := by
      simpa [cutOffVolume, oneBlockRoot, Dentry.extents, Dentry.extentsList, Content.extentlist] using hx
    exact hc.2
  · rintro ⟨f, x, hf, -⟩
    have h : cutOffFiles.files.filter (fun f => f.extentlist.any (Holds cutOffVolume .dp 8)) = [] := by decide
    rw [h] at hf
    cases hf

end Ltfs.LostFoundSpec
