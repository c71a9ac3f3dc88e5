import Mathlib
import Ltfs.RequestSpec
import Ltfs.Unified
import Ltfs.RawRead

namespace Ltfs.ReadSpec

open Format Lib.Cells RawFile RawSpec Requests RequestSpec Unified

variable {l : List WriteRequest} {r : WriteRequest} {offset size m n x : Nat} {f g raw : Nat → UInt8} {past : Bool}

/-- The bytes of a stretch of a file. -/
def stretch (f : Nat → UInt8) (x n : Nat) : Bytes :=
  (List.range' x n).map f

@[simp] theorem length_stretch : (stretch f x n).length = n := by
  simp [stretch]

theorem stretch_append (f : Nat → UInt8) (x m n : Nat) : stretch f x m ++ stretch f (x + m) n = stretch f x (m + n) := by
  simp only [stretch, ← List.map_append]
  rw [List.range'_append_1]

theorem stretch_congr (h : ∀ y, x ≤ y → y < x + n → f y = g y) : stretch f x n = stretch g x n := by
  apply List.map_congr_left
  intro y hy
  obtain ⟨h₁, h₂⟩ := List.mem_range'_1.1 hy
  exact h y h₁ h₂

theorem getElem?_stretch (h : m < n) : (stretch f x n)[m]? = some (f (x + m)) := by
  rw [stretch, List.getElem?_map, List.getElem?_range' h, Nat.one_mul, Option.map_some]

theorem stretch_zero (h : ∀ y, x ≤ y → y < x + n → f y = 0) : stretch f x n = List.replicate n 0 := by
  rw [List.eq_replicate_iff]
  refine ⟨length_stretch, fun b hb => ?_⟩
  obtain ⟨y, hy, rfl⟩ := List.mem_map.1 hb
  obtain ⟨h₁, h₂⟩ := List.mem_range'_1.1 hy
  exact h y h₁ h₂

/-- Where the last of the requests ends. -/
def reach (l : List WriteRequest) : Nat :=
  l.foldr (fun r n => max r.fin n) 0

/-- A file with requests that are not written yet. -/
def view (raw : Nat → UInt8) (l : List WriteRequest) (x : Nat) : UInt8 :=
  (overlay WriteRequest.byte l x).getD (raw x)

def Sorted (l : List WriteRequest) : Prop :=
  l.Pairwise fun a b => a.offset ≤ b.offset

@[simp] theorem reach_nil : reach [] = 0 := rfl

@[simp] theorem reach_cons : reach (r :: l) = max r.fin (reach l) := rfl

theorem fin_le_reach (h : r ∈ l) : r.fin ≤ reach l := by
  induction l with
  | nil => exact nomatch h
  | cons a l ih =>
    rw [reach_cons]
    obtain rfl | h := List.mem_cons.1 h
    · exact Nat.le_max_left _ _
    · exact Nat.le_trans (ih h) (Nat.le_max_right _ _)

theorem view_blank (h : ∀ r ∈ l, r.byte x = none) : view raw l x = raw x := by
  rw [view, overlay_eq_none h]
  rfl

theorem view_before (h : Sorted (r :: l)) (hx : x < r.offset) : view raw (r :: l) x = raw x := by
  apply view_blank
  refine List.forall_mem_cons.2 ⟨byte_of_lt hx, fun r' hr' => byte_of_lt ?_⟩
  exact Nat.lt_of_lt_of_le hx (List.rel_of_pairwise_cons h hr')

theorem view_behind (hx : r.fin ≤ x) : view raw (r :: l) x = view raw l x := by
  rw [view, overlay_cons, byte_of_ge hx, Option.none_or, view]

theorem stretch_cache (h₁ : r.offset ≤ x) (h₂ : x + n ≤ r.fin) :
    (r.cache.drop (x - r.offset)).take n = stretch (view raw (r :: l)) x n := by
  apply List.ext_getElem?
  intro i
  by_cases hi : i < n
  · rw [List.getElem?_take_of_lt hi, List.getElem?_drop, getElem?_stretch hi]
    obtain ⟨b, hb⟩ := byte_inside (r := r) (x := x + i) (by omega) (by omega)
    have hget : r.cache[x - r.offset + i]? = some b := by
      rw [WriteRequest.byte, cell, if_pos (by omega)] at hb
      rwa [show x - r.offset + i = x + i - r.offset by omega]
    rw [hget, view, overlay_cons, hb]
    rfl
  · rw [List.getElem?_eq_none (by rw [List.length_take]; omega), List.getElem?_eq_none (by rw [length_stretch]; omega)]

section Pieces

variable {read : Nat → Nat → Option Bytes} {eof : Nat}
  (hread : ∀ n x, read n x = some (stretch raw x (min n (eof - x)))) (hraw : ∀ x, eof ≤ x → raw x = 0)

include hread hraw

/-- One queued read. If it ends early, what follows lies past the end of what libltfs has. -/
theorem fillHoles_hole (h : past = true → eof ≤ x) (n : Nat) :
    ∃ past', (past' = true → eof ≤ x + n) ∧ ∀ ps, fillHoles read past (.hole x n :: ps) =
      (fillHoles read past' ps).map (stretch raw x n ++ ·) := by
  cases past with
  | true =>
    refine ⟨true, fun _ => Nat.le_trans (h rfl) (Nat.le_add_right x n), fun ps => ?_⟩
    rw [fillHoles, stretch_zero fun y hy _ => hraw y (Nat.le_trans (h rfl) hy)]
  | false =>
    refine ⟨decide (min n (eof - x) < n), fun hlt => ?_, fun ps => ?_⟩
    · have := of_decide_eq_true hlt
      omega
    · have hzero : stretch raw (x + min n (eof - x)) (n - min n (eof - x)) =
          List.replicate (n - min n (eof - x)) 0 := stretch_zero fun y hy hy' => hraw y (by omega)
      rw [fillHoles, hread]
      simp only [length_stretch]
      rw [← hzero, stretch_append, Nat.add_sub_cancel' (Nat.min_le_left _ _)]

/-- The read that is queued for the hole before a request, if there is one. -/
theorem fillHoles_before (hl : Sorted (r :: l)) (h : past = true → eof ≤ offset) (hn : n ≤ r.offset - offset) :
    ∃ past', (past' = true → eof ≤ offset + n) ∧
      ∀ ps, fillHoles read past ((if offset < r.offset then [Piece.hole offset n] else []) ++ ps) =
        (fillHoles read past' ps).map (stretch (view raw (r :: l)) offset n ++ ·) := by
  have hview : stretch (view raw (r :: l)) offset n = stretch raw offset n :=
    stretch_congr fun y _ hy => view_before hl (by omega)
  rw [hview]
  split_ifs with hlt
  · exact fillHoles_hole hread hraw h n
  · obtain rfl : n = 0 := by omega
    exact ⟨past, h, fun ps => by simp [stretch]⟩

/-- The walk over the requests takes the read to the end of the last one, and the pieces it leaves give the
bytes of the file with the requests laid over it. -/
theorem readPieces_spec (hl : Sorted l) (hpast : past = true → eof ≤ offset) :
    ∃ ps, readPieces l offset size = (ps, offset + min size (reach l - offset), size - min size (reach l - offset)) ∧
      fillHoles read past ps = some (stretch (view raw l) offset (min size (reach l - offset))) := by
  induction l generalizing offset size past with
  | nil => exact ⟨[], by simp [readPieces, reach], by simp [fillHoles, reach, stretch]⟩
  | cons r l ih =>
    have hfin : r.offset ≤ r.fin := Nat.le_add_right _ _
    have hl' : Sorted l := List.Pairwise.of_cons hl
    rw [readPieces, reach_cons]
    generalize hgap : min (r.offset - offset) size = gap
    obtain ⟨past', hpast', hfill⟩ := fillHoles_before hread hraw hl hpast (n := gap) (by omega)
    generalize (if offset < r.offset then [Piece.hole offset gap] else []) = holes at hfill ⊢
    -- going on behind the request
    have hgo : ∀ k, k ≤ size → offset + k = max offset r.fin →
        k + min (size - k) (reach l - (offset + k)) = min size (max r.fin (reach l) - offset) ∧
        stretch (view raw (r :: l)) offset k ++
          stretch (view raw l) (offset + k) (min (size - k) (reach l - (offset + k))) =
            stretch (view raw (r :: l)) offset (k + min (size - k) (reach l - (offset + k))) := by
      intro k hk hmax
      refine ⟨by omega, ?_⟩
      rw [← stretch_append]
      congr 1
      exact stretch_congr fun y hy _ => (view_behind (by omega)).symm
    by_cases hdone : size - gap = 0
    · -- the buffer is full before the request starts
      have hn : min size (max r.fin (reach l) - offset) = gap := by omega
      refine ⟨holes, by rw [if_pos hdone, hn], ?_⟩
      rw [hn, ← List.append_nil holes, hfill, fillHoles, Option.map_some, List.append_nil]
    rw [if_neg hdone]
    by_cases hin : offset + gap < r.fin
    · rw [if_pos hin]
      generalize hn : min (r.fin - (offset + gap)) (size - gap) = n
      have hcache : (r.cache.drop (offset + gap - r.offset)).take n = stretch (view raw (r :: l)) (offset + gap) n :=
        stretch_cache (by omega) (by omega)
      have hstep : ∀ ps, fillHoles read past (holes ++
          Piece.cached ((r.cache.drop (offset + gap - r.offset)).take n) :: ps) =
            (fillHoles read past' ps).map (stretch (view raw (r :: l)) offset (gap + n) ++ ·) := by
        intro ps
        rw [hfill, fillHoles, hcache, Option.map_map, ← stretch_append]
        congr 1
        funext b
        exact (List.append_assoc _ _ _).symm
      by_cases hend : size - gap - n = 0
      · have hall : min size (max r.fin (reach l) - offset) = gap + n := by omega
        refine ⟨_, by rw [if_pos hend, hall, Nat.add_assoc, Nat.sub_sub], ?_⟩
        rw [hall, hstep, fillHoles, Option.map_some, List.append_nil]
      · obtain ⟨ps, hps, hrest⟩ := @ih (offset + gap + n) (size - gap - n) past' hl'
          fun h => Nat.le_trans (hpast' h) (Nat.le_add_right _ _)
        obtain ⟨hall, hsum⟩ := hgo (gap + n) (by omega) (by omega)
        rw [if_neg hend, hps]
        refine ⟨_, by rw [Prod.mk.injEq, Prod.mk.injEq]; exact ⟨rfl, by omega, by omega⟩, ?_⟩
        rw [hstep, hrest, Option.map_some, Nat.add_assoc, Nat.sub_sub, hsum, hall]
    · obtain ⟨ps, hps, hrest⟩ := @ih (offset + gap) (size - gap) past' hl' hpast'
      obtain ⟨hall, hsum⟩ := hgo gap (by omega) (by omega)
      rw [if_neg hin, hps]
      refine ⟨_, by rw [Prod.mk.injEq, Prod.mk.injEq]; exact ⟨rfl, by omega, by omega⟩, ?_⟩
      rw [hfill, hrest, Option.map_some, hsum, hall]

end Pieces

variable {c : UnifiedData} {file : File}

/-- The requests for a file that are not on tape yet. -/
def pending (c : UnifiedData) (file : File) : List WriteRequest :=
  (unifiedGetDentryPriv c file).requests

theorem unifiedRead_eq (hs : Sound c.label file.tape.store file.contents) (hl : Sorted (pending c file)) :
    unifiedRead c size offset file =
      some (stretch (view (rawByte c.label file.tape.store file.contents) (pending c file)) offset
        (min size (max file.contents.size (reach (pending c file)) - offset))) := by
  have hraw : ∀ n x, ltfsFsrawRead c.label file.tape.store file.contents n x =
      some (stretch (rawByte c.label file.tape.store file.contents) x (min n (file.contents.size - x))) :=
    RawRead.ltfsFsrawRead_eq hs
  have hblank : ∀ n x, stretch (view (rawByte c.label file.tape.store file.contents) []) x n =
      stretch (rawByte c.label file.tape.store file.contents) x n := fun n x => rfl
  rw [unifiedRead]
  by_cases hsize : size = 0
  · rw [if_pos hsize, hsize, Nat.zero_min]
    rfl
  rw [if_neg hsize]
  cases hd : file.dpr with
  | none =>
    have hp : pending c file = [] := by
      rw [pending, unifiedGetDentryPriv, hd]
    simp only [hp, reach, List.foldr_nil, Nat.max_zero, hblank]
    exact hraw size offset
  | some dpr =>
    have hp : pending c file = dpr.requests := by
      rw [pending, unifiedGetDentryPriv, hd]
    rw [hp] at hl ⊢
    by_cases hnil : dpr.requests = []
    · simp only [hnil, reach, List.foldr_nil, Nat.max_zero, hblank, if_true]
      exact hraw size offset
    · obtain ⟨ps, hps, hfill⟩ := @readPieces_spec dpr.requests offset size _ false _ _ hraw
        (fun x hx => hs.rawByte_of_ge hx) hl (by simp)
      simp only [if_neg hnil, hps, hfill]
      generalize hn : min size (reach dpr.requests - offset) = n
      by_cases hdone : size - n = 0
      · rw [if_pos hdone, show min size (max file.contents.size (reach dpr.requests) - offset) = n by omega]
      · -- past the last request only the tape has something
        have htail : ∀ k, stretch (rawByte c.label file.tape.store file.contents) (offset + n) k =
            stretch (view (rawByte c.label file.tape.store file.contents) dpr.requests) (offset + n) k := by
          intro k
          refine stretch_congr fun y hy _ => (view_blank fun r hr => byte_of_ge ?_).symm
          have := fin_le_reach hr
          omega
        rw [if_neg hdone, hraw, Option.map_some, htail, stretch_append]
        congr 2
        have hend : reach dpr.requests ≤ offset + n := by omega
        omega

/-- What the first request that has a byte says is what the only one says. -/
theorem overlay_of_mem (hd : l.Pairwise fun a b => Disjoint (Set.Ico a.offset a.fin) (Set.Ico b.offset b.fin))
    (hr : r ∈ l) (hx : x ∈ Set.Ico r.offset r.fin) : overlay WriteRequest.byte l x = r.byte x := by
  induction l with
  | nil => exact nomatch hr
  | cons a l ih =>
    obtain ⟨ha, hd⟩ := List.pairwise_cons.1 hd
    rw [overlay_cons]
    obtain rfl | hr := List.mem_cons.1 hr
    · obtain ⟨b, hb⟩ := byte_inside hx.1 hx.2
      rw [hb]
      rfl
    · have hnot : ¬ (a.offset ≤ x ∧ x < a.fin) := fun hxa => Set.disjoint_left.1 (ha r hr) hxa hx
      have hnone : a.byte x = none := by
        by_cases hle : a.offset ≤ x
        · exact byte_of_ge (Nat.not_lt.1 fun hlt => hnot ⟨hle, hlt⟩)
        · exact byte_of_lt (Nat.not_le.1 hle)
      rw [hnone, Option.none_or, ih hd hr]

/-- Reading gives exactly the bytes up to the end of the file: those of a request where there is one, and
those on tape elsewhere, with zeros where nothing was written. -/
theorem unifiedRead_overlay (c : UnifiedData) (file : File) (size offset : Nat)
    (hs : Sound c.label file.tape.store file.contents) (hl : Sorted (pending c file))
    (hd : (pending c file).Pairwise fun a b => Disjoint (Set.Ico a.offset a.fin) (Set.Ico b.offset b.fin))
    (hsize : (unifiedGetDentryPriv c file).fileSize = max file.contents.size (reach (pending c file))) :
    ∃ b, unifiedRead c size offset file = some b ∧
      b.length = min size ((unifiedGetDentryPriv c file).fileSize - offset) ∧
      ∀ i < b.length,
        (∀ r ∈ pending c file, offset + i ∈ Set.Ico r.offset r.fin → b[i]? = r.cache[offset + i - r.offset]?) ∧
        ((∀ r ∈ pending c file, offset + i ∉ Set.Ico r.offset r.fin) →
          b[i]? = some (rawByte c.label file.tape.store file.contents (offset + i))) := by
  refine ⟨_, unifiedRead_eq hs hl, by rw [length_stretch, hsize], fun i hi => ?_⟩
  rw [length_stretch] at hi
  rw [getElem?_stretch hi]
  refine ⟨fun r hr hx => ?_, fun hno => ?_⟩
  · obtain ⟨b, hb⟩ := byte_inside hx.1 hx.2
    rw [view, overlay_of_mem hd hr hx, hb]
    rw [WriteRequest.byte, cell, if_pos hx.1] at hb
    exact hb.symm
  · rw [view_blank]
    intro r hr
    by_cases hle : r.offset ≤ offset + i
    · exact byte_of_ge (Nat.not_lt.1 fun hlt => hno r hr ⟨hle, hlt⟩)
    · exact byte_of_lt (Nat.not_le.1 hle)

def blocksOfFour : UnifiedData where
  cacheSize := 4
  cacheSize_pos := Label.pos_four
  maxFilesize := 0
  label := ⟨'a', 'b', 4, Label.a_ne_b, Label.a_ne_nul, Label.b_ne_nul, Label.pos_four⟩
  drive := ⟨fun _ s => s, RawFile.keeps_same, fun _ _ => none, fun _ _ => false⟩

/-- Three bytes on tape, one of them to be overwritten, and two more bytes behind a hole. -/
def threeBytes : File where
  contents := ⟨[⟨⟨0, 'b'⟩, 0, 3, 0⟩], 3⟩
  matchesNameCriteria := false
  deleted := false
  dpr := some ⟨7, false, none, [⟨1, [7], .requestPartial⟩, ⟨5, [8, 9], .requestPartial⟩], []⟩
  tape := ⟨⟨⟨[], [.data [1, 2, 3]]⟩, ⟨0, 1⟩, fun p => by cases p <;> decide⟩, 0⟩

theorem threeBytes_sound : Sound blocksOfFour.label threeBytes.tape.store threeBytes.contents where
  inOrder := List.pairwise_singleton _ _
  onTape e he := by
    obtain rfl := List.mem_singleton.1 he
    have hall : ∀ x < 3, blockOf 4 ⟨⟨0, 'b'⟩, 0, 3, 0⟩ x < 1 ∧
        (extentByte blocksOfFour.label threeBytes.tape.store ⟨⟨0, 'b'⟩, 0, 3, 0⟩ x).isSome := by decide
    exact ⟨.dp, rfl, fun x _ hx => hall x hx⟩
  size e he := by
    obtain rfl := List.mem_singleton.1 he
    exact Nat.le_refl 3

theorem threeBytes_disjoint : (pending blocksOfFour threeBytes).Pairwise fun a b =>
    Disjoint (Set.Ico a.offset a.fin) (Set.Ico b.offset b.fin) := by
  refine List.pairwise_cons.2 ⟨fun r hr => ?_, List.pairwise_singleton _ _⟩
  obtain rfl := List.mem_singleton.1 hr
  refine Set.disjoint_left.2 fun x hx hx' => ?_
  have hlt : x < 2 := hx.2
  have hle : 5 ≤ x := hx'.1
  omega

theorem unifiedRead_overlay_threeBytes :
    unifiedRead blocksOfFour 8 0 threeBytes = some [1, 7, 3, 0, 0, 8, 9] ∧
      ∃ b, unifiedRead blocksOfFour 8 0 threeBytes = some b ∧ b.length = 7 := by
  obtain ⟨b, hb, hlen, -⟩ := unifiedRead_overlay blocksOfFour threeBytes 8 0 threeBytes_sound
    (List.pairwise_cons.2 ⟨by decide, List.pairwise_singleton _ _⟩) threeBytes_disjoint rfl
  exact ⟨by decide, b, hb, hlen⟩

end Ltfs.ReadSpec
