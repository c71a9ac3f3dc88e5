import Ltfs.FileDriveStores

namespace Ltfs.FileDriveLoad

open Format FileDrive FileDriveSpec FileDriveStores Cassette

variable {d e : Drive} {t : Reel} {p q : Fin 2} {cs rs : List Cell} {stop : Bool} {b fuel greatest : Nat}

/-- The files of a partition begin with the cells `rs`; behind them stands the end of data, or nothing. -/
structure Begins (d : Drive) (p : Fin 2) (rs : List Cell) (stop : Bool) : Prop where
  cells : ∀ k < rs.length, d.file p k = layout rs k
  stop : d.file p rs.length = fun s => if s = .eod ∧ stop = true then some [] else none

theorem begins_of_files (h : ∀ k ≤ cs.length, d.file p k = layout cs k) : Begins d p cs true := by
  refine ⟨fun k hk => h k (Nat.le_of_lt hk), ?_⟩
  rw [h cs.length le_rfl, layout_end]
  funext s
  simp

theorem begins_of_stores (h : Stores d p cs) : Begins d p cs true := begins_of_files h.files

theorem Begins.congr (h : Begins d p rs stop) (hfile : e.file p = d.file p) : Begins e p rs stop := by
  refine ⟨?_, ?_⟩
  · intro k hk
    rw [hfile, h.cells k hk]
  · rw [hfile, h.stop]

/-- The search for the end of data goes over the cells and ends behind them. -/
theorem Begins.findEod (h : Begins d p rs stop) (hb : b ≤ rs.length) (hfuel : rs.length - b < fuel) :
    d.findEod p fuel b = some (rs.length, stop) := by
  induction fuel generalizing b with
  | zero => omega
  | succ fuel ih =>
    unfold Drive.findEod Drive.checkFile
    rcases Nat.lt_or_eq_of_le hb with hlt | rfl
    · rw [h.cells b hlt, layout_cell (List.getElem?_eq_getElem hlt)]
      have hnext := ih hlt (by omega)
      cases rs[b] <;> simpa [cellFile] using hnext
    · rw [h.stop]
      cases stop <;> simp

/-- A partition after the search for its end of data. Where that is missing the last block is one too high: it is
the first block without a record, not the one before it. -/
def Loaded (e : Drive) (p : Fin 2) (rs : List Cell) (stop : Bool) : Prop :=
  if stop = true ∨ rs = [] then Stores e p rs
  else Begins e p rs false ∧ e.eod p = missingEod ∧ e.lastBlock p = rs.length

theorem Loaded.congr (h : Loaded d p rs stop) (hfile : e.file p = d.file p) (heod : e.eod p = d.eod p)
    (hlast : e.lastBlock p = d.lastBlock p) : Loaded e p rs stop := by
  unfold Loaded at h ⊢
  split
  · rename_i hc
    rw [if_pos hc] at h
    exact h.congr hfile heod hlast
  · rename_i hc
    rw [if_neg hc] at h
    exact ⟨h.1.congr hfile, heod.trans h.2.1, hlast.trans h.2.2⟩

/-- The other partition and the rest of the state are as they were. -/
structure Beside (d e : Drive) (p : Fin 2) : Prop where
  file : ∀ q, q ≠ p → e.file q = d.file q
  eod : ∀ q, q ≠ p → e.eod q = d.eod q
  lastBlock : ∀ q, q ≠ p → e.lastBlock q = d.lastBlock q
  attr : attr e = attr d
  ready : e.ready = d.ready
  maxBlockSize : e.maxBlockSize = d.maxBlockSize

theorem beside_writeEod (d : Drive) : Beside d d.writeEod d.part := by
  obtain ⟨x, y, heq⟩ := writeEod_eq d
  refine ⟨?_, ?_, ?_, attr_writeEod d, ?_, ?_⟩
  · intro q hq
    funext k s
    rw [file_writeEod, if_neg (fun hc => hq hc.1), if_neg (fun hc => hq hc.1)]
  · intro q hq
    rw [heq]
    exact Function.update_of_ne hq _ _
  · intro q hq
    rw [heq]
    exact Function.update_of_ne hq _ _
  · rw [heq]
  · rw [heq]

theorem Beside.begins (h : Beside d e p) (hq : q ≠ p) (hb : Begins d q rs stop) : Begins e q rs stop :=
  hb.congr (h.file q hq)

theorem Beside.loaded (h : Beside d e p) (hq : q ≠ p) (hl : Loaded d q rs stop) : Loaded e q rs stop :=
  hl.congr (h.file q hq) (h.eod q hq) (h.lastBlock q hq)

theorem searchEod_loaded (h : Begins d p rs stop) (hfits : rs.length < missingEod) (hfuel : rs.length < fuel) :
    ∃ e, d.searchEod fuel p = some e ∧ Loaded e p rs stop ∧ Beside d e p := by
  have hfind := h.findEod (Nat.zero_le _) (by omega)
  unfold Drive.searchEod
  rw [hfind, Option.map_some]
  unfold Loaded
  by_cases hstop : stop = true ∨ rs = []
  · have hcond : ¬ (!stop && decide (rs.length ≠ 0)) = true := by
      rcases hstop with rfl | rfl <;> simp
    refine ⟨_, rfl, ?_, ?_⟩
    · rw [if_neg hcond, if_pos hstop]
      apply writeEod_stores rfl hfits
      exact h.cells
    · rw [if_neg hcond]
      have hb := beside_writeEod { d with part := p, block := rs.length }
      exact ⟨hb.file, hb.eod, hb.lastBlock, hb.attr, hb.ready, hb.maxBlockSize⟩
  · have hcond : (!stop && decide (rs.length ≠ 0)) = true := by
      rw [not_or] at hstop
      simpa using hstop
    have hfalse : stop = false := by
      rw [not_or] at hstop
      simpa using hstop.1
    refine ⟨_, rfl, ?_, ?_⟩
    · rw [if_pos hcond, if_neg hstop]
      rw [hfalse] at h
      exact ⟨h.congr rfl, Function.update_self _ _ _, Function.update_self _ _ _⟩
    · rw [if_pos hcond]
      refine ⟨fun q _ => rfl, ?_, ?_, rfl, rfl, rfl⟩
      · intro q hq
        exact Function.update_of_ne hq _ _
      · intro q hq
        exact Function.update_of_ne hq _ _

/-- The search adds no file but the end of data. -/
theorem searchEod_none (he : d.searchEod fuel p = some e) (hb : Begins d p rs stop) (hfuel : rs.length < fuel)
    {k : Nat} (hk : ¬ (q = p ∧ k = rs.length)) (h : d.file q k = fun _ => none) : e.file q k = fun _ => none := by
  have hfind := hb.findEod (Nat.zero_le _) (by omega)
  unfold Drive.searchEod at he
  rw [hfind, Option.map_some, Option.some_inj] at he
  rw [← he]
  split
  · exact h
  · funext s
    rw [file_writeEod, if_neg hk]
    split
    · rfl
    · exact congrFun h s

theorem part_cases (p : Fin 2) : p = part0 ∨ p = part1 := by
  rcases Nat.lt_or_ge p 1 with h | h
  · left
    apply Fin.ext
    change p.val = 0
    omega
  · right
    apply Fin.ext
    change p.val = 1
    omega

theorem part1_ne : part1 ≠ part0 := by
  intro h
  exact absurd (congrArg Fin.val h) Nat.one_ne_zero

theorem getWp_spec (d : Drive) : OnlyFiles d d.getWp.2 ∧ d.getWp.2.file = d.file := by
  unfold Drive.getWp
  split
  · exact ⟨OnlyFiles.refl d, rfl⟩
  · exact ⟨OnlyFiles.setWp 1 d, file_setWp 1 d⟩

/-- The state of the drive when both partitions have been searched. -/
def searched (d : Drive) : Drive :=
  let e := { d with part := part0, block := 0, filemarks := 0, partitions := 2 }
  { e.getWp.2 with writePassPrev := e.getWp.1, writePass := e.getWp.1 }

theorem searched_eq (d : Drive) :
    (∃ dir history wp, searched d =
      { d with
        dir := dir, history := history, part := part0, block := 0, filemarks := 0, partitions := 2
        writePassPrev := wp, writePass := wp }) ∧ (searched d).file = d.file := by
  obtain ⟨⟨x, y, hwp⟩, hfile⟩ := getWp_spec { d with part := part0, block := 0, filemarks := 0, partitions := 2 }
  refine ⟨⟨x, y, (searched d).writePass, ?_⟩, hfile⟩
  exact congrArg
    (fun e : Drive => { e with writePassPrev := (searched d).writePass, writePass := (searched d).writePass }) hwp

/-- A cassette is loaded: both partitions are searched, and the head is at the start of the first. -/
structure Load (d e : Drive) (rs : Fin 2 → List Cell) (stop : Fin 2 → Bool) : Prop where
  loaded : ∀ p, Loaded e p (rs p) (stop p)
  ready : e.ready = true
  maxBlockSize : e.maxBlockSize = d.maxBlockSize
  part : e.part = part0
  block : e.block = 0
  filemarks : e.filemarks = 0
  none : ∀ p k, k ≠ (rs p).length → d.file p k = (fun _ => none) → e.file p k = fun _ => none

theorem load_loads {rs : Fin 2 → List Cell} {stop : Fin 2 → Bool} (hready : d.ready = false)
    (h : ∀ p, Begins d p (rs p) (stop p)) (hfits : ∀ p, (rs p).length < missingEod) (hfuel : missingEod ≤ fuel) :
    ∃ e, d.load fuel = some (.ok ⟨[], false, false⟩, e) ∧ Load d e rs stop := by
  have hlt : ∀ p, (rs p).length < fuel := fun p => Nat.lt_of_lt_of_le (hfits p) hfuel
  have hbegin : Begins { d with ready := true } part0 (rs part0) (stop part0) := (h part0).congr rfl
  obtain ⟨e, he, hl, hb⟩ := searchEod_loaded hbegin (hfits part0) (hlt part0)
  have hbegin' : Begins e part1 (rs part1) (stop part1) := hb.begins part1_ne ((h part1).congr rfl)
  obtain ⟨f, hf, hl', hb'⟩ := searchEod_loaded hbegin' (hfits part1) (hlt part1)
  have hboth : ∀ p, Loaded f p (rs p) (stop p) := by
    intro p
    rcases part_cases p with rfl | rfl
    · exact hb'.loaded part1_ne.symm hl
    · exact hl'
  obtain ⟨⟨x, y, wp, hend⟩, hfile⟩ := searched_eq f
  refine ⟨searched f, ?_, ?_⟩
  · unfold Drive.load
    rw [if_neg (by rw [hready]; exact Bool.false_ne_true), he]
    change (e.searchEod fuel part1).bind _ = _
    rw [hf]
    rfl
  · rw [hend] at hfile ⊢
    refine ⟨?_, hb'.ready.trans hb.ready, hb'.maxBlockSize.trans hb.maxBlockSize, rfl, rfl, rfl, ?_⟩
    · intro p
      exact (hboth p).congr (congrFun hfile p) rfl rfl
    · intro p k hk hn
      refine (congrFun (congrFun hfile p) k).trans ?_
      rcases part_cases p with rfl | rfl
      · exact searchEod_none hf hbegin' (hlt part1) (fun hc => part1_ne hc.1.symm)
          (searchEod_none he hbegin (hlt part0) (fun hc => hk hc.2) hn)
      · exact searchEod_none hf hbegin' (hlt part1) (fun hc => hk hc.2)
          (searchEod_none he hbegin (hlt part0) (fun hc => part1_ne hc.1) hn)

theorem reload_stands (fuel : Nat) (h : Stands greatest d t) (hfuel : missingEod ≤ fuel) :
    ∃ e, d.unload.2.load fuel = some (.ok ⟨[], false, false⟩, e) ∧ Stands greatest e (t.moveTo part0 0) ∧
      ∀ p k, (t.cells p).length < k → d.file p k = (fun _ => none) → e.file p k = fun _ => none := by
  have hbegin : ∀ p, Begins d.unload.2 p (t.cells p) true := fun p => (begins_of_stores (h.stores p)).congr rfl
  obtain ⟨e, hload, he⟩ := load_loads rfl hbegin (fun p => (h.stores p).fits) hfuel
  refine ⟨e, hload, ⟨he.ready, he.maxBlockSize.trans h.greatest, ?_, he.part, ?_, ?_⟩,
    fun p k hk => he.none p k (Nat.ne_of_gt hk)⟩
  · intro p
    have hl := he.loaded p
    unfold Loaded at hl
    rw [if_pos (Or.inl rfl)] at hl
    exact hl
  · rw [he.block]
    exact (Nat.zero_min _).symm
  · rw [he.filemarks]
    exact (Lib.Marks.marks_zero _ _).symm

end Ltfs.FileDriveLoad
