import Ltfs.FileDriveRun
import Ltfs.Rollback
import Ltfs.TraverseSpec

namespace Ltfs.FileDriveTape

open Format Records FileDrive FileDriveStores FileDriveLoad FileDriveRun Cassette Lib Lib.Marks TapeDevice Revalidate

/-- How the cartridge of the other modules lies on the cassette: the number of a partition, which is
`ltfs_part_id2num`, and the bytes of a block. -/
structure Coding where
  num : Part → Fin 2
  num_ne : num .ip ≠ num .dp
  bytes : Record → Bytes
  bytes_ne : ∀ r, bytes r ≠ []

/-- What the functions of `tape.c` have the drive do. -/
inductive Operation where
  | record (r : Record)
  | recordFilemarks (n : Nat)
  | locate (p : Part) (target : Target)
  | spacefmBack
  | spacefmForward
  deriving DecidableEq, Repr

/-- `TAPE_BLOCK_MAX` -/
def tapeBlockMax : Nat := 2 ^ 64 - 1

namespace Operation

/-- The operation on the cartridge of the other modules. -/
def onTape (t : Tape) : Operation → Result × Tape
  | record r => (.ok (), t.record r)
  | recordFilemarks n => (.ok (), t.recordFilemarks n)
  | locate p target => (.ok (), t.locate p target)
  | spacefmBack => Revalidate.spacefmBack t (.good false false)
  | spacefmForward => Revalidate.spacefmForward t (.good false false)

/-- The operation as a command to the drive. -/
def command (c : Coding) : Operation → Command
  | record .filemark => .writefm 1
  | record r => .write (c.bytes r)
  | recordFilemarks n => .writefm n
  | locate p (.block b) => .locate (c.num p) b
  | locate p .eod => .locate (c.num p) tapeBlockMax
  | spacefmBack => .space 1 true
  | spacefmForward => .space 1 false

/-- Operations one after the other, with the results. -/
def run : List Operation → Tape → List Result × Tape
  | [], t => ([], t)
  | x :: xs, t => ((x.onTape t).1 :: (run xs (x.onTape t).2).1, (run xs (x.onTape t).2).2)

end Operation

/-- What stands on the cassette for a record. -/
def Coding.cell (c : Coding) : Record → Cell
  | .filemark => .mark
  | r => .data (c.bytes r)

/-- The cassette holds the records of the cartridge, and the head stands at the same block. -/
structure Pictures (c : Coding) (t : Tape) (u : Reel) : Prop where
  cells : ∀ p, u.cells (c.num p) = (t.recs p).map c.cell
  part : u.part = c.num t.dev.part
  block : u.block = t.dev.block

/-- The answer of a drive and the result of `tape.c` say the same. -/
def Says : Cassette.Answer → Result → Prop
  | .ok _, .ok _ => True
  | .error .eodDetected, .error .eodDetected => True
  | .error .bopDetected, .error .bopDetected => True
  | _, _ => False

variable {c : Coding} {t : Tape} {u v : Reel} {p q : Part} {b k greatest : Nat} {r : Record} {rs : List Record}

theorem cell_isMark (c : Coding) (r : Record) : (c.cell r).isMark = true ↔ r = .filemark := by
  cases r <;> simp [Coding.cell, Cell.isMark]

theorem markAt_cell : MarkAt Cell.isMark (rs.map c.cell) b ↔ rs[b]? = some .filemark := by
  rw [markAt_map]
  unfold MarkAt
  constructor
  · rintro ⟨r, hr, hm⟩
    rw [hr, (cell_isMark c r).1 hm]
  · intro h
    exact ⟨.filemark, h, (cell_isMark c _).2 rfl⟩

theorem num_inj (h : c.num p = c.num q) : p = q := by
  cases p <;> cases q
  · rfl
  · exact absurd h c.num_ne
  · exact absurd h.symm c.num_ne
  · rfl

/-- The last filemark before a block is the first one in front of it. -/
theorem previousFilemark_inFront (h : InFront Cell.isMark (rs.map c.cell) b 1 k) : previousFilemark rs b = some k := by
  rw [SeekSpec.previousFilemark_eq_some]
  refine ⟨h.1, markAt_cell.1 h.2.1, ?_⟩
  intro i hi hb hm
  exact h.between hi hb (markAt_cell.2 hm)

theorem previousFilemark_none (h : marks Cell.isMark (rs.map c.cell) b < 1) : previousFilemark rs b = none := by
  cases hp : previousFilemark rs b with
  | none => rfl
  | some f =>
    obtain ⟨hf, hm, -⟩ := SeekSpec.previousFilemark_eq_some.1 hp
    exact absurd (markAt_cell.2 hm) (not_markAt_of_marks (Nat.lt_one_iff.1 h) hf)

theorem nextFilemark_behind (h : Behind Cell.isMark (rs.map c.cell) b 1 (k + 1)) : nextFilemark rs b = some k := by
  have hmark : b ≤ k ∧ MarkAt Cell.isMark (rs.map c.cell) k := by
    obtain ⟨j, hj, hle, hm, -⟩ := h
    obtain rfl : k = j := Nat.succ.inj hj
    exact ⟨hle, hm⟩
  apply TraverseSpec.nextFilemark_eq hmark.1 (markAt_cell.1 hmark.2)
  intro i hi hk hm
  exact h.between hi hk (markAt_cell.2 hm)

theorem nextFilemark_none (h : (rs.map c.cell).countP Cell.isMark < marks Cell.isMark (rs.map c.cell) b + 1) :
    nextFilemark rs b = none := by
  cases hnext : nextFilemark rs b with
  | none => rfl
  | some f =>
    obtain ⟨hle, hm, -⟩ := Rollback.nextFilemark_spec hnext
    exact absurd (markAt_cell.2 hm) (not_markAt_of_countP h hle)

theorem does_locate {n : Nat} {a : Cassette.Answer} (hn : n < 2) (h : u.Does greatest (.locate n b) a v) :
    a = .ok [] ∧ v = u.moveTo ⟨n, hn⟩ b := by
  generalize hx : Command.locate n b = x at h
  cases h with
  | locate p b' =>
    injection hx with hp hb
    subst hb
    obtain rfl : p = ⟨n, hn⟩ := Fin.ext hp.symm
    exact ⟨rfl, rfl⟩
  | noPartition b' hp =>
    injection hx with hp' hb
    omega
  | _ => cases hx

theorem map_overwrite {α β : Type} (f : α → β) (rs ws : List α) (b : Nat) :
    (Log.overwrite rs b ws).map f = Log.overwrite (rs.map f) b (ws.map f) := by
  unfold Log.overwrite
  rw [List.map_append, List.map_take]

theorem here_pictures (h : Pictures c t u) : u.here = (t.recs t.dev.part).map c.cell := by
  unfold Reel.here
  rw [h.part]
  exact h.cells t.dev.part

theorem record_pictures (h : Pictures c t u) (r : Record) : Pictures c (t.record r) (u.put [c.cell r]) := by
  refine ⟨?_, h.part, congrArg (· + 1) h.block⟩
  intro p
  change Function.update u.cells u.part (Log.overwrite u.here u.block [c.cell r]) (c.num p) =
    ((t.medium.recs.set t.dev.part (Log.overwrite (t.recs t.dev.part) t.dev.block [r])).get p).map c.cell
  by_cases hp : p = t.dev.part
  · subst hp
    rw [h.part, Function.update_self, Sides.get_set_self, map_overwrite, here_pictures h, h.block]
    rfl
  · have hnum : c.num p ≠ u.part := by
      rw [h.part]
      intro hn
      exact hp (num_inj hn)
    rw [Function.update_of_ne hnum, Sides.get_set_ne _ hp]
    exact h.cells p

theorem recordFilemarks_pictures (h : Pictures c t u) (n : Nat) :
    Pictures c (t.recordFilemarks n) (u.put (List.replicate n .mark)) := by
  induction n with
  | zero =>
    rw [List.replicate_zero, Reel.put_nil]
    exact h
  | succ n ih =>
    rw [List.replicate_succ', ← Reel.put_put]
    exact record_pictures ih .filemark

theorem moveTo_pictures (h : Pictures c t u) (hb : b ≤ (t.recs t.dev.part).length) :
    Pictures c (moveTo t b) (u.moveTo u.part b) := by
  refine ⟨h.cells, h.part, ?_⟩
  have hlen : (u.cells u.part).length = (t.recs t.dev.part).length := by
    rw [h.part, h.cells, List.length_map]
  change min b (u.cells u.part).length = b
  rw [hlen]
  exact Nat.min_eq_left hb

/-- What the caller sees to: a block fits the drive, and the head is not moved back from the start of the partition,
where the drive looks at block 0 itself. -/
def Sound (c : Coding) (greatest : Nat) (t : Tape) : Operation → Prop
  | .record r => (c.bytes r).length ≤ greatest
  | .spacefmBack => t.dev.block = 0 → (t.recs t.dev.part)[0]? ≠ some .filemark
  | _ => True

theorem spacefmBack_step {a : Cassette.Answer} (h : Pictures c t u)
    (hback : t.dev.block = 0 → (t.recs t.dev.part)[0]? ≠ some .filemark) (hd : u.Does greatest (.space 1 true) a v) :
    Says a (Revalidate.spacefmBack t (.good false false)).1 ∧
      Pictures c (Revalidate.spacefmBack t (.good false false)).2 v := by
  have hhere := here_pictures h
  -- block 0 has no filemark when the head is there, so it does not matter that the drive looks at it
  have hfront : ∀ k, InFront Cell.isMark u.here (max 1 u.block) 1 k → InFront Cell.isMark u.here u.block 1 k := by
    intro k hk
    by_cases h0 : u.block = 0
    · have hk0 : k = 0 := by
        have := hk.1
        omega
      subst hk0
      have hm := hk.2.1
      rw [hhere, markAt_cell] at hm
      exact absurd hm (hback (h.block.symm.trans h0))
    · have hmax : max 1 u.block = u.block := by omega
      rw [hmax] at hk
      exact hk
  unfold Revalidate.spacefmBack
  generalize hx : Command.space 1 true = x at hd
  cases hd with
  | spaceBack hn hk =>
    injection hx with hone _
    subst hone
    have hprev : previousFilemark (t.recs t.dev.part) u.block = some _ := previousFilemark_inFront (c := c) (by
      rw [← hhere]
      exact hfront _ hk)
    have hlt := markAt_lt hk.2.1
    rw [hhere, List.length_map] at hlt
    rw [← h.block, hprev]
    exact ⟨trivial, moveTo_pictures h (Nat.le_of_lt hlt)⟩
  | spaceStarts hfew =>
    injection hx with hone _
    subst hone
    have hmono := marks_mono (P := Cell.isMark) (l := u.here) (Nat.le_max_right 1 u.block)
    have hnone : previousFilemark (t.recs t.dev.part) u.block = none := previousFilemark_none (c := c) (by
      rw [← hhere]
      omega)
    rw [← h.block, hnone]
    exact ⟨trivial, moveTo_pictures h (Nat.zero_le _)⟩
  | _ => cases hx

theorem spacefmForward_step {a : Cassette.Answer} (h : Pictures c t u) (hd : u.Does greatest (.space 1 false) a v) :
    Says a (Revalidate.spacefmForward t (.good false false)).1 ∧
      Pictures c (Revalidate.spacefmForward t (.good false false)).2 v := by
  have hhere := here_pictures h
  have hlen : u.here.length = (t.recs t.dev.part).length := by
    rw [hhere, List.length_map]
  unfold Revalidate.spacefmForward
  generalize hx : Command.space 1 false = x at hd
  cases hd with
  | spaceForward hn hk =>
    injection hx with hone _
    subst hone
    obtain ⟨j, rfl, hj, hm, hcount⟩ := hk
    have hlt := markAt_lt hm
    have hnext : nextFilemark (t.recs t.dev.part) u.block = some j := nextFilemark_behind (c := c) (by
      rw [← hhere]
      exact ⟨j, rfl, hj, hm, hcount⟩)
    rw [← h.block, hnext]
    exact ⟨trivial, moveTo_pictures h (by omega)⟩
  | spaceEnds hfew =>
    injection hx with hone _
    subst hone
    have hnone : nextFilemark (t.recs t.dev.part) u.block = none := nextFilemark_none (c := c) (by
      rw [← hhere]
      exact hfew)
    rw [← h.block, hnone, hlen]
    exact ⟨trivial, moveTo_pictures h le_rfl⟩
  | _ => cases hx

theorem locate_pictures (h : Pictures c t u) (p : Part) (target : Target) (hb : b = match target with
      | .block b => b
      | .eod => tapeBlockMax) (hlen : (t.recs p).length ≤ tapeBlockMax) :
    Pictures c (t.locate p target) (u.moveTo (c.num p) b) := by
  refine ⟨h.cells, rfl, ?_⟩
  change min b (u.cells (c.num p)).length = _
  rw [h.cells, List.length_map, hb]
  cases target with
  | block b => rfl
  | eod => exact Nat.min_eq_right hlen

theorem write_step {a : Cassette.Answer} (h : Pictures c t u) (hr : r ≠ .filemark)
    (hsize : (c.bytes r).length ≤ greatest) (hd : u.Does greatest (.write (c.bytes r)) a v) :
    Says a (.ok ()) ∧ Pictures c (t.record r) v := by
  have hcell : c.cell r = .data (c.bytes r) := by
    cases r with
    | filemark => exact absurd rfl hr
    | _ => rfl
  have hrec := record_pictures h r
  rw [hcell] at hrec
  generalize hx : Command.write (c.bytes r) = x at hd
  cases hd with
  | writeNothing =>
    injection hx with hnil
    exact absurd hnil (c.bytes_ne r)
  | tooLarge hlarge =>
    injection hx with heq
    subst heq
    omega
  | write hne hle =>
    injection hx with heq
    subst heq
    exact ⟨trivial, hrec⟩
  | _ => cases hx

theorem writefm_step {a : Cassette.Answer} (h : Pictures c t u) (n : Nat) (hd : u.Does greatest (.writefm n) a v) :
    Says a (.ok ()) ∧ Pictures c (t.recordFilemarks n) v := by
  cases hd with
  | writefm => exact ⟨trivial, recordFilemarks_pictures h n⟩

/-- The cassette does to the picture what the operation does to the cartridge. -/
theorem operation_step {a : Cassette.Answer} (x : Operation) (h : Pictures c t u) (hs : Sound c greatest t x)
    (hlen : ∀ p, (t.recs p).length ≤ tapeBlockMax) (hd : u.Does greatest (x.command c) a v) :
    Says a (x.onTape t).1 ∧ Pictures c (x.onTape t).2 v := by
  cases x with
  | record r =>
    by_cases hr : r = .filemark
    · subst hr
      exact writefm_step h 1 hd
    · have hcommand : (Operation.record r).command c = .write (c.bytes r) := by
        cases r with
        | filemark => exact absurd rfl hr
        | _ => rfl
      rw [hcommand] at hd
      exact write_step h hr hs hd
  | recordFilemarks n => exact writefm_step h n hd
  | locate p target =>
    cases target with
    | block b =>
      obtain ⟨rfl, rfl⟩ := does_locate (c.num p).isLt hd
      exact ⟨trivial, locate_pictures h p (.block b) rfl (hlen p)⟩
    | eod =>
      obtain ⟨rfl, rfl⟩ := does_locate (c.num p).isLt hd
      exact ⟨trivial, locate_pictures h p .eod rfl (hlen p)⟩
  | spacefmBack => exact spacefmBack_step h hs hd
  | spacefmForward => exact spacefmForward_step h hd

/-- Every operation of a sequence is sound where it comes. -/
def Sounds (c : Coding) (greatest : Nat) : List Operation → Tape → Prop
  | [], _ => True
  | x :: xs, t => Sound c greatest t x ∧ Sounds c greatest xs (x.onTape t).2

/-- How many blocks the operations add to a partition at the most. -/
def blocks (c : Coding) (xs : List Operation) : Nat :=
  ((xs.map (Operation.command c)).map Command.blocks).sum

/-- The drive on the files of a directory is a drive as the other modules take it to be. -/
theorem drive_operations {d : Drive} (fuel : Nat) (xs : List Operation) (hd : Stands greatest d u)
    (h : Pictures c t u) (hs : Sounds c greatest xs t) (hroom : Room u (blocks c xs)) (hfuel : missingEod ≤ fuel) :
    ∃ as e v, commands fuel (xs.map (Operation.command c)) d = some (as, e) ∧ Stands greatest e v ∧
      List.Forall₂ (fun a r => Says a.1 r) as (Operation.run xs t).1 ∧ Pictures c (Operation.run xs t).2 v := by
  induction xs generalizing d t u with
  | nil => exact ⟨[], d, u, rfl, hd, .nil, h⟩
  | cons x xs ih =>
    have hsum : blocks c (x :: xs) = (x.command c).blocks + blocks c xs := rfl
    rw [hsum] at hroom
    have hx : Room u (x.command c).blocks := fun p => by
      have := hroom p
      omega
    have hlen : ∀ p, (t.recs p).length ≤ tapeBlockMax := fun p => by
      have hfits := (hd.stores (c.num p)).fits
      rw [h.cells, List.length_map] at hfits
      exact Nat.le_of_lt hfits
    obtain ⟨o, w, ho, hdoes, hstands⟩ := command_does fuel (x.command c) hd hx hfuel
    have hrest : Room w (blocks c xs) := fun p => by
      have := hroom p
      have := does_cells hdoes p
      omega
    obtain ⟨hanswer, hpic⟩ := operation_step x h hs.1 hlen hdoes
    obtain ⟨as, e, v, hrun, hend, hall, hlast⟩ := ih hstands hpic hs.2 hrest
    refine ⟨(o.1.map Reply.bytes, positionOf o.2) :: as, e, v, ?_, hend, .cons hanswer hall, hlast⟩
    rw [List.map_cons, commands, ho, Option.bind_some, hrun]
    rfl

/-- A coding in which a block of file data is what it holds. -/
def dataCoding : Coding where
  num
    | .ip => part0
    | .dp => part1
  num_ne := part1_ne.symm
  bytes
    | .data (x :: xs) => x :: xs
    | _ => [0]
  bytes_ne r := by
    cases r with
    | data content => cases content <;> exact List.cons_ne_nil _ _
    | _ => exact List.cons_ne_nil _ _

/-- A cartridge without records at the start of its index partition. -/
def blankTape : Tape where
  dev := ⟨.ip, 0, ⟨0, 0⟩, ⟨.writable, .writable⟩, false, false, false, false, greatestBlock⟩
  medium := ⟨⟨[], []⟩, ⟨⟨0, 0, 0, 0⟩, ⟨0, 0, 0, 0⟩⟩, 0⟩

theorem drive_operations_blank :
    ∃ d, (openDir (fun _ => none) (fun _ => 0) (fun _ => 0)).load missingEod = some (.ok ⟨[], false, false⟩, d) ∧
      ∃ as e v, commands missingEod
          ([.record (.data [7]), .recordFilemarks 2, .spacefmBack].map (Operation.command dataCoding)) d =
            some (as, e) ∧ Stands greatestBlock e v ∧
        List.Forall₂ (fun a r => Says a.1 r) as
          (Operation.run [.record (.data [7]), .recordFilemarks 2, .spacefmBack] blankTape).1 ∧
        Pictures dataCoding (Operation.run [.record (.data [7]), .recordFilemarks 2, .spacefmBack] blankTape).2 v := by
  obtain ⟨d, hload, hd, -⟩ := blank_stands (fun _ => 0) (fun _ => 0)
  have hpic : Pictures dataCoding blankTape ⟨fun _ => [], part0, 0, Nat.le_refl 0⟩ := by
    refine ⟨?_, rfl, rfl⟩
    intro p
    cases p <;> rfl
  have hthree : 0 + 3 < missingEod := by decide
  have hone : 1 ≤ greatestBlock := by decide
  refine ⟨d, hload, drive_operations missingEod _ hd hpic ?_ (fun _ => hthree) le_rfl⟩
  refine ⟨hone, trivial, ?_, trivial⟩
  intro h0
  exact absurd h0 (by decide)

end Ltfs.FileDriveTape
