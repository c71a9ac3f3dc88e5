import Ltfs.FileDriveRun

namespace Ltfs.FileDriveFormat

open Format FileDrive FileDriveSpec FileDriveStores FileDriveLoad FileDriveRun Cassette

/-- A cassette on which nothing is recorded. -/
def blank : Reel := ⟨fun _ => [], part0, 0, Nat.le_refl 0⟩

variable {d e : Drive} {p : Fin 2} {greatest : Nat}

/-- An end of data at block 0 hides whatever the partition holds. -/
theorem writeEod_blank (hpart : d.part = p) (hblock : d.block = 0) : Stores d.writeEod p [] := by
  have hpos : 0 < missingEod := by decide
  subst hpart
  exact writeEod_stores hblock hpos fun k hk => absurd hk (Nat.not_lt_zero k)

theorem erase_ready (hready : d.ready = true) : d.erase = (.ok ⟨[], false, false⟩, d.writeEod) := by
  unfold Drive.erase
  rw [hready]
  rfl

/-- The second partition, ready to be erased. -/
def second (partitions : Nat) (d : Drive) : Drive := { d with partitions := partitions, part := part1, block := 0 }

/-- The first partition, ready to be erased. -/
def first (d : Drive) : Drive := { d with part := part0, block := 0 }

theorem second_keeps (partitions : Nat) (d : Drive) :
    (second partitions d).writeEod.ready = d.ready ∧
      (second partitions d).writeEod.maxBlockSize = d.maxBlockSize ∧
      (second partitions d).writeEod.filemarks = d.filemarks := by
  obtain ⟨x, y, heq⟩ := writeEod_eq (second partitions d)
  rw [heq]
  exact ⟨rfl, rfl, rfl⟩

theorem format_eq (partitions : Nat) (hready : d.ready = true) (hpart : d.part = part0) (hblock : d.block = 0) :
    d.format partitions = (.ok ⟨[], false, false⟩, (first (second partitions d).writeEod).writeEod) := by
  obtain ⟨hkept, -, -⟩ := second_keeps partitions d
  have hstart : ¬ (d.part ≠ part0 ∨ d.block ≠ 0) := by
    rw [not_or, not_not, not_not]
    exact ⟨hpart, hblock⟩
  have hsecond : (second partitions d).erase = (.ok ⟨[], false, false⟩, (second partitions d).writeEod) :=
    erase_ready hready
  have hfirst : (first (second partitions d).writeEod).ready = true := hkept.trans hready
  unfold Drive.format
  rw [if_neg hstart]
  change (_, (first (second partitions d).erase.2).erase.2) = _
  rw [hsecond, erase_ready hfirst]

/-- A format needs nothing of the cartridge but the head at its start: with or without an end of data, and with any
files, it is blank afterwards. -/
theorem format_stands (partitions : Nat) (hready : d.ready = true) (hpart : d.part = part0) (hblock : d.block = 0)
    (hfilemarks : d.filemarks = 0) (hgreatest : d.maxBlockSize = greatest) :
    (d.format partitions).1 = .ok ⟨[], false, false⟩ ∧ Stands greatest (d.format partitions).2 blank := by
  obtain ⟨hkeptReady, hkeptGreatest, hkeptFilemarks⟩ := second_keeps partitions d
  obtain ⟨z, w, hend⟩ := writeEod_eq (first (second partitions d).writeEod)
  have hone : Stores (first (second partitions d).writeEod) part1 [] :=
    (writeEod_blank (d := second partitions d) rfl rfl).congr rfl rfl rfl
  rw [format_eq partitions hready hpart hblock]
  refine ⟨rfl, ?_, ?_, ?_, ?_, ?_, ?_⟩
  · rw [hend]
    exact hkeptReady.trans hready
  · rw [hend]
    exact hkeptGreatest.trans hgreatest
  · intro p
    rcases part_cases p with rfl | rfl
    · exact writeEod_blank rfl rfl
    · exact writeEod_other part1_ne hone
  · rw [hend]
    rfl
  · rw [hend]
    rfl
  · rw [hend]
    exact (hkeptFilemarks.trans hfilemarks).trans (Lib.Marks.marks_zero _ _).symm

/-- Whatever a cartridge was like before its format, the drive then answers as on a blank cassette, in every run. -/
theorem format_run (partitions fuel : Nat) (xs : List Command) (hready : d.ready = true) (hpart : d.part = part0)
    (hblock : d.block = 0) (hfilemarks : d.filemarks = 0) (hgreatest : d.maxBlockSize = greatest)
    (hroom : (xs.map Command.blocks).sum < missingEod) (hfuel : missingEod ≤ fuel) :
    ∃ as e u, commands fuel xs (d.format partitions).2 = some (as, e) ∧ blank.Runs greatest xs as u ∧
      Stands greatest e u := by
  obtain ⟨-, hstands⟩ := format_stands partitions hready hpart hblock hfilemarks hgreatest
  have hblank : Room blank (xs.map Command.blocks).sum := by
    intro p
    change 0 + _ < missingEod
    omega
  exact commands_run fuel xs hstands hblank hfuel

theorem format_run_blank :
    ∃ d as e u, (openDir (fun _ => none) (fun _ => 0) (fun _ => 0)).load missingEod = some (.ok ⟨[], false, false⟩, d) ∧
      commands missingEod [.write [1], .reload, .read 1] (d.format 2).2 = some (as, e) ∧
      blank.Runs greatestBlock [.write [1], .reload, .read 1] as u ∧ Stands greatestBlock e u := by
  obtain ⟨d, hload, hd, -⟩ := blank_stands (fun _ => 0) (fun _ => 0)
  have hfilemarks : d.filemarks = 0 := hd.filemarks.trans (Lib.Marks.marks_zero _ _)
  have hone : 1 < missingEod := by decide
  obtain ⟨as, e, u, hrun⟩ := format_run 2 missingEod [.write [1], .reload, .read 1] hd.ready hd.part hd.block
    hfilemarks hd.greatest hone le_rfl
  exact ⟨d, as, e, u, hload, hrun⟩

end Ltfs.FileDriveFormat
