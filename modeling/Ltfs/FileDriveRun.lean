import Ltfs.FileDriveLoad

namespace Ltfs.FileDriveRun

open Format FileDrive FileDriveSpec FileDriveStores FileDriveLoad Cassette Lib Lib.Marks

def positionOf (d : Drive) : Position := ⟨d.part, d.block, d.filemarks⟩

/-- The function of the drive for a command. -/
def command (fuel : Nat) (d : Drive) : Command → Option Outcome
  | .write content => some (d.write content)
  | .writefm count => some (d.writefm count)
  | .read count => some (d.read count)
  | .rewind => some d.rewind
  | .locate p b => some (d.locate p b)
  | .space count back => d.spaceFilemarks fuel count back
  | .spaceEod => some d.spaceEod
  | .reload => d.unload.2.load fuel

/-- A sequence of commands, with the answer to each and the position that the drive returns with it. -/
def commands (fuel : Nat) : List Command → Drive → Option (List (Answer × Position) × Drive)
  | [], d => some ([], d)
  | x :: xs, d =>
    (command fuel d x).bind fun r =>
      (commands fuel xs r.2).map fun s => ((r.1.map Reply.bytes, positionOf r.2) :: s.1, s.2)

variable {d : Drive} {t : Reel} {greatest : Nat}

/-- Room for the cells that a sequence of commands may add. -/
def Room (t : Reel) (n : Nat) : Prop :=
  ∀ p, (t.cells p).length + n < missingEod

theorem cells_put (t : Reel) (cs : List Cell) (p : Fin 2) :
    ((t.put cs).cells p).length ≤ (t.cells p).length + cs.length := by
  by_cases hp : p = t.part
  · subst hp
    exact t.length_put cs
  · have hcells : (t.put cs).cells p = t.cells p := Function.update_of_ne hp _ _
    rw [hcells]
    exact Nat.le_add_right _ _

theorem does_cells {x : Command} {a : Answer} {u : Reel} (h : t.Does greatest x a u) (p : Fin 2) :
    (u.cells p).length ≤ (t.cells p).length + x.blocks := by
  cases h with
  | write hne hsize => exact cells_put t _ p
  | writefm count =>
    have hlen := cells_put t (List.replicate count .mark) p
    rw [List.length_replicate] at hlen
    exact hlen
  | _ => exact Nat.le_add_right _ _

/-- Each function of the drive does what the cassette does. -/
theorem command_does (fuel : Nat) (x : Command) (h : Stands greatest d t) (hroom : Room t x.blocks)
    (hfuel : missingEod ≤ fuel) :
    ∃ o u, command fuel d x = some o ∧ t.Does greatest x (o.1.map Reply.bytes) u ∧ Stands greatest o.2 u := by
  have hhere := hroom t.part
  cases x with
  | write content =>
    by_cases hne : content = []
    · subst hne
      refine ⟨_, t, rfl, ?_, ?_⟩
      · unfold Drive.write
        rw [if_neg h.isReady, if_pos rfl]
        exact .writeNothing
      · unfold Drive.write
        rw [if_neg h.isReady, if_pos rfl]
        exact h
    · by_cases hsize : content.length ≤ greatest
      · obtain ⟨hok, hstands⟩ := write_stands h hne hsize hhere
        refine ⟨_, _, rfl, ?_, hstands⟩
        rw [hok]
        exact .write hne hsize
      · have hlarge : d.maxBlockSize < content.length := by
          rw [h.greatest]
          omega
        refine ⟨_, t, rfl, ?_, ?_⟩
        · unfold Drive.write
          rw [if_neg h.isReady, if_neg hne, if_pos hlarge]
          exact .tooLarge (by omega)
        · unfold Drive.write
          rw [if_neg h.isReady, if_neg hne, if_pos hlarge]
          exact h
  | writefm count =>
    obtain ⟨hok, hstands⟩ := writefm_stands count h hhere
    refine ⟨_, _, rfl, ?_, hstands⟩
    rw [hok]
    exact .writefm count
  | read count =>
    obtain ⟨u, hdoes, hstands⟩ := read_stands count h
    exact ⟨_, u, rfl, hdoes, hstands⟩
  | rewind =>
    obtain ⟨hok, hstands⟩ := rewind_stands h
    refine ⟨_, _, rfl, ?_, hstands⟩
    rw [hok]
    exact .rewind
  | locate p b =>
    obtain ⟨u, hdoes, hstands⟩ := locate_stands p b h
    exact ⟨_, u, rfl, hdoes, hstands⟩
  | space count back => exact spaceFilemarks_stands fuel count back h hfuel
  | spaceEod =>
    obtain ⟨hok, hstands⟩ := spaceEod_stands h
    refine ⟨_, _, rfl, ?_, hstands⟩
    rw [hok]
    exact .spaceEod
  | reload =>
    obtain ⟨e, hload, hstands, -⟩ := reload_stands fuel h hfuel
    exact ⟨_, _, hload, .reload, hstands⟩

theorem positionOf_eq (h : Stands greatest d t) : positionOf d = t.position := by
  unfold positionOf Reel.position
  rw [h.part, h.block, h.filemarks]

/-- A run of the drive is a run of the cassette, over any number of sessions that an unload ends: the same answers,
the same positions. -/
theorem commands_run (fuel : Nat) (xs : List Command) (h : Stands greatest d t)
    (hroom : Room t (xs.map Command.blocks).sum) (hfuel : missingEod ≤ fuel) :
    ∃ as e u, commands fuel xs d = some (as, e) ∧ t.Runs greatest xs as u ∧ Stands greatest e u := by
  induction xs generalizing d t with
  | nil => exact ⟨[], d, t, rfl, .nil, h⟩
  | cons x xs ih =>
    rw [List.map_cons, List.sum_cons] at hroom
    have hx : Room t x.blocks := fun p => by
      have := hroom p
      omega
    obtain ⟨o, u, ho, hdoes, hstands⟩ := command_does fuel x h hx hfuel
    have hrest : Room u (xs.map Command.blocks).sum := fun p => by
      have := hroom p
      have := does_cells hdoes p
      omega
    obtain ⟨as, e, v, hrun, hruns, hend⟩ := ih hstands hrest
    refine ⟨(o.1.map Reply.bytes, positionOf o.2) :: as, e, v, ?_, ?_, hend⟩
    · unfold commands
      rw [ho, Option.bind_some, hrun]
      rfl
    · rw [positionOf_eq hstands]
      exact .cons hdoes hruns

/-- An empty directory that has been opened and loaded. -/
theorem blank_stands (warning pWarning : Fin 2 → Nat) :
    ∃ d, (openDir (fun _ => none) warning pWarning).load missingEod = some (.ok ⟨[], false, false⟩, d) ∧
      Stands greatestBlock d ⟨fun _ => [], part0, 0, Nat.le_refl 0⟩ ∧ ∀ p k, 0 < k → d.file p k = fun _ => none := by
  have hnone : ∀ p k, (openDir (fun _ => none) warning pWarning).file p k = fun _ => none := fun _ _ => rfl
  have hbegin : ∀ p, Begins (openDir (fun _ => none) warning pWarning) p [] false := by
    intro p
    refine ⟨fun k hk => absurd hk (Nat.not_lt_zero k), ?_⟩
    rw [hnone]
    funext s
    simp
  have hpos : 0 < missingEod := by decide
  obtain ⟨e, hload, he⟩ := load_loads rfl hbegin (fun _ => hpos) le_rfl
  refine ⟨e, hload, ⟨he.ready, he.maxBlockSize, ?_, he.part, he.block, ?_⟩, ?_⟩
  · intro p
    have hl := he.loaded p
    unfold Loaded at hl
    rw [if_pos (Or.inr rfl)] at hl
    exact hl
  · rw [he.filemarks]
    exact (Lib.Marks.marks_zero _ _).symm
  · intro p k hk
    exact he.none p k (Nat.ne_of_gt hk) (hnone p k)

theorem commands_run_blank :
    ∃ d, (openDir (fun _ => none) (fun _ => 0) (fun _ => 0)).load missingEod = some (.ok ⟨[], false, false⟩, d) ∧
      ∃ as e u, commands missingEod [.write [1], .writefm 2, .reload, .space 1 false] d = some (as, e) ∧
        Reel.Runs greatestBlock ⟨fun _ => [], part0, 0, Nat.le_refl 0⟩
          [.write [1], .writefm 2, .reload, .space 1 false] as u ∧ Stands greatestBlock e u := by
  obtain ⟨d, hload, hd, -⟩ := blank_stands (fun _ => 0) (fun _ => 0)
  have hthree : 0 + 3 < missingEod := by decide
  have hroom : Room ⟨fun _ => [], part0, 0, Nat.le_refl 0⟩
      (([.write [1], .writefm 2, .reload, .space 1 false] : List Command).map Command.blocks).sum := fun _ => hthree
  exact ⟨d, hload, commands_run missingEod _ hd hroom le_rfl⟩

end Ltfs.FileDriveRun
