import Ltfs.FileDriveMam

namespace Ltfs.FileDriveStamp

open Format FileDrive FileDriveSpec FileDriveStores FileDriveLoad FileDriveRun FileDriveMam Cassette

/-- The commands that record something on a drive with this greatest block. -/
def records (greatest : Nat) : Command → Bool
  | .write content => content ≠ [] && content.length ≤ greatest
  | .writefm count => count ≠ 0
  | _ => false

variable {d e f : Drive} {x : Command} {o : Outcome} {greatest fuel n m : Nat} {counted : Bool}

/-- The attributes, the write pass and what else decides about them are as they were. -/
structure Quiet (d e : Drive) : Prop where
  attrs : attr e = attr d
  pass : e.writePass = d.writePass
  passPrev : e.writePassPrev = d.writePassPrev
  ready : e.ready = d.ready
  greatest : e.maxBlockSize = d.maxBlockSize

/-- The write pass has been raised, if it has not been before in this session, and nothing else. -/
structure Raised (d e : Drive) : Prop where
  attrs : ∀ i j, attr e i j =
    if makeAttrname i j = vcrName ∧ d.writePassPrev = d.writePass then some (wpData (d.writePass + 1)) else attr d i j
  pass : e.writePass = if d.writePassPrev = d.writePass then d.writePass + 1 else d.writePass
  passPrev : e.writePassPrev = d.writePassPrev
  ready : e.ready = d.ready
  greatest : e.maxBlockSize = d.maxBlockSize

namespace Quiet

theorem refl (d : Drive) : Quiet d d := ⟨rfl, rfl, rfl, rfl, rfl⟩

theorem trans (h : Quiet d e) (g : Quiet e f) : Quiet d f :=
  ⟨g.attrs.trans h.attrs, g.pass.trans h.pass, g.passPrev.trans h.passPrev, g.ready.trans h.ready,
    g.greatest.trans h.greatest⟩

/-- The head may stand elsewhere. -/
theorem head (d : Drive) (p : Fin 2) (b m : Nat) : Quiet d { d with part := p, block := b, filemarks := m } :=
  ⟨rfl, rfl, rfl, rfl, rfl⟩

theorem onlyFiles (h : OnlyFiles d e) (ha : attr e = attr d) : Quiet d e := by
  obtain ⟨y, z, rfl⟩ := h
  exact ⟨ha, rfl, rfl, rfl, rfl⟩

theorem writeEod (d : Drive) : Quiet d d.writeEod := by
  obtain ⟨y, z, heq⟩ := writeEod_eq d
  refine ⟨attr_writeEod d, ?_, ?_, ?_, ?_⟩
  all_goals rw [heq]

theorem removeCurrentRecord (d : Drive) : Quiet d d.removeCurrentRecord :=
  onlyFiles (OnlyFiles.removeRecord d d.part d.block) (attr_removeCurrentRecord d)

theorem dataWritten (d : Drive) (content : Bytes) : Quiet d (dataWritten d content) :=
  (onlyFiles (OnlyFiles.create d (makeFilename d.part d.block 'R') content)
    (attr_create d.part d.block 'R' content d)).trans (head _ _ _ _)

theorem markWritten (d : Drive) : Quiet d (markWritten d) :=
  (onlyFiles (OnlyFiles.create d (makeFilename d.part d.block 'F') [])
    (attr_create d.part d.block 'F' [] d)).trans (head _ _ _ _)

theorem writeMarks (n : Nat) (d : Drive) : Quiet d (Drive.writeMarks n d) := by
  induction n generalizing d with
  | zero => exact refl d
  | succ n ih =>
    exact (((removeCurrentRecord d).trans (markWritten _)).trans (writeEod _)).trans (ih _)

end Quiet

namespace Raised

theorem raiseWritePass (d : Drive) : Raised d d.raiseWritePass := by
  have hattr := attr_raiseWritePass d
  unfold Drive.raiseWritePass at hattr ⊢
  by_cases hpass : d.writePassPrev = d.writePass
  · rw [if_pos hpass] at hattr ⊢
    obtain ⟨y, z, heq⟩ := OnlyFiles.setWp (d.writePass + 1) { d with writePass := d.writePass + 1 }
    refine ⟨hattr, ?_, ?_, ?_, ?_⟩
    · rw [heq, if_pos hpass]
    all_goals rw [heq]
  · rw [if_neg hpass] at hattr ⊢
    refine ⟨hattr, ?_, rfl, rfl, rfl⟩
    rw [if_neg hpass]

theorem after (h : Quiet d e) (g : Raised e f) : Raised d f := by
  refine ⟨?_, ?_, g.passPrev.trans h.passPrev, g.ready.trans h.ready, g.greatest.trans h.greatest⟩
  · intro i j
    rw [g.attrs, h.passPrev, h.pass, h.attrs]
  · rw [g.pass, h.passPrev, h.pass]

theorem quiet (h : Raised d e) (g : Quiet e f) : Raised d f := by
  refine ⟨?_, g.pass.trans h.pass, g.passPrev.trans h.passPrev, g.ready.trans h.ready,
    g.greatest.trans h.greatest⟩
  intro i j
  rw [g.attrs]
  exact h.attrs i j

end Raised

theorem spaceFmForward_quiet (count : Nat) {r : Except Edev Unit × Drive}
    (h : Drive.spaceFmForward fuel count d = some r) : Quiet d r.2 := by
  induction fuel generalizing count d with
  | zero => exact absurd h (by simp [Drive.spaceFmForward])
  | succ fuel ih =>
    unfold Drive.spaceFmForward at h
    split at h
    · obtain rfl := Option.some.inj h
      exact .refl d
    split at h
    · obtain rfl := Option.some.inj h
      exact .refl d
    split at h
    · split at h
      · obtain rfl := Option.some.inj h
        exact .head _ _ _ _
      · exact (Quiet.head d d.part (d.block + 1) d.filemarks).trans (ih _ h)
    · exact (Quiet.head d d.part (d.block + 1) d.filemarks).trans (ih _ h)

theorem spaceFm_quiet {count : Nat} {back : Bool} {r : Except Edev Unit × Drive}
    (h : d.spaceFm fuel count back = some r) : Quiet d r.2 := by
  unfold Drive.spaceFm at h
  split at h
  · obtain rfl := Option.some.inj h
    exact .refl d
  split at h
  · obtain rfl := Option.some.inj h
    exact .head _ _ _ _
  · exact spaceFmForward_quiet count h

theorem write_quiet {content : Bytes} (hr : records d.maxBlockSize (.write content) = false) :
    Quiet d (d.write content).2 := by
  unfold Drive.write
  split
  · exact .refl d
  split
  · exact .refl d
  split
  · exact .refl d
  · rename_i hne hsize
    have hrec : records d.maxBlockSize (.write content) = true := by
      simpa [records, hne] using hsize
    exact absurd (hrec.symm.trans hr) (by decide)

theorem writefm_quiet {count : Nat} (hr : records d.maxBlockSize (.writefm count) = false) :
    Quiet d (d.writefm count).2 := by
  unfold Drive.writefm
  split
  · exact .refl d
  split
  · exact .refl d
  · rename_i hne
    have hrec : records d.maxBlockSize (.writefm count) = true := by simpa [records] using hne
    exact absurd (hrec.symm.trans hr) (by decide)

theorem read_quiet (d : Drive) (count : Nat) : Quiet d (d.read count).2 := by
  unfold Drive.read
  split
  · exact .refl d
  split
  · exact .refl d
  split
  · exact .refl d
  split
  · exact .head _ _ _ _
  split
  · exact .head _ _ _ _
  · exact .refl d

theorem rewind_quiet (d : Drive) : Quiet d d.rewind.2 := by
  unfold Drive.rewind
  split
  · exact .refl d
  · exact .head _ _ _ _

theorem locate_quiet (d : Drive) (p b : Nat) : Quiet d (d.locate p b).2 := by
  unfold Drive.locate
  split
  · exact .refl d
  split
  · exact .head _ _ _ _
  · exact .refl d

theorem spaceFilemarks_quiet {count : Nat} {back : Bool} (h : d.spaceFilemarks fuel count back = some o) :
    Quiet d o.2 := by
  unfold Drive.spaceFilemarks at h
  split at h
  · obtain rfl := Option.some.inj h
    exact .refl d
  split at h
  · obtain rfl := Option.some.inj h
    exact .refl d
  split at h
  · exact absurd h (Option.some_ne_none o).symm
  · rename_i hspace
    obtain rfl := Option.some.inj h
    exact (spaceFm_quiet hspace).trans (.head _ _ _ _)
  · rename_i hspace
    obtain rfl := Option.some.inj h
    exact (spaceFm_quiet hspace).trans (.head _ _ _ _)

theorem spaceEod_quiet (d : Drive) : Quiet d d.spaceEod.2 := by
  unfold Drive.spaceEod
  split
  · exact .refl d
  dsimp only
  split
  · exact .head _ _ _ _
  · exact .head _ _ _ _

/-- A command that neither records nor loads. -/
theorem command_quiet (hx : x ≠ .reload) (hr : records d.maxBlockSize x = false)
    (h : command fuel d x = some o) : Quiet d o.2 := by
  cases x with
  | write content =>
    obtain rfl := Option.some.inj h
    exact write_quiet hr
  | writefm count =>
    obtain rfl := Option.some.inj h
    exact writefm_quiet hr
  | read count =>
    obtain rfl := Option.some.inj h
    exact read_quiet d count
  | rewind =>
    obtain rfl := Option.some.inj h
    exact rewind_quiet d
  | locate p b =>
    obtain rfl := Option.some.inj h
    exact locate_quiet d p b
  | space count back => exact spaceFilemarks_quiet h
  | spaceEod =>
    obtain rfl := Option.some.inj h
    exact spaceEod_quiet d
  | reload => exact absurd rfl hx

/-- A command that records. -/
theorem command_raised (hready : d.ready = true) (hr : records d.maxBlockSize x = true)
    (h : command fuel d x = some o) : Raised d o.2 := by
  have hnot : ¬ (!d.ready) = true := by
    rw [hready]
    exact Bool.false_ne_true
  cases x with
  | write content =>
    obtain rfl := Option.some.inj h
    simp only [records, Bool.and_eq_true, decide_eq_true_eq] at hr
    obtain ⟨hne, hsize⟩ := hr
    unfold Drive.write
    rw [if_neg hnot, if_neg hne, if_neg (by omega)]
    exact ((Raised.raiseWritePass _).after (.removeCurrentRecord d)).quiet
      ((Quiet.dataWritten _ content).trans (.writeEod _))
  | writefm count =>
    obtain rfl := Option.some.inj h
    have hne : count ≠ 0 := by simpa [records] using hr
    unfold Drive.writefm
    rw [if_neg hnot, if_neg hne]
    exact (Raised.raiseWritePass d).quiet (.writeMarks count _)
  | _ => exact absurd hr Bool.false_ne_true

section Load

theorem searchEod_quiet {p : Fin 2} (h : d.searchEod fuel p = some e) : Quiet d e := by
  unfold Drive.searchEod at h
  obtain ⟨y, -, rfl⟩ := Option.map_eq_some_iff.1 h
  dsimp only
  split
  · exact ⟨rfl, rfl, rfl, rfl, rfl⟩
  · exact (Quiet.head d p y.1 d.filemarks).trans (.writeEod _)

theorem load_searched (hready : d.ready = false) (h : d.load fuel = some o) :
    ∃ e, Quiet { d with ready := true } e ∧ o.2 = searched e := by
  unfold Drive.load at h
  rw [if_neg (by rw [hready]; exact Bool.false_ne_true)] at h
  obtain ⟨e, he, h⟩ := Option.bind_eq_some_iff.1 h
  obtain ⟨f, hf, h⟩ := Option.bind_eq_some_iff.1 h
  obtain rfl := Option.some.inj h
  exact ⟨f, (searchEod_quiet he).trans (searchEod_quiet hf), rfl⟩

theorem readAttribute_eq (d : Drive) (p : Fin 2) (id size : Nat) :
    d.readAttribute p id size = (attr d p id).map (·.take size) := rfl

theorem getWp_none (h : attr d part0 Drive.vcrId = none) : d.getWp = (0, d.setWp 1) := by
  have hread : d.readAttribute part0 Drive.vcrId 9 = none := by
    rw [readAttribute_eq, h, Option.map_none]
  unfold Drive.getWp
  rw [hread]

end Load

/-- The attribute of the write pass holds `n`, and the drive goes on from there. -/
structure Passes (greatest : Nat) (d : Drive) (n : Nat) (counted : Bool) : Prop where
  ready : d.ready = true
  greatest : d.maxBlockSize = greatest
  stored : attr d part0 Drive.vcrId = some (wpData n)
  pass : d.writePass % 2 ^ 32 = n % 2 ^ 32
  raised : d.writePassPrev = d.writePass ↔ counted = false

theorem wpData_congr (h : n % 2 ^ 32 = m % 2 ^ 32) : wpData n = wpData m := by
  unfold wpData
  rw [h]

namespace Passes

theorem quiet (h : Passes greatest d n counted) (g : Quiet d e) : Passes greatest e n counted := by
  refine ⟨g.ready.trans h.ready, g.greatest.trans h.greatest, ?_, ?_, ?_⟩
  · rw [g.attrs]
    exact h.stored
  · rw [g.pass]
    exact h.pass
  · rw [g.passPrev, g.pass]
    exact h.raised

/-- The first recording of a session raises the write pass. -/
theorem first (h : Passes greatest d n false) (g : Raised d e) : Passes greatest e (n + 1) true := by
  have hopen : d.writePassPrev = d.writePass := h.raised.2 rfl
  have hpass := h.pass
  refine ⟨g.ready.trans h.ready, g.greatest.trans h.greatest, ?_, ?_, ?_⟩
  · rw [g.attrs, if_pos ⟨rfl, hopen⟩]
    exact congrArg some (wpData_congr (by omega))
  · rw [g.pass, if_pos hopen]
    omega
  · rw [g.passPrev, g.pass, if_pos hopen, hopen]
    constructor
    · intro hc
      omega
    · intro hc
      exact absurd hc (by decide)

theorem later (h : Passes greatest d n true) (g : Raised d e) : Passes greatest e n true := by
  have hnot : ¬ d.writePassPrev = d.writePass := fun hc => absurd (h.raised.1 hc) (by decide)
  refine ⟨g.ready.trans h.ready, g.greatest.trans h.greatest, ?_, ?_, ?_⟩
  · rw [g.attrs, if_neg (fun hc => hnot hc.2)]
    exact h.stored
  · rw [g.pass, if_neg hnot]
    exact h.pass
  · rw [g.passPrev, g.pass, if_neg hnot]
    exact h.raised

end Passes

/-- A session that began without the attribute: the directory has got the value 1, but the drive counts from 0. -/
structure Unmarked (d : Drive) : Prop where
  ready : d.ready = true
  stored : attr d part0 Drive.vcrId = some (wpData 1)
  passPrev : d.writePassPrev = 0
  pass : d.writePass ≤ 1

theorem load_unmarked (hready : d.ready = false) (hnone : attr d part0 Drive.vcrId = none)
    (h : d.load fuel = some o) : Unmarked o.2 := by
  obtain ⟨e, he, ho⟩ := load_searched hready h
  have hattr : attr e = attr d := he.attrs
  have hwp : ({ e with part := part0, block := 0, filemarks := 0, partitions := 2 } : Drive).getWp =
      (0, ({ e with part := part0, block := 0, filemarks := 0, partitions := 2 } : Drive).setWp 1) :=
    getWp_none ((congrFun (congrFun hattr _) _).trans hnone)
  have hstored := attr_setWp 1 { e with part := part0, block := 0, filemarks := 0, partitions := 2 } part0 Drive.vcrId
  have hname : makeAttrname part0 Drive.vcrId = vcrName := rfl
  rw [if_pos hname] at hstored
  obtain ⟨y, z, heq⟩ := OnlyFiles.setWp 1 { e with part := part0, block := 0, filemarks := 0, partitions := 2 }
  rw [heq] at hwp hstored
  rw [ho]
  unfold searched
  dsimp only
  rw [hwp]
  exact ⟨he.ready, hstored, rfl, Nat.zero_le 1⟩

theorem commands_cons {xs : List Command} {as : List (Answer × Position)}
    (h : commands fuel (x :: xs) d = some (as, e)) :
    ∃ o bs, command fuel d x = some o ∧ commands fuel xs o.2 = some (bs, e) := by
  obtain ⟨o, ho, hrest⟩ := Option.bind_eq_some_iff.1 h
  obtain ⟨s, hs, heq⟩ := Option.map_eq_some_iff.1 hrest
  obtain rfl : s.2 = e := congrArg Prod.snd heq
  exact ⟨o, s.1, ho, hs⟩

section Sessions

variable {xs : List Command}

end Sessions

/-- What `tape_get_volume_change_reference` makes of the write pass. -/
def reference (n : Nat) : Nat := if n % 2 ^ 32 = 2 ^ 32 - 1 then 2 ^ 64 - 1 else n % 2 ^ 32

/-- An attribute fills a buffer of its length. -/
theorem readBuffer_stored {p : Fin 2} {id : Nat} {data stack : Bytes} (h : attr d p id = some data)
    (hlen : stack.length = data.length) : readBuffer d p id stack = some data := by
  unfold readBuffer
  rw [readAttribute_eq, h, Option.map_some, Option.map_some, List.take_of_length_le (Nat.le_of_eq hlen.symm),
    List.drop_eq_nil_of_le (Nat.le_of_eq hlen), List.append_nil]

theorem reference_read (h : attr d part0 Drive.vcrId = some (wpData n)) {stack : Bytes} (hlen : stack.length = 9) :
    tapeGetVolumeChangeReference d stack = .ok (reference n) := by
  have hread := readBuffer_stored h (hlen.trans (length_wpData n).symm)
  unfold tapeGetVolumeChangeReference
  rw [hread]
  dsimp only
  rw [← List.append_nil (wpData n), field_wpData]
  rfl

section Coherency

theorem coherencyName_ne (p : Fin 2) : makeAttrname p coherencyId ≠ vcrName := by
  revert p
  decide

theorem setCoherency_eq (d : Drive) (p : Fin 2) (c : TcCoherency) :
    tapeSetCartCoherency d p c = d.create (makeAttrname p coherencyId) (coherencyData c) := by
  apply writeAttribute_one (field_id c)
  rw [field_size, length_coherencyData]
  rfl

/-- The coherency is no part of what the write pass depends on. -/
theorem Passes.setCoherency (h : Passes greatest d n counted) (p : Fin 2) (c : TcCoherency) :
    Passes greatest (tapeSetCartCoherency d p c) n counted := by
  have hne : makeAttrname part0 Drive.vcrId ≠ makeAttrname p coherencyId := (coherencyName_ne p).symm
  have hstored := attr_createAttr p coherencyId (coherencyData c) d part0 Drive.vcrId
  rw [if_neg hne, h.stored] at hstored
  rw [setCoherency_eq]
  obtain ⟨y, z, heq⟩ := OnlyFiles.create d (makeAttrname p coherencyId) (coherencyData c)
  rw [heq] at hstored ⊢
  exact ⟨h.ready, h.greatest, hstored, h.pass, h.raised⟩

end Coherency

def sample : TcCoherency where
  volumeChangeRef := 1
  count := 2
  setId := 3
  uuid := fun _ => 0
  version := 1

theorem Unmarked.quiet (h : Unmarked d) (g : Quiet d e) : Unmarked e := by
  refine ⟨g.ready.trans h.ready, ?_, g.passPrev.trans h.passPrev, ?_⟩
  · rw [g.attrs]
    exact h.stored
  · rw [g.pass]
    exact h.pass

/-- The first recording writes the value that the attribute has, and the later ones write none. -/
theorem Unmarked.raised (h : Unmarked d) (g : Raised d e) : Unmarked e := by
  have hname : makeAttrname part0 Drive.vcrId = vcrName := rfl
  have hprev := h.passPrev
  have hle := h.pass
  refine ⟨g.ready.trans h.ready, ?_, g.passPrev.trans h.passPrev, ?_⟩
  · rw [g.attrs]
    by_cases hpass : d.writePassPrev = d.writePass
    · rw [if_pos ⟨hname, hpass⟩, ← hpass, hprev]
    · rw [if_neg (fun hc => hpass hc.2)]
      exact h.stored
  · rw [g.pass]
    split <;> omega

theorem command_unmarked (hx : x ≠ .reload) (h : Unmarked d) (hx' : command fuel d x = some o) : Unmarked o.2 := by
  cases hr : records d.maxBlockSize x with
  | false => exact h.quiet (command_quiet hx hr hx')
  | true => exact h.raised (command_raised h.ready hr hx')

theorem commands_unmarked (xs : List Command) {as : List (Answer × Position)} (hxs : ∀ x ∈ xs, x ≠ .reload)
    (h : Unmarked d) (hrun : commands fuel xs d = some (as, e)) : Unmarked e := by
  induction xs generalizing d as with
  | nil =>
    obtain rfl : d = e := congrArg Prod.snd (Option.some.inj hrun)
    exact h
  | cons x xs ih =>
    obtain ⟨o, bs, ho, hrest⟩ := commands_cons hrun
    obtain ⟨hx, hxs⟩ := List.forall_mem_cons.1 hxs
    exact ih hxs (command_unmarked hx h ho) hrest

/-- In the first session of a directory without the attribute, the volume change reference tells of nothing: it is 1
after the load, and 1 after whatever has been recorded. -/
theorem first_session_unnoticed (hready : d.ready = false) (hnone : attr d part0 Drive.vcrId = none)
    (hload : d.load fuel = some o) (xs : List Command) (hxs : ∀ x ∈ xs, x ≠ .reload)
    {as : List (Answer × Position)} (hrun : commands fuel xs o.2 = some (as, e)) {stack : Bytes}
    (hlen : stack.length = 9) :
    tapeGetVolumeChangeReference o.2 stack = .ok 1 ∧ tapeGetVolumeChangeReference e stack = .ok 1 := by
  have hstart := load_unmarked hready hnone hload
  have hend := commands_unmarked xs hxs hstart hrun
  exact ⟨reference_read hstart.stored hlen, reference_read hend.stored hlen⟩

theorem first_session_unnoticed_blank :
    ∃ d e as,
      (openDir (fun _ => none) (fun _ => 0) (fun _ => 0)).load missingEod = some (.ok ⟨[], false, false⟩, d) ∧
      commands missingEod [.write [1], .writefm 1] d = some (as, e) ∧
      tapeGetVolumeChangeReference d (List.replicate 9 0) = .ok 1 ∧
      tapeGetVolumeChangeReference e (List.replicate 9 0) = .ok 1 := by
  obtain ⟨d, hload, hd, -⟩ := blank_stands (fun _ => 0) (fun _ => 0)
  have htwo : 0 + 2 < missingEod := by decide
  have hroom : Room ⟨fun _ => [], part0, 0, Nat.le_refl 0⟩
      (([.write [1], .writefm 1] : List Command).map Command.blocks).sum := fun _ => htwo
  obtain ⟨as, e, -, hrun, -⟩ := commands_run missingEod [.write [1], .writefm 1] hd hroom le_rfl
  have hlen : (List.replicate 9 0 : Bytes).length = 9 := List.length_replicate
  exact ⟨d, e, as, hload, hrun, first_session_unnoticed rfl rfl hload [.write [1], .writefm 1] (by decide) hrun hlen⟩

end Ltfs.FileDriveStamp
