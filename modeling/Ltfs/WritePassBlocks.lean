import Ltfs.VolumeRun
import Ltfs.WritePass

namespace Ltfs.WritePassBlocks

open Format Lib.Log Records TapeDevice TapeSpec WriteIndex WriteSession IndexSession IndexBody DataSession VolumeRun
open Revalidate

variable {p : Part} {b : Nat} {v u w : Volume} {ws : List Record} {buf : Bytes} {io : DataIo}

/-- A command that put a block of data at block `b`. -/
structure Puts (p : Part) (b : Nat) (c : Bytes) (e : Event) : Prop where
  command : e.command = .write
  bound : b ≤ (e.before.recs.get p).length
  after : e.after = mediumAfter e.before p b [.data c]

/-- What was put there can be found there. -/
theorem Puts.found {c : Bytes} {e : Event} (h : Puts p b c e) : (e.after.recs.get p)[b]? = some (.data c) := by
  have hlen : ((e.before.recs.get p).take b).length = b := by
    rw [List.length_take]
    exact Nat.min_eq_left h.bound
  rw [h.after, mediumAfter_get_self, record_ne_nil (by simp), overwrite, List.getElem?_append_right (by omega), hlen,
    Nat.sub_self]
  rfl

theorem Session.bounded (h : Session p b v ws u) : b + ws.length ≤ (u.tape.recs p).length := by
  rw [Tape.recs, h.medium, mediumAfter_get_self]
  exact length_record h.bound

/-- A data block that went down -/
theorem Session.puts (h : Session p b v ws u) {c : Bytes} {a : Answer}
    (hx : u.issue .write (·.write (.data c) c.length false true a) = (.ok (), w)) :
    Session p b v (ws ++ [.data c]) w ∧
      ∃ e, w.history = e :: u.history ∧ Puts p (b + ws.length) c e := by
  generalize hf : (fun t : Tape => t.write (.data c) c.length false true a) = f at hx
  have hcases := write_cases u.tape (.data c) c.length false true a
  rw [show u.tape.write (.data c) c.length false true a = f u.tape by rw [← hf]] at hcases
  have hok : (f u.tape).1 = .ok () := congrArg Prod.fst hx
  obtain rfl : (u.issue .write f).2 = w := congrArg Prod.snd hx
  obtain hr | ⟨-, hw, hr⟩ := hcases
  · obtain ⟨e, he⟩ := hr.error
    rw [hok] at he
    cases he
  · refine ⟨h.recorded (fun q hq => by cases hq) hw hr (by simp), _, rfl, rfl, Session.bounded h, ?_⟩
    have hm := hr.medium
    rwa [h.part, h.block] at hm

/-- All blocks of a successful write went down, one behind the other. -/
theorem writeDataBlocks_puts (answer : Nat → Answer) (bs : List Bytes) (k : Nat) (h : Session p b v ws u)
    (hok : (writeDataBlocks answer bs k u).1 = .ok ()) :
    ∃ es, (writeDataBlocks answer bs k u).2.history = es ++ u.history ∧
      ∀ j c, bs[j]? = some c → ∃ e ∈ es, Puts p (b + ws.length + j) c e := by
  induction bs generalizing k ws u with
  | nil => exact ⟨[], rfl, fun j c hj => by simp at hj⟩
  | cons c cs ih =>
    cases hx : u.issue .write (·.write (.data c) c.length false true (answer k)) with
    | mk r w =>
      cases r with
      | error e =>
        rw [writeDataBlocks, hx] at hok
        cases hok
      | ok a =>
        obtain ⟨hw, e, hhist, hputs⟩ := Session.puts h hx
        rw [writeDataBlocks, hx, andThen_ok] at hok ⊢
        obtain ⟨es, hes, hall⟩ := ih (k + 1) hw hok
        refine ⟨es ++ [e], ?_, fun j d hj => ?_⟩
        · rw [hes, hhist, List.append_assoc, List.singleton_append]
        · cases j with
          | zero =>
            obtain rfl : c = d := Option.some.inj hj
            exact ⟨e, by simp, hputs⟩
          | succ j =>
            obtain ⟨e', he', hp'⟩ := hall j d hj
            refine ⟨e', List.mem_append_left _ he', ?_⟩
            rwa [List.length_append, List.length_singleton, ← Nat.add_assoc, Nat.add_assoc _ 1 j, Nat.add_comm 1 j] at hp'

/-- Behind a locate to the append position, a session begins. -/
theorem sought_session (hb : InBounds v.tape) {unlock : Bool} {a allow : Answer}
    (hx : v.issue .locate (·.seekAppendPosition p unlock a allow) = (.ok (), w)) : Session p w.tape.dev.block w [] w := by
  have hsought := seekAppendPosition_spec hb p unlock a allow
  have hok : (v.tape.seekAppendPosition p unlock a allow).1 = .ok () := congrArg Prod.fst hx
  obtain rfl : (v.issue .locate (·.seekAppendPosition p unlock a allow)).2 = w := congrArg Prod.snd hx
  obtain ⟨hpart, hblock, happ⟩ := hsought.found hok
  have hin := hsought.inBounds
  rw [InBounds, hpart] at hin
  refine .start hin hpart rfl ?_
  change (v.tape.seekAppendPosition p unlock a allow).2.dev.appendPos.get p =
    (v.tape.seekAppendPosition p unlock a allow).2.dev.block
  rw [happ, hblock, Sides.get_set_self]

/-- What the volume has become later on: the label is the same, and the history goes on. -/
structure Onward (v w : Volume) : Prop where
  sane : Sane w
  label : w.label = v.label
  history : v.history <:+ w.history

theorem Onward.refl (h : Sane v) : Onward v v := ⟨h, rfl, List.suffix_refl _⟩

theorem Onward.trans (h : Onward v u) (h' : Onward u w) : Onward v w :=
  ⟨h'.sane, h'.label.trans h.label, h.history.trans h'.history⟩

theorem Onward.fenced (h : Onward v u) (hf : Fenced u w) : Onward v w := by
  refine ⟨Fenced.sane hf h.sane, ?_, ?_⟩
  · rw [hf]
    exact h.label
  · rw [hf]
    exact h.history

theorem writeIndexBody_onward (io : IndexIo) (p : Part) (hs : Sane v) : Onward v (writeIndexBody p io v).2 := by
  refine ⟨writeIndexBody_sane io p hs, ?_, ?_⟩
  · obtain ⟨e, u, hx, hu, -⟩ | ⟨e, u, ws, hx, hu, -⟩ | ⟨u, ws, hx, hu, -⟩ :=
      writeIndexBody_cases io p hs.inBounds hs.fits
    · rw [hx, hu.same]
    · rw [hx, hu.same]
    · rw [hx]
      exact (finishIndex_finished p io u).label.trans (by rw [hu.same])
  · obtain ⟨e, u, hx, hu, -⟩ | ⟨e, u, ws, hx, hu, -⟩ | ⟨u, ws, hx, hu, -⟩ :=
      writeIndexBody_cases io p hs.inBounds hs.fits
    · obtain ⟨es, hes, -⟩ := hu.events
      rw [hx]
      exact ⟨es, hes.symm⟩
    · obtain ⟨es, hes, -⟩ := hu.events
      rw [hx]
      exact ⟨es, hes.symm⟩
    · obtain ⟨es, hes, -⟩ := hu.events
      obtain ⟨fs, hfs, -⟩ := (finishIndex_finished p io u).events
      rw [hx]
      refine ⟨fs ++ es, ?_⟩
      rw [List.append_assoc, ← hes]
      exact hfs.symm

theorem ltfsWriteIndexConditional_onward (p : Part) (io nested : IndexIo) (hs : Sane v) :
    Onward v (ltfsWriteIndexConditional p io nested v).2 := by
  obtain hx | ⟨hx, -⟩ := ltfsWriteIndexConditional_cases v p io nested
  · rw [hx]
    exact .refl hs
  · rw [hx]
    have hbody : ∀ u p io, Onward v u → True → Onward v (writeIndexBody p io u).2 :=
      fun u p io hu _ => hu.trans (writeIndexBody_onward io p hu.sane)
    refine ltfsWriteIndex_lift hbody (fun u r hu => ⟨⟨hu.sane.inBounds, hu.sane.fits⟩, hu.label, hu.history⟩)
      (.refl hs) (fun _ => ?_)
    split
    · exact ⟨trivial, trivial⟩
    · trivial

theorem setFlag_onward (h : Sane v) (f : Sides Bool) : Onward v { v with indexFileEnd := f } :=
  ⟨⟨h.inBounds, h.fits⟩, rfl, List.suffix_refl _⟩

theorem writeDataAtAppend_onward (hs : Sane v) : Onward v (writeDataAtAppend p buf 1 io v).2.2 := by
  obtain ⟨u, -, hu, hf, -⟩ | ⟨u, ds, -, hu, -, hf, -⟩ := writeDataAtAppend_cases p buf 1 io hs.inBounds
  · obtain ⟨es, hes, -⟩ := hu.events
    exact Onward.fenced ⟨Idle.sane hu hs, by rw [hu.same], es, hes.symm⟩ hf
  · obtain ⟨es, hes, -⟩ := hu.events
    exact Onward.fenced ⟨Wrote.sane hu hs, by rw [hu.same], es, hes.symm⟩ hf

theorem ltfsFsrawWriteDataUnlocked_onward (p : Part) (buf : Bytes) (io : DataIo) (hs : Sane v) :
    Onward v (ltfsFsrawWriteDataUnlocked p buf 1 io v).2.2 := by
  have hcond := ltfsWriteIndexConditional_onward p.other io.index io.nested hs
  obtain ⟨hf, -⟩ | ⟨e, w, hx, -, hf⟩ | ⟨w, hx, hf⟩ := ltfsFsrawWriteDataUnlocked_cases p buf 1 io v
  · exact Onward.fenced (.refl hs) hf
  · rw [hx] at hcond
    exact hcond.fenced hf
  · rw [hx] at hcond
    rw [hf]
    have hflag := setFlag_onward hcond.sane (w.indexFileEnd.set p false)
    exact (hcond.trans hflag).trans (writeDataAtAppend_onward hflag.sane)

/-- The blocks of the buffer are where a successful write says they are. -/
structure Landed (p : Part) (buf : Bytes) (block : Nat) (v w : Volume) : Prop where
  puts : ∃ es, w.history = es ++ v.history ∧
    ∀ j c, (bufferBlocks v.label.blocksize buf)[j]? = some c → ∃ e ∈ es, Puts p (block + j) c e
  room : block + (bufferBlocks v.label.blocksize buf).length ≤ (w.tape.recs p).length

theorem Landed.since (h : Landed p buf b u w) (ho : Onward v u) : Landed p buf b v w := by
  obtain ⟨es, hes, hall⟩ := h.puts
  obtain ⟨fs, hfs⟩ := ho.history
  refine ⟨⟨es ++ fs, ?_, fun j c hj => ?_⟩, ?_⟩
  · rw [hes, List.append_assoc, hfs]
  · obtain ⟨e, he, hp⟩ := hall j c (by rwa [ho.label])
    exact ⟨e, List.mem_append_left _ he, hp⟩
  · rw [← ho.label]
    exact h.room

theorem writeDataAtAppend_landed (hs : Sane v) (hok : (writeDataAtAppend p buf 1 io v).1 = .ok ()) :
    Landed p buf (writeDataAtAppend p buf 1 io v).2.1 v (writeDataAtAppend p buf 1 io v).2.2 := by
  rw [writeDataAtAppend] at hok ⊢
  cases hx : v.issue .locate (·.seekAppendPosition p (p = .ip) io.locate io.allowOverwrite) with
  | mk r w =>
    rw [hx] at hok
    cases r with
    | error e => cases outUnlock_ok hok
    | ok a =>
      have hstart := sought_session hs.inBounds hx
      obtain rfl : (v.issue .locate (·.seekAppendPosition p (p = .ip) io.locate io.allowOverwrite)).2 = w :=
        congrArg Prod.snd hx
      generalize hw : (v.issue .locate (·.seekAppendPosition p (p = .ip) io.locate io.allowOverwrite)).2 = w at *
      have hlabel : w.label = v.label := by rw [← hw]; rfl
      have hhist : ∃ e, w.history = e :: v.history := ⟨_, by rw [← hw]; rfl⟩
      simp only [List.replicate_one, List.flatten_singleton] at hok ⊢
      generalize hy : writeDataBlocks io.block (bufferBlocks w.label.blocksize buf) 0 w = y at hok ⊢
      obtain ⟨r, x⟩ := y
      obtain rfl : r = .ok () := outUnlock_ok hok
      have hfst : (writeDataBlocks io.block (bufferBlocks w.label.blocksize buf) 0 w).1 = .ok () := congrArg Prod.fst hy
      obtain ⟨es, hes, hall⟩ := writeDataBlocks_puts io.block _ 0 hstart hfst
      obtain ⟨ds, -, hsess, hds⟩ := writeDataBlocks_session io.block (bufferBlocks w.label.blocksize buf) 0 hstart
      obtain ⟨e, he⟩ := hhist
      have hlen := Session.bounded hsess
      rw [hds hfst, hy] at hlen
      rw [hy, he] at hes
      refine ⟨⟨es ++ [e], by simpa [outUnlock] using hes, fun j c hj => ?_⟩, ?_⟩
      · obtain ⟨e', he', hp⟩ := hall j c (by rw [hlabel]; exact hj)
        exact ⟨e', List.mem_append_left _ he', hp⟩
      · simpa [hlabel, outUnlock] using hlen

/-- A write with a buffer that is not empty -/
theorem ltfsFsrawWriteDataUnlocked_landed (hs : Sane v) (hbuf : buf ≠ [])
    (hok : (ltfsFsrawWriteDataUnlocked p buf 1 io v).1 = .ok ()) :
    Landed p buf (ltfsFsrawWriteDataUnlocked p buf 1 io v).2.1 v (ltfsFsrawWriteDataUnlocked p buf 1 io v).2.2 := by
  have hcond := ltfsWriteIndexConditional_onward p.other io.index io.nested hs
  obtain ⟨-, hempty⟩ | ⟨e, w, -, herr, -⟩ | ⟨w, hx, hf⟩ := ltfsFsrawWriteDataUnlocked_cases p buf 1 io v
  · obtain h | h := hempty hok
    · exact absurd h hbuf
    · cases h
  · exact absurd hok herr
  · rw [hx] at hcond
    have hflag := setFlag_onward hcond.sane (w.indexFileEnd.set p false)
    rw [hf] at hok ⊢
    exact (writeDataAtAppend_landed hflag.sane hok).since (hcond.trans hflag)

end Ltfs.WritePassBlocks
