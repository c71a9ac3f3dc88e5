import Ltfs.RevalidateSane
import Ltfs.WritePassBlocks

namespace Ltfs.WritePassSpec

open Format Lib.Run Records TapeDevice TapeSpec WriteIndex RawSpec ExtentOrder RealSize ExtentAlloc DataSession
open Revalidate RevalidateSane WritePass WritePassBlocks

variable {ι : Type} {s s₀ : State ι} {c : Call ι} {a : Attempt} {v : Volume} {bs : Nat} {l : Label}
  {ext : ExtentInfo} {d : File} {mem : Mem} {r : Saved ι}

/-- The extent covers the blocks that its call wrote, and nothing else. -/
structure Exact (l : Label) (r : Saved ι) : Prop where
  partition : r.ext.start.partition = l.id r.part
  byteoffset : r.ext.byteoffset = 0
  bytecount : r.ext.bytecount = r.buf.length
  positive : 0 < r.ext.bytecount
  written : ∀ j b, (bufferBlocks l.blocksize r.buf)[j]? = some b →
    ∃ e ∈ r.sent, Puts r.part (r.ext.start.block + j) b e

/-- An extent saved to the file, or one that it had at the start, has byte `x` at `q`. -/
def Source (s₀ : State ι) (saved : List (Saved ι)) (i : ι) (x : Nat) (q : Char × Nat × Nat) : Prop :=
  (∃ r ∈ saved, r.file = i ∧ place s₀.vol.label.blocksize r.ext x = some q) ∨
    ∃ f ∈ (s₀.files i).extentlist, place s₀.vol.label.blocksize f x = some q

/-- What was recorded since `s₀` -/
structure Right (s₀ s : State ι) : Prop where
  exact : ∀ r ∈ s.saved, Exact s₀.vol.label r
  positive : ∀ i, ∀ e ∈ (s.files i).extentlist, 0 < e.bytecount
  traced : ∀ i, ∀ e ∈ (s.files i).extentlist, ∀ x q, place s₀.vol.label.blocksize e x = some q →
    Source s₀ s.saved i x q

/-- A mounted volume with files whose lists are in order -/
structure Start (s₀ : State ι) : Prop where
  sane : Sane s₀.vol
  blocksize : s₀.vol.label.blocksize < 2 ^ 32
  files : ∀ i, Consistent s₀.vol.label (s₀.files i)
  saved : s₀.saved = []

/-- The call has something to write. Its blocks have numbers of type `tape_block_t`. -/
def Writes [DecidableEq ι] (s : State ι) (x : Call ι × Attempt) : Prop :=
  x.1.buf ≠ [] ∧ ∀ p, ((step s x).vol.tape.recs p).length < 2 ^ 64

/-- What is true of every place of the entries and of the new extent stays true of every place. -/
theorem stable_places {R : Nat → Char × Nat × Nat → Prop} (hb : 0 < bs)
    (hnew : ∀ x q, place bs ext x = some q → R x q) :
    Stable bs ext fun e => ∀ x q, place bs e x = some q → R x q where
  front e diff he hd x q hq := by
    rw [place_truncateFront hb (Nat.le_of_lt hd)] at hq
    split_ifs at hq
    exact he x q hq
  back e cut he hs hc x q hq := by
    rw [place_truncateEnd (Nat.le_of_lt hc)] at hq
    split_ifs at hq
    exact he x q hq
  grow e he hadj x q hq := by
    rw [place_grow hb hadj, Option.or_eq_some_iff] at hq
    obtain hq | ⟨-, hq⟩ := hq
    · exact he x q hq
    · exact hnew x q hq
  new := hnew

theorem blocks_le (hb : 0 < bs) (buf : Bytes) : buf.length / bs ≤ (bufferBlocks bs buf).length := by
  rw [bufferBlocks, List.length_map, List.length_range]
  exact Nat.div_le_div_right (by omega)

/-- The extent that a successful pass saves -/
theorem tmpext_proper {block : Nat} (hbuf : c.buf ≠ []) (hb : block + (bufferBlocks l.blocksize c.buf).length < 2 ^ 64) :
    Proper l.blocksize (tmpext l c block) := by
  refine ⟨List.length_pos_of_ne_nil hbuf, l.blocksize_pos, c.inRange, ?_⟩
  have hle := blocks_le l.blocksize_pos c.buf
  change block + (0 + c.buf.length) / l.blocksize < 2 ^ 64
  rw [Nat.zero_add]
  omega

/-- The addition of an extent to a consistent file: all or nothing. -/
theorem addExtent_cases (hl : l.blocksize < 2 ^ 32) (h : Consistent l d) :
    ltfsFsrawAddExtentUnlocked l mem ext d = (0, RealSize.ltfsFsrawAddExtent l ext d) ∨
      (ltfsFsrawAddExtentUnlocked l mem ext d).1 ≠ 0 ∧ (ltfsFsrawAddExtentUnlocked l mem ext d).2 = d := by
  by_cases hret : (ltfsFsrawAddExtentUnlocked l mem ext d).1 = 0
  · exact .inl (Prod.ext hret (unlocked_ok hret))
  · refine .inr ⟨hret, atomic_of_steady (steady_of_inOrder (h.inOrder hl) fun e he => ?_) hret⟩
    exact Nat.lt_trans (h.proper e he).file (by decide)

/-- What every pass keeps -/
structure Invariant (s₀ s : State ι) : Prop where
  sane : Sane s.vol
  label : s.vol.label = s₀.vol.label
  files : ∀ i, Consistent s₀.vol.label (s.files i)
  right : Right s₀ s

theorem Invariant.start (h : Start s₀) : Invariant s₀ s₀ where
  sane := h.sane
  label := rfl
  files := h.files
  right := by
    refine ⟨fun r hr => ?_, fun i e he => ((h.files i).proper e he).positive, fun i e he x q hq => .inr ⟨e, he, hq⟩⟩
    rw [h.saved] at hr
    cases hr

theorem Invariant.onward (h : Invariant s₀ s) (hv : Onward s.vol v) : Invariant s₀ { s with vol := v } :=
  ⟨hv.sane, hv.label.trans h.label, h.files, h.right.exact, h.right.positive, h.right.traced⟩

theorem Invariant.revalidate (h : Invariant s₀ { s with vol := v }) (io : RevalIo) :
    Invariant s₀ { s with vol := (ltfsRevalidate io v).2 } :=
  ⟨ltfsRevalidate_sane io h.sane, h.label, h.files, h.right.exact, h.right.positive, h.right.traced⟩

theorem Source.more {saved : List (Saved ι)} {i : ι} {x : Nat} {q : Char × Nat × Nat} (h : Source s₀ saved i x q) :
    Source s₀ (r :: saved) i x q := by
  obtain ⟨r', hr, hr'⟩ | hf := h
  · exact .inl ⟨r', List.mem_cons_of_mem r hr, hr'⟩
  · exact .inr hf

variable [DecidableEq ι]

/-- The extent of a call whose blocks have landed is saved. -/
theorem saveExtent_invariant {block : Nat} {sent : List Event} (hstart : Start s₀) (h : Invariant s₀ s)
    (hproper : Proper s.vol.label.blocksize (tmpext s.vol.label c block))
    (hexact : Exact s.vol.label ⟨c.file, c.part, c.buf, tmpext s.vol.label c block, sent⟩) :
    Invariant s₀ (saveExtent c mem block sent s).2 := by
  rw [saveExtent, h.label]
  rw [h.label] at hproper hexact
  generalize tmpext s₀.vol.label c block = ext at *
  have hfile := h.files c.file
  obtain hret | ⟨hret, hd⟩ := @addExtent_cases s₀.vol.label ext (s.files c.file) mem hstart.blocksize hfile
  · rw [hret]
    dsimp only
    rw [if_pos rfl]
    generalize hr : (⟨c.file, c.part, c.buf, ext, sent⟩ : Saved ι) = r at hexact ⊢
    have hcons := consistent_addExtent hstart.blocksize hfile hproper
    have hlist : (RealSize.ltfsFsrawAddExtent s₀.vol.label ext (s.files c.file)).extentlist =
        RawFile.addExtentWalk s₀.vol.label.blocksize ext (s.files c.file).extentlist.reverse [] :=
      congrArg Prod.fst (hfile.addExtentLoop hstart.blocksize hproper)
    generalize RealSize.ltfsFsrawAddExtent s₀.vol.label ext (s.files c.file) = d at hcons hlist ⊢
    have hfiles : ∀ i, Consistent s₀.vol.label (if i = c.file then d else s.files i) := by
      intro i
      split_ifs
      · exact hcons
      · exact h.files i
    refine ⟨h.sane, h.label, hfiles, ?_, fun i e he => ((hfiles i).proper e he).positive, fun i e he => ?_⟩
    · exact List.forall_mem_cons.2 ⟨hexact, h.right.exact⟩
    · dsimp only at he
      split_ifs at he with hi
      · -- the walk only cuts and joins what was in the list before
        have hstable := @stable_places s₀.vol.label.blocksize ext
          (Source s₀ (r :: s.saved) i) s₀.vol.label.blocksize_pos 
          fun x q hq => .inl ⟨r, List.mem_cons_self, by rw [← hr, hi], by rwa [← hr]⟩
        rw [hlist] at he
        refine addExtentWalk_forall hstable _ [] (fun f hf x q hq => ?_) (by simp) e he
        have hold := h.right.traced c.file f (List.mem_reverse.1 hf) x q hq
        rw [← hi] at hold
        exact hold.more
      · exact fun x q hq => (h.right.traced i e he x q hq).more
  · dsimp only
    rw [if_neg hret, hd]
    have hsame : (fun i => if i = c.file then s.files c.file else s.files i) = s.files := by
      funext i
      split_ifs with hi
      · rw [hi]
      · rfl
    rw [hsame]
    exact h

/-- One pass. -/
theorem step_invariant (hstart : Start s₀) (h : Invariant s₀ s) (hok : Writes s (c, a)) :
    Invariant s₀ (step s (c, a)) := by
  obtain ⟨hbuf, hroom⟩ := hok
  rw [step, ltfsFsrawWrite] at hroom ⊢
  dsimp only at hbuf hroom ⊢
  split_ifs at hroom ⊢ with hreval
  · exact h
  · have honward := ltfsFsrawWriteDataUnlocked_onward c.part c.buf a.io h.sane
    have hlanded := @ltfsFsrawWriteDataUnlocked_landed c.part s.vol c.buf a.io h.sane hbuf
    generalize ltfsFsrawWriteDataUnlocked c.part c.buf 1 a.io s.vol = x at hroom honward hlanded ⊢
    obtain ⟨r, block, v⟩ := x
    have hv := h.onward honward
    cases r with
    | error e =>
      dsimp only at hroom ⊢
      by_cases hfence : e = .deviceFenced ∨ e.needReval
      · rw [if_pos hfence]
        have hreval := hv.revalidate a.reval
        by_cases he : e = .deviceFenced
        · rw [if_pos he]
          cases a.waited <;> exact hv
        · rw [if_neg he]
          generalize ltfsRevalidate a.reval v = y at hreval ⊢
          obtain ⟨r, w⟩ := y
          cases r <;> exact hreval
      · rw [if_neg hfence]
        split_ifs
        · exact hv.onward ⟨⟨hv.sane.inBounds, hv.sane.fits⟩, rfl, List.suffix_refl _⟩
        · exact hv
    | ok u =>
      dsimp only at hroom ⊢
      obtain ⟨⟨es, hes, hall⟩, hblocks⟩ := hlanded rfl
      have hsent : v.history.take (v.history.length - s.vol.history.length) = es := by
        rw [hes, List.length_append, Nat.add_sub_cancel, List.take_left]
      rw [hsent]
      have hlabel : v.label = s.vol.label := honward.label
      have hlen : (v.tape.recs c.part).length < 2 ^ 64 := hroom c.part
      have hproper : Proper v.label.blocksize (tmpext v.label c block) :=
        tmpext_proper hbuf (Nat.lt_of_le_of_lt (by rwa [hlabel]) hlen)
      refine saveExtent_invariant hstart hv hproper ⟨rfl, rfl, rfl, hproper.positive, ?_⟩
      rw [hlabel]
      exact hall

/-- In every run of calls that all have something to write, what is recorded are the blocks that were written. -/
theorem run_right (hstart : Start s₀) (as : List (Call ι × Attempt)) (h : Meets step Writes s₀ as) :
    Right s₀ (run step s₀ as) :=
  (h.invariant (fun _ _ hs hok => step_invariant hstart hs hok) (.start hstart)).right

section Sample

def emptyFile : File where
  extentlist := []
  size := 0
  realsize := 0

def sample : State Unit where
  vol := VolumeRun.sample 1
  files := fun _ => emptyFile
  saved := []

theorem sample_start : Start sample where
  sane := VolumeRun.sample_sane 1
  blocksize := by decide
  files _ := by
    refine ⟨List.Pairwise.nil, List.Pairwise.nil, fun e he => ?_, rfl, fun e he => ?_⟩
    · cases he
    · cases he
  saved := rfl

def goodReval : RevalIo where
  setup := VolumeRun.good
  load := VolumeRun.good
  writeProtect := false
  space := ⟨.writable, .writable⟩
  coh := fun _ => VolumeRun.good
  eod := fun _ => VolumeRun.good
  spacefm := fun _ _ => VolumeRun.good

def goodAttempt : WritePass.Attempt where
  mem := ⟨true, true⟩
  io := VolumeRun.goodDataIo
  waited := .ok ()
  reval := goodReval

def threeBytes : Call Unit :=
  ⟨(), .dp, [1, 2, 3], 0, by decide⟩

/-- A byte in the middle of them -/
def oneByte : Call Unit :=
  ⟨(), .dp, [4], 1, by decide⟩

theorem run_right_overwritten :
    Right sample (run step sample [(threeBytes, goodAttempt), (oneByte, goodAttempt)]) ∧
      ((run step sample [(threeBytes, goodAttempt), (oneByte, goodAttempt)]).files ()).extentlist =
        [⟨⟨7, 'b'⟩, 0, 1, 0⟩, ⟨⟨10, 'b'⟩, 0, 1, 1⟩, ⟨⟨9, 'b'⟩, 0, 1, 2⟩] := by
  refine ⟨run_right sample_start _ ⟨⟨by decide, fun p => ?_⟩, ⟨by decide, fun p => ?_⟩, trivial⟩, by decide +kernel⟩
  · cases p <;> decide +kernel
  · cases p <;> decide +kernel

/-- A call with nothing to write records an extent without length at block 0, where the label is. -/
def noBytes : Call Unit :=
  ⟨(), .dp, [], 5, by decide⟩

theorem noBytes_recorded : ¬Right sample (run step sample [(noBytes, goodAttempt)]) := by
  intro h
  have hmem : (⟨⟨0, 'b'⟩, 0, 0, 5⟩ : ExtentInfo) ∈
      ((run step sample [(noBytes, goodAttempt)]).files ()).extentlist := by decide +kernel
  exact Nat.lt_irrefl 0 (h.positive () _ hmem)

end Sample

end Ltfs.WritePassSpec
