import Ltfs.Unified
import Ltfs.ExtentOrder
import Ltfs.ExtentWords

namespace Ltfs.AltExtents

open Format Lib.Cells RawFile RawSpec ExtentMap ExtentOrder Unified

variable {bs n x : Nat} {c : UnifiedData} {new e f g : ExtentInfo} {alt es pre post : List ExtentInfo}

/-- Where byte `x` is after the extents were added one after the other: the last one that has it counts. -/
def lastPlace (bs : Nat) (es : List ExtentInfo) (x : Nat) : Option (Char × Nat × Nat) :=
  overlay (place bs) es.reverse x

@[simp] theorem lastPlace_nil : lastPlace bs [] x = none := rfl

@[simp] theorem lastPlace_append (es fs : List ExtentInfo) :
    lastPlace bs (es ++ fs) x = (lastPlace bs fs x).or (lastPlace bs es x) := by
  rw [lastPlace, List.reverse_append, overlay_append]
  rfl

@[simp] theorem lastPlace_singleton : lastPlace bs [e] x = place bs e x := by
  simp [lastPlace]

theorem lastPlace_cons : lastPlace bs (e :: es) x = (lastPlace bs es x).or (place bs e x) := by
  rw [← List.singleton_append, lastPlace_append, lastPlace_singleton]

theorem lastPlace_eq_none (h : ∀ e ∈ es, place bs e x = none) : lastPlace bs es x = none :=
  overlay_eq_none fun e he => h e (List.mem_reverse.1 he)

/-- `new` carries on where `e` ends, in the file and on the index partition. -/
def Joins (bs : Nat) (new e : ExtentInfo) : Prop :=
  e.fileoffsetEnd = new.fileoffset ∧ new.byteoffset = 0 ∧ e.byteoffsetEnd % bs = 0 ∧
    e.start.block + e.byteoffsetEnd / bs = new.start.block

instance : Decidable (Joins bs new e) :=
  inferInstanceAs (Decidable (_ ∧ _))

/-- What becomes of an entry of the alternate list when `new` is added. -/
def fate (bs : Nat) (new e : ExtentInfo) : List ExtentInfo :=
  if Joins bs new e then [e.grow new.bytecount]
  else if e.fileoffset < new.fileoffset then
    if new.fileoffset < e.fileoffsetEnd ∧ e.fileoffsetEnd ≤ new.fileoffsetEnd then [e.truncateEnd new.fileoffset]
    else [e]
  else if e.fileoffsetEnd ≤ new.fileoffsetEnd then []
  else if e.fileoffset < new.fileoffsetEnd then
    [e.truncateFront bs (new.fileoffsetEnd - e.fileoffset)]
  else [e]

def Sorted (es : List ExtentInfo) : Prop :=
  es.Pairwise fun a b => a.fileoffset ≤ b.fileoffset

def Positive (es : List ExtentInfo) : Prop :=
  ∀ e ∈ es, 0 < e.bytecount

section Fate

variable (hnew : 0 < new.bytecount) (he : 0 < e.bytecount)

theorem fate_joins (h : Joins bs new e) : fate bs new e = [e.grow new.bytecount] :=
  if_pos h

theorem fate_before (hj : ¬ Joins bs new e) (h : e.fileoffset < new.fileoffset)
    (hcut : ¬ (new.fileoffset < e.fileoffsetEnd ∧ e.fileoffsetEnd ≤ new.fileoffsetEnd)) :
    fate bs new e = [e] := by
  rw [fate, if_neg hj, if_pos h, if_neg hcut]

theorem fate_cut (h : e.fileoffset < new.fileoffset) (hs : new.fileoffset < e.fileoffsetEnd)
    (hc : e.fileoffsetEnd ≤ new.fileoffsetEnd) : fate bs new e = [e.truncateEnd new.fileoffset] := by
  have hj : ¬ Joins bs new e := fun hj => Nat.ne_of_gt hs hj.1
  rw [fate, if_neg hj, if_pos h, if_pos ⟨hs, hc⟩]

include he

theorem not_joins_of_le (h : new.fileoffset ≤ e.fileoffset) : ¬ Joins bs new e := by
  intro hj
  have hend : e.fileoffset + e.bytecount = new.fileoffset := hj.1
  omega

theorem fate_delete (h : new.fileoffset ≤ e.fileoffset) (hd : e.fileoffsetEnd ≤ new.fileoffsetEnd) :
    fate bs new e = [] := by
  rw [fate, if_neg (not_joins_of_le he h), if_neg (Nat.not_lt.2 h), if_pos hd]

theorem fate_front (h : new.fileoffset ≤ e.fileoffset) (hd : new.fileoffsetEnd < e.fileoffsetEnd)
    (hf : e.fileoffset < new.fileoffsetEnd) :
    fate bs new e = [e.truncateFront bs (new.fileoffsetEnd - e.fileoffset)] := by
  rw [fate, if_neg (not_joins_of_le he h), if_neg (Nat.not_lt.2 h), if_neg (Nat.not_le.2 hd), if_pos hf]

theorem fate_past (h : new.fileoffsetEnd ≤ e.fileoffset) : fate bs new e = [e] := by
  have hle : new.fileoffset ≤ e.fileoffset := Nat.le_trans (Nat.le_add_right _ _) h
  have hend : e.fileoffset + e.bytecount = e.fileoffsetEnd := rfl
  rw [fate, if_neg (not_joins_of_le he hle), if_neg (Nat.not_lt.2 hle), if_neg (by omega),
    if_neg (Nat.not_lt.2 h)]

end Fate

theorem flatMap_fate_past (hp : Positive alt) (h : ∀ e ∈ alt, new.fileoffsetEnd ≤ e.fileoffset) :
    alt.flatMap (fate bs new) = alt := by
  induction alt with
  | nil => rfl
  | cons e alt ih =>
    obtain ⟨hpos, hrest⟩ := List.forall_mem_cons.1 hp
    obtain ⟨he, hpast⟩ := List.forall_mem_cons.1 h
    rw [List.flatMap_cons, fate_past hpos he, ih hrest hpast]
    rfl

/-- Past the end of the new extent the walk changes nothing. -/
theorem updateAltWalk_past (hnew : 0 < new.bytecount) (hp : Positive alt)
    (h : ∀ e ∈ alt, new.fileoffsetEnd ≤ e.fileoffset) : updateAltWalk c new true alt = alt := by
  cases alt with
  | nil => rfl
  | cons e alt =>
    have he := h e (by simp)
    have hpos := hp e (by simp)
    have hend : e.fileoffset + e.bytecount = e.fileoffsetEnd := rfl
    have hstop : new.fileoffset + new.bytecount = new.fileoffsetEnd := rfl
    rw [updateAltWalk, if_neg (by omega), if_neg (by omega), if_neg (by omega), if_neg (by omega), if_neg (by omega)]
    rfl

/-- What the walk does at an entry that starts before the new extent. -/
theorem updateAltWalk_before (used : Bool) (hlt : e.fileoffset < new.fileoffset) :
    updateAltWalk c new used (e :: alt) = fate c.label.blocksize new e ++
      updateAltWalk c new (used || decide (Joins c.label.blocksize new e)) alt := by
  have hnle : ¬ new.fileoffset ≤ e.fileoffset := Nat.not_le.2 hlt
  have hhere : ¬ (used = false ∧ new.fileoffset ≤ e.fileoffset) := fun h => hnle h.2
  rw [updateAltWalk, if_neg hhere, decide_eq_false hnle, Bool.or_false, if_pos hlt]
  split_ifs with hend htouch hjoin hcut
  · have hj : ¬ Joins c.label.blocksize new e := fun hj => Nat.ne_of_lt hend hj.1
    rw [fate_before hj hlt (by omega), decide_eq_false hj, Bool.or_false]
    rfl
  · have hj : Joins c.label.blocksize new e := ⟨htouch, hjoin⟩
    rw [fate_joins hj, decide_eq_true hj, Bool.or_true]
    rfl
  · have hj : ¬ Joins c.label.blocksize new e := fun hj => hjoin hj.2
    rw [fate_before hj hlt (by omega), decide_eq_false hj, Bool.or_false]
    rfl
  · have hj : ¬ Joins c.label.blocksize new e := fun hj => htouch hj.1
    rw [fate_cut hlt (by omega) hcut, decide_eq_false hj, Bool.or_false]
    rfl
  · have hj : ¬ Joins c.label.blocksize new e := fun hj => htouch hj.1
    rw [fate_before hj hlt (by omega), decide_eq_false hj, Bool.or_false]
    rfl

/-- What the walk does at an entry that does not: here is the place of the new extent. -/
theorem updateAltWalk_from (hnew : 0 < new.bytecount) (used : Bool) (hs : Sorted (e :: alt))
    (hp : Positive (e :: alt)) (hle : new.fileoffset ≤ e.fileoffset) :
    updateAltWalk c new used (e :: alt) = (if used then [] else [new]) ++
      (fate c.label.blocksize new e ++ updateAltWalk c new true alt) := by
  obtain ⟨he, hrest⟩ := List.forall_mem_cons.1 hp
  have hend : e.fileoffset + e.bytecount = e.fileoffsetEnd := rfl
  have hstop : new.fileoffset + new.bytecount = new.fileoffsetEnd := rfl
  have hhere : (if used = false ∧ new.fileoffset ≤ e.fileoffset then [new] else []) =
      if used then [] else [new] := by
    cases used <;> simp [hle]
  rw [updateAltWalk, if_neg (by omega), if_neg (by omega), if_neg (by omega), decide_eq_true hle, Bool.or_true,
    hhere]
  by_cases hdel : e.fileoffsetEnd ≤ new.fileoffsetEnd
  · rw [if_pos hdel, fate_delete he hle hdel, List.nil_append]
  rw [if_neg hdel]
  by_cases hfront : e.fileoffset < new.fileoffsetEnd
  · rw [if_pos hfront, fate_front he hle (Nat.not_le.1 hdel) hfront]
    rfl
  · have hpast : ∀ f ∈ alt, new.fileoffsetEnd ≤ f.fileoffset := fun f hf =>
      Nat.le_trans (Nat.not_lt.1 hfront) (List.rel_of_pairwise_cons hs hf)
    rw [if_neg hfront, fate_past he (Nat.not_lt.1 hfront), updateAltWalk_past hnew hrest hpast]
    rfl

theorem updateAltWalk_true (hnew : 0 < new.bytecount) (hs : Sorted alt) (hp : Positive alt) :
    updateAltWalk c new true alt = alt.flatMap (fate c.label.blocksize new) := by
  induction alt with
  | nil => rfl
  | cons e alt ih =>
    obtain ⟨-, hrest⟩ := List.forall_mem_cons.1 hp
    rw [List.flatMap_cons, ← ih (List.Pairwise.of_cons hs) hrest]
    by_cases hle : new.fileoffset ≤ e.fileoffset
    · exact updateAltWalk_from hnew true hs hp hle
    · exact updateAltWalk_before true (Nat.not_le.1 hle)

/-- The new extent where it goes into the list, unless one of the entries before it took it in. -/
def here (bs : Nat) (new : ExtentInfo) (pre : List ExtentInfo) : List ExtentInfo :=
  if ∃ e ∈ pre, Joins bs new e then [] else [new]

theorem mem_here : f ∈ here bs new pre ↔ f = new ∧ ∀ e ∈ pre, ¬ Joins bs new e := by
  rw [here]
  split_ifs with h
  · obtain ⟨e, he, hj⟩ := h
    exact iff_of_false List.not_mem_nil fun hno => hno.2 e he hj
  · rw [List.mem_singleton]
    exact ⟨fun hf => ⟨hf, fun e he hj => h ⟨e, he, hj⟩⟩, fun hf => hf.1⟩

theorem here_pairwise (R : ExtentInfo → ExtentInfo → Prop) : (here bs new pre).Pairwise R := by
  rw [here]
  split_ifs
  · exact List.Pairwise.nil
  · exact List.pairwise_singleton R new

/-- The entries that start before the new extent, and the others. -/
theorem updateAltWalk_false (hnew : 0 < new.bytecount) (hs : Sorted alt) (hp : Positive alt) :
    ∃ pre post, alt = pre ++ post ∧ (∀ e ∈ pre, e.fileoffset < new.fileoffset) ∧
      (∀ e ∈ post, new.fileoffset ≤ e.fileoffset) ∧
      updateAltWalk c new false alt = pre.flatMap (fate c.label.blocksize new) ++
        (here c.label.blocksize new pre ++ post.flatMap (fate c.label.blocksize new)) := by
  induction alt with
  | nil => exact ⟨[], [], rfl, by simp, by simp, by simp [updateAltWalk, here]⟩
  | cons e alt ih =>
    obtain ⟨-, hrest⟩ := List.forall_mem_cons.1 hp
    have hs' := List.Pairwise.of_cons hs
    by_cases hle : new.fileoffset ≤ e.fileoffset
    · refine ⟨[], e :: alt, rfl, by simp, ?_, ?_⟩
      · exact List.forall_mem_cons.2 ⟨hle, fun f hf => Nat.le_trans hle (List.rel_of_pairwise_cons hs hf)⟩
      · rw [updateAltWalk_from hnew false hs hp hle, updateAltWalk_true hnew hs' hrest, List.flatMap_cons]
        simp [here]
    · obtain ⟨pre, post, rfl, hpre, hpost, hwalk⟩ := ih hs' hrest
      refine ⟨e :: pre, post, rfl, List.forall_mem_cons.2 ⟨Nat.not_le.1 hle, hpre⟩, hpost, ?_⟩
      rw [updateAltWalk_before false (Nat.not_le.1 hle), Bool.false_or, List.flatMap_cons, List.append_assoc]
      congr 1
      by_cases hj : Joins c.label.blocksize new e
      · rw [decide_eq_true hj, updateAltWalk_true hnew hs' hrest, here, if_pos ⟨e, by simp, hj⟩, List.flatMap_append]
        rfl
      · have hex : (∃ f ∈ e :: pre, Joins c.label.blocksize new f) ↔ ∃ f ∈ pre, Joins c.label.blocksize new f := by
          simp [hj]
        rw [decide_eq_false hj, hwalk]
        simp only [here, hex]

end Ltfs.AltExtents
