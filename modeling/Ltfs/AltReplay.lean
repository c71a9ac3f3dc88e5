import Ltfs.AltExtents

namespace Ltfs.AltReplay

open Format Lib.Cells RawFile RawSpec ExtentMap ExtentOrder Unified AltExtents

variable {bs n x : Nat} {q : Char} {c : UnifiedData} {new e f : ExtentInfo} {alt es pre post : List ExtentInfo}

/-- All blocks of the extent come before block `n`. -/
def Within (bs n : Nat) (e : ExtentInfo) : Prop :=
  e.start.block + (e.byteoffsetEnd - 1) / bs < n

/-- The next block, `n` or a later one, could carry the extent on. -/
def Open (bs n : Nat) (e : ExtentInfo) : Prop :=
  e.byteoffsetEnd % bs = 0 ∧ n ≤ e.start.block + e.byteoffsetEnd / bs

/-- The alternate list before block `n` is written: an entry that may still grow grows into nothing that a
later entry covers. -/
structure Valid (bs : Nat) (q : Char) (n : Nat) (alt : List ExtentInfo) : Prop where
  sorted : Sorted alt
  positive : Positive alt
  partition : ∀ e ∈ alt, e.start.partition = q
  within : ∀ e ∈ alt, Within bs n e
  clear : alt.Pairwise fun e f => Open bs n e → e.fileoffsetEnd ≤ f.fileoffset ∨ f.fileoffsetEnd ≤ e.fileoffsetEnd

/-- An extent for a block that was just written, block `n` or a later one. -/
structure Fresh (bs : Nat) (q : Char) (n : Nat) (new : ExtentInfo) : Prop where
  positive : 0 < new.bytecount
  short : new.bytecount ≤ bs
  byteoffset : new.byteoffset = 0
  partition : new.start.partition = q
  block : n ≤ new.start.block

theorem valid_nil : Valid bs q 0 [] where
  sorted := List.Pairwise.nil
  positive := by simp [Positive]
  partition := by simp
  within := by simp
  clear := List.Pairwise.nil

theorem Within.mono {m : Nat} (h : Within bs n e) (hm : n ≤ m) : Within bs m e :=
  Nat.lt_of_lt_of_le h hm

/-- What was written before block `n` does not carry on at a block after it. -/
theorem Within.not_open {m : Nat} (hb : 0 < bs) (hpos : 0 < e.bytecount) (h : Within bs n e) (hm : n < m) :
    ¬ Open bs m e := by
  rintro ⟨hmod, hle⟩
  have hlt : e.start.block + (e.byteoffsetEnd - 1) / bs < n := h
  have hend : e.byteoffset + e.bytecount = e.byteoffsetEnd := rfl
  obtain ⟨k, hk⟩ := Nat.dvd_of_mod_eq_zero hmod
  rw [hk, Nat.mul_div_cancel_left k hb] at hle
  have hk0 : 0 < k := by
    by_contra hk0
    rw [Nat.eq_zero_of_not_pos hk0, Nat.mul_zero] at hk
    omega
  have hlast : k - 1 ≤ (e.byteoffsetEnd - 1) / bs := by
    rw [Nat.le_div_iff_mul_le hb, hk, Nat.sub_mul, Nat.one_mul, Nat.mul_comm]
    omega
  omega

theorem Within.truncateEnd {cut : Nat} (h : Within bs n e) (hc : cut ≤ e.fileoffsetEnd) :
    Within bs n (e.truncateEnd cut) := by
  refine Nat.lt_of_le_of_lt (Nat.add_le_add_left (Nat.div_le_div_right ?_) _) h
  simp only [ExtentInfo.truncateEnd, ExtentInfo.fileoffsetEnd, ExtentInfo.byteoffsetEnd] at hc ⊢
  omega

theorem Within.truncateFront {diff : Nat} (hb : 0 < bs) (h : Within bs n e) (hd : diff < e.bytecount) :
    Within bs n (e.truncateFront bs diff) := by
  have hlt : e.start.block + (e.byteoffsetEnd - 1) / bs < n := h
  have hsum : e.byteoffsetEnd - 1 = bs * ((diff + e.byteoffset) / bs) +
      ((diff + e.byteoffset) % bs + (e.bytecount - diff) - 1) := by
    have := Nat.div_add_mod (diff + e.byteoffset) bs
    simp only [ExtentInfo.byteoffsetEnd]
    omega
  rw [hsum, Nat.mul_add_div hb] at hlt
  simp only [Within, ExtentInfo.truncateFront, ExtentInfo.byteoffsetEnd]
  omega

/-- A grown extent ends in the new block. -/
theorem within_grow (hb : 0 < bs) (hn : Fresh bs q n new) (hj : Joins bs new e) :
    Within bs (new.start.block + 1) (e.grow new.bytecount) := by
  obtain ⟨-, -, hmod, hblock⟩ := hj
  have hpos := hn.positive
  have hshort := hn.short
  have hsum : e.byteoffset + (e.bytecount + new.bytecount) - 1 =
      bs * (e.byteoffsetEnd / bs) + (new.bytecount - 1) := by
    have := Nat.div_add_mod e.byteoffsetEnd bs
    have hend : e.byteoffset + e.bytecount = e.byteoffsetEnd := rfl
    omega
  have hlast : (new.bytecount - 1) / bs = 0 := Nat.div_eq_of_lt (by omega)
  simp only [Within, ExtentInfo.grow, ExtentInfo.byteoffsetEnd] at hsum ⊢
  rw [hsum, Nat.mul_add_div hb, hlast]
  rw [ExtentInfo.byteoffsetEnd] at hblock
  omega

theorem Fresh.within (hn : Fresh bs q n new) : Within bs (new.start.block + 1) new := by
  have hpos := hn.positive
  have hshort := hn.short
  rw [Within, ExtentInfo.byteoffsetEnd, hn.byteoffset, Nat.div_eq_of_lt (by omega)]
  omega

/-- What can be left of an entry. -/
theorem mem_fate (h : f ∈ fate bs new e) :
    (Joins bs new e ∧ f = e.grow new.bytecount) ∨
    (f = e ∧ (e.fileoffset < new.fileoffset ∨ new.fileoffsetEnd ≤ e.fileoffset)) ∨
    (e.fileoffset < new.fileoffset ∧ new.fileoffset < e.fileoffsetEnd ∧ f = e.truncateEnd new.fileoffset) ∨
    (new.fileoffset ≤ e.fileoffset ∧ e.fileoffset < new.fileoffsetEnd ∧ new.fileoffsetEnd < e.fileoffsetEnd ∧
      f = e.truncateFront bs (new.fileoffsetEnd - e.fileoffset)) := by
  rw [fate] at h
  split_ifs at h with hj hlt hcut hdel hfront
  · exact .inl ⟨hj, List.mem_singleton.1 h⟩
  · exact .inr (.inr (.inl ⟨hlt, hcut.1, List.mem_singleton.1 h⟩))
  · exact .inr (.inl ⟨List.mem_singleton.1 h, .inl hlt⟩)
  · exact absurd h List.not_mem_nil
  · exact .inr (.inr (.inr ⟨Nat.not_lt.1 hlt, hfront, Nat.not_le.1 hdel, List.mem_singleton.1 h⟩))
  · exact .inr (.inl ⟨List.mem_singleton.1 h, .inr (Nat.not_lt.1 hfront)⟩)

theorem fate_pairwise (R : ExtentInfo → ExtentInfo → Prop) : (fate bs new e).Pairwise R := by
  rw [fate]
  split_ifs
  all_goals simp

theorem fate_start_before (hlt : e.fileoffset < new.fileoffset) (h : f ∈ fate bs new e) :
    f.fileoffset = e.fileoffset := by
  obtain ⟨-, rfl⟩ | ⟨rfl, -⟩ | ⟨-, -, rfl⟩ | ⟨hle, -⟩ := mem_fate h
  · rfl
  · rfl
  · rfl
  · omega

/-- An entry that starts before the new extent and ends where that starts at the latest. -/
theorem fate_end_le (hlt : e.fileoffset < new.fileoffset) (hle : e.fileoffsetEnd ≤ new.fileoffset)
    (h : f ∈ fate bs new e) : f.fileoffsetEnd ≤ new.fileoffsetEnd := by
  have hend : e.fileoffset + e.bytecount = e.fileoffsetEnd := rfl
  have hstop : new.fileoffset + new.bytecount = new.fileoffsetEnd := rfl
  obtain ⟨hj, rfl⟩ | ⟨rfl, -⟩ | ⟨-, hcut, -⟩ | ⟨hge, -⟩ := mem_fate h
  · simp only [ExtentInfo.grow, ExtentInfo.fileoffsetEnd] at hle ⊢
    omega
  · omega
  · omega
  · omega

/-- Behind an entry that takes in the new extent, nothing that starts before the new extent reaches into it. -/
theorem end_le_of_joins (hn : Fresh bs q n new) (hj : Joins bs new e)
    (hclear : Open bs n e → e.fileoffsetEnd ≤ f.fileoffset ∨ f.fileoffsetEnd ≤ e.fileoffsetEnd)
    (hlt : f.fileoffset < new.fileoffset) : f.fileoffsetEnd ≤ new.fileoffset := by
  obtain ⟨hend, -, hmod, hblock⟩ := hj
  have hblock' := hn.block
  obtain hle | hle := hclear ⟨hmod, by omega⟩
  · omega
  · omega

section Step

variable (hb : 0 < bs) (hn : Fresh bs q n new) (he : 0 < e.bytecount) (hw : Within bs n e)

include he in
theorem fate_start_from (hle : new.fileoffset ≤ e.fileoffset) (h : f ∈ fate bs new e) :
    f.fileoffset = max e.fileoffset new.fileoffsetEnd := by
  have hend : e.fileoffset + e.bytecount = e.fileoffsetEnd := rfl
  obtain ⟨hj, -⟩ | ⟨rfl, hlt⟩ | ⟨hlt, -⟩ | ⟨-, hlt, hpast, rfl⟩ := mem_fate h
  · exact absurd hj (not_joins_of_le he hle)
  · omega
  · omega
  · rw [(truncateFront_span bs (by omega)).1]
    omega

include hb hn he hw

theorem fate_valid (h : f ∈ fate bs new e) :
    0 < f.bytecount ∧ f.start.partition = e.start.partition ∧ Within bs (new.start.block + 1) f := by
  have hend : e.fileoffset + e.bytecount = e.fileoffsetEnd := rfl
  have hw' : Within bs (new.start.block + 1) e := hw.mono (Nat.le_trans hn.block (Nat.le_succ _))
  obtain ⟨hj, rfl⟩ | ⟨rfl, -⟩ | ⟨hlt, hcut, rfl⟩ | ⟨-, hlt, hpast, rfl⟩ := mem_fate h
  · exact ⟨Nat.add_pos_left he _, rfl, within_grow hb hn hj⟩
  · exact ⟨he, rfl, hw'⟩
  · exact ⟨Nat.sub_pos_of_lt hlt, rfl, hw'.truncateEnd (Nat.le_of_lt hcut)⟩
  · exact ⟨Nat.sub_pos_of_lt (by omega), rfl, hw'.truncateFront hb (by omega)⟩

/-- Only a grown entry can grow again. -/
theorem fate_open (h : f ∈ fate bs new e) (ho : Open bs (new.start.block + 1) f) :
    Joins bs new e ∧ f.fileoffsetEnd = new.fileoffsetEnd := by
  have hend : e.fileoffset + e.bytecount = e.fileoffsetEnd := rfl
  have hlt : n < new.start.block + 1 := Nat.lt_succ_of_le hn.block
  obtain ⟨hpos, -, -⟩ := fate_valid hb hn he hw h
  obtain ⟨hj, rfl⟩ | ⟨rfl, -⟩ | ⟨-, hcut, rfl⟩ | ⟨-, -, hpast, rfl⟩ := mem_fate h
  · refine ⟨hj, ?_⟩
    rw [ExtentInfo.grow, ExtentInfo.fileoffsetEnd, ExtentInfo.fileoffsetEnd, ← hj.1, ExtentInfo.fileoffsetEnd,
      Nat.add_assoc]
  · exact absurd ho (hw.not_open hb he hlt)
  · exact absurd ho ((hw.truncateEnd (Nat.le_of_lt hcut)).not_open hb hpos hlt)
  · exact absurd ho ((hw.truncateFront hb (by omega)).not_open hb hpos hlt)

end Step

section Walk

variable (hpre : ∀ e ∈ pre, e.fileoffset < new.fileoffset) (hpost : ∀ e ∈ post, new.fileoffset ≤ e.fileoffset)

/-- A relation between the entries of the list after the walk, by where they come from. -/
theorem pairwise_walk {R : ExtentInfo → ExtentInfo → Prop}
    (hpre : pre.Pairwise fun e e' => ∀ f ∈ fate bs new e, ∀ g ∈ fate bs new e', R f g)
    (hpost : post.Pairwise fun e e' => ∀ f ∈ fate bs new e, ∀ g ∈ fate bs new e', R f g)
    (hacross : ∀ e ∈ pre, ∀ e' ∈ post, ∀ f ∈ fate bs new e, ∀ g ∈ fate bs new e', R f g)
    (hbefore : (∀ e ∈ pre, ¬ Joins bs new e) → ∀ e ∈ pre, ∀ f ∈ fate bs new e, R f new)
    (hafter : ∀ e ∈ post, ∀ f ∈ fate bs new e, R new f) :
    (pre.flatMap (fate bs new) ++ (here bs new pre ++ post.flatMap (fate bs new))).Pairwise R := by
  refine List.pairwise_append.2 ⟨List.pairwise_flatMap.2 ⟨fun e _ => fate_pairwise R, hpre⟩,
    List.pairwise_append.2 ⟨here_pairwise R, List.pairwise_flatMap.2 ⟨fun e _ => fate_pairwise R, hpost⟩, ?_⟩, ?_⟩
  · intro f hf g hg
    obtain ⟨rfl, -⟩ := mem_here.1 hf
    obtain ⟨e, he, hg⟩ := List.mem_flatMap.1 hg
    exact hafter e he g hg
  · intro f hf g hg
    obtain ⟨e, he, hf⟩ := List.mem_flatMap.1 hf
    obtain hg | hg := List.mem_append.1 hg
    · obtain ⟨rfl, hno⟩ := mem_here.1 hg
      exact hbefore hno e he f hf
    · obtain ⟨e', he', hg⟩ := List.mem_flatMap.1 hg
      exact hacross e he e' he' f hf g hg

theorem forall_walk {P : ExtentInfo → Prop} (h : ∀ e ∈ pre ++ post, ∀ f ∈ fate bs new e, P f) (hnew : P new) :
    ∀ f ∈ pre.flatMap (fate bs new) ++ (here bs new pre ++ post.flatMap (fate bs new)), P f := by
  intro f hf
  rw [List.mem_append, List.mem_append, List.mem_flatMap, List.mem_flatMap] at hf
  obtain ⟨e, he, hf⟩ | hf | ⟨e, he, hf⟩ := hf
  · exact h e (List.mem_append_left _ he) f hf
  · rw [(mem_here.1 hf).1]
    exact hnew
  · exact h e (List.mem_append_right _ he) f hf

include hpre hpost

theorem sorted_walk (hs : Sorted (pre ++ post)) (hp : Positive (pre ++ post)) :
    Sorted (pre.flatMap (fate bs new) ++ (here bs new pre ++ post.flatMap (fate bs new))) := by
  have hstop : new.fileoffset ≤ new.fileoffsetEnd := Nat.le_add_right _ _
  obtain ⟨hsp, hsq, -⟩ := List.pairwise_append.1 hs
  have hstart : ∀ e ∈ post, ∀ f ∈ fate bs new e, f.fileoffset = max e.fileoffset new.fileoffsetEnd :=
    fun e he f hf => fate_start_from (hp e (List.mem_append_right _ he)) (hpost e he) hf
  apply pairwise_walk
  · refine hsp.imp_of_mem fun he he' hle f hf g hg => ?_
    rw [fate_start_before (hpre _ he) hf, fate_start_before (hpre _ he') hg]
    exact hle
  · refine hsq.imp_of_mem fun he he' hle f hf g hg => ?_
    rw [hstart _ he f hf, hstart _ he' g hg]
    omega
  · intro e he e' he' f hf g hg
    have hlt := hpre e he
    rw [fate_start_before hlt hf, hstart e' he' g hg]
    omega
  · intro _ e he f hf
    rw [fate_start_before (hpre e he) hf]
    exact Nat.le_of_lt (hpre e he)
  · intro e he f hf
    rw [hstart e he f hf]
    omega

theorem clear_walk (hb : 0 < bs) (hn : Fresh bs q n new) (hv : Valid bs q n (pre ++ post)) :
    (pre.flatMap (fate bs new) ++ (here bs new pre ++ post.flatMap (fate bs new))).Pairwise fun e f =>
      Open bs (new.start.block + 1) e → e.fileoffsetEnd ≤ f.fileoffset ∨ f.fileoffsetEnd ≤ e.fileoffsetEnd := by
  have hopen : ∀ e ∈ pre ++ post, ∀ f ∈ fate bs new e, Open bs (new.start.block + 1) f →
      Joins bs new e ∧ f.fileoffsetEnd = new.fileoffsetEnd :=
    fun e he f hf ho => fate_open hb hn (hv.positive e he) (hv.within e he) hf ho
  have hstart : ∀ e ∈ post, ∀ f ∈ fate bs new e, new.fileoffsetEnd ≤ f.fileoffset := fun e he f hf => by
    rw [fate_start_from (hv.positive e (List.mem_append_right _ he)) (hpost e he) hf]
    exact Nat.le_max_right _ _
  obtain ⟨hcp, hcq, -⟩ := List.pairwise_append.1 hv.clear
  apply pairwise_walk
  · refine hcp.imp_of_mem fun he he' hclear f hf g hg ho => .inr ?_
    obtain ⟨hj, hend⟩ := hopen _ (List.mem_append_left _ he) f hf ho
    rw [hend]
    exact fate_end_le (hpre _ he') (end_le_of_joins hn hj hclear (hpre _ he')) hg
  · -- nothing in here grew
    refine hcq.imp_of_mem fun he _ _ f hf g _ ho => ?_
    have hmem := List.mem_append_right pre he
    exact absurd (hopen _ hmem f hf ho).1 (not_joins_of_le (hv.positive _ hmem) (hpost _ he))
  · intro e he e' he' f hf g hg ho
    rw [(hopen e (List.mem_append_left _ he) f hf ho).2]
    exact .inl (hstart e' he' g hg)
  · intro hno e he f hf ho
    exact absurd (hopen e (List.mem_append_left _ he) f hf ho).1 (hno e he)
  · intro e he f hf _
    exact .inl (hstart e he f hf)

end Walk

/-- The alternate list stays valid when the next block is added. -/
theorem Valid.walk (hv : Valid c.label.blocksize q n alt) (hn : Fresh c.label.blocksize q n new) :
    Valid c.label.blocksize q (new.start.block + 1) (updateAltWalk c new false alt) := by
  have hb := c.label.blocksize_pos
  obtain ⟨pre, post, rfl, hpre, hpost, hwalk⟩ := updateAltWalk_false (c := c) hn.positive hv.sorted hv.positive
  have hfate : ∀ e ∈ pre ++ post, ∀ f ∈ fate c.label.blocksize new e, 0 < f.bytecount ∧
      f.start.partition = e.start.partition ∧ Within c.label.blocksize (new.start.block + 1) f :=
    fun e he f hf => fate_valid hb hn (hv.positive e he) (hv.within e he) hf
  rw [hwalk]
  constructor
  · exact sorted_walk hpre hpost hv.sorted hv.positive
  · exact forall_walk (fun e he f hf => (hfate e he f hf).1) hn.positive
  · refine forall_walk (fun e he f hf => ?_) hn.partition
    rw [(hfate e he f hf).2.1]
    exact hv.partition e he
  · exact forall_walk (fun e he f hf => (hfate e he f hf).2.2) hn.within
  · exact clear_walk hpre hpost hb hn hv

theorem lastPlace_flatMap {g : ExtentInfo → List ExtentInfo} (h : ∀ e ∈ es, lastPlace bs (g e) x = place bs e x) :
    lastPlace bs (es.flatMap g) x = lastPlace bs es x := by
  induction es with
  | nil => rfl
  | cons e es ih =>
    obtain ⟨he, hes⟩ := List.forall_mem_cons.1 h
    rw [List.flatMap_cons, lastPlace_append, lastPlace_cons, ih hes, he]

section Mapping

variable (hb : 0 < bs) (hn : Fresh bs q n new)

include hn

theorem Joins.adjoins (hj : Joins bs new e) (hq : e.start.partition = q) : e.Adjoins bs new :=
  ⟨hj.1.symm, hq.trans hn.partition.symm, hj.2.2.1, hj.2.2.2, hj.2.1⟩

include hb

/-- Outside the new extent every entry says what it said. -/
theorem lastPlace_fate_outside (hq : e.start.partition = q) (hx : place bs new x = none) :
    lastPlace bs (fate bs new e) x = place bs e x := by
  have hout : ¬ (new.fileoffset ≤ x ∧ x < new.fileoffsetEnd) := by
    intro hin
    obtain ⟨y, hy⟩ := (@place_eq_some_iff bs x new).2 hin
    rw [hx] at hy
    exact nomatch hy
  have hend : e.fileoffset + e.bytecount = e.fileoffsetEnd := rfl
  rw [fate]
  split_ifs with hj hlt hcut hdel hfront
  · rw [lastPlace_singleton, place_grow hb (Joins.adjoins hn hj hq), hx, Option.or_none]
  · rw [lastPlace_singleton, place_truncateEnd (Nat.le_of_lt hcut.1)]
    split_ifs with hlt
    · rfl
    · rw [place_of_ge (by omega)]
  · exact lastPlace_singleton
  · rw [lastPlace_nil]
    by_cases hxe : x < e.fileoffset
    · rw [place_of_lt hxe]
    · rw [place_of_ge (by omega)]
  · rw [lastPlace_singleton, place_truncateFront hb (by omega)]
    split_ifs with hlt
    · rw [place_of_lt (by omega)]
    · rfl
  · exact lastPlace_singleton

/-- Inside the new extent, an entry that took it in shows it. -/
theorem lastPlace_joined (hq : ∀ e ∈ pre, e.start.partition = q) (hpre : ∀ e ∈ pre, e.fileoffset < new.fileoffset)
    (hclear : pre.Pairwise fun e f => Open bs n e → e.fileoffsetEnd ≤ f.fileoffset ∨ f.fileoffsetEnd ≤ e.fileoffsetEnd)
    (hj : ∃ e ∈ pre, Joins bs new e) (hx : new.fileoffset ≤ x ∧ x < new.fileoffsetEnd) :
    lastPlace bs (pre.flatMap (fate bs new)) x = place bs new x := by
  obtain ⟨y, hy⟩ := (@place_eq_some_iff bs x new).2 hx
  induction pre with
  | nil => exact absurd hj (by simp)
  | cons e pre ih =>
    obtain ⟨hqe, hq⟩ := List.forall_mem_cons.1 hq
    obtain ⟨hlt, hpre⟩ := List.forall_mem_cons.1 hpre
    obtain ⟨hce, hclear⟩ := List.pairwise_cons.1 hclear
    rw [List.flatMap_cons, lastPlace_append]
    by_cases hex : ∃ f ∈ pre, Joins bs new f
    · rw [ih hq hpre hclear hex, hy]
      rfl
    · have hje : Joins bs new e := by
        obtain ⟨f, hf, hjf⟩ := hj
        obtain rfl | hf := List.mem_cons.1 hf
        · exact hjf
        · exact absurd ⟨f, hf, hjf⟩ hex
      have hblank : lastPlace bs (pre.flatMap (fate bs new)) x = none := by
        apply lastPlace_eq_none
        intro g hg
        obtain ⟨f, hf, hg⟩ := List.mem_flatMap.1 hg
        have hle := end_le_of_joins hn hje (hce f hf) (hpre f hf)
        obtain ⟨hjf, -⟩ | ⟨rfl, -⟩ | ⟨-, hcut, -⟩ | ⟨hge, -⟩ := mem_fate hg
        · exact absurd ⟨f, hf, hjf⟩ hex
        · exact place_of_ge (Nat.le_trans hle hx.1)
        · omega
        · exact absurd (hpre f hf) (Nat.not_lt.2 hge)
      have hend : e.fileoffsetEnd = new.fileoffset := hje.1
      rw [hblank, Option.none_or, fate_joins hje, lastPlace_singleton, place_grow hb (Joins.adjoins hn hje hqe),
        place_of_ge (by omega), Option.none_or]

end Mapping

/-- The new extent counts where it is; elsewhere the list says what it said. -/
theorem lastPlace_updateAltWalk (hv : Valid c.label.blocksize q n alt) (hn : Fresh c.label.blocksize q n new)
    (x : Nat) : lastPlace c.label.blocksize (updateAltWalk c new false alt) x =
      (place c.label.blocksize new x).or (lastPlace c.label.blocksize alt x) := by
  have hb := c.label.blocksize_pos
  obtain ⟨pre, post, rfl, hpre, hpost, hwalk⟩ := updateAltWalk_false (c := c) hn.positive hv.sorted hv.positive
  rw [hwalk, lastPlace_append, lastPlace_append, lastPlace_append]
  by_cases hx : new.fileoffset ≤ x ∧ x < new.fileoffsetEnd
  · obtain ⟨y, hy⟩ := (@place_eq_some_iff c.label.blocksize x new).2 hx
    have hblank : lastPlace c.label.blocksize (post.flatMap (fate c.label.blocksize new)) x = none := by
      apply lastPlace_eq_none
      intro g hg
      obtain ⟨e, he, hg⟩ := List.mem_flatMap.1 hg
      apply place_of_lt
      rw [fate_start_from (hv.positive e (List.mem_append_right _ he)) (hpost e he) hg]
      omega
    rw [hblank, Option.none_or, here]
    split_ifs with hj
    · rw [lastPlace_nil, Option.none_or, lastPlace_joined hb hn (fun e he => hv.partition e (List.mem_append_left _ he))
        hpre (List.pairwise_append.1 hv.clear).1 hj hx, hy]
      rfl
    · rw [lastPlace_singleton, hy]
      rfl
  · have hnone : place c.label.blocksize new x = none := if_neg hx
    have hmid : lastPlace c.label.blocksize (here c.label.blocksize new pre) x = none := by
      apply lastPlace_eq_none
      intro f hf
      rw [(mem_here.1 hf).1]
      exact hnone
    have hkeep : ∀ e ∈ pre ++ post, lastPlace c.label.blocksize (fate c.label.blocksize new e) x =
        place c.label.blocksize e x := fun e he => lastPlace_fate_outside hb hn (hv.partition e he) hnone
    rw [hmid, hnone, lastPlace_flatMap fun e he => hkeep e (List.mem_append_left _ he),
      lastPlace_flatMap fun e he => hkeep e (List.mem_append_right _ he), Option.or_none, Option.none_or]

/-- A run of background writes, over a list that is valid before it. -/
theorem Valid.foldl (es : List ExtentInfo) (hv : Valid c.label.blocksize q n alt)
    (hes : ∀ e ∈ es, Fresh c.label.blocksize q n e) (hblocks : es.Pairwise fun e f => e.start.block < f.start.block)
    (x : Nat) : lastPlace c.label.blocksize (es.foldl (fun alt e => updateAltWalk c e false alt) alt) x =
      (lastPlace c.label.blocksize es x).or (lastPlace c.label.blocksize alt x) := by
  induction es generalizing n alt with
  | nil => rfl
  | cons e es ih =>
    obtain ⟨he, hes⟩ := List.forall_mem_cons.1 hes
    obtain ⟨hlt, hblocks⟩ := List.pairwise_cons.1 hblocks
    have hnext : ∀ f ∈ es, Fresh c.label.blocksize q (e.start.block + 1) f := fun f hf =>
      { hes f hf with block := hlt f hf }
    rw [List.foldl_cons, ih (hv.walk he) hnext hblocks, lastPlace_updateAltWalk hv he, lastPlace_cons, Option.or_assoc]

/-- Extents that are added to a file one after the other. -/
theorem position_addExtents (es : List ExtentInfo) (d : Contents) (hd : InOrder d.extentlist)
    (x : Nat) : ExtentWords.position c.label (es.foldl (fun d e => ltfsFsrawAddExtent c.label e d) d) x =
      (lastPlace c.label.blocksize es x).or (ExtentWords.position c.label d x) := by
  induction es generalizing d with
  | nil => rfl
  | cons e es ih =>
    have hord : InOrder (ltfsFsrawAddExtent c.label e d).extentlist :=
      addExtentWalk_inOrder _ [] (by rwa [List.reverse_reverse, List.append_nil]) (by simp)
    have hone : ExtentWords.position c.label (ltfsFsrawAddExtent c.label e d) x =
        (place c.label.blocksize e x).or (ExtentWords.position c.label d x) := by
      rw [ExtentWords.position, ltfsFsrawAddExtent, overlay_addExtentWalk c.label.blocksize_pos _ _
        (by rwa [List.reverse_reverse]), List.reverse_reverse, List.append_nil]
      rfl
    rw [List.foldl_cons, ih _ hord, hone, lastPlace_cons, Option.or_assoc]

theorem altExtentlist_foldl (es : List ExtentInfo) (dpr : DentryPriv) :
    (es.foldl (fun dpr e => unifiedUpdateAltExtentlist c e dpr) dpr).altExtentlist =
      es.foldl (fun alt e => updateAltWalk c e false alt) dpr.altExtentlist := by
  induction es generalizing dpr with
  | nil => rfl
  | cons e es ih => exact ih (unifiedUpdateAltExtentlist c e dpr)

/-- The alternate list of a file after any run of background writes: its entries, added to the file in list
order, put every byte where the extents that were written put it in the order they were written. -/
theorem replay_alternate (c : UnifiedData) (es : List ExtentInfo)
    (hes : ∀ e ∈ es, Fresh c.label.blocksize c.label.partidIp 0 e)
    (hblocks : es.Pairwise fun e f => e.start.block < f.start.block) (dpr : DentryPriv) (hdpr : dpr.altExtentlist = [])
    (d : Contents) (hd : InOrder d.extentlist) (x : Nat) :
    ExtentWords.position c.label (unifiedClearAltExtentlist c
        (es.foldl (fun dpr e => unifiedUpdateAltExtentlist c e dpr) dpr).altExtentlist d) x =
      ExtentWords.position c.label (es.foldl (fun d e => ltfsFsrawAddExtent c.label e d) d) x := by
  have hnil : Valid c.label.blocksize c.label.partidIp 0 [] := valid_nil
  rw [unifiedClearAltExtentlist, altExtentlist_foldl, hdpr, position_addExtents _ d hd, hnil.foldl es hes hblocks,
    position_addExtents es d hd, lastPlace_nil, Option.or_none]

def blocksOfFour : UnifiedData where
  cacheSize := 4
  cacheSize_pos := Label.pos_four
  maxFilesize := 100
  label := ⟨'a', 'b', 4, Label.a_ne_b, Label.a_ne_nul, Label.b_ne_nul, Label.pos_four⟩
  drive := ⟨fun _ s => s, RawFile.keeps_same, fun _ _ => none, fun _ _ => false⟩

/-- The second extent lies inside the first, and the third overwrites the end of both. -/
def overlapping : List ExtentInfo :=
  [⟨⟨5, 'a'⟩, 0, 4, 0⟩, ⟨⟨6, 'a'⟩, 0, 2, 1⟩, ⟨⟨7, 'a'⟩, 0, 4, 2⟩]

theorem overlapping_fresh : ∀ e ∈ overlapping, Fresh 4 'a' 0 e := by
  simp only [overlapping, List.forall_mem_cons, List.not_mem_nil, false_imp_iff, implies_true, and_true]
  exact ⟨⟨by decide, by decide, rfl, rfl, by decide⟩, ⟨by decide, by decide, rfl, rfl, by decide⟩,
    ⟨by decide, by decide, rfl, rfl, by decide⟩⟩

theorem replay_alternate_overlapping :
    (overlapping.foldl (fun dpr e => unifiedUpdateAltExtentlist blocksOfFour e dpr) ⟨0, true, none, [], []⟩).altExtentlist =
        [⟨⟨5, 'a'⟩, 0, 2, 0⟩, ⟨⟨6, 'a'⟩, 0, 1, 1⟩, ⟨⟨7, 'a'⟩, 0, 4, 2⟩] ∧
      ∀ x, ExtentWords.position blocksOfFour.label (unifiedClearAltExtentlist blocksOfFour
          [⟨⟨5, 'a'⟩, 0, 2, 0⟩, ⟨⟨6, 'a'⟩, 0, 1, 1⟩, ⟨⟨7, 'a'⟩, 0, 4, 2⟩] ⟨[], 0⟩) x =
        ExtentWords.position blocksOfFour.label
          (overlapping.foldl (fun d e => ltfsFsrawAddExtent blocksOfFour.label e d) ⟨[], 0⟩) x :=
  ⟨by decide, replay_alternate blocksOfFour overlapping overlapping_fresh (by decide) ⟨0, true, none, [], []⟩ rfl ⟨[], 0⟩
    List.Pairwise.nil⟩

end Ltfs.AltReplay
