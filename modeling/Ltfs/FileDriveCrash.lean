import Ltfs.FileDriveRun

namespace Ltfs.FileDriveCrash

open Format FileDrive FileDriveSpec FileDriveStores FileDriveLoad FileDriveRun Cassette Lib

/-- A directory that there has been on the way from one state of the drive to a later one: what a host that stops
there leaves behind. -/
def OnTheWay (x : Dir) (d e : Drive) : Prop :=
  ∃ xs, e.history = xs ++ d.history ∧ x ∈ e.dir :: xs

/-- Every directory on the way has a property. -/
def Through (P : Dir → Prop) (d e : Drive) : Prop :=
  ∃ xs, e.history = xs ++ d.history ∧ ∀ x ∈ e.dir :: xs, P x

variable {P : Dir → Prop} {d e f : Drive} {x y : Dir} {p q : Fin 2} {b k n : Nat} {s : Suffix} {name : List Char}
  {content : Bytes} {t : Reel} {c a : Cell} {cs rs : List Cell} {stop : Bool} {greatest fuel : Nat}

namespace Through

theorem refl (h : P d.dir) : Through P d d := ⟨[], rfl, by simpa using h⟩

theorem ends (h : Through P d e) : P e.dir := by
  obtain ⟨xs, -, hall⟩ := h
  exact hall _ (List.mem_cons_self ..)

theorem trans (h : Through P d e) (g : Through P e f) : Through P d f := by
  obtain ⟨xs, hx, hall⟩ := h
  obtain ⟨ys, hy, hall'⟩ := g
  refine ⟨ys ++ xs, by rw [hy, hx, List.append_assoc], ?_⟩
  intro z hz
  rw [← List.cons_append, List.mem_append] at hz
  rcases hz with hz | hz
  · exact hall' z hz
  · exact hall z (List.mem_cons_of_mem _ hz)

theorem change {v : Option Bytes} (h : P d.dir) (hnew : P (Function.update d.dir name v)) :
    Through P d (d.change name v) := by
  refine ⟨[d.dir], rfl, ?_⟩
  intro z hz
  rcases List.mem_cons.1 hz with rfl | hz
  · exact hnew
  · rw [List.mem_singleton.1 hz]
    exact h

theorem unlink (h : P d.dir) (hnew : P (Function.update d.dir name none)) : Through P d (d.unlink name) := by
  unfold Drive.unlink
  split
  · exact refl h
  · exact change h hnew

theorem create (h : P d.dir) (hempty : P (Function.update d.dir name (some [])))
    (hnew : P (Function.update d.dir name (some content))) : Through P d (d.create name content) := by
  unfold Drive.create
  split
  · exact change h hempty
  · refine (change h hempty).trans (change hempty ?_)
    change P (Function.update (Function.update d.dir name (some [])) name (some content))
    rw [Function.update_idem]
    exact hnew

theorem mono {Q : Dir → Prop} (h : Through P d e) (hPQ : ∀ x, P x → Q x) : Through Q d e := by
  obtain ⟨xs, hx, hall⟩ := h
  exact ⟨xs, hx, fun z hz => hPQ z (hall z hz)⟩

theorem on (h : Through P d e) (hx : OnTheWay x d e) : P x := by
  obtain ⟨xs, hxs, hall⟩ := h
  obtain ⟨ys, hys, hmem⟩ := hx
  obtain rfl : xs = ys := List.append_cancel_right (hxs.symm.trans hys)
  exact hall x hmem

end Through

/-- The files of a block. -/
def view (x : Dir) (p : Fin 2) (b : Nat) (s : Suffix) : Option Bytes := x (makeFilename p b s.char)

theorem view_update (x : Dir) (p : Fin 2) (b : Nat) (s : Suffix) (v : Option Bytes) (q : Fin 2) (k : Nat)
    (s' : Suffix) :
    view (Function.update x (makeFilename p b s.char) v) q k s' =
      if q = p ∧ k = b ∧ s' = s then v else view x q k s' := by
  unfold view
  split
  · rename_i h
    obtain ⟨rfl, rfl, rfl⟩ := h
    exact Function.update_self _ _ _
  · rename_i h
    apply Function.update_of_ne
    exact fun heq => h (makeFilename_inj heq)

/-- No file lies behind the end of data of a partition. -/
def Tidy (d : Drive) (t : Reel) : Prop :=
  ∀ p k, (t.cells p).length < k → d.file p k = fun _ => none

/-- What of a cell may have come to its file. -/
def cuts : Cell → List Cell
  | .mark => [.mark]
  | .data content => [.data [], .data content]

/-- The cells that a partition may begin with when the recording of a cell has been stopped: the old ones, those
before the block, the block replaced with all the old ones behind it, or the block replaced and the end. -/
def Torn (t : Reel) (c : Cell) (rs : List Cell) : Prop :=
  rs = t.here ∨ rs = t.here.take t.block ∨
    (∃ a ∈ cuts c, rs = t.here.take t.block ++ a :: t.here.drop (t.block + 1)) ∨
    rs = Log.overwrite t.here t.block [c]

/-- A directory while a cell is recorded at the head. -/
structure Stage (t : Reel) (c : Cell) (x : Dir) : Prop where
  low : ∀ k < t.block, view x t.part k = layout t.here k
  other : ∀ q, q ≠ t.part → ∀ k ≤ (t.cells q).length, view x q k = layout (t.cells q) k
  rest :
    ((view x t.part t.block = layout t.here t.block ∨ view x t.part t.block = (fun _ => none) ∨
        ∃ a ∈ cuts c, view x t.part t.block = cellFile a) ∧
      ∀ k, t.block < k → view x t.part k = layout t.here k) ∨
    (view x t.part t.block = cellFile c ∧
      ∃ stop, view x t.part (t.block + 1) = fun s => if s = .eod ∧ stop = true then some [] else none)

theorem layout_replaced (a : Cell) {cs : List Cell} (hb : b < cs.length) (k : Nat) :
    layout (cs.take b ++ a :: cs.drop (b + 1)) k = if k = b then cellFile a else layout cs k := by
  have hset : cs.take b ++ a :: cs.drop (b + 1) = cs.set b a :=
    (List.set_eq_take_append_cons_drop.trans (if_pos hb)).symm
  rw [hset]
  split
  · rename_i hk
    subst hk
    exact layout_cell (List.getElem?_set_self hb)
  · rename_i hk
    funext s
    unfold layout
    rw [List.getElem?_set_ne (Ne.symm hk), List.length_set]

section Begins

variable {cs : List Cell} {p : Fin 2} {a : Cell} {stop : Bool}

/-- The cells before a block that has no file. -/
theorem begins_take (hb : b ≤ cs.length) (hlow : ∀ k < b, d.file p k = layout cs k)
    (hnone : d.file p b = fun _ => none) : Begins d p (cs.take b) false := by
  have hlen : (cs.take b).length = b := List.length_take_of_le hb
  refine ⟨?_, ?_⟩
  · intro k hk
    rw [hlen] at hk
    rw [layout_take hk hb]
    exact hlow k hk
  · rw [hlen, hnone]
    funext s
    simp

/-- The cells before a block, and the one in it. -/
theorem begins_append (hb : b ≤ cs.length) (hlow : ∀ k < b, d.file p k = layout cs k)
    (hblock : d.file p b = cellFile a)
    (hnext : d.file p (b + 1) = fun s => if s = .eod ∧ stop = true then some [] else none) :
    Begins d p (cs.take b ++ [a]) stop := by
  have hlen : (cs.take b).length = b := List.length_take_of_le hb
  have hall : (cs.take b ++ [a]).length = b + 1 := by
    rw [List.length_append, hlen]
    rfl
  refine ⟨?_, ?_⟩
  · intro k hk
    rw [hall] at hk
    rcases Nat.lt_or_eq_of_le (Nat.le_of_lt_succ hk) with hlt | rfl
    · rw [layout_append _ _ (by omega), layout_take hlt hb]
      exact hlow k hlt
    · have hget : (cs.take k ++ [a])[k]? = some a := by
        rw [List.getElem?_append_right (Nat.le_of_eq hlen), hlen, Nat.sub_self]
        rfl
      rw [layout_cell hget]
      exact hblock
  · rw [hall]
    exact hnext

end Begins

/-- The cells that the files of a stage begin with. -/
theorem Stage.begins (h : Stage t c x) (hd : d.dir = x) :
    ∃ rs stop, Torn t c rs ∧ rs.length ≤ t.here.length + 1 ∧ Begins d t.part rs stop := by
  subst hd
  have hle := t.block_le_here
  have hlen : (t.here.take t.block).length = t.block := List.length_take_of_le hle
  obtain ⟨hlow, -, ⟨hblock, hhigh⟩ | ⟨hblock, stop, hnext⟩⟩ := h
  · rcases hblock with hblock | hblock | ⟨a, ha, hblock⟩
    · -- nothing of the old cells has gone
      refine ⟨t.here, true, .inl rfl, Nat.le_succ _, begins_of_files ?_⟩
      intro k _
      rcases Nat.lt_trichotomy k t.block with hlt | rfl | hlt
      · exact hlow k hlt
      · exact hblock
      · exact hhigh k hlt
    · -- the block has been removed
      exact ⟨t.here.take t.block, false, .inr (.inl rfl), by omega, begins_take hle hlow hblock⟩
    · -- the new file is there, and the old ones behind it
      have htorn : Torn t c (t.here.take t.block ++ a :: t.here.drop (t.block + 1)) := .inr (.inr (.inl ⟨a, ha, rfl⟩))
      have hall : (t.here.take t.block ++ a :: t.here.drop (t.block + 1)).length ≤ t.here.length + 1 := by
        rw [List.length_append, hlen, List.length_cons, List.length_drop]
        omega
      rcases Nat.lt_or_eq_of_le hle with hlt | heq
      · refine ⟨_, true, htorn, hall, begins_of_files ?_⟩
        intro k _
        rw [layout_replaced a hlt]
        rcases Nat.lt_trichotomy k t.block with hlow' | rfl | hhigh'
        · rw [if_neg (Nat.ne_of_lt hlow')]
          exact hlow k hlow'
        · rw [if_pos rfl]
          exact hblock
        · rw [if_neg (Nat.ne_of_gt hhigh')]
          exact hhigh k hhigh'
      · have hnil : t.here.drop (t.block + 1) = [] := List.drop_eq_nil_of_le (by omega)
        have hnext : d.file t.part (t.block + 1) = fun s => if s = .eod ∧ false = true then some [] else none := by
          refine (hhigh _ (Nat.lt_succ_self _)).trans ?_
          rw [layout_behind (by omega)]
          funext s
          simp
        refine ⟨_, false, htorn, hall, ?_⟩
        rw [hnil]
        exact begins_append hle hlow hblock hnext
  · -- the block is there, and the end of data is being written
    have hover : (Log.overwrite t.here t.block [c]).length = t.block + 1 := Log.overwrite_length hle
    exact ⟨Log.overwrite t.here t.block [c], stop, .inr (.inr (.inr rfl)), by omega,
      begins_append hle hlow hblock hnext⟩

theorem Stands.whole (h : Stands greatest d t) (htidy : Tidy d t) (p : Fin 2) : d.file p = layout (t.cells p) := by
  funext k
  rcases Nat.lt_or_ge (t.cells p).length k with hk | hk
  · rw [htidy p k hk, layout_behind hk]
  · exact (h.stores p).files k hk

theorem Stage.start (h : Stands greatest d t) (htidy : Tidy d t) (c : Cell) : Stage t c d.dir := by
  have hwhole := Stands.whole h htidy
  refine ⟨fun k _ => congrFun (hwhole t.part) k, ?_, .inl ⟨.inl (congrFun (hwhole t.part) _), ?_⟩⟩
  · intro q _ k _
    exact congrFun (hwhole q) k
  · intro k _
    exact congrFun (hwhole t.part) k

/-- The cell at the head has its file, the files behind it are the old ones. -/
structure Written (t : Reel) (c : Cell) (x : Dir) : Prop where
  low : ∀ k < t.block, view x t.part k = layout t.here k
  other : ∀ q, q ≠ t.part → ∀ k ≤ (t.cells q).length, view x q k = layout (t.cells q) k
  block : view x t.part t.block = cellFile c
  high : ∀ k, t.block < k → view x t.part k = layout t.here k

/-- The file of a cell is created where no file is. -/
theorem Stage.create (hs : Stage t c d.dir) (hfile : d.file = (Drive.removeCurrentRecord e).file)
    (h : Stands greatest e t) (htidy : Tidy e t) (ha : a ∈ cuts c) (s : Suffix) (v : Bytes)
    (hcell : ∀ s', cellFile a s' = if s' = s then some v else none) :
    Stage t c (Function.update d.dir (makeFilename t.part t.block s.char) (some v)) := by
  have hother : ∀ q k, ¬ (q = t.part ∧ k = t.block) →
      view (Function.update d.dir (makeFilename t.part t.block s.char) (some v)) q k = view d.dir q k := by
    intro q k hqk
    funext s'
    rw [view_update, if_neg (fun hc => hqk ⟨hc.1, hc.2.1⟩)]
  have hremoved : ∀ q k s', d.file q k s' = if q = t.part ∧ k = t.block then none else e.file q k s' := by
    intro q k s'
    rw [hfile, Drive.removeCurrentRecord, file_removeRecord, h.part, h.block]
  refine ⟨?_, ?_, .inl ⟨.inr (.inr ⟨a, ha, ?_⟩), ?_⟩⟩
  · intro k hk
    rw [hother _ _ (by omega), hs.low k hk]
  · intro q hq k hk
    rw [hother _ _ (fun hc => hq hc.1), hs.other q hq k hk]
  · funext s'
    rw [view_update, hcell]
    by_cases hs' : s' = s
    · rw [if_pos ⟨rfl, rfl, hs'⟩, if_pos hs']
    · rw [if_neg (fun hc => hs' hc.2.2), if_neg hs']
      refine (hremoved t.part t.block s').trans ?_
      rw [if_pos ⟨rfl, rfl⟩]
  · intro k hk
    have hwhole : e.file t.part = layout t.here := Stands.whole h htidy t.part
    rw [hother _ _ (by omega), ← hwhole]
    funext s'
    refine (hremoved t.part k s').trans ?_
    rw [if_neg (by omega)]

theorem Tidy.same {u : Reel} (htidy : Tidy d t) (hfile : e.file = d.file) (hcells : u.cells = t.cells) : Tidy e u := by
  intro p k hk
  rw [hcells] at hk
  rw [hfile]
  exact htidy p k hk

theorem file_locate (d : Drive) (p b : Nat) : (d.locate p b).2.file = d.file := by
  unfold Drive.locate
  split
  · rfl
  · split <;> rfl

/-- A command that records something. -/
inductive Recording where
  | write (content : Bytes)
  | writefm (count : Nat)

def Recording.command : Recording → Command
  | .write content => .write content
  | .writefm count => .writefm count

/-- The cells that the partition may begin with when the command has been stopped. -/
def Recording.Leaves (t : Reel) (rs : List Cell) : Recording → Prop
  | .write content => Torn t (.data content) rs
  | .writefm count => ∃ i ≤ count, Torn (t.put (List.replicate i .mark)) .mark rs

theorem torn_take {c : Cell} (h : Torn t c rs) : rs.take t.block = t.here.take t.block := by
  have hlen : (t.here.take t.block).length = t.block := by
    rw [List.length_take]
    exact Nat.min_eq_left t.block_le_here
  have happ : ∀ l : List Cell, (t.here.take t.block ++ l).take t.block = t.here.take t.block := by
    intro l
    rw [List.take_append_of_le_length (Nat.le_of_eq hlen.symm), List.take_take, Nat.min_self]
  rcases h with rfl | rfl | ⟨a, -, rfl⟩ | rfl
  · rfl
  · rw [List.take_take, Nat.min_self]
  · exact happ _
  · exact happ _

end Ltfs.FileDriveCrash
