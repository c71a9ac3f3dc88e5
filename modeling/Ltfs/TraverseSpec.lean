import Ltfs.SeekSpec
import Mathlib.Data.List.Induction

namespace Ltfs.TraverseSpec

open Format Records Lib.Log VolumeRun IndexSearch SeekSpec
open Revalidate (previousFilemark nextFilemark)

variable {σ : Type} {rs : List Record} {b c f : Nat} {t : Tape} {img : Image}

/-- Some data records and the index construct behind them. -/
abbrev Piece := List Bytes × Image

def Piece.records (x : Piece) : List Record :=
  x.1.map Record.data ++ construct x.2

/-- Where the opening filemark of a piece that starts at block `b` is. -/
def opening (b : Nat) (x : Piece) : Nat :=
  b + x.1.length

/-- The block behind a piece that starts at block `b`. -/
def pieceEnd (b : Nat) (x : Piece) : Nat :=
  opening b x + x.2.blocks + 2

def piecesEnd : Nat → List Piece → Nat
  | b, [] => b
  | b, x :: xs => piecesEnd (pieceEnd b x) xs

/-- The pieces follow each other from block `b` on. -/
def Chain (rs : List Record) : Nat → List Piece → Prop
  | _, [] => True
  | b, x :: xs => Holds rs b x.records ∧ Chain rs (pieceEnd b x) xs

/-- The pointers of every index are those of its place, and its version is supported. -/
def Placed (t : Tape) : Nat → List Piece → Prop
  | _, [] => True
  | b, x :: xs => ValidIndex t (opening b x) x.2 ∧ Placed t (pieceEnd b x) xs

theorem piecesEnd_append (b : Nat) (xs ys : List Piece) :
    piecesEnd b (xs ++ ys) = piecesEnd (piecesEnd b xs) ys := by
  induction xs generalizing b with
  | nil => rfl
  | cons x xs ih => exact ih (pieceEnd b x)

theorem chain_append (b : Nat) (xs ys : List Piece) :
    Chain rs b (xs ++ ys) ↔ Chain rs b xs ∧ Chain rs (piecesEnd b xs) ys := by
  induction xs generalizing b with
  | nil => simp [Chain, piecesEnd]
  | cons x xs ih =>
    rw [List.cons_append, Chain, Chain, piecesEnd, ih, and_assoc]

theorem placed_append (b : Nat) (xs ys : List Piece) :
    Placed t b (xs ++ ys) ↔ Placed t b xs ∧ Placed t (piecesEnd b xs) ys := by
  induction xs generalizing b with
  | nil => simp [Placed, piecesEnd]
  | cons x xs ih =>
    rw [List.cons_append, Placed, Placed, piecesEnd, ih, and_assoc]

theorem records_piece_length (x : Piece) : x.records.length = x.1.length + x.2.blocks + 2 := by
  simp [Piece.records, Nat.add_assoc]

theorem chain_flatMap (pre : List Record) (xs : List Piece) :
    Chain (pre ++ xs.flatMap Piece.records) pre.length xs ∧
      piecesEnd pre.length xs = (pre ++ xs.flatMap Piece.records).length := by
  induction xs generalizing pre with
  | nil => simp [Chain, piecesEnd]
  | cons x xs ih =>
    have hlen : (pre ++ x.records).length = pieceEnd pre.length x := by
      rw [List.length_append, records_piece_length, pieceEnd, opening]
      omega
    obtain ⟨hc, he⟩ := ih (pre ++ x.records)
    rw [hlen, List.append_assoc] at hc
    rw [hlen, List.append_assoc] at he
    rw [List.flatMap_cons, Chain, piecesEnd]
    exact ⟨⟨holds_append_mid _ _ _, hc⟩, he⟩

section Piece

variable {x : Piece}

theorem opening_filemark (h : Holds rs b x.records) : rs[opening b x]? = some .filemark := by
  rw [opening, Holds.getElem? h (by rw [records_piece_length]; omega), Piece.records,
    List.getElem?_append_right (by simp)]
  simp [construct]

theorem closing_filemark (h : Holds rs b x.records) :
    rs[opening b x + 1 + x.2.blocks]? = some .filemark := by
  have hk : opening b x + 1 + x.2.blocks = b + (x.1.length + 1 + x.2.blocks) := by
    rw [opening]
    omega
  rw [hk, Holds.getElem? h (by rw [records_piece_length]; omega), Piece.records,
    List.getElem?_append_right (by simp; omega)]
  have hi : x.1.length + 1 + x.2.blocks - (x.1.map Record.data).length = x.2.blocks + 1 := by
    simp
    omega
  rw [hi]
  simp [construct]

theorem gap_no_filemark (h : Holds rs b x.records) (h1 : b ≤ c) (h2 : c < opening b x) :
    rs[c]? ≠ some .filemark := by
  rw [opening] at h2
  obtain ⟨k, rfl⟩ := Nat.exists_eq_add_of_le h1
  have hk : k < x.1.length := by omega
  rw [Holds.getElem? h (by rw [records_piece_length]; omega), Piece.records,
    List.getElem?_append_left (by simpa using hk)]
  simp

theorem document_no_filemark (h : Holds rs b x.records) (h1 : opening b x < c)
    (h2 : c < opening b x + 1 + x.2.blocks) : rs[c]? ≠ some .filemark := by
  obtain ⟨k, rfl⟩ := Nat.exists_eq_add_of_lt h1
  have hk : k < x.2.blocks := by omega
  have he : opening b x + k + 1 = b + (x.1.length + (k + 1)) := by
    rw [opening]
    omega
  rw [he, Holds.getElem? h (by rw [records_piece_length]; omega), Piece.records,
    List.getElem?_append_right (by simp)]
  simp [construct, Image.records, hk, List.getElem?_append_left]

theorem previousFilemark_pieceEnd (h : Holds rs b x.records) :
    spacefmBackward rs 2 (pieceEnd b x) = .ok (opening b x) := by
  have h1 : previousFilemark rs (pieceEnd b x) = some (opening b x + 1 + x.2.blocks) := by
    refine previousFilemark_eq_some.mpr ⟨by rw [pieceEnd]; omega, closing_filemark h, fun c h1 h2 => ?_⟩
    rw [pieceEnd] at h2
    omega
  have h2 : previousFilemark rs (opening b x + 1 + x.2.blocks) = some (opening b x) :=
    previousFilemark_eq_some.mpr ⟨by omega, opening_filemark h, fun c => document_no_filemark h⟩
  simp only [spacefmBackward, h1, h2]

end Piece

theorem previousFilemark_gap (hle : b ≤ c) (h : ∀ i, b ≤ i → i < c → rs[i]? ≠ some .filemark) :
    previousFilemark rs c = previousFilemark rs b := by
  obtain ⟨k, rfl⟩ := Nat.exists_eq_add_of_le hle
  induction k with
  | zero => rfl
  | succ k ih =>
    rw [← Nat.add_assoc, previousFilemark, if_neg (h (b + k) (by omega) (by omega))]
    exact ih (by omega) fun i h1 h2 => h i h1 (by omega)

theorem nextFilemark_eq (hle : b ≤ f) (hf : rs[f]? = some .filemark)
    (h : ∀ i, b ≤ i → i < f → rs[i]? ≠ some .filemark) : nextFilemark rs b = some f := by
  have hlt := (List.getElem?_eq_some_iff.mp hf).1
  have hidx : (rs.drop b).findIdx? (· = .filemark) = some (f - b) := by
    rw [List.findIdx?_eq_some_iff_getElem]
    refine ⟨by rw [List.length_drop]; omega, ?_, fun j hj => ?_⟩
    · rw [List.getElem_drop]
      have := (List.getElem?_eq_some_iff.mp hf).2
      simpa [Nat.add_sub_cancel' hle] using this
    · rw [List.getElem_drop]
      have := h (b + j) (by omega) (by omega)
      rw [List.getElem?_eq_getElem (by omega)] at this
      simpa using this
  rw [nextFilemark, hidx]
  simp [Nat.add_sub_cancel' hle]

theorem spacefmBackward_add (m n b : Nat) :
    spacefmBackward rs (m + n) b =
      match spacefmBackward rs m b with
      | .error e => .error e
      | .ok c => spacefmBackward rs n c := by
  induction m generalizing b with
  | zero => simp [spacefmBackward]
  | succ m ih =>
    rw [Nat.succ_add, spacefmBackward, spacefmBackward]
    cases previousFilemark rs b with
    | none => rfl
    | some f => exact ih f

theorem spacefmBackward_gap {x : Piece} (n : Nat) (h : Holds rs b x.records) :
    spacefmBackward rs (n + 1) (opening b x) = spacefmBackward rs (n + 1) b := by
  have hle : b ≤ opening b x := Nat.le_add_right b x.1.length
  rw [spacefmBackward, spacefmBackward, previousFilemark_gap hle fun i => gap_no_filemark h]

/-- From behind a construct that is not the first one, four filemarks back and one forward is the first
block of the index before. -/
theorem locatePreviousIndex_piece {x y : Piece} (hx : Holds t.recs b x.records)
    (hy : Holds t.recs (pieceEnd b x) y.records) :
    t.locatePreviousIndex (pieceEnd (pieceEnd b x) y) = .ok (opening b x + 1) := by
  have hback : spacefmBackward t.recs 4 (pieceEnd (pieceEnd b x) y) = .ok (opening b x) := by
    rw [show 4 = 2 + 2 from rfl, spacefmBackward_add, previousFilemark_pieceEnd hy]
    simp only
    rw [spacefmBackward_gap 1 hy, previousFilemark_pieceEnd hx]
  rw [Tape.locatePreviousIndex, hback]
  exact spacefmForward_one (opening_filemark hx)

/-- From behind the first construct it is a block of the label. -/
theorem locatePreviousIndex_first {x : Piece} {body : List Record} (ht : t.recs = labelRecords ++ body)
    (hx : Holds t.recs 4 x.records) : t.locatePreviousIndex (pieceEnd 4 x) = .ok 2 := by
  have h0 : t.recs[0]? = some .label := by rw [ht]; rfl
  have h1 : t.recs[1]? = some .filemark := by rw [ht]; rfl
  have h2 : t.recs[2]? = some .label := by rw [ht]; rfl
  have h3 : t.recs[3]? = some .filemark := by rw [ht]; rfl
  have hback : spacefmBackward t.recs 4 (pieceEnd 4 x) = .ok 1 := by
    rw [show 4 = 2 + 2 from rfl, spacefmBackward_add, previousFilemark_pieceEnd hx]
    simp only
    rw [spacefmBackward_gap 1 hx]
    simp [spacefmBackward, previousFilemark, h1, h2, h3]
  rw [Tape.locatePreviousIndex, hback]
  exact spacefmForward_one h1

theorem locateLastIndex_piece {x : Piece} (hx : Holds t.recs b x.records)
    (hend : t.recs.length = pieceEnd b x) : t.locateLastIndex = .ok (opening b x + 1) := by
  rw [Tape.locateLastIndex, hend, previousFilemark_pieceEnd hx]
  exact spacefmForward_one (opening_filemark hx)

theorem readIndex_closed (hv : ValidIndex t c img) (hc : Closed t c img) (e : Bool) :
    t.readIndex e (c + 1) = .ok (img, true) := by
  have htrue : t.readIndex true (c + 1) = .ok (img, true) :=
    (readIndex_ok_iff hv.filemark hv.past_label _).mpr ⟨hv, by simp [hc]⟩
  have hlt : c + 1 + img.blocks < t.recs.length := (List.getElem?_eq_some_iff.mp hc).1
  have hs : Mount.xmlSchemaFromTape t.recs (c + 1) = some (img, true) :=
    xmlSchemaFromTape_eq_some.mpr ⟨hv.document, by rw [Closed] at hc; simp [hc]⟩
  have hsame : t.xmlSchemaFromTape e (c + 1) = t.xmlSchemaFromTape true (c + 1) := by
    simp [Tape.xmlSchemaFromTape, document_block hv.document, hs, Nat.ne_of_lt hlt]
  rw [Tape.readIndex, hsame]
  exact htrue

theorem loadIndex_piece {x : Piece} (hx : Holds t.recs b x.records) (hv : ValidIndex t (opening b x) x.2)
    (s : Traversal σ) (hs : s.block = opening b x + 1) :
    t.loadIndex s = .ok { s with block := pieceEnd b x, loaded := some (.index x.2) } := by
  have hread := readIndex_closed hv (closing_filemark hx) false
  have hstop : opening b x + 1 + x.2.blocks + 1 = pieceEnd b x := by
    rw [pieceEnd]
    omega
  simp only [Tape.loadIndex, Tape.ltfsReadIndex, hs, hread, if_true, hstop]

/-- What a traversal does with a sequence of indexes, wherever they are on tape. -/
def visits (func : Option (IndexFound σ)) (gen : UInt32) (stop : UInt32 → UInt32 → Bool) :
    List Image → Traversal σ → Except SearchErrno (Traversal σ)
  | [], s => Tape.traversed gen s
  | img :: imgs, s =>
    match Tape.callBack func gen { s with loaded := some (.index img) } with
    | .error e => .error e
    | .ok (false, s) => .ok s
    | .ok (true, s) => if Tape.ends stop gen s then Tape.traversed gen s else visits func gen stop imgs s

/-- The state of a traversal but for the place of the head. -/
def memory (s : Traversal σ) : Option Loaded × σ :=
  (s.loaded, s.list)

section Memory

variable (func : Option (IndexFound σ)) (gen : UInt32) (stop : UInt32 → UInt32 → Bool) {s u : Traversal σ}

theorem traversed_memory (h : memory s = memory u) :
    (Tape.traversed gen s).map memory = (Tape.traversed gen u).map memory := by
  obtain ⟨hl, -⟩ := Prod.mk.inj h
  rw [Tape.traversed, Tape.traversed, hl]
  split
  · split
    · rfl
    · split
      · rfl
      · exact congrArg Except.ok h
  · exact congrArg Except.ok h

theorem ends_memory (h : memory s = memory u) : Tape.ends stop gen s = Tape.ends stop gen u := by
  obtain ⟨hl, -⟩ := Prod.mk.inj h
  rw [Tape.ends, Tape.ends, hl]

theorem callBack_memory (h : memory s = memory u) :
    (∃ e, Tape.callBack func gen s = .error e ∧ Tape.callBack func gen u = .error e) ∨
    ∃ k s' u', Tape.callBack func gen s = .ok (k, s') ∧ Tape.callBack func gen u = .ok (k, u') ∧
      memory s' = memory u' ∧ s'.block = s.block := by
  obtain ⟨k, i, list⟩ := s
  obtain ⟨k', i', list'⟩ := u
  obtain ⟨rfl, rfl⟩ := Prod.mk.inj h
  cases func with
  | none => exact .inr ⟨true, _, _, rfl, rfl, rfl, rfl⟩
  | some f =>
    cases i with
    | none => exact .inr ⟨true, _, _, rfl, rfl, rfl, rfl⟩
    | some i =>
      by_cases hcode : (f i gen list).1 < 0
      · exact .inl ⟨_, if_pos hcode, if_pos hcode⟩
      · exact .inr ⟨_, _, _, if_neg hcode, if_neg hcode, rfl, rfl⟩

/-- One index in either loop: if what the loop goes on with agrees with `next`, so does the whole round. -/
theorem round_memory {go : Traversal σ → Option (Except SearchErrno (Traversal σ))}
    {next : Traversal σ → Except SearchErrno (Traversal σ)} (h : memory s = memory u)
    (hgo : ∀ s' u', memory s' = memory u' → s'.block = s.block →
      ∃ r, go s' = some r ∧ r.map memory = (next u').map memory) :
    ∃ r, (match Tape.callBack func gen s with
        | .error e => some (.error e)
        | .ok (false, s) => some (.ok s)
        | .ok (true, s) => if Tape.ends stop gen s then some (Tape.traversed gen s) else go s) = some r ∧
      r.map memory = Except.map memory (match Tape.callBack func gen u with
        | .error e => .error e
        | .ok (false, s) => .ok s
        | .ok (true, s) => if Tape.ends stop gen s then Tape.traversed gen s else next s) := by
  obtain ⟨e, h1, h2⟩ | ⟨k, s', u', h1, h2, hm, hb⟩ := callBack_memory func gen h
  · rw [h1, h2]
    exact ⟨_, rfl, rfl⟩
  rw [h1, h2]
  cases k with
  | false => exact ⟨_, rfl, congrArg Except.ok hm⟩
  | true =>
    simp only
    rw [ends_memory gen stop hm]
    by_cases hends : Tape.ends stop gen u' = true
    · rw [if_pos hends, if_pos hends]
      exact ⟨_, rfl, traversed_memory gen hm⟩
    · rw [if_neg hends, if_neg hends]
      exact hgo s' u' hm hb

end Memory

/-- Where the opening filemark of the last construct is. -/
def lastOpening : Nat → List Piece → Nat
  | b, [] => b
  | b, [x] => opening b x
  | b, x :: y :: xs => lastOpening (pieceEnd b x) (y :: xs)

/-- The backward loop from the first block of an index visits that index and all the ones before it. -/
theorem backwardLoop_visits (func : Option (IndexFound σ)) (gen : UInt32) {body : List Record}
    (ht : t.recs = labelRecords ++ body) (xs : List Piece) (x : Piece) {fuel : Nat}
    (hfuel : xs.length + 1 < fuel) (hc : Chain t.recs 4 (xs ++ [x])) (hp : Placed t 4 (xs ++ [x]))
    {s u : Traversal σ} (hs : s.block = opening (piecesEnd 4 xs) x + 1) (hu : memory s = memory u) :
    ∃ r, t.backwardLoop func gen fuel s = some r ∧
      r.map memory = (visits func gen (fun i g => i ≤ g) ((xs ++ [x]).reverse.map Prod.snd) u).map memory := by
  have hmem : memory { s with block := pieceEnd (piecesEnd 4 xs) x, loaded := some (.index x.2) } =
      memory { u with loaded := some (.index x.2) } := by
    simpa [memory] using (Prod.mk.inj hu).2
  induction xs using List.reverseRecOn generalizing x fuel s u with
  | nil =>
    obtain ⟨fuel, rfl⟩ : ∃ k, fuel = k + 2 := ⟨fuel - 2, by simp at hfuel; omega⟩
    have hpast : ¬ s.block ≤ 4 := by
      rw [hs, opening, piecesEnd]
      omega
    rw [Tape.backwardLoop, if_neg hpast, loadIndex_piece hc.1 hp.1 s hs]
    refine round_memory func gen _ hmem fun s' u' hm hb => ?_
    have hprev : t.locatePreviousIndex s'.block = .ok 2 := by
      rw [hb]
      exact locatePreviousIndex_first ht hc.1
    rw [hprev]
    simp only
    rw [Tape.backwardLoop, if_pos (show 2 ≤ 4 by decide), List.map_nil, visits]
    exact ⟨_, rfl, traversed_memory gen hm⟩
  | append_singleton xs z ih =>
    obtain ⟨fuel, rfl⟩ : ∃ k, fuel = k + 1 := ⟨fuel - 1, by omega⟩
    obtain ⟨hcz, hcx⟩ := (chain_append 4 (xs ++ [z]) [x]).mp hc
    obtain ⟨hpz, hpx⟩ := (placed_append 4 (xs ++ [z]) [x]).mp hp
    obtain ⟨-, hz⟩ := (chain_append 4 xs [z]).mp hcz
    have hend : piecesEnd 4 (xs ++ [z]) = pieceEnd (piecesEnd 4 xs) z := piecesEnd_append 4 xs [z]
    have hpast : ¬ s.block ≤ 4 := by
      have := hpx.1.past_label
      omega
    rw [Tape.backwardLoop, if_neg hpast, loadIndex_piece hcx.1 hpx.1 s hs, List.reverse_append,
      List.reverse_singleton, List.singleton_append, List.map_cons, visits]
    refine round_memory func gen _ hmem fun s' u' hm hb => ?_
    have hprev : t.locatePreviousIndex s'.block = .ok (opening (piecesEnd 4 xs) z + 1) := by
      rw [hb]
      simp only [hend] at hcx ⊢
      exact locatePreviousIndex_piece hz.1 hcx.1
    rw [hprev]
    exact ih z (by simp at hfuel ⊢; omega) hcz hpz rfl hm
      (by simpa [memory] using (Prod.mk.inj hm).2)

/-- A partition of a label and complete index constructs with data records before them. -/
def written (l : Label) (p : Part) (wanted : Nat → Nat) (xs : List Piece) : Tape :=
  labelled l p wanted (xs.flatMap Piece.records)

theorem written_chain (l : Label) (p : Part) (wanted : Nat → Nat) (xs : List Piece) :
    Chain (written l p wanted xs).recs 4 xs ∧ piecesEnd 4 xs = (written l p wanted xs).recs.length :=
  chain_flatMap labelRecords xs

theorem lastOpening_concat (b : Nat) (xs : List Piece) (x : Piece) :
    lastOpening b (xs ++ [x]) = opening (piecesEnd b xs) x := by
  induction xs generalizing b with
  | nil => rfl
  | cons y ys ih =>
    cases ys with
    | nil => rfl
    | cons z zs => exact ih (pieceEnd b y)

section Written

variable {l : Label} {p : Part} {wanted : Nat → Nat} {xs : List Piece}
  (func : Option (IndexFound σ)) (gen : UInt32) {fuel : Nat} (s : Traversal σ)

theorem locateLastIndex_written (hne : xs ≠ []) :
    (written l p wanted xs).locateLastIndex = .ok (lastOpening 4 xs + 1) := by
  obtain ⟨hc, hend⟩ := written_chain l p wanted xs
  obtain rfl | ⟨ys, y, rfl⟩ := List.eq_nil_or_concat' xs
  · exact absurd rfl hne
  rw [chain_append] at hc
  rw [piecesEnd_append] at hend
  rw [lastOpening_concat]
  exact locateLastIndex_piece hc.2.1 hend.symm

theorem backward_visits (hne : xs ≠ []) (hp : Placed (written l p wanted xs) 4 xs)
    (hfuel : xs.length < fuel) :
    ∃ r, (written l p wanted xs).ltfsTraverseIndexBackward func gen fuel s = some r ∧
      r.map memory = (visits func gen (fun i g => i ≤ g) (xs.reverse.map Prod.snd) s).map memory := by
  obtain ⟨hc, -⟩ := written_chain l p wanted xs
  simp only [Tape.ltfsTraverseIndexBackward, locateLastIndex_written hne]
  obtain rfl | ⟨ys, y, rfl⟩ := List.eq_nil_or_concat' xs
  · exact absurd rfl hne
  rw [lastOpening_concat]
  exact backwardLoop_visits func gen rfl ys y (by simpa using hfuel) hc hp rfl rfl

end Written

section Visits

variable (gen : UInt32) (stop : UInt32 → UInt32 → Bool)

/-- The index in memory has generation `gen`. -/
def Holding (gen : UInt32) (imgs : List Image) (s : Traversal σ) : Prop :=
  ∃ img ∈ imgs, s.loaded = some (.index img) ∧ img.index.generation = gen

/-- The search has the index `img` in memory and ends there. -/
theorem traversed_index (hgen : gen ≠ 0) (img : Image) (s : Traversal σ) :
    Tape.traversed gen { s with loaded := some (.index img) } =
      if img.index.generation = gen then .ok { s with loaded := some (.index img) } else .error .noIndex := by
  by_cases heq : img.index.generation = gen
  · simp [Tape.traversed, Loaded.generation, heq]
  · simp [Tape.traversed, Loaded.generation, hgen, heq]

theorem visits_cons_none (hgen : gen ≠ 0) {img : Image} (hmax : img.index.generation ≠ -1)
    (imgs : List Image) (s : Traversal σ) :
    visits none gen stop (img :: imgs) s =
      if stop img.index.generation gen = true then
        if img.index.generation = gen then .ok { s with loaded := some (.index img) } else .error .noIndex
      else visits none gen stop imgs { s with loaded := some (.index img) } := by
  rw [visits, ← traversed_index gen hgen]
  simp [Tape.callBack, Tape.ends, Loaded.generation, hmax, hgen]

/-- A search without callback that stops no later than at the generation it is for, and stops too early
only where that generation does not come any more. -/
theorem visits_search (hgen : gen ≠ 0) (imgs : List Image)
    (hmax : ∀ i ∈ imgs, i.index.generation ≠ -1)
    (hstop : ∀ i ∈ imgs, i.index.generation = gen → stop i.index.generation gen = true)
    (hpast : imgs.Pairwise fun i j =>
      stop i.index.generation gen = true → j.index.generation = gen → i.index.generation = gen)
    (s : Traversal σ) (hs : Tape.traversed gen s = .error .noIndex) :
    ((∃ u, visits none gen stop imgs s = .ok u) ↔ ∃ i ∈ imgs, i.index.generation = gen) ∧
      ∀ u, visits none gen stop imgs s = .ok u → Holding gen imgs u := by
  induction imgs generalizing s with
  | nil =>
    rw [visits, hs]
    exact ⟨iff_of_false (fun ⟨u, hu⟩ => by cases hu) (fun ⟨i, hi, _⟩ => by cases hi), fun u hu => by cases hu⟩
  | cons img imgs ih =>
    have hmem : img ∈ img :: imgs := List.mem_cons_self ..
    obtain ⟨hlater, hrest⟩ := List.pairwise_cons.mp hpast
    rw [visits_cons_none gen stop hgen (hmax img hmem)]
    by_cases heq : img.index.generation = gen
    · rw [if_pos (hstop img hmem heq), if_pos heq]
      refine ⟨iff_of_true ⟨_, rfl⟩ ⟨img, hmem, heq⟩, ?_⟩
      rintro u ⟨⟩
      exact ⟨img, hmem, rfl, heq⟩
    by_cases hend : stop img.index.generation gen = true
    · rw [if_pos hend, if_neg heq]
      refine ⟨iff_of_false (fun ⟨u, hu⟩ => by cases hu) ?_, fun u hu => by cases hu⟩
      rintro ⟨i, hi, hig⟩
      obtain rfl | hi := List.mem_cons.mp hi
      · exact heq hig
      · exact heq (hlater i hi hend hig)
    rw [if_neg hend]
    obtain ⟨hiff, hhold⟩ := ih (fun i hi => hmax i (List.mem_cons_of_mem _ hi))
      (fun i hi => hstop i (List.mem_cons_of_mem _ hi)) hrest { s with loaded := some (.index img) }
      (by rw [traversed_index gen hgen, if_neg heq])
    constructor
    · rw [hiff, List.exists_mem_cons_iff]
      simp [heq]
    · intro u hu
      obtain ⟨i, hi, hui⟩ := hhold u hu
      exact ⟨i, List.mem_cons_of_mem _ hi, hui⟩

/-- With an index to visit it does not matter which one was in memory before. -/
theorem visits_forget (func : Option (IndexFound σ)) {imgs : List Image} (hne : imgs ≠ []) (s : Traversal σ) :
    visits func gen stop imgs s = visits func gen stop imgs { s with loaded := none } := by
  cases imgs with
  | nil => exact absurd rfl hne
  | cons img imgs => rfl

end Visits

/-- A search for `gen` over the pieces `xs` ends well exactly if one of them has that generation, and
then with such an index in memory. -/
def Finds (xs : List Piece) (gen : UInt32) (r : Option (Except SearchErrno (Traversal σ))) : Prop :=
  ((∃ u, r = some (.ok u)) ↔ ∃ x ∈ xs, x.2.index.generation = gen) ∧
    ∀ u, r = some (.ok u) → Holding gen (xs.map Prod.snd) u

theorem finds_of_visits {xs : List Piece} {gen : UInt32} {stop : UInt32 → UInt32 → Bool} {imgs : List Image}
    (himgs : ∀ img, img ∈ imgs ↔ img ∈ xs.map Prod.snd) (hne : imgs ≠ []) (hgen : gen ≠ 0)
    (hmax : ∀ x ∈ xs, x.2.index.generation.toNat < 2 ^ 32 - 1)
    (hstop : ∀ i : UInt32, i = gen → stop i gen = true)
    (hpast : imgs.Pairwise fun i j =>
      stop i.index.generation gen = true → j.index.generation = gen → i.index.generation = gen)
    {s : Traversal σ} {r : Except SearchErrno (Traversal σ)}
    (hr : r.map memory = (visits none gen stop imgs s).map memory) : Finds xs gen (some r) := by
  have hmax' : ∀ i ∈ imgs, i.index.generation ≠ -1 := by
    intro i hi h
    obtain ⟨x, hx, rfl⟩ := List.mem_map.mp ((himgs i).mp hi)
    have := hmax x hx
    rw [h] at this
    exact absurd this (by decide)
  have hclear : Tape.traversed gen { s with loaded := none } = .error .noIndex := by
    simp [Tape.traversed, hgen]
  obtain ⟨hiff, hhold⟩ := visits_search gen stop hgen imgs hmax' (fun i _ => hstop _) hpast _ hclear
  rw [visits_forget gen stop none hne] at hr
  have hex : (∃ i ∈ imgs, i.index.generation = gen) ↔ ∃ x ∈ xs, x.2.index.generation = gen := by
    simp only [himgs, List.mem_map, exists_exists_and_eq_and]
  rw [hex] at hiff
  cases hv : visits none gen stop imgs { s with loaded := none } with
  | error e =>
    rw [hv] at hr hiff
    cases r with
    | ok u => cases hr
    | error e' =>
      refine ⟨⟨fun ⟨u, hu⟩ => (by cases hu), fun h => ?_⟩, fun u hu => by cases hu⟩
      obtain ⟨u, hu⟩ := hiff.mpr h
      cases hu
  | ok u =>
    rw [hv] at hr hiff
    cases r with
    | error e' => cases hr
    | ok u' =>
      refine ⟨⟨fun _ => hiff.mp ⟨u, rfl⟩, fun _ => ⟨u', rfl⟩⟩, ?_⟩
      rintro w ⟨⟩
      obtain ⟨i, hi, hload, hig⟩ := hhold u hv
      have hsame : memory u' = memory u := Except.ok.inj hr
      exact ⟨i, (himgs i).mp hi, (Prod.mk.inj hsame).1.trans hload, hig⟩

section Finds

variable {l : Label} {p : Part} {wanted : Nat → Nat} {xs : List Piece} {fuel : Nat} {gen : UInt32}
  (hne : xs ≠ []) (hp : Placed (written l p wanted xs) 4 xs)
  (hmax : ∀ x ∈ xs, x.2.index.generation.toNat < 2 ^ 32 - 1)
  (hsorted : xs.Pairwise fun x y => x.2.index.generation ≤ y.2.index.generation)
  (hfuel : xs.length < fuel) (hgen : gen ≠ 0) (s : Traversal σ)

include hne hp hmax hsorted hfuel hgen

theorem backward_finds : Finds xs gen ((written l p wanted xs).ltfsTraverseIndexBackward none gen fuel s) := by
  obtain ⟨r, hr, hv⟩ := backward_visits none gen s hne hp hfuel
  rw [hr]
  refine finds_of_visits (fun i => by simp) (by simpa using hne) hgen hmax ?_ ?_ hv
  · rintro i rfl
    simp
  · rw [List.pairwise_map, List.pairwise_reverse]
    refine hsorted.imp fun {x y} hxy hstop hx => ?_
    exact UInt32.le_antisymm (by simpa using hstop) (hx ▸ hxy)

end Finds

end Ltfs.TraverseSpec
