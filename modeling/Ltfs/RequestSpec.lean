import Ltfs.Requests

namespace Ltfs.RequestSpec

open Format Lib.Cells Requests RequestState

variable {cs : Nat} {r dest src : WriteRequest} {full : Option Nat} {l : List WriteRequest} {x : Nat}

@[simp] theorem promoteOne_offset : (promoteOne full r).offset = r.offset := by
  unfold promoteOne
  split
  · rfl
  · split <;> rfl

@[simp] theorem promoteOne_cache : (promoteOne full r).cache = r.cache := by
  unfold promoteOne
  split
  · rfl
  · split <;> rfl

@[simp] theorem promoteOne_ip : (promoteOne full r).state = requestIp ↔ r.state = requestIp := by
  unfold promoteOne
  split
  · rfl
  · split
    · rename_i h
      simp [h.1]
    · rfl

@[simp] theorem promoteOne_none : promoteOne none r = r := rfl

@[simp] theorem promote_none : promote none l = l :=
  List.map_id l

@[simp] theorem promoteOne_count : (promoteOne full r).count = r.count := by
  rw [WriteRequest.count, promoteOne_cache, WriteRequest.count]

@[simp] theorem promoteOne_fin : (promoteOne full r).fin = r.fin := by
  rw [WriteRequest.fin, promoteOne_offset, promoteOne_count, WriteRequest.fin]

@[simp] theorem promoteOne_byte : (promoteOne full r).byte x = r.byte x := by
  rw [WriteRequest.byte, promoteOne_offset, promoteOne_cache, WriteRequest.byte]

@[simp] theorem overlay_promote (full : Option Nat) (l : List WriteRequest) (x : Nat) :
    overlay WriteRequest.byte (promote full l) x = overlay WriteRequest.byte l x := by
  induction l with
  | nil => rfl
  | cons r l ih =>
    rw [show promote full (r :: l) = promoteOne full r :: promote full l from rfl, overlay_cons, overlay_cons, ih,
      promoteOne_byte]

/-- A request holds something, and not more than its cache block. -/
def Fits (cs : Nat) (r : WriteRequest) : Prop :=
  0 < r.count ∧ r.count ≤ cs

/-- Requests come in file order and do not overlap. -/
def InOrder (l : List WriteRequest) : Prop :=
  l.Pairwise fun a b => a.fin ≤ b.offset

/-- The bytes of a request for the index partition are already on the data partition. -/
def Settled (raw : Nat → UInt8) (r : WriteRequest) : Prop :=
  r.state = requestIp → ∀ x b, r.byte x = some b → raw x = b

theorem byte_of_lt (h : x < r.offset) : r.byte x = none := cell_of_lt h

theorem byte_of_ge (h : r.fin ≤ x) : r.byte x = none := cell_of_ge h

theorem byte_inside (h : r.offset ≤ x) (h' : x < r.fin) : ∃ b, r.byte x = some b := cell_inside h h'

theorem byte_bounds {b : UInt8} (h : r.byte x = some b) : r.offset ≤ x ∧ x < r.fin := by
  constructor
  · by_contra hx
    rw [byte_of_lt (Nat.not_le.1 hx)] at h
    cases h
  · by_contra hx
    rw [byte_of_ge (Nat.not_lt.1 hx)] at h
    cases h

theorem byte_behind (r : WriteRequest) (n x : Nat) :
    (r.behind n).byte x = if x < r.offset + n then none else r.byte x :=
  cell_drop r.offset n r.cache x

theorem byte_upTo {r : WriteRequest} {y : Nat} (h : r.offset ≤ y) (x : Nat) :
    (r.upTo y).byte x = if x < y then r.byte x else none := by
  have := cell_take r.offset (y - r.offset) r.cache x
  rw [show r.offset + (y - r.offset) = y by omega] at this
  exact this

theorem fin_behind {n : Nat} (h : n ≤ r.count) : (r.behind n).fin = r.fin := by
  simp only [WriteRequest.fin, WriteRequest.count, WriteRequest.behind, List.length_drop] at *
  omega

theorem fin_upTo {y : Nat} (h : r.offset ≤ y) (h' : y ≤ r.fin) : (r.upTo y).fin = y := by
  simp only [WriteRequest.fin, WriteRequest.count, WriteRequest.upTo, List.length_take] at *
  omega

theorem Fits.behind {n : Nat} (h : Fits cs r) (hn : n < r.count) : Fits cs (r.behind n) := by
  simp only [Fits, WriteRequest.count, WriteRequest.behind, List.length_drop] at *
  omega

theorem Fits.upTo {y : Nat} (h : Fits cs r) (hy : r.offset < y) : Fits cs (r.upTo y) := by
  simp only [Fits, WriteRequest.count, WriteRequest.upTo, List.length_take] at *
  omega

theorem Settled.behind {raw : Nat → UInt8} (h : Settled raw r) (n : Nat) : Settled raw (r.behind n) := by
  intro hs x b hb
  rw [byte_behind] at hb
  split at hb
  · cases hb
  · exact h hs x b hb

theorem Settled.upTo {raw : Nat → UInt8} {y : Nat} (h : Settled raw r) (hy : r.offset ≤ y) :
    Settled raw (r.upTo y) := by
  intro hs x b hb
  rw [byte_upTo hy] at hb
  split at hb
  · exact h hs x b hb
  · cases hb

theorem Settled.of_ne {raw : Nat → UInt8} (h : r.state ≠ requestIp) : Settled raw r :=
  fun hs => absurd hs h

/-- What `_unified_update_request` makes of a request. -/
structure Updated (cs : Nat) (r : WriteRequest) (offset : Nat) (buf : Bytes) (r' : WriteRequest) (n : Nat)
    (full : Option Nat) : Prop where
  taken : n = min (r.offset + cs - offset) buf.length
  offset_eq : r'.offset = r.offset
  fin_eq : r'.fin = max r.fin (offset + n)
  ip : r'.state = requestIp ↔ r.state = requestIp
  quiet : r.state = requestIp → full = none
  bytes : ∀ x, r'.byte x = (cell offset (buf.take n) x).or (r.byte x)

theorem updateRequest_updated {offset : Nat} (buf : Bytes) (h₁ : r.offset ≤ offset) (h₂ : offset ≤ r.fin) :
    Updated cs r offset buf (updateRequest cs r offset buf).1 (updateRequest cs r offset buf).2.1
      (updateRequest cs r offset buf).2.2 := by
  generalize hn : min (r.offset + cs - offset) buf.length = n
  generalize hc : r.cache.take (offset - r.offset) ++
    (buf.take n ++ r.cache.drop (offset - r.offset + n)) = cache
  have hfin : r.offset + cache.length = max r.fin (offset + n) := by
    simp only [← hc, List.length_append, List.length_take, List.length_drop, WriteRequest.fin, WriteRequest.count]
      at h₂ ⊢
    omega
  have hbytes : ∀ x, cell r.offset cache x = (cell offset (buf.take n) x).or (r.byte x) := by
    intro x
    have hl₁ : r.offset + (r.cache.take (offset - r.offset)).length = offset := by
      simp only [List.length_take, WriteRequest.fin, WriteRequest.count] at h₂ ⊢
      omega
    have hl₂ : offset + (buf.take n).length = r.offset + (offset - r.offset + n) := by
      simp only [List.length_take]
      omega
    rw [← hc, cell_append, cell_append, hl₁, hl₂, cell_take, cell_drop]
    by_cases hx : x < offset
    · rw [if_pos (by omega), if_pos (by omega), cell_of_lt hx]
      simp [WriteRequest.byte]
    · rw [if_neg (by omega), Option.none_or]
      by_cases hx' : x < r.offset + (offset - r.offset + n)
      · obtain ⟨b, hb⟩ : ∃ b, cell offset (buf.take n) x = some b := cell_inside (Nat.not_lt.1 hx) (by omega)
        rw [hb]
        rfl
      · rw [if_neg hx', WriteRequest.byte]
  simp only [updateRequest, hn, hc]
  split
  · rename_i h
    exact ⟨hn.symm, rfl, hfin, by simp [h.1], fun h' => by simp [h.1] at h', hbytes⟩
  · exact ⟨hn.symm, rfl, hfin, Iff.rfl, fun _ => rfl, hbytes⟩

theorem Updated.fits {offset n : Nat} {buf : Bytes} {r' : WriteRequest} (h : Updated cs r offset buf r' n full)
    (hr : Fits cs r) (ho : offset ≤ r.fin) : Fits cs r' := by
  have h₁ := h.taken
  have h₂ := h.fin_eq
  have h₃ := h.offset_eq
  simp only [Fits, WriteRequest.fin] at *
  omega

/-- What `_unified_merge_requests` makes of two requests. -/
structure MergeSpec (cs : Nat) (dest src : WriteRequest) (m : Merged) : Prop where
  offset_eq : m.dest.offset = dest.offset
  fits : Fits cs m.dest
  ip : m.dest.state = requestIp ↔ dest.state = requestIp
  fin_ge : dest.fin ≤ m.dest.fin
  fin_le : m.dest.fin ≤ max dest.fin src.fin
  reach : m.reach ≤ max dest.fin src.fin
  bytes : ∀ x, (m.dest.byte x).or (overlay WriteRequest.byte m.src.toList x) = (dest.byte x).or (src.byte x)
  left : ∀ s, m.src = some s → Fits cs s ∧ (s.state = requestIp ↔ src.state = requestIp) ∧ s.fin = src.fin ∧
    s.offset = max src.offset m.dest.fin ∧ ∀ raw, Settled raw src → Settled raw s
  gone : m.src = none → src.fin ≤ m.dest.fin
  same : m.changed = false → m = ⟨dest, some src, none, 0, false⟩
  settled : ∀ raw, Settled raw dest → Settled raw src → Settled raw m.dest
  keeps : dest.count = cs ∨ (dest.state = requestIp ∧ dest.fin ≤ src.offset ∧
    (src.state = requestIp → dest.fin ≠ src.offset)) → m.dest = dest ∧ m.full = none

/-- What is left when `dest` covers the first `n` bytes of `src`. -/
structure TrimSpec (cs : Nat) (dest src : WriteRequest) (full : Option Nat) (reach n : Nat) (m : Merged) : Prop where
  dest_eq : m.dest = dest
  full_eq : m.full = full
  reach_eq : m.reach = reach
  bytes : ∀ x, (m.dest.byte x).or (overlay WriteRequest.byte m.src.toList x) =
    (dest.byte x).or (if x < src.offset + n then none else src.byte x)
  left : ∀ s, m.src = some s → Fits cs s ∧ (s.state = requestIp ↔ src.state = requestIp) ∧ s.fin = src.fin ∧
    s.offset = max src.offset m.dest.fin ∧ ∀ raw, Settled raw src → Settled raw s
  gone : m.src = none → src.fin ≤ m.dest.fin
  same : m.changed = false → n = 0 ∧ m = ⟨dest, some src, full, reach, false⟩

theorem trimSource_spec (dest src : WriteRequest) (full : Option Nat) (reach n : Nat)
    (hsrc : Fits cs src) (hle : src.offset + n ≤ dest.fin) (hge : n < src.count → dest.fin = src.offset + n) :
    TrimSpec cs dest src full reach n (trimSource dest src full reach n) := by
  have hfin : src.fin = src.offset + src.count := rfl
  unfold trimSource
  split_ifs with h₀ h₁
  · subst h₀
    have hpos := hge hsrc.1
    refine ⟨rfl, rfl, rfl, ?_, ?_, nofun, fun _ => ⟨rfl, rfl⟩⟩
    · intro x
      simp only [Option.toList_some, overlay_cons, overlay_nil, Option.or_none, Nat.add_zero]
      split
      · rename_i hx
        rw [byte_of_lt hx]
      · rfl
    · rintro s ⟨⟩
      refine ⟨hsrc, Iff.rfl, rfl, ?_, fun _ h => h⟩
      simp only
      omega
  · have hpos := hge h₁
    have hcut : ∀ x, (cutFront src n).byte x = if x < src.offset + n then none else src.byte x :=
      byte_behind src n
    have hip : (cutFront src n).state = requestIp ↔ src.state = requestIp := by
      unfold cutFront
      simp only
      split
      · rename_i h
        simp [h]
      · rfl
    refine ⟨rfl, rfl, rfl, ?_, ?_, nofun, nofun⟩
    · intro x
      simp only [Option.toList_some, overlay_cons, overlay_nil, Option.or_none, hcut]
    · rintro s ⟨⟩
      have ho : (cutFront src n).offset = src.offset + n := rfl
      refine ⟨hsrc.behind h₁, hip, fin_behind (Nat.le_of_lt h₁), ?_, ?_⟩
      · simp only
        omega
      · intro raw hs hst x b hb
        rw [hcut] at hb
        split at hb
        · cases hb
        · exact hs (hip.1 hst) x b hb
  · refine ⟨rfl, rfl, rfl, ?_, nofun, fun _ => ?_, nofun⟩
    · intro x
      simp only [Option.toList_none, overlay_nil, Option.or_none]
      split
      · rw [Option.or_none]
      · rw [byte_of_ge (r := src) (by omega), Option.or_none]
    · simp only
      omega

theorem or_cut_of_le {n : Nat} (h₀ : dest.offset ≤ src.offset) (h : src.offset + n ≤ dest.fin) (x : Nat) :
    (dest.byte x).or (if x < src.offset + n then none else src.byte x) = (dest.byte x).or (src.byte x) := by
  split
  · by_cases hx : x < src.offset
    · rw [byte_of_lt hx]
    · obtain ⟨b, hb⟩ := byte_inside (r := dest) (x := x) (by omega) (by omega)
      rw [hb]
      rfl
  · rfl

theorem mergeRequests_spec (hd : Fits cs dest) (hs : Fits cs src) (ho : dest.offset ≤ src.offset) :
    MergeSpec cs dest src (mergeRequests cs dest src) := by
  have hdf : dest.fin = dest.offset + dest.count := rfl
  have hsf : src.fin = src.offset + src.count := rfl
  simp only [mergeRequests]
  split_ifs with h₁ h₂ h₃
  · refine ⟨rfl, hd, Iff.rfl, Nat.le_refl _, Nat.le_max_left _ _, Nat.zero_le _, ?_, ?_, nofun,
      fun _ => rfl, fun _ h _ => h, fun _ => ⟨rfl, rfl⟩⟩
    · intro x
      simp
    · rintro s ⟨⟩
      refine ⟨hs, Iff.rfl, rfl, ?_, fun _ h => h⟩
      dsimp only
      omega
  · obtain ⟨e₁, e₂, e₃, hb, hl, hg, hc⟩ := trimSource_spec dest src none 0 (dest.fin - src.offset) hs
      (by omega) (fun h => by omega)
    refine ⟨by rw [e₁], by rwa [e₁], by rw [e₁], Nat.le_of_eq (by rw [e₁]), ?_, ?_, fun x => ?_, hl, hg, fun h => ?_, ?_, ?_⟩
    · rw [e₁]
      exact Nat.le_max_left _ _
    · rw [e₃]
      exact Nat.zero_le _
    · rw [hb, or_cut_of_le ho (by omega)]
    · exact (hc h).2
    · rw [e₁]
      exact fun _ h _ => h
    · exact fun _ => ⟨e₁, e₂⟩
  · have hu := @updateRequest_updated cs dest (src.offset + (dest.fin - src.offset))
      (src.cache.drop (dest.fin - src.offset)) (by omega) (by omega)
    generalize updateRequest cs dest (src.offset + (dest.fin - src.offset))
      (src.cache.drop (dest.fin - src.offset)) = y at hu ⊢
    obtain ⟨dest', k, full⟩ := y
    simp only at hu ⊢
    have hf : Fits cs dest' := hu.fits hd (by omega)
    have hk := hu.taken
    have hfin := hu.fin_eq
    have hoff := hu.offset_eq
    rw [List.length_drop] at hk
    have hcount : src.cache.length = src.count := rfl
    have hdest' : dest'.fin = dest'.offset + dest'.count := rfl
    have hpos : 0 < k := by omega
    have hcount' : (promoteOne full src).count = src.count := promoteOne_count
    have hsf' : Fits cs (promoteOne full src) := by
      simpa only [Fits, promoteOne_count] using hs
    obtain ⟨e₁, e₂, e₃, hb, hl, hg, hc⟩ := trimSource_spec dest' (promoteOne full src) full dest'.fin
      (dest.fin - src.offset + k) hsf' (by rw [promoteOne_offset]; omega)
      (fun h => by rw [promoteOne_offset]; omega)
    have hdrop : ∀ x, cell (src.offset + (dest.fin - src.offset))
        ((src.cache.drop (dest.fin - src.offset)).take k) x =
        if x < src.offset + (dest.fin - src.offset) ∨ src.offset + (dest.fin - src.offset) + k ≤ x then none
        else src.byte x := by
      intro x
      rw [cell_take, cell_drop, WriteRequest.byte]
      split_ifs <;> first | rfl | omega
    refine ⟨by rw [e₁, hoff], by rwa [e₁], by rw [e₁, hu.ip], by rw [e₁]; omega, by rw [e₁]; omega, ?_,
      fun x => ?_, ?_, ?_, fun h => ?_, ?_, ?_⟩
    · rw [e₃]
      omega
    · rw [hb, hu.bytes, hdrop, promoteOne_offset, promoteOne_byte]
      by_cases hx : x < src.offset + (dest.fin - src.offset)
      · rw [if_pos (.inl hx), if_pos (by omega), Option.none_or, Option.or_none]
        have := or_cut_of_le ho (by omega : src.offset + (dest.fin - src.offset) ≤ dest.fin) x
        rw [if_pos hx] at this
        rw [← this, Option.or_none]
      · rw [byte_of_ge (r := dest) (by omega), Option.or_none, Option.none_or]
        by_cases hx' : src.offset + (dest.fin - src.offset) + k ≤ x
        · rw [if_pos (.inr hx'), if_neg (by omega), Option.none_or]
        · rw [if_neg (by omega), if_pos (by omega), Option.or_none]
    · intro s hsome
      obtain ⟨a₁, a₂, a₃, a₄, a₅⟩ := hl s hsome
      refine ⟨a₁, by rw [a₂, promoteOne_ip], by rw [a₃, promoteOne_fin], by rw [a₄, promoteOne_offset],
        fun raw h => a₅ raw fun hi x b hx => ?_⟩
      rw [promoteOne_ip] at hi
      rw [promoteOne_byte] at hx
      exact h hi x b hx
    · intro hnone
      have := hg hnone
      rwa [promoteOne_fin] at this
    · have := (hc h).1
      omega
    · rw [e₁]
      intro raw hd' hs' hi x b hx
      have hdi : dest.state = requestIp := hu.ip.1 hi
      have hsi : src.state = requestIp := by
        by_contra hn
        exact h₂ ⟨fun h => hn (h ▸ hdi), .inl hdi⟩
      rw [hu.bytes, hdrop] at hx
      split at hx
      · exact hd' hdi x b hx
      · cases hsb : src.byte x with
        | none =>
          rw [hsb] at hx
          exact hd' hdi x b hx
        | some b' =>
          rw [hsb] at hx
          obtain rfl : b' = b := Option.some.inj hx
          exact hs' hsi x b' hsb
    · rintro (h | ⟨hi, hle, hne⟩)
      · omega
      · exfalso
        have hsi : src.state = requestIp := by
          by_contra hn
          exact h₂ ⟨fun h => hn (h ▸ hi), .inl hi⟩
        have := hne hsi
        omega
  · obtain ⟨e₁, e₂, e₃, hb, hl, hg, hc⟩ := trimSource_spec dest src none 0 (dest.fin - src.offset) hs
      (by omega) (fun h => by omega)
    refine ⟨by rw [e₁], by rwa [e₁], by rw [e₁], Nat.le_of_eq (by rw [e₁]), ?_, ?_, fun x => ?_, hl, hg, fun h => ?_, ?_, ?_⟩
    · rw [e₁]
      exact Nat.le_max_left _ _
    · rw [e₃]
      exact Nat.zero_le _
    · rw [hb, or_cut_of_le ho (by omega)]
    · exact (hc h).2
    · rw [e₁]
      exact fun _ h _ => h
    · exact fun _ => ⟨e₁, e₂⟩

end Ltfs.RequestSpec
