import Ltfs.RequestCalls
import Ltfs.RequestSpec
import Mathlib.Tactic.Abel

namespace Ltfs.CallSpec

open Format Requests RequestState Unified RawFile Queues RequestCalls RequestSpec

/-- The numbers of requests in each state. -/
def tally (l : List WriteRequest) : RequestState → Nat := fun q => l.countP (fun r => r.state = q)

@[simp] theorem tally_nil : tally [] = 0 := rfl

@[simp] theorem tally_append (l m : List WriteRequest) : tally (l ++ m) = tally l + tally m := by
  funext q
  exact List.countP_append

theorem tally_cons (r : WriteRequest) (l : List WriteRequest) : tally (r :: l) = tally [r] + tally l :=
  tally_append [r] l

theorem tally_state {r r' : WriteRequest} (h : r.state = r'.state) : tally [r] = tally [r'] := by
  funext q
  simp [tally, h]

/-- The calls turn the numbers `a` into `b`, whatever else there is. -/
def Shifts (cs : List Call) (a b : RequestState → Nat) : Prop := ∀ u, bump cs (a + u) = b + u

variable {cs cs' : List Call} {a b d A B v : RequestState → Nat} {full : Option Nat}

theorem shifts_nil (a : RequestState → Nat) : Shifts [] a a := fun _ => rfl

theorem bump_append (cs cs' : List Call) (a : RequestState → Nat) : bump (cs ++ cs') a = bump cs' (bump cs a) :=
  List.foldl_append ..

theorem Shifts.append (h : Shifts cs a b) (h' : Shifts cs' b d) : Shifts (cs ++ cs') a d := by
  intro u
  rw [bump_append, h, h']

theorem Shifts.frame (h : Shifts cs a b) (hA : A = a + v) (hB : B = b + v) : Shifts cs A B := by
  intro u
  rw [hA, hB, add_assoc, add_assoc]
  exact h (v + u)

theorem Shifts.bump (h : Shifts cs a b) : bump cs a = b := by
  have h0 := h 0
  rwa [add_zero, add_zero] at h0

theorem shifts_addTo (r : WriteRequest) : Shifts [addTo r.state] 0 (tally [r]) := by
  intro u
  funext q
  by_cases hq : q = r.state
  · subst hq
    simp [Queues.bump, bumpOne, addTo, tally]
    omega
  · have hq' : ¬ r.state = q := fun h => hq h.symm
    simp [Queues.bump, bumpOne, addTo, tally, hq, hq']

theorem shifts_removeFrom (r : WriteRequest) : Shifts [removeFrom r.state] (tally [r]) 0 := by
  intro u
  funext q
  by_cases hq : q = r.state
  · subst hq
    simp [Queues.bump, bumpOne, removeFrom, tally, leaving]
  · have hq' : ¬ r.state = q := fun h => hq h.symm
    simp [Queues.bump, bumpOne, removeFrom, tally, hq, hq']

/-- A request changes its state. -/
theorem shifts_change {r r' : WriteRequest} {q q' : RequestState} (h : r.state = q) (h' : r'.state = q') :
    Shifts [removeFrom q, addTo q'] (tally [r]) (tally [r']) := by
  subst h h'
  exact (shifts_removeFrom r).append (shifts_addTo r')

theorem shifts_promoteOne (full : Option Nat) (r : WriteRequest) :
    Shifts (promoteCalls full [r]) (tally [r]) (tally [promoteOne full r]) := by
  cases full with
  | none => exact shifts_nil _
  | some offset =>
    by_cases h : r.state = requestPartial ∧ r.offset ≤ offset
    · have hcalls : promoteCalls (some offset) [r] = [removeFrom requestPartial, addTo requestDp] := by
        simp [promoteCalls, h]
      rw [hcalls, promoteOne, if_pos h]
      exact shifts_change h.1 rfl
    · have hcalls : promoteCalls (some offset) [r] = [] := by
        simp only [promoteCalls, List.flatMap_cons, List.flatMap_nil, if_neg h, List.append_nil]
      rw [hcalls, promoteOne, if_neg h]
      exact shifts_nil _

theorem promoteCalls_append (full : Option Nat) (l m : List WriteRequest) :
    promoteCalls full (l ++ m) = promoteCalls full l ++ promoteCalls full m := by
  cases full with
  | none => rfl
  | some offset => exact List.flatMap_append

theorem shifts_promote (full : Option Nat) (l : List WriteRequest) :
    Shifts (promoteCalls full l) (tally l) (tally (promote full l)) := by
  induction l with
  | nil => cases full <;> exact shifts_nil _
  | cons r l ih =>
    have hr := shifts_promoteOne full r
    rw [← List.singleton_append, promoteCalls_append]
    apply Shifts.append (b := tally (promoteOne full r :: l))
    · exact hr.frame (tally_cons r l) (tally_cons _ l)
    · refine ih.frame (v := tally [promoteOne full r]) ?_ ?_
      · rw [tally_cons, add_comm]
      · rw [promote, List.map_append, List.map_singleton, tally_append, add_comm]
        rfl

variable {cacheSize : Nat} {dest src req : WriteRequest}

theorem updateRequest_state {offset : Nat} (buf : Bytes) (h : req.offset ≤ offset) :
    (updateRequest cacheSize req offset buf).1.state =
      (promoteOne (updateRequest cacheSize req offset buf).2.2 req).state := by
  rw [updateRequest]
  split_ifs with hfull
  · simp [promoteOne, hfull.1, h]
  · rfl

theorem shifts_trim (dest src : WriteRequest) (full : Option Nat) (reach n : Nat) :
    Shifts (trimCalls src n) (tally [src]) (tally (trimSource dest src full reach n).src.toList) := by
  rw [trimCalls, trimSource]
  split_ifs with h0 hn hdp
  · exact shifts_nil _
  · exact shifts_change hdp (by simp [cutFront, hdp])
  · have hsrc : tally [cutFront src n] = tally [src] := tally_state (by simp [cutFront, hdp])
    rw [Option.toList_some, hsrc]
    exact shifts_nil _
  · exact shifts_removeFrom src

theorem trimSource_dest (dest src : WriteRequest) (full : Option Nat) (reach n : Nat) :
    (trimSource dest src full reach n).dest = dest ∧ (trimSource dest src full reach n).full = full := by
  rw [trimSource]
  split_ifs <;> exact ⟨rfl, rfl⟩

/-- The numbers after a merge of `src` into `dest`, in a list where the two stand in this order. -/
def mergedTally (cacheSize : Nat) (x : List WriteRequest) (dest : WriteRequest) (y : List WriteRequest)
    (src : WriteRequest) (z : List WriteRequest) : RequestState → Nat :=
  let m := mergeRequests cacheSize dest src
  tally (promote m.full x) + tally [m.dest] + tally (promote m.full y) + tally m.src.toList +
    tally (promote m.full z)

variable {x y z : List WriteRequest}

theorem tally_pair (x : List WriteRequest) (dest : WriteRequest) (y : List WriteRequest) (src : WriteRequest)
    (z : List WriteRequest) : tally (x ++ dest :: (y ++ src :: z)) =
      tally [src] + (tally x + tally [dest] + tally y + tally z) := by
  rw [tally_append, tally_cons dest, tally_append, tally_cons src]
  abel

theorem shifts_merge_trim (reach n : Nat) :
    Shifts (trimCalls src n) (tally (x ++ dest :: (y ++ src :: z)))
      (tally x + tally [dest] + tally y + tally (trimSource dest src none reach n).src.toList + tally z) := by
  refine (shifts_trim dest src none reach n).frame (tally_pair x dest y src z) ?_
  abel

/-- When `dest` takes bytes of `src`, it may get full, and then both count as ready. -/
theorem shifts_merge_update {dest' : WriteRequest} (full : Option Nat) (reach n : Nat)
    (hdest : dest'.state = (promoteOne full dest).state) :
    Shifts (promoteCalls full (x ++ dest :: (y ++ src :: z)) ++ trimCalls (promoteOne full src) n)
      (tally (x ++ dest :: (y ++ src :: z)))
      (tally (promote full x) + tally [dest'] + tally (promote full y) +
        tally (trimSource dest' (promoteOne full src) full reach n).src.toList + tally (promote full z)) := by
  apply (shifts_promote full _).append
  refine (shifts_trim dest' (promoteOne full src) full reach n).frame
    (v := tally (promote full x) + tally [dest'] + tally (promote full y) + tally (promote full z)) ?_ ?_
  · have hlist : promote full (x ++ dest :: (y ++ src :: z)) =
        promote full x ++ promoteOne full dest :: (promote full y ++ promoteOne full src :: promote full z) := by
      simp [promote]
    rw [hlist, tally_pair, tally_state hdest]
  · abel

theorem shifts_merge :
    Shifts (mergeCalls cacheSize (x ++ dest :: (y ++ src :: z)) dest src) (tally (x ++ dest :: (y ++ src :: z)))
      (mergedTally cacheSize x dest y src z) := by
  rw [mergedTally, mergeCalls, mergeRequests]
  by_cases hgap : dest.fin < src.offset
  · have hsame : tally x + tally [dest] + tally y + tally [src] + tally z =
        tally (x ++ dest :: (y ++ src :: z)) := by
      rw [tally_pair]
      abel
    simp only [if_pos hgap, promote_none, Option.toList_some, hsame]
    exact shifts_nil _
  by_cases hstate : dest.state ≠ src.state ∧ (dest.state = requestIp ∨ src.state = requestIp)
  · simp only [if_neg hgap, if_pos hstate, trimSource_dest, promote_none]
    exact shifts_merge_trim _ _
  by_cases hroom : dest.count < cacheSize ∧ dest.fin - src.offset < src.count
  · have hoffset : dest.offset ≤ src.offset + (dest.fin - src.offset) := by
      have hfin : dest.offset ≤ dest.fin := Nat.le_add_right ..
      omega
    simp only [if_neg hgap, if_neg hstate, if_pos hroom, trimSource_dest, updateCalls]
    exact shifts_merge_update _ _ _ (updateRequest_state _ hoffset)
  · simp only [if_neg hgap, if_neg hstate, if_neg hroom, trimSource_dest, promote_none]
    exact shifts_merge_trim _ _

end Ltfs.CallSpec
