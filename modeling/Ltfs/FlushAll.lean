import Ltfs.FlushSpec
import Ltfs.SchedulerCounts

namespace Ltfs.FlushAll

open Format RawFile RawSpec Requests RequestState RequestSpec Unified Queues Scheduler QueueSpec RequestCalls CallSpec
open SchedulerRun SchedulerSpec DrainCalls ReadSpec FlushSpec

variable {ι : Type} [DecidableEq ι] (c : UnifiedData)

/-- The file as a step on it meets it. -/
def fileOf (w : World) (p : Option CountedPriv) : File :=
  ⟨w.contents, w.matchesNameCriteria, w.deleted, p.map (·.dpr), w.tape⟩

/-- `_unified_flush_unlocked` with its result -/
def flushOne (w : World) (i : ι) (s : Scheduler ι) : Option (Option WriteError × Scheduler ι) := do
  let s' ← SchedulerRun.unifiedFlushUnlocked c w i s
  return ((Unified.unifiedFlushUnlocked c (fileOf w (s.priv i))).1, s')

/-- `TAILQ_NEXT` -/
def next (l : List ι) (i : ι) : Option ι :=
  (l.dropWhile (· ≠ i)).tail.head?

/-- `TAILQ_FOREACH_SAFE` over a queue of the scheduler, left at the first error. The next entry is looked up
before the body changes the queue. -/
def foreachSafe (q : RequestState) (body : ι → Scheduler ι → Option (Option WriteError × Scheduler ι)) :
    Nat → Option ι → Scheduler ι → Option (Option WriteError × Scheduler ι)
  | _, none, s => some (none, s)
  | 0, some _, _ => none
  | fuel + 1, some i, s =>
    let aux := next (s.queue q) i
    match body i s with
    | some (none, s) => foreachSafe q body fuel aux s
    | res => res

/-- One of the loops of `_unified_flush_all` -/
def flushQueue (w : ι → World) (q : RequestState) (s : Scheduler ι) : Option (Option WriteError × Scheduler ι) :=
  foreachSafe q (fun i => flushOne c (w i) i) (s.queue q).length (s.queue q).head? s

/-- `_unified_flush_all` -/
def unifiedFlushAll (w : ι → World) (s : Scheduler ι) : Option (Option WriteError × Scheduler ι) :=
  match flushQueue c w requestDp s with
  | some (none, s) => flushQueue c w requestPartial s
  | res => res

/-- A step on file `i` leaves the other files and their places in the queues alone. -/
structure Aside (i : ι) (s s' : Scheduler ι) : Prop where
  priv : ∀ j ≠ i, s'.priv j = s.priv j
  queue : ∀ q, (s'.queue q).filter (· ≠ i) = (s.queue q).filter (· ≠ i)

variable {c} {s s' : Scheduler ι} {i : ι} {p : CountedPriv} {w : World} {q : RequestState}

theorem Aside.refl (i : ι) (s : Scheduler ι) : Aside i s s :=
  ⟨fun _ _ => rfl, fun _ => rfl⟩

theorem Aside.trans {s₁ : Scheduler ι} (h : Aside i s s₁) (h' : Aside i s₁ s') : Aside i s s' :=
  ⟨fun j hj => (h'.priv j hj).trans (h.priv j hj), fun q => (h'.queue q).trans (h.queue q)⟩

theorem aside_setPriv (x : Option CountedPriv) : Aside i s (s.setPriv i x) :=
  ⟨fun j hj => by rw [setPriv]; exact Function.update_of_ne hj _ _, fun q => rfl⟩

theorem filter_enqueue {l : List ι} {n : Nat} {m : List ι × Nat} (h : enqueue i l n = some m) :
    m.1.filter (· ≠ i) = l.filter (· ≠ i) := by
  rw [enqueue] at h
  split_ifs at h
  obtain rfl := Option.some.inj h
  simp

theorem filter_erase (l : List ι) : (l.erase i).filter (· ≠ i) = l.filter (· ≠ i) := by
  induction l with
  | nil => rfl
  | cons j l ih =>
    by_cases hj : j = i
    · subst hj
      simp
    · rw [List.erase_cons_tail (by simpa using hj), List.filter_cons_of_pos (by simpa using hj),
        List.filter_cons_of_pos (by simpa using hj), ih]

theorem filter_dequeue {l : List ι} {n : Nat} {m : List ι × Nat} (h : dequeue i l n = some m) :
    m.1.filter (· ≠ i) = l.filter (· ≠ i) := by
  rw [dequeue] at h
  split_ifs at h
  obtain rfl := Option.some.inj h
  exact filter_erase l

theorem aside_called {m : List ι × Nat} {total n : Nat} (hm : m.1.filter (· ≠ i) = (s.queue q).filter (· ≠ i)) :
    Aside i s (s.called q m total i p n) := by
  refine ⟨fun j hj => ?_, fun q' => ?_⟩
  · simp [called, setPriv, setQueue, hj]
  · by_cases hq : q' = q
    · subst hq
      simpa [called, setPriv, setQueue] using hm
    · simp [called, setPriv, setQueue, hq]

/-- All that a call does: the counters of one file change, and that file moves in a queue. -/
theorem updateQueueMembership_cases {cl : Call} (h : updateQueueMembership i s cl = some s') :
    ∃ (p : CountedPriv) (m : List ι × Nat) (total n : Nat), s.priv i = some p ∧
      m.1.filter (· ≠ i) = (s.queue cl.queue).filter (· ≠ i) ∧ s' = s.called cl.queue m total i p n := by
  simp only [updateQueueMembership] at h
  split at h
  next => cases h
  next p hp =>
    split at h
    · simp only [addMember, Option.bind_eq_bind, Option.bind_eq_some_iff] at h
      obtain ⟨m, hm, h⟩ := h
      refine ⟨p, m, _, _, hp, ?_, (Option.some.inj h).symm⟩
      rw [linkFirst] at hm
      split_ifs at hm
      · exact filter_enqueue hm
      · rw [← Option.some.inj hm]
    · simp only [removeMember, Option.bind_eq_bind, Option.bind_eq_some_iff] at h
      obtain ⟨m, hm, total, -, h⟩ := h
      refine ⟨p, m, total, _, hp, ?_, (Option.some.inj h).symm⟩
      rw [unlinkLast] at hm
      split_ifs at hm
      · exact filter_dequeue hm
      · rw [← Option.some.inj hm]

theorem aside_calls {cs : List Call} (h : calls i cs s = some s') : Aside i s s' := by
  induction cs generalizing s with
  | nil =>
    obtain rfl := Option.some.inj h
    exact Aside.refl i s
  | cons cl cs ih =>
    rw [calls, List.foldlM_cons, Option.bind_eq_bind, Option.bind_eq_some_iff] at h
    obtain ⟨s₁, h₁, h₂⟩ := h
    obtain ⟨p, m, total, n, -, hm, rfl⟩ := updateQueueMembership_cases h₁
    exact (aside_called hm).trans (ih h₂)

theorem aside_setDpr {dpr : DentryPriv} {cs : List Call} (h : setDpr i p dpr cs s = some s') : Aside i s s' :=
  (aside_setPriv _).trans (aside_calls h)

theorem calls_dpr {cs : List Call} (h : calls i cs s = some s') (hp : s.priv i = some p) :
    ∃ n, s'.priv i = some ⟨p.dpr, n⟩ := by
  induction cs generalizing s p with
  | nil =>
    obtain rfl := Option.some.inj h
    exact ⟨p.inQueue, hp⟩
  | cons cl cs ih =>
    rw [calls, List.foldlM_cons, Option.bind_eq_bind, Option.bind_eq_some_iff] at h
    obtain ⟨s₁, h₁, h₂⟩ := h
    obtain ⟨p₁, m, total, n, hp₁, -, rfl⟩ := updateQueueMembership_cases h₁
    obtain rfl : p₁ = p := Option.some.inj (hp₁.symm.trans hp)
    exact ih (p := p₁.setCount cl.queue n) h₂ (by simp [called, setPriv])

theorem setDpr_dpr {dpr : DentryPriv} {cs : List Call} (h : setDpr i p dpr cs s = some s') :
    ∃ n, s'.priv i = some ⟨dpr, n⟩ :=
  calls_dpr (p := { p with dpr := dpr }) h (by simp [setPriv])

/-- What a flush of one file does to the scheduler: the other files are left alone, and the file has the data
that the flush gave it. -/
theorem flush_priv (hs : Good s) (hp : s.priv i = some p) :
    ∃ s' dpr, SchedulerRun.unifiedFlushUnlocked c w i s = some s' ∧ Good s' ∧ Aside i s s' ∧
      (∃ n, s'.priv i = some ⟨dpr, n⟩) ∧ (Unified.unifiedFlushUnlocked c (fileOf w (some p))).2.dpr = some dpr := by
  obtain ⟨s', h, hs'⟩ := keeps_flush (c := c) (i := i) w s hs
  have hflush := h
  rw [SchedulerRun.unifiedFlushUnlocked, withPriv, hp] at h
  simp only [ne_eq] at h
  refine ⟨s', ?_⟩
  by_cases herr : p.dpr.writeError = none
  · by_cases hreq : p.dpr.requests = []
    · rw [if_neg (by simp [herr]), if_pos hreq] at h
      obtain rfl := Option.some.inj h
      refine ⟨{ p.dpr with writeError := none }, hflush, hs, Aside.refl i s, ⟨p.inQueue, ?_⟩, ?_⟩
      · rw [hp, ← herr]
      · simp [Unified.unifiedFlushUnlocked, Unified.unifiedGetWriteError, fileOf, herr, hreq]
    · rw [if_neg (by simp [herr]), if_neg hreq, Option.bind_eq_bind, Option.bind_eq_some_iff] at h
      obtain ⟨s₁, h₁, h₂⟩ := h
      obtain ⟨n, hp₁⟩ := setDpr_dpr h₁
      rw [SchedulerRun.unifiedGetWriteError, withPriv, hp₁] at h₂
      refine ⟨_, hflush, hs', (aside_setDpr h₁).trans (aside_setDpr h₂), setDpr_dpr h₂, ?_⟩
      have hsame : { p.dpr with writeError := none } = p.dpr := by
        rw [← herr]
      simp [Unified.unifiedFlushUnlocked, Unified.unifiedGetWriteError, fileOf, herr, hreq, hsame]
  · rw [if_pos (by simpa using herr), SchedulerRun.unifiedGetWriteError, withPriv, hp] at h
    refine ⟨_, hflush, hs', aside_setDpr h, setDpr_dpr h, ?_⟩
    obtain ⟨e, he⟩ := Option.ne_none_iff_exists'.1 herr
    simp [Unified.unifiedFlushUnlocked, Unified.unifiedGetWriteError, fileOf, he]

/-- Nothing of the file waits for the data partition. -/
def Settled (s : Scheduler ι) (i : ι) : Prop :=
  ∀ r ∈ s.requests i, r.state = requestIp

theorem flushOne_spec (w : World) (i : ι) (hs : Good s) :
    ∃ r s', flushOne c w i s = some (r, s') ∧ Good s' ∧ Aside i s s' ∧ (r = none → Settled s' i) := by
  cases hp : s.priv i with
  | none =>
    refine ⟨(Unified.unifiedFlushUnlocked c (fileOf w none)).1, s, ?_, hs, Aside.refl i s, fun _ r hr => ?_⟩
    · simp [flushOne, SchedulerRun.unifiedFlushUnlocked, withPriv, hp]
    · simp [requests, hp] at hr
  | some p =>
    obtain ⟨s', dpr, hflush, hs', haside, ⟨n, hp'⟩, hdpr⟩ := flush_priv (c := c) (w := w) hs hp
    refine ⟨_, s', by simp [flushOne, hflush, hp]; rfl, hs', haside, fun hok r hr => ?_⟩
    have hpending : pending c (Unified.unifiedFlushUnlocked c (fileOf w (some p))).2 = dpr.requests := by
      rw [pending, Unified.unifiedGetDentryPriv, hdpr]
    refine unifiedFlushUnlocked_states hok r ?_
    rw [hpending]
    simpa [requests, hp'] using hr

omit [DecidableEq ι] in
theorem notMem_queue (hs : Good s) (i : ι) (q : RequestState) :
    i ∉ s.queue q ↔ ∀ r ∈ s.requests i, r.state ≠ q := by
  rw [(hs.linked q).mem, SchedulerCounts.inQueue_eq_countP hs, Nat.not_lt, Nat.le_zero, List.countP_eq_zero]
  simp

/-- One of the loops: every file in the queue is flushed, and the others are left alone. -/
theorem foreachSafe_spec (w : ι → World) (hq : q ≠ requestIp) (l : List ι) (hs : Good s) (hl : s.queue q = l) :
    ∃ r s', foreachSafe q (fun i => flushOne c (w i) i) l.length l.head? s = some (r, s') ∧ Good s' ∧
      (∀ i ∉ l, s'.priv i = s.priv i) ∧ (r = none → ∀ i ∈ l, Settled s' i) := by
  induction l generalizing s with
  | nil => exact ⟨none, s, rfl, hs, fun _ _ => rfl, fun _ i hi => nomatch hi⟩
  | cons i l ih =>
    obtain ⟨r, s₁, hflush, hs₁, haside, hsettled⟩ := flushOne_spec (c := c) (w i) i hs
    have hnext : next (s.queue q) i = l.head? := by
      rw [hl, next, List.dropWhile_cons_of_neg (by simp), List.tail_cons]
    cases r with
    | some e =>
      refine ⟨some e, s₁, by simp [foreachSafe, hflush], hs₁, fun j hj => ?_, nofun⟩
      exact haside.priv j fun hji => hj (by simp [hji])
    | none =>
      have hset := hsettled rfl
      have hnodup := (hs.linked q).nodup
      rw [hl] at hnodup
      obtain ⟨hi, -⟩ := List.nodup_cons.1 hnodup
      -- the file is no longer in the queue, and the others are where they were
      have hout : i ∉ s₁.queue q := (notMem_queue hs₁ i q).2 fun r hr hst => hq (hst.symm.trans (hset r hr))
      have hqueue : s₁.queue q = l := by
        have hfilter := haside.queue q
        rw [hl, List.filter_cons_of_neg (by simp), List.filter_eq_self.2, List.filter_eq_self.2] at hfilter
        · exact hfilter
        · exact fun j hj => decide_eq_true fun hji => hi (hji ▸ hj)
        · exact fun j hj => decide_eq_true fun hji => hout (hji ▸ hj)
      obtain ⟨r, s', hloop, hs', hpriv, hall⟩ := ih hs₁ hqueue
      refine ⟨r, s', ?_, hs', fun j hj => ?_, fun hr j hj => ?_⟩
      · simp only [List.length_cons, List.head?_cons, foreachSafe, hflush, hnext]
        exact hloop
      · rw [List.mem_cons, not_or] at hj
        rw [hpriv j hj.2, haside.priv j hj.1]
      · obtain rfl | hj := List.mem_cons.1 hj
        · rw [Settled, requests, hpriv j hi]
          exact hset
        · exact hall hr j hj

theorem unifiedFlushAll_spec (w : ι → World) (hs : Good s) :
    ∃ r s', unifiedFlushAll c w s = some (r, s') ∧ (r = none → ∀ i, Settled s' i) := by
  obtain ⟨r, s₁, hloop, hs₁, hpriv₁, hset₁⟩ := foreachSafe_spec (c := c) (q := requestDp) w (by simp) _ hs rfl
  cases r with
  | some e => exact ⟨some e, s₁, by simp [unifiedFlushAll, flushQueue, hloop], nofun⟩
  | none =>
    obtain ⟨r, s', hloop', -, hpriv', hset'⟩ := foreachSafe_spec (c := c) (q := requestPartial) w (by simp) _ hs₁ rfl
    refine ⟨r, s', by simp [unifiedFlushAll, flushQueue, hloop, hloop'], fun hr i => ?_⟩
    by_cases hi : i ∈ s₁.queue requestPartial
    · exact hset' hr i hi
    rw [Settled, requests, hpriv' i hi]
    by_cases hdp : i ∈ s.queue requestDp
    · exact hset₁ rfl i hdp
    · -- the file was in neither queue
      intro req hreq
      have hreq₀ : req ∈ s.requests i := by
        rw [requests, ← hpriv₁ i hdp]
        exact hreq
      have hnd := (notMem_queue hs i requestDp).1 hdp req hreq₀
      have hnp := (notMem_queue hs₁ i requestPartial).1 hi req hreq
      cases hst : req.state with
      | requestPartial => exact absurd hst hnp
      | requestDp => exact absurd hst hnd
      | requestIp => rfl

/-- A flush that succeeds leaves nothing that waits for the data partition and does not change the file, and
in every state that the scheduler can reach, flushing everything leaves nothing for any file. -/
theorem flush_settles (c : UnifiedData) (ι : Type) [DecidableEq ι] :
    (∀ file : File, Sound c.label file.tape.store file.contents → InOrder (pending c file) →
      (Unified.unifiedFlushUnlocked c file).1 = none →
        let file' := (Unified.unifiedFlushUnlocked c file).2
        (∀ r ∈ pending c file', r.state = requestIp) ∧
        (∀ x, view (rawByte c.label file'.tape.store file'.contents) (pending c file') x =
          view (rawByte c.label file.tape.store file.contents) (pending c file) x) ∧
        max file'.contents.size (reach (pending c file')) = max file.contents.size (reach (pending c file))) ∧
    ∀ as : List (Step ι), ∃ s, run c as = some s ∧ ∀ w, ∃ res s', unifiedFlushAll c w s = some (res, s') ∧
      (res = none → ∀ i, ∀ r ∈ s'.requests i, r.state = requestIp) := by
  refine ⟨fun file hs hord hok => ?_, fun as => ?_⟩
  · have h := unifiedFlushUnlocked_flushed hs hord hok
    exact ⟨unifiedFlushUnlocked_states hok, h.bytes, h.size⟩
  · obtain ⟨s, h, hs⟩ :=
      Lib.Run.foldlM_invariant (fun s a hs => step_good (c := c) hs a) as SchedulerCounts.good_unifiedInit
    exact ⟨s, h, fun w => unifiedFlushAll_spec w hs⟩

/-- The two requests of a file of three bytes are flushed. -/
theorem flush_settles_threeBytes :
    let file' := (Unified.unifiedFlushUnlocked blocksOfFour threeBytes).2
    (Unified.unifiedFlushUnlocked blocksOfFour threeBytes).1 = none ∧ pending blocksOfFour file' = [] ∧
      ∀ x, view (rawByte blocksOfFour.label file'.tape.store file'.contents) (pending blocksOfFour file') x =
        view (rawByte blocksOfFour.label threeBytes.tape.store threeBytes.contents) (pending blocksOfFour threeBytes) x := by
  have hord : InOrder (pending blocksOfFour threeBytes) :=
    List.pairwise_cons.2 ⟨by decide, List.pairwise_singleton _ _⟩
  have h := (flush_settles blocksOfFour Unit).1 threeBytes threeBytes_sound hord (by decide)
  exact ⟨by decide, by decide, h.2.1⟩

end Ltfs.FlushAll
