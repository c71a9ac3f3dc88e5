import Ltfs.TapeSpec
import Ltfs.WriteIndex

namespace Ltfs.WriteSession

open Format Lib.Log Records TapeDevice TapeSpec WriteIndex

/-- A command of a write session, sent when the records `ws₁` were down and adding at most one. -/
def Sent (p : Part) (b : Nat) (v : Volume) (ws : List Record) (e : Event) : Prop :=
  e.completed = v.completed ∧ e.root = v.index.root ∧ (∀ q, e.command ≠ .setCoherency q) ∧
    ∃ ws₁ ws₂, ws₁ ++ ws₂ <+: ws ∧ ws₂.length ≤ 1 ∧
      e.before = mediumAfter v.tape.medium p b ws₁ ∧ e.after = mediumAfter v.tape.medium p b (ws₁ ++ ws₂)

/-- A write session: from `v` on, the records `ws` have gone to partition `p` from block `b`, and the
head stands behind them. -/
structure Session (p : Part) (b : Nat) (v : Volume) (ws : List Record) (v' : Volume) : Prop where
  bound : b ≤ (v.tape.recs p).length
  same : v' = { v with tape := v'.tape, history := v'.history }
  medium : v'.tape.medium = mediumAfter v.tape.medium p b ws
  part : v'.tape.dev.part = p
  block : v'.tape.dev.block = b + ws.length
  append : v'.tape.dev.appendPos = v.tape.dev.appendPos.set p (b + ws.length)
  limits : limits v'.tape.dev = limits v.tape.dev
  writeError : v.tape.dev.writeError = true → v'.tape.dev.writeError = true
  writable : ws ≠ [] → Writable v.tape
  events : ∃ es, v'.history = es ++ v.history ∧ ∀ e ∈ es, Sent p b v ws e

variable {p : Part} {b : Nat} {v v' : Volume} {ws rs : List Record} {c : Command}
  {f : Tape → Result × Tape}

theorem Sent.mono {e : Event} (h : Sent p b v ws e) (rs : List Record) : Sent p b v (ws ++ rs) e := by
  obtain ⟨hc, hr, hs, ws₁, ws₂, hp, hl, hb, ha⟩ := h
  exact ⟨hc, hr, hs, ws₁, ws₂, hp.trans (List.prefix_append ws rs), hl, hb, ha⟩

theorem Session.start (hb : b ≤ (v.tape.recs p).length) (hp : v.tape.dev.part = p)
    (hk : v.tape.dev.block = b) (ha : v.tape.dev.appendPos.get p = b) : Session p b v [] v where
  bound := hb
  same := rfl
  medium := by simp
  part := hp
  block := hk
  append := by simp [← ha]
  limits := rfl
  writeError := id
  writable := fun h => absurd rfl h
  events := ⟨[], rfl, by simp⟩

theorem Session.refused (h : Session p b v ws v') (hc : ∀ q, c ≠ .setCoherency q)
    (hf : Refused v'.tape (f v'.tape)) : Session p b v ws (v'.issue c f).2 := by
  obtain ⟨es, hes, hall⟩ := h.events
  have hm : (f v'.tape).2.medium = mediumAfter v.tape.medium p b ws := hf.medium.trans h.medium
  refine ⟨h.bound, ?_, hm, hf.part.trans h.part, hf.block.trans h.block, hf.append.trans h.append,
    hf.limits.trans h.limits, fun hw => hf.writeError (h.writeError hw), h.writable,
    ⟨_ :: es, congrArg _ hes, ?_⟩⟩
  · rw [h.same]
    rfl
  · intro e he
    obtain rfl | he := List.mem_cons.mp he
    · exact ⟨by rw [h.same], by rw [h.same], hc, ws, [], by simp, by simp, h.medium, by simpa using hm⟩
    · exact hall e he

theorem Session.writable_start (h : Session p b v ws v') (hw : Writable v'.tape) : Writable v.tape := by
  have hl := h.limits
  simp only [TapeSpec.limits, Prod.mk.injEq] at hl
  refine ⟨hl.1.symm.trans hw.1, ?_⟩
  cases he : v.tape.dev.writeError with
  | false => rfl
  | true => exact (h.writeError he).symm.trans hw.2

theorem Session.recorded (h : Session p b v ws v') (hc : ∀ q, c ≠ .setCoherency q) (hw : Writable v'.tape)
    (hf : Recorded v'.tape rs (f v'.tape)) (hl : rs.length ≤ 1) :
    Session p b v (ws ++ rs) (v'.issue c f).2 := by
  obtain ⟨es, hes, hall⟩ := h.events
  have hm : (f v'.tape).2.medium = mediumAfter v.tape.medium p b (ws ++ rs) := by
    rw [hf.medium, h.medium, h.part, h.block]
    exact mediumAfter_mediumAfter _ p b ws h.bound rs
  have hb : (f v'.tape).2.dev.block = b + (ws ++ rs).length := by
    rw [hf.block, h.block, List.length_append, Nat.add_assoc]
  have ha : (f v'.tape).2.dev.appendPos = v.tape.dev.appendPos.set p (b + (ws ++ rs).length) := by
    rw [hf.append, h.append, h.part, h.block, List.length_append, Nat.add_assoc, Sides.set_set]
  refine ⟨h.bound, ?_, hm, hf.part.trans h.part, hb, ha, hf.limits.trans h.limits,
    fun hw => hf.writeError.trans (h.writeError hw), fun _ => h.writable_start hw,
    ⟨_ :: es, congrArg _ hes, ?_⟩⟩
  · rw [h.same]
    rfl
  · intro e he
    obtain rfl | he := List.mem_cons.mp he
    · exact ⟨by rw [h.same], by rw [h.same], hc, ws, rs, List.prefix_refl _, hl, h.medium, hm⟩
    · exact (hall e he).mono rs

theorem Recorded.writable {t : Tape} {x : Result × Tape} (h : Recorded t rs x) (hw : Writable t) :
    Writable x.2 := by
  have := h.limits
  simp only [TapeSpec.limits, Prod.mk.injEq] at this
  exact ⟨this.1.trans hw.1, h.writeError.trans hw.2⟩

/-- What one write of an index session leaves behind. -/
theorem Session.attempt (h : Session p b v ws v') {a : Answer} (hc : ∀ q, c ≠ .setCoherency q)
    (hf : Attempt v'.tape rs a (f v'.tape)) (hl : rs.length ≤ 1) :
    (∃ e u, v'.issue c f = (.error e, u) ∧ Session p b v ws u ∧
      (Writable v'.tape → a = .fail e ∧ (e.needReval = true ∨ u.tape.dev.writeError = true))) ∨
    (∃ u, v'.issue c f = (.ok (), u) ∧ a.isGood = true ∧ Writable v'.tape ∧ Writable u.tape ∧
      Session p b v (ws ++ rs) u) := by
  obtain ⟨e, he, hr, hw⟩ | ⟨hok, ha, hw, hr⟩ := hf
  · exact .inl ⟨e, _, Prod.ext he rfl, h.refused hc hr, hw⟩
  · exact .inr ⟨_, Prod.ext hok rfl, ha, hw, Recorded.writable hr hw, h.recorded hc hw hr hl⟩

end Ltfs.WriteSession
