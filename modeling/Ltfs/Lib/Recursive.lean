import Ltfs.Lib.Program
import Mathlib.Data.Set.Finite.Basic
import Mathlib.Logic.Relation
import Mathlib.Order.WellFounded
import Mathlib.Data.Fintype.Order

namespace Ltfs.Lib.Recursive

open Program Relation

variable {κ ρ : Type}

/-- A program whose actions are calls, with what they return taken from `call`. -/
def exec {α : Type} (call : κ → Option ρ) : Prog κ (fun _ => ρ) α → Option α
  | .ret a => some a
  | .act k f =>
    match call k with
    | none => none
    | some r => exec call (f r)

variable (body : κ → Prog κ (fun _ => ρ) ρ)

/-- A call of a recursive procedure, with a bound on the depth of calls. -/
def run : Nat → κ → Option ρ
  | 0, _ => none
  | n + 1, k => exec (run n) (body k)

def Result (k : κ) (r : ρ) : Prop :=
  ∃ n, run body n k = some r

def Returns (k : κ) : Prop :=
  ∃ r, Result body k r

/-- A program whose calls come back ends with `a`. -/
def Ends {α : Type} (p : Prog κ (fun _ => ρ) α) (a : α) : Prop :=
  ∃ n, exec (run body n) p = some a

/-- The calls that a program comes to, when the ones before it return. -/
inductive Asks {α : Type} : Prog κ (fun _ => ρ) α → κ → Prop
  | here (k : κ) (f : ρ → Prog κ (fun _ => ρ) α) : Asks (.act k f) k
  | later {k : κ} {f : ρ → Prog κ (fun _ => ρ) α} {r : ρ} {k' : κ} (hr : Result body k r) (h : Asks (f r) k') :
    Asks (.act k f) k'

def Calls (k k' : κ) : Prop :=
  Asks body (body k) k'

variable {body} {k k' : κ} {r r' : ρ} {m n : Nat} {α : Type} {p : Prog κ (fun _ => ρ) α} {a a' : α}

theorem exec_ret {call : κ → Option ρ} : exec call (.ret a) = some a' ↔ a = a' := by
  rw [exec, Option.some.injEq]

theorem exec_act {call : κ → Option ρ} {f : ρ → Prog κ (fun _ => ρ) α} :
    exec call (.act k f) = some a ↔ ∃ r, call k = some r ∧ exec call (f r) = some a := by
  rw [exec]
  cases call k with
  | none => simp
  | some r => simp

theorem asks_act {f : ρ → Prog κ (fun _ => ρ) α} :
    Asks body (.act k f) k' ↔ k' = k ∨ ∃ r, Result body k r ∧ Asks body (f r) k' := by
  constructor
  · intro h
    cases h with
    | here => exact .inl rfl
    | later hr h => exact .inr ⟨_, hr, h⟩
  · rintro (rfl | ⟨r, hr, h⟩)
    · exact .here k' f
    · exact .later hr h

theorem exec_mono {call call' : κ → Option ρ} (h : ∀ k r, call k = some r → call' k = some r)
    (hp : exec call p = some a) : exec call' p = some a := by
  induction p with
  | ret b => exact hp
  | act k f ih =>
    obtain ⟨r, hr, hf⟩ := exec_act.mp hp
    exact exec_act.mpr ⟨r, h k r hr, ih r hf⟩

theorem run_mono (hle : n ≤ m) (h : run body n k = some r) : run body m k = some r := by
  induction n generalizing m k r with
  | zero => cases h
  | succ n ih =>
    obtain ⟨m, rfl⟩ : ∃ l, m = l + 1 := ⟨m - 1, by omega⟩
    exact exec_mono (fun k r hk => ih (by omega) hk) h

theorem ends_ret : Ends body (.ret a) a' ↔ a = a' := by
  constructor
  · rintro ⟨n, hn⟩
    exact exec_ret.mp hn
  · intro h
    exact ⟨0, exec_ret.mpr h⟩

theorem ends_act {f : ρ → Prog κ (fun _ => ρ) α} :
    Ends body (.act k f) a ↔ ∃ r, Result body k r ∧ Ends body (f r) a := by
  constructor
  · rintro ⟨n, hn⟩
    obtain ⟨r, hr, hf⟩ := exec_act.mp hn
    exact ⟨r, ⟨n, hr⟩, n, hf⟩
  · rintro ⟨r, ⟨m, hm⟩, n, hn⟩
    refine ⟨max m n, exec_act.mpr ⟨r, run_mono (Nat.le_max_left m n) hm, ?_⟩⟩
    exact exec_mono (fun k r hk => run_mono (Nat.le_max_right m n) hk) hn

theorem result_iff : Result body k r ↔ Ends body (body k) r := by
  constructor
  · rintro ⟨n, hn⟩
    cases n with
    | zero => cases hn
    | succ n => exact ⟨n, hn⟩
  · rintro ⟨n, hn⟩
    exact ⟨n + 1, hn⟩

theorem Result.unique (h : Result body k r) (h' : Result body k r') : r = r' := by
  obtain ⟨n, hn⟩ := h
  obtain ⟨m, hm⟩ := h'
  have hn' := run_mono (Nat.le_max_left n m) hn
  rw [run_mono (Nat.le_max_right n m) hm] at hn'
  exact (Option.some.inj hn').symm

/-- A call that comes back has only made calls that come back at a smaller depth. -/
theorem exec_asks (h : exec (run body n) p = some a) (hk : Asks body p k) : ∃ r, run body n k = some r := by
  induction hk with
  | here k f =>
    obtain ⟨r, hr, _⟩ := exec_act.mp h
    exact ⟨r, hr⟩
  | @later k f r k' hr _ ih =>
    obtain ⟨r', hn, hf⟩ := exec_act.mp h
    obtain rfl : r' = r := Result.unique ⟨n, hn⟩ hr
    exact ih hf

/-- A body that does well, given that its calls do, does well. -/
theorem Result.induct {Q : κ → ρ → Prop}
    (h : ∀ call : κ → Option ρ, (∀ k r, call k = some r → Q k r) → ∀ k r, exec call (body k) = some r → Q k r)
    (hk : Result body k r) : Q k r := by
  obtain ⟨n, hn⟩ := hk
  induction n generalizing k r with
  | zero => cases hn
  | succ n ih => exact h (run body n) (fun k r hr => ih hr) k r hn

theorem run_calls (h : run body (n + 1) k = some r) (hk : Calls body k k') : ∃ r', run body n k' = some r' :=
  exec_asks h hk

theorem run_reaches (h : run body n k = some r) (hk : TransGen (Calls body) k k') :
    ∃ m r', m < n ∧ run body m k' = some r' := by
  have hfirst : ∀ {n k k' r}, run body n k = some r → Calls body k k' → ∃ m r', m < n ∧ run body m k' = some r' := by
    intro n k k' r h hk
    cases n with
    | zero => cases h
    | succ n =>
      obtain ⟨r', hr'⟩ := run_calls h hk
      exact ⟨n, r', Nat.lt_succ_self n, hr'⟩
  induction hk with
  | single hk => exact hfirst h hk
  | tail _ hk ih =>
    obtain ⟨m, r', hm, hr'⟩ := ih
    obtain ⟨l, r'', hl, hr''⟩ := hfirst hr' hk
    exact ⟨l, r'', Nat.lt_trans hl hm, hr''⟩

/-- A call that leads to itself does not come back. -/
theorem not_returns_of_cycle (h : TransGen (Calls body) k k) : ¬ Returns body k := by
  rintro ⟨r, n, hn⟩
  induction n using Nat.strong_induction_on generalizing r with
  | _ n ih =>
    obtain ⟨m, r', hm, hr'⟩ := run_reaches hn h
    exact ih m hm r' hr'

theorem Returns.of_calls (h : Returns body k) (hk : ReflTransGen (Calls body) k k') : Returns body k' := by
  rcases reflTransGen_iff_eq_or_transGen.mp hk with rfl | hk
  · exact h
  · obtain ⟨r, n, hn⟩ := h
    obtain ⟨m, r', _, hr'⟩ := run_reaches hn hk
    exact ⟨r', m, hr'⟩

theorem ends_of_asks (h : ∀ k, Asks body p k → Returns body k) : ∃ a, Ends body p a := by
  induction p with
  | ret a => exact ⟨a, ends_ret.mpr rfl⟩
  | act k f ih =>
    obtain ⟨r, hr⟩ := h k (.here k f)
    obtain ⟨a, ha⟩ := ih r fun k' hk' => h k' (.later hr hk')
    exact ⟨a, ends_act.mpr ⟨r, hr, ha⟩⟩

theorem returns_of_calls (h : ∀ k', Calls body k k' → Returns body k') : Returns body k := by
  obtain ⟨r, hr⟩ := ends_of_asks h
  exact ⟨r, result_iff.mpr hr⟩

/-- Where a call can only lead to finitely many, it comes back unless one of them leads to itself. -/
theorem returns_iff (hfin : {k' | ReflTransGen (Calls body) k k'}.Finite) :
    Returns body k ↔ ∀ k', ReflTransGen (Calls body) k k' → ¬ TransGen (Calls body) k' k' := by
  constructor
  · intro h k' hk' hcycle
    exact not_returns_of_cycle hcycle (h.of_calls hk')
  · intro h
    have := hfin.to_subtype
    let R : {k' | ReflTransGen (Calls body) k k'} → {k' | ReflTransGen (Calls body) k k'} → Prop :=
      fun x y => TransGen (Calls body) y.1 x.1
    have htrans : IsTrans _ R := ⟨fun _ _ _ hxy hyz => hyz.trans hxy⟩
    have hirrefl : Std.Irrefl R := ⟨fun x hx => h x.1 x.2 hx⟩
    have hwf : WellFounded R := Finite.wellFounded_of_trans_of_irrefl R
    have hall : ∀ x : {k' | ReflTransGen (Calls body) k k'}, Returns body x.1 := by
      intro x
      refine hwf.induction (C := fun x => Returns body x.1) x ?_
      intro x ih
      refine returns_of_calls fun k' hk' => ?_
      exact ih ⟨k', x.2.tail hk'⟩ (.single hk')
    exact hall ⟨k, .refl⟩

section Contract

/-- A procedure with a precondition on its calls and a postcondition on what they return. -/
def contract (P : κ → Prop) (Q : κ → ρ → Prop) : Rules κ (fun _ => ρ) Unit where
  allowed := fun _ k => P k
  given := Q
  after := fun _ _ _ => ()

variable {P : κ → Prop} {Q : κ → ρ → Prop} {post : α → Unit → Prop}

theorem exec_safe {call : κ → Option ρ} (hcall : ∀ k r, P k → call k = some r → Q k r)
    (hp : Safe (contract P Q) p () post) (h : exec call p = some a) : post a () := by
  induction p with
  | ret b =>
    obtain rfl := exec_ret.mp h
    exact hp
  | act k f ih =>
    obtain ⟨r, hr, hf⟩ := exec_act.mp h
    exact ih r (hp.2 r (hcall k r hp.1 hr)) hf

variable (hbody : ∀ k, P k → Safe (contract P Q) (body k) () fun r _ => Q k r)

include hbody

/-- A body that keeps the contract, given that its calls do, keeps it. -/
theorem Result.keeps (hk : P k) (h : Result body k r) : Q k r := by
  have hsafe : P k → Q k r :=
    h.induct (Q := fun k r => P k → Q k r) fun call hcall k r hr hk =>
      exec_safe (fun k' r' hk' hr' => hcall k' r' hr' hk') (hbody k hk) hr
  exact hsafe hk

theorem Asks.pre (hp : Safe (contract P Q) p () post) (h : Asks body p k) : P k := by
  induction h with
  | here k f => exact hp.1
  | later hr _ ih => exact ih (hp.2 _ (Result.keeps hbody hp.1 hr))

theorem reaches_pre (hk : P k) (h : ReflTransGen (Calls body) k k') : P k' := by
  induction h with
  | refl => exact hk
  | tail _ hcall ih => exact Asks.pre hbody (hbody _ ih) hcall

end Contract

end Ltfs.Lib.Recursive
