import Ltfs.BlockLabels
import Mathlib.Data.Fintype.Basic

namespace Ltfs.BlockRun

open CacheManager Lib.Program Requests RawFile BlockCalls BlockLabels

variable {ι τ : Type}

def blocks (l : List BlockRequest) : Multiset Block := (l.map BlockRequest.writeCache : List Block)

/-- The blocks of the requests of a file. -/
def fileBlocks : Option BlockPriv → Multiset Block
  | none => 0
  | some d => blocks d.requests

def hand : Option Block → Multiset Block
  | none => 0
  | some b => {b}

/-- What a call has: the blocks that it got from the pool or took over with the requests of the file that it is
working on, the locks that it took, and that file. -/
@[ext] structure Res (ι : Type) where
  own : Multiset Block
  held : Multiset (Lock ι)
  inside : Option ι

def nothing : Res ι := ⟨0, 0, none⟩

/-- The locks that keep others from the scheduler's data of files. -/
def Lock.guards : Lock ι → Bool
  | .privRead | .privWrite | .iosched _ => true
  | _ => false

/-- The locks that are needed to work on a file. -/
def Guarded (held : Multiset (Lock ι)) (i : ι) : Prop :=
  .iosched i ∈ held ∧ .privRead ∈ held ∨ .privWrite ∈ held

/-- What an action needs: locks are taken once and given back once, by the call that has them, and only what a call
owns is freed or handed over. -/
def Allowed (r : Res ι) : Action ι → Prop
  | .lock l => l ∉ r.held
  | .unlock l => l ∈ r.held ∧ (Lock.guards l = true → r.inside = none)
  | .enter i _ => r.inside = none ∧ Guarded r.held i
  | .leave i f => r.inside = some i ∧ fileBlocks f ≤ r.own
  | .allocate => .cache ∈ r.held
  | .await => .cache ∉ r.held
  | .free b => .cache ∈ r.held ∧ b ∈ r.own
  | _ => True

variable [DecidableEq ι]

instance (held : Multiset (Lock ι)) (i : ι) : Decidable (Guarded held i) := inferInstanceAs (Decidable (_ ∨ _))

instance (r : Res ι) : (a : Action ι) → Decidable (Allowed r a)
  | .lock _ => inferInstanceAs (Decidable (¬ _))
  | .unlock _ => inferInstanceAs (Decidable (_ ∧ _))
  | .enter _ _ => inferInstanceAs (Decidable (_ ∧ _))
  | .leave _ _ => inferInstanceAs (Decidable (_ ∧ _))
  | .allocate => inferInstanceAs (Decidable (_ ∈ _))
  | .await => inferInstanceAs (Decidable (¬ _))
  | .free _ => inferInstanceAs (Decidable (_ ∧ _))
  | .calloc => .isTrue trivial
  | .ask => .isTrue trivial
  | .tape => .isTrue trivial
  | .pick => .isTrue trivial

/-- What a call has after an action. -/
def after (r : Res ι) : (a : Action ι) → Answer a → Res ι
  | .lock l, _ => { r with held := l ::ₘ r.held }
  | .unlock l, _ => { r with held := r.held.erase l }
  | .enter i _, f => { r with own := r.own + fileBlocks f, inside := some i }
  | .leave _ f, _ => { r with own := r.own - fileBlocks f, inside := none }
  | .allocate, b => { r with own := r.own + hand b }
  | .await, b => { r with own := r.own + {b}, held := .cache ::ₘ r.held }
  | .free b, _ => { r with own := r.own.erase b }
  | _, _ => r

structure Thread (ι : Type) where
  code : Code ι (Label ι)
  res : Res ι

/-- The scheduler: the cache pool, its data for the files, and the threads that work on it. -/
structure System (ι τ : Type) where
  pool : CachePool
  files : ι → Option BlockPriv
  threads : τ → Thread ι

/-- The state after `unified_init` -/
def unifiedInit (initialCapacity maxCapacity : Nat) : System ι τ :=
  ⟨cacheManagerInit initialCapacity maxCapacity, fun _ => none, fun _ => ⟨.ret .returned, nothing⟩⟩

/-- What the world outside says to an action. -/
structure World (ι : Type) where
  memory : Nat
  yes : Bool
  error : Option WriteError
  file : Option ι

/-- A lock that another thread holds and that keeps a lock from being taken. Nothing here depends on the locks of the
volume and of the metadata. -/
def Lock.excludes : Lock ι → Lock ι → Bool
  | .privRead, l => l = .privWrite
  | .privWrite, l => l = .privRead || l = .privWrite
  | .volume, _ => false
  | .metadata _, _ => false
  | l, l' => l = l'

variable [DecidableEq τ] [Fintype τ]

def Available (s : System ι τ) (t : τ) (l : Lock ι) : Prop :=
  ∀ t', t' ≠ t → ∀ l' ∈ (s.threads t').res.held, Lock.excludes l l' = false

instance (s : System ι τ) (t : τ) (l : Lock ι) : Decidable (Available s t l) :=
  inferInstanceAs (Decidable (∀ t', t' ≠ t → ∀ l' ∈ (s.threads t').res.held, Lock.excludes l l' = false))

/-- An action of a thread: the answer, the pool and the files. There is none if the thread has to wait. The requests
of a file that a thread enters are with the thread until it leaves. -/
def perform (w : World ι) (s : System ι τ) (t : τ) :
    (a : Action ι) → Option (Answer a × CachePool × (ι → Option BlockPriv))
  | .lock l => if Available s t l then some ((), s.pool, s.files) else none
  | .unlock _ => some ((), s.pool, s.files)
  | .enter i _ => some (s.files i, s.pool, Function.update s.files i none)
  | .leave i f => some ((), s.pool, Function.update s.files i f)
  | .allocate =>
    some ((cacheManagerAllocateObject s.pool w.memory).1, (cacheManagerAllocateObject s.pool w.memory).2, s.files)
  | .await =>
    if Available s t .cache then
      match cacheManagerAllocateObject s.pool w.memory with
      | (some b, pool) => some (b, pool, s.files)
      | (none, _) => none
    else none
  | .free b => some ((), cacheManagerFreeObject s.pool b, s.files)
  | .calloc => some (w.yes, s.pool, s.files)
  | .ask => some (w.yes, s.pool, s.files)
  | .tape => some (w.error, s.pool, s.files)
  | .pick => some (w.file, s.pool, s.files)

inductive Call (ι : Type) where
  | write (i : ι) (offset size : Nat) (isupdatetime : Bool)
  | flush (i : ι)
  | close (i : ι) (flush : Bool)
  | truncate (i : ι) (length : Nat)
  | place (i : ι)
  | flushAll
  | index
  | data (full : Bool)

def entry : Call ι → Label ι
  | .write i offset size isupdatetime => .write ⟨i, offset, size, isupdatetime, none, false⟩
  | .flush i => .flush i
  | .close i closing => .close i closing
  | .truncate i length => .truncate i length
  | .place i => .place i
  | .flushAll => .flushAll
  | .index => .index
  | .data full => .data full

/-- A thread begins a call, or goes on with it. -/
inductive Step (ι τ : Type) where
  | begin (t : τ) (c : Call ι)
  | go (t : τ) (w : World ι)

def System.set (s : System ι τ) (t : τ) (th : Thread ι) : System ι τ :=
  { s with threads := Function.update s.threads t th }

variable (cacheSize : Nat)

/-- One step of a thread. There is no result if the thread has to wait, or if what it is about to do is not
allowed. -/
def step (s : System ι τ) : Step ι τ → Option (System ι τ)
  | .begin t c =>
    match s.threads t with
    | ⟨.ret .returned, r⟩ => some (s.set t ⟨.ret (entry c), r⟩)
    | _ => none
  | .go t w =>
    match s.threads t with
    | ⟨.ret label, r⟩ => some (s.set t ⟨block cacheSize label, r⟩)
    | ⟨.act a k, r⟩ =>
      if Allowed r a then
        match perform w s t a with
        | none => none
        | some (x, pool, files) =>
          some ({ s with pool := pool, files := files }.set t ⟨k x, after r a x⟩)
      else none

/-- Memory is found for every request, and no write that starts again with a spare block meets an error that has not
been reported. -/
def Expected (files : ι → Option BlockPriv) (w : World ι) : Action ι → Prop
  | .calloc => w.yes = true
  | .enter i restart => restart = true → (files i).bind BlockPriv.writeError = none
  | _ => True

instance (files : ι → Option BlockPriv) (w : World ι) : (a : Action ι) → Decidable (Expected files w a)
  | .calloc => inferInstanceAs (Decidable (_ = _))
  | .enter _ _ => inferInstanceAs (Decidable (_ → _))
  | .lock _ => .isTrue trivial
  | .unlock _ => .isTrue trivial
  | .leave _ _ => .isTrue trivial
  | .allocate => .isTrue trivial
  | .await => .isTrue trivial
  | .free _ => .isTrue trivial
  | .ask => .isTrue trivial
  | .tape => .isTrue trivial
  | .pick => .isTrue trivial

/-- What code is about to do meets a condition. -/
def Next (p : Action ι → Prop) : Code ι (Label ι) → Prop
  | .act a _ => p a
  | .ret _ => True

instance (p : Action ι → Prop) [DecidablePred p] : (code : Code ι (Label ι)) → Decidable (Next p code)
  | .act a _ => inferInstanceAs (Decidable (p a))
  | .ret _ => .isTrue trivial

def Undisturbed (s : System ι τ) : Step ι τ → Prop
  | .begin _ _ => True
  | .go t w => Next (Expected s.files w) (s.threads t).code

instance (s : System ι τ) : (a : Step ι τ) → Decidable (Undisturbed s a)
  | .begin _ _ => .isTrue trivial
  | .go t w => inferInstanceAs (Decidable (Next (Expected s.files w) (s.threads t).code))

/-- The places where a cache block can be. -/
inductive Owner (ι τ : Type) where
  | pool
  | file (i : ι)
  | call (t : τ)
  deriving DecidableEq

def System.blocksOf (s : System ι τ) : Owner ι τ → Multiset Block
  | .pool => (s.pool.pool : List Block)
  | .file i => fileBlocks (s.files i)
  | .call t => (s.threads t).res.own

/-- Every cache object is in one place, once, and nothing else is in any place. -/
def OwnedOnce (s : System ι τ) : Prop :=
  ∃ owner : Block → Option (Owner ι τ), (∀ b, b ∈ s.pool.objects ↔ owner b ≠ none) ∧
    ∀ o b, (s.blocksOf o).count b = if owner b = some o then 1 else 0

/-- What a thread is about to do is allowed, and when its call has returned there is nothing left. -/
structure Tidy (th : Thread ι) : Prop where
  allowed : Next (Allowed th.res) th.code
  returned : th.code = .ret .returned → th.res = nothing

def Orderly (s : System ι τ) : Prop := OwnedOnce s ∧ ∀ t, Tidy (s.threads t)

end Ltfs.BlockRun
