/-
Sylar/Guards.lean

The locks of threads.hpp and their guards.

The classes `Mutex`, `Mutex_RW`, `SpinLock` and `CASLock` are given by what one attempt
to take them and what `unlock` do to the word in memory.  The first three keep their holders
apart (`Mutex.correct`, ...).  `unlock` of a `CASLock` clears its flag with an order that
`std::atomic_flag` does not allow there, so that nothing is known of the lock from then on
(`CASLock.isEmpty_correct`).  `NullMutex` keeps nobody apart.

A guard (`ScopedLockImpl` and its two siblings) locks in its constructor, unlocks in
its destructor, and may be asked to do either in between; `m_locked` is how it knows
what it has to do.  `guards_sound` says that it does know: however calls on any number
of guards of one lock are interleaved, the lock is only given back by guards that hold
it, to no two guards that do not get along, and is free when the guards are gone.

Last, the calls of `Config` and of the logging module over these words
(`calls_on_words`); there is no `CASLock` among them.  They spin where a lock is taken, and
apart from that they do what they do in Sylar.ConfigLocking, and return.
-/
import Sylar.Lib.LockWords
import Sylar.ConfigLocking

namespace Sylar

open SharedLocks Transition

namespace Threads

variable {ι M : Type} [DecidableEq ι]

/-! ### The classes of locks -/

/-- A lock that one thread has, or nobody. -/
def ownedWord : LockClass (Option ι) ι M where
  clear := none
  attempt i _ owner :=
    match owner with
    | none => (true, some i)
    -- the owner, too, waits if it asks again
    | some j => (false, some j)
  -- only the owner may unlock
  release i owner := if owner = some i then some none else none

/-- `Mutex`: `pthread_mutex_lock` and `pthread_mutex_unlock`. -/
def Mutex : LockClass (Option ι) ι M := ownedWord

/-- `SpinLock`: `pthread_spin_lock` and `pthread_spin_unlock`. -/
def SpinLock : LockClass (Option ι) ι M := ownedWord

/-- `std::memory_order`. -/
inductive MemoryOrder
  | relaxed
  | consume
  | acquire
  | release
  | acqRel
  | seqCst

/-- `std::atomic_flag::test_and_set`: what the flag was, and the flag. -/
def testAndSet (flag : Bool) : Bool × Bool := (flag, true)

/-- `std::atomic_flag::clear`, which must not be given an order that acquires. -/
def clearFlag : MemoryOrder → Option Bool
  | .relaxed | .release | .seqCst => some false
  | .consume | .acquire | .acqRel => none

/-- A flag that is tested and set until it was not set, and cleared with the given order. -/
def flagWord (order : MemoryOrder) : LockClass Bool ι M where
  clear := false
  attempt _ _ flag :=
    let old := testAndSet flag
    (!old.1, old.2)
  release _ _ := clearFlag order

/-- `CASLock`. -/
def CASLock : LockClass Bool ι M := flagWord .acquire

/-- `NullMutex`: nothing is done. -/
def NullMutex : LockClass Unit ι M where
  clear := ()
  attempt _ _ _ := (true, ())
  release _ _ := some ()

/-- Who has a readers–writer lock. -/
inductive RWWord (ι : Type)
  | readers (s : Multiset ι)
  | writer (i : ι)

namespace MutexRW

/-- `pthread_rwlock_rdlock`.  Where the library detects that the thread is the writer, the
call returns an error; nobody looks at it. -/
def rdlock (detects : Bool) (i : ι) : RWWord ι → Bool × RWWord ι
  | .readers s => (true, .readers (i ::ₘ s))
  | .writer j => (detects && j = i, .writer j)

/-- `pthread_rwlock_wrlock`. -/
def wrlock (detects : Bool) (i : ι) : RWWord ι → Bool × RWWord ι
  | .readers s => if s = 0 then (true, .writer i) else (false, .readers s)
  | .writer j => (detects && j = i, .writer j)

/-- `pthread_rwlock_unlock`, which may be called by those who have the lock. -/
def unlock (i : ι) : RWWord ι → Option (RWWord ι)
  | .readers s => if i ∈ s then some (.readers (s.erase i)) else none
  | .writer j => if j = i then some (.readers 0) else none

end MutexRW

/-- `Mutex_RW`. -/
def MutexRW (detects : Bool) : LockClass (RWWord ι) ι Mode where
  clear := .readers 0
  attempt i m :=
    match m with
    | .read => MutexRW.rdlock detects i
    | .write => MutexRW.wrlock detects i
  release := MutexRW.unlock

/-! ### They keep their holders apart -/

/-- What is known of a lock that one has at a time. -/
theorem eq_zero_of_cons_eq {α : Type} {x y : α} {s : Multiset α} (h : x ::ₘ s = {y}) :
    y = x ∧ s = 0 := (Multiset.singleton_eq_cons_iff s).mp h.symm

/-- **One has the lock at a time.** -/
def ownedWord.correct : (ownedWord : LockClass (Option ι) ι M).Correct where
  compat _ _ := False
  Holds owner s := (owner = none ∧ s = 0) ∨ ∃ i m, owner = some i ∧ s = {(i, m)}
  clear := Or.inl ⟨rfl, rfl⟩
  clear_of := by
    rintro w (⟨hw, -⟩ | ⟨i, m, -, hs⟩)
    · exact hw
    · exact absurd hs (Multiset.zero_ne_singleton _)
  together := by
    rintro w x y s (⟨-, hs⟩ | ⟨i, m, -, hs⟩)
    · exact Multiset.cons_ne_zero hs
    · exact Multiset.cons_ne_zero (eq_zero_of_cons_eq hs).2
  taken := by
    rintro w s i m w' (⟨rfl, rfl⟩ | ⟨j, m', rfl, rfl⟩) - hin
    · refine ⟨fun x hx => absurd hx (Multiset.notMem_zero x), Or.inr ⟨i, m, ?_, rfl⟩⟩
      exact (Prod.mk.inj hin).2.symm
    · cases (Prod.mk.inj hin).1
  missed := by
    rintro w s i m w' (⟨rfl, rfl⟩ | ⟨j, m', rfl, rfl⟩) - hin
    · cases (Prod.mk.inj hin).1
    · refine ⟨⟨_, Multiset.mem_singleton_self _, id⟩, Or.inr ⟨j, m', ?_, rfl⟩⟩
      exact (Prod.mk.inj hin).2.symm
  released := by
    rintro w s i m (⟨-, hs⟩ | ⟨j, m', rfl, hs⟩)
    · exact absurd hs Multiset.cons_ne_zero
    · obtain ⟨heq, rfl⟩ := eq_zero_of_cons_eq hs
      obtain rfl := (Prod.mk.inj heq).1
      exact ⟨none, if_pos rfl, Or.inl ⟨rfl, rfl⟩⟩

/-- `Mutex`. -/
def Mutex.correct : (Mutex : LockClass (Option ι) ι M).Correct := ownedWord.correct

/-- `SpinLock`. -/
def SpinLock.correct : (SpinLock : LockClass (Option ι) ι M).Correct := ownedWord.correct

omit [DecidableEq ι] in
/-- **Whoever finds the flag not set has the lock**, if it may be cleared with this order. -/
def flagWord.correct {order : MemoryOrder} (horder : clearFlag order = some false) :
    (flagWord order : LockClass Bool ι M).Correct where
  compat _ _ := False
  Holds flag s := (flag = false ∧ s = 0) ∨ ∃ x, flag = true ∧ s = {x}
  clear := Or.inl ⟨rfl, rfl⟩
  clear_of := by
    rintro w (⟨hw, -⟩ | ⟨x, -, hs⟩)
    · exact hw
    · exact absurd hs (Multiset.zero_ne_singleton _)
  together := by
    rintro w x y s (⟨-, hs⟩ | ⟨z, -, hs⟩)
    · exact Multiset.cons_ne_zero hs
    · exact Multiset.cons_ne_zero (eq_zero_of_cons_eq hs).2
  taken := by
    rintro w s i m w' (⟨rfl, rfl⟩ | ⟨x, rfl, rfl⟩) - hin
    · refine ⟨fun x hx => absurd hx (Multiset.notMem_zero x), Or.inr ⟨(i, m), ?_, rfl⟩⟩
      exact (Prod.mk.inj hin).2.symm
    · cases (Prod.mk.inj hin).1
  missed := by
    rintro w s i m w' (⟨rfl, rfl⟩ | ⟨x, rfl, rfl⟩) - hin
    · cases (Prod.mk.inj hin).1
    · -- the flag is set again
      refine ⟨⟨x, Multiset.mem_singleton_self x, id⟩, Or.inr ⟨x, ?_, rfl⟩⟩
      exact (Prod.mk.inj hin).2.symm
  released := by
    rintro w s i m (⟨-, hs⟩ | ⟨x, rfl, hs⟩)
    · exact absurd hs Multiset.cons_ne_zero
    · exact ⟨false, horder, Or.inl ⟨rfl, (eq_zero_of_cons_eq hs).2⟩⟩

omit [DecidableEq ι] in
/-- With any other order, the one who has taken it cannot give it back. -/
theorem flagWord.correct_iff [Nonempty ι] [Nonempty M] (order : MemoryOrder) :
    Nonempty (flagWord order : LockClass Bool ι M).Correct ↔ clearFlag order = some false := by
  refine ⟨?_, fun horder => ⟨flagWord.correct horder⟩⟩
  rintro ⟨D⟩
  obtain ⟨i⟩ := ‹Nonempty ι›
  obtain ⟨m⟩ := ‹Nonempty M›
  have hown : ∀ m', (i, m') ∈ (0 : Multiset (ι × M)) → D.compat m m' :=
    fun _ h => absurd h (Multiset.notMem_zero _)
  have hin : (flagWord order : LockClass Bool ι M).attempt i m false = (true, true) := rfl
  have htaken := (D.taken D.clear hown hin).2
  obtain ⟨w, hw, -⟩ := D.released htaken
  replace hw : clearFlag order = some w := hw
  cases order <;> first | rfl | cases hw

omit [DecidableEq ι] in
/-- **A `CASLock` is not correct.** -/
theorem CASLock.isEmpty_correct [Nonempty ι] [Nonempty M] :
    IsEmpty (CASLock : LockClass Bool ι M).Correct := by
  refine not_nonempty_iff.mp fun hcorrect => ?_
  have hacquire := (flagWord.correct_iff .acquire).mp hcorrect
  cases hacquire

omit [DecidableEq ι] in
/-- With `NullMutex` everybody gets along. -/
def NullMutex.correct : (NullMutex : LockClass Unit ι M).Correct where
  compat _ _ := True
  Holds _ _ := True
  clear := trivial
  clear_of := fun _ => rfl
  together := fun _ => trivial
  taken := fun _ _ _ => ⟨fun _ _ => trivial, trivial⟩
  missed := by
    intro w s i m w' _ _ hin
    cases (Prod.mk.inj hin).1
  released := fun _ => ⟨(), rfl, trivial⟩

/-- **Readers have the lock together, a writer alone.** -/
def MutexRW.correct (detects : Bool) : (MutexRW detects : LockClass (RWWord ι) ι Mode).Correct where
  compat m m' := m = .read ∧ m' = .read
  Holds w s :=
    match w with
    | .readers r => s = r.map fun i => (i, .read)
    | .writer i => s = {(i, .write)}
  clear := rfl
  clear_of := by
    rintro (r | i) hs
    · rw [Multiset.map_eq_zero.mp hs.symm]
      rfl
    · exact absurd hs (Multiset.zero_ne_singleton _)
  together := by
    rintro (r | i) x y s hs
    · have hread : ∀ z ∈ x ::ₘ y ::ₘ s, z.2 = .read := by
        intro z hz
        rw [hs] at hz
        obtain ⟨i, -, rfl⟩ := Multiset.mem_map.mp hz
        rfl
      exact ⟨hread x (Multiset.mem_cons_self x _),
        hread y (Multiset.mem_cons_of_mem (Multiset.mem_cons_self y s))⟩
    · exact absurd (eq_zero_of_cons_eq hs).2 Multiset.cons_ne_zero
  taken := by
    rintro (r | j) s i m w' hs hown hin
    · subst hs
      cases m with
      | read =>
          obtain rfl := (Prod.mk.inj hin).2
          refine ⟨fun x hx => ⟨rfl, ?_⟩, (Multiset.map_cons _ i r).symm⟩
          obtain ⟨j, -, rfl⟩ := Multiset.mem_map.mp hx
          rfl
      | write =>
          replace hin : (if r = 0 then (true, RWWord.writer i) else (false, .readers r)) =
            (true, w') := hin
          by_cases hr : r = 0
          · rw [if_pos hr] at hin
            obtain rfl := (Prod.mk.inj hin).2
            subst hr
            exact ⟨fun x hx => absurd hx (Multiset.notMem_zero x), rfl⟩
          · rw [if_neg hr] at hin
            cases (Prod.mk.inj hin).1
    · -- the attempt can only be that of the writer
      subst hs
      have hi : j = i := by
        have htook : (detects && decide (j = i)) = true := by
          cases m <;> exact (Prod.mk.inj hin).1
        exact of_decide_eq_true (Bool.and_eq_true_iff.mp htook).2
      subst hi
      cases (hown .write (Multiset.mem_singleton_self _)).2
  missed := by
    rintro (r | j) s i m w' hs hown hin
    · subst hs
      cases m with
      | read => cases (Prod.mk.inj hin).1
      | write =>
          replace hin : (if r = 0 then (true, RWWord.writer i) else (false, .readers r)) =
            (false, w') := hin
          by_cases hr : r = 0
          · rw [if_pos hr] at hin
            cases (Prod.mk.inj hin).1
          · rw [if_neg hr] at hin
            obtain rfl := (Prod.mk.inj hin).2
            obtain ⟨j, hj⟩ := Multiset.exists_mem_of_ne_zero hr
            exact ⟨⟨_, Multiset.mem_map_of_mem _ hj, fun h => by cases h.1⟩, rfl⟩
    · subst hs
      have hw' : w' = .writer j := by
        cases m <;> exact (Prod.mk.inj hin).2.symm
      subst hw'
      exact ⟨⟨_, Multiset.mem_singleton_self _, fun h => by cases h.2⟩, rfl⟩
  released := by
    rintro (r | j) s i m hs
    · obtain ⟨j, hj, heq, hrest⟩ := (Multiset.map_eq_cons _ r s (i, m)).mpr hs.symm
      obtain ⟨rfl, rfl⟩ := Prod.mk.inj heq
      exact ⟨_, if_pos hj, hrest.symm⟩
    · obtain ⟨heq, rfl⟩ := eq_zero_of_cons_eq hs
      obtain rfl := (Prod.mk.inj heq).1
      exact ⟨_, if_pos rfl, rfl⟩

/-! ### Guards -/

/-- Where a call on a guard stands. -/
inductive GuardPc
  | idle
  /-- In the `lock` of the mutex. -/
  | taking
  /-- It has returned. -/
  | taken
  /-- Before the `unlock` of the mutex; `dying` if the guard is being destroyed. -/
  | giving (dying : Bool)
  /-- It has returned. -/
  | given (dying : Bool)

/-- `ScopedLockImpl`, `ReadScopedLockImpl` and `WriteScopedLockImpl`: a guard of a thread for a
mode. -/
structure Guard (ι M : Type) where
  thread : ι
  mode : M
  /-- `m_locked` -/
  locked : Bool
  pc : GuardPc

/-- The constructor locks; until then, `m_locked` has some value. -/
def Guard.construct (i : ι) (m : M) (locked : Bool) : Guard ι M := ⟨i, m, locked, .taking⟩

/-- `ScopedLockImpl::ScopedLockImpl` -/
def ScopedLockImpl (i : ι) (locked : Bool) : Guard ι Unit := .construct i () locked

/-- `ReadScopedLockImpl::ReadScopedLockImpl` -/
def ReadScopedLockImpl (i : ι) (locked : Bool) : Guard ι Mode := .construct i .read locked

/-- `WriteScopedLockImpl::WriteScopedLockImpl` -/
def WriteScopedLockImpl (i : ι) (locked : Bool) : Guard ι Mode := .construct i .write locked

/-- `lock` -/
def Guard.lock (G : Guard ι M) : Guard ι M := if G.locked then G else { G with pc := .taking }

/-- `unlock`, which is also what the destructor does. -/
def Guard.unlock (G : Guard ι M) (dying : Bool) : Option (Guard ι M) :=
  if G.locked then some { G with pc := .giving dying }
  else if dying then none
  else some G

/-- The word of a lock, and the guards there are. -/
structure Guards (γ W ι M : Type) where
  word : W
  guards : γ → Option (Guard ι M)

/-- What happens to a guard: a call begins, or the one that has begun goes on. -/
inductive GuardEvent (γ ι M : Type)
  | construct (g : γ) (i : ι) (m : M)
  | lock (g : γ)
  | unlock (g : γ)
  | destroy (g : γ)
  /-- The guard's thread `i` takes the lock in the mode `m`. -/
  | take (g : γ) (i : ι) (m : M)
  /-- It tries to. -/
  | miss (g : γ) (i : ι) (m : M)
  /-- `m_locked = true` -/
  | mark (g : γ)
  /-- It gives the lock back. -/
  | give (g : γ) (i : ι) (m : M)
  /-- `m_locked = false` -/
  | clear (g : γ)

namespace Guards

variable {γ W : Type} [DecidableEq γ]

/-- One step. -/
inductive Step (C : LockClass W ι M) (s : Guards γ W ι M) :
    GuardEvent γ ι M → Guards γ W ι M → Prop
  | construct {g : γ} (i : ι) (m : M) (locked : Bool) (hg : s.guards g = none) :
      Step C s (.construct g i m)
        ⟨s.word, Function.update s.guards g (some (.construct i m locked))⟩
  | lock {g : γ} {G : Guard ι M} (hg : s.guards g = some G) (hpc : G.pc = .idle) :
      Step C s (.lock g) ⟨s.word, Function.update s.guards g (some G.lock)⟩
  | unlock {g : γ} {G : Guard ι M} (hg : s.guards g = some G) (hpc : G.pc = .idle) :
      Step C s (.unlock g) ⟨s.word, Function.update s.guards g (G.unlock false)⟩
  | destroy {g : γ} {G : Guard ι M} (hg : s.guards g = some G) (hpc : G.pc = .idle) :
      Step C s (.destroy g) ⟨s.word, Function.update s.guards g (G.unlock true)⟩
  | take {g : γ} {G : Guard ι M} {w : W} (hg : s.guards g = some G) (hpc : G.pc = .taking)
      (hin : C.attempt G.thread G.mode s.word = (true, w)) :
      Step C s (.take g G.thread G.mode)
        ⟨w, Function.update s.guards g (some { G with pc := .taken })⟩
  | miss {g : γ} {G : Guard ι M} {w : W} (hg : s.guards g = some G) (hpc : G.pc = .taking)
      (hin : C.attempt G.thread G.mode s.word = (false, w)) :
      Step C s (.miss g G.thread G.mode) ⟨w, s.guards⟩
  | mark {g : γ} {G : Guard ι M} (hg : s.guards g = some G) (hpc : G.pc = .taken) :
      Step C s (.mark g)
        ⟨s.word, Function.update s.guards g (some { G with locked := true, pc := .idle })⟩
  | give {g : γ} {G : Guard ι M} {w : W} {dying : Bool} (hg : s.guards g = some G)
      (hpc : G.pc = .giving dying) (hout : C.release G.thread s.word = some w) :
      Step C s (.give g G.thread G.mode)
        ⟨w, Function.update s.guards g (some { G with pc := .given dying })⟩
  | clear {g : γ} {G : Guard ι M} {dying : Bool} (hg : s.guards g = some G)
      (hpc : G.pc = .given dying) :
      Step C s (.clear g)
        ⟨s.word, Function.update s.guards g
          (if dying then none else some { G with locked := false, pc := .idle })⟩

/-- A new lock, and no guards. -/
def new (C : LockClass W ι M) : Guards γ W ι M := ⟨C.clear, fun _ => none⟩

/-! ### Who holds the lock -/

variable [DecidableEq M]

/-- Taking and giving back, as it is booked. -/
def hold (H : Multiset (γ × ι × M)) : GuardEvent γ ι M → Multiset (γ × ι × M)
  | .take g i m => (g, i, m) ::ₘ H
  | .give g i m => H.erase (g, i, m)
  | _ => H

/-- The guards that hold the lock, with their threads and modes: those that have taken it and
not given it back. -/
def holders (tr : List (Taken (Guards γ W ι M) (GuardEvent γ ι M))) : Multiset (γ × ι × M) :=
  (tr.map Taken.label).foldl hold 0

theorem holders_concat (tr : List (Taken (Guards γ W ι M) (GuardEvent γ ι M)))
    (x : Taken (Guards γ W ι M) (GuardEvent γ ι M)) :
    holders (tr ++ [x]) = hold (holders tr) x.label := by
  rw [holders, List.map_append, List.foldl_append]
  rfl

/-- What a guard holds, to judge by where it stands. -/
def entry : Option (Guard ι M) → Option (ι × M)
  | none => none
  | some G =>
    match G.pc with
    | .idle => if G.locked then some (G.thread, G.mode) else none
    | .taking | .given _ => none
    | .taken | .giving _ => some (G.thread, G.mode)

variable {C : LockClass W ι M} {D : C.Correct} {H : Multiset (γ × ι × M)}
  {s s' : Guards γ W ι M} {tr : List (Taken (Guards γ W ι M) (GuardEvent γ ι M))}

/-- The thread does not ask for the lock in a mode that one of its own guards stands against. -/
def Asks (D : C.Correct) (H : Multiset (γ × ι × M)) (e : GuardEvent γ ι M) : Prop :=
  ∀ g i m, e = .take g i m ∨ e = .miss g i m → ∀ h m', (h, i, m') ∈ H → D.compat m m'

/-- No thread ever does. -/
def Considerate (D : C.Correct) (tr : List (Taken (Guards γ W ι M) (GuardEvent γ ι M))) : Prop :=
  ∀ tr₁ x tr₂, tr = tr₁ ++ x :: tr₂ → Asks D (holders tr₁) x.label

theorem considerate_nil : Considerate D ([] : List (Taken (Guards γ W ι M) (GuardEvent γ ι M))) := by
  intro tr₁ x tr₂ h
  cases tr₁ <;> cases h

theorem considerate_concat (h : Considerate D tr)
    {x : Taken (Guards γ W ι M) (GuardEvent γ ι M)} (hx : Asks D (holders tr) x.label) :
    Considerate D (tr ++ [x]) := by
  intro tr₁ y tr₂ htr
  rcases List.eq_nil_or_concat tr₂ with rfl | ⟨tr₂, z, rfl⟩
  · obtain ⟨rfl, hy⟩ := List.append_inj' htr rfl
    obtain rfl := List.singleton_injective hy
    exact hx
  · rw [List.concat_eq_append, ← List.cons_append, ← List.append_assoc] at htr
    exact h tr₁ y tr₂ (List.append_inj_left' htr rfl)

/-- What is booked is what the guards stand for, and what the word says. -/
structure Booked (D : C.Correct) (H : Multiset (γ × ι × M)) (s : Guards γ W ι M) : Prop where
  nodup : H.Nodup
  entries : ∀ g x, (g, x) ∈ H ↔ entry (s.guards g) = some x
  word : D.Holds s.word (H.map Prod.snd)

omit [DecidableEq ι] [DecidableEq M] in
/-- Most steps neither take nor give back. -/
theorem Booked.update (h : s.Booked D H) {g : γ} {o : Option (Guard ι M)} {w : W}
    (ho : entry o = entry (s.guards g)) (hw : D.Holds w (H.map Prod.snd)) :
    Booked D H ⟨w, Function.update s.guards g o⟩ := by
  refine ⟨h.nodup, fun g' x => ?_, hw⟩
  rw [h.entries]
  show _ ↔ entry (Function.update s.guards g o g') = some x
  by_cases hg : g' = g
  · subst hg
    rw [Function.update_self, ho]
  · rw [Function.update_of_ne hg]

omit [DecidableEq ι] [DecidableEq M] in
theorem entry_unlock {G : Guard ι M} (hpc : G.pc = .idle) (dying : Bool) :
    entry (G.unlock dying) = entry (some G) := by
  cases hlocked : G.locked with
  | true => simp [Guard.unlock, entry, hpc, hlocked]
  | false => cases dying <;> simp [Guard.unlock, entry, hpc, hlocked]

omit [DecidableEq ι] [DecidableEq M] in
theorem entry_lock {G : Guard ι M} (hpc : G.pc = .idle) :
    entry (some G.lock) = entry (some G) := by
  cases hlocked : G.locked with
  | true => simp [Guard.lock, hlocked]
  | false => simp [Guard.lock, entry, hpc, hlocked]

/-- **Step lemma.** -/
theorem Booked.step (h : s.Booked D H) {e : GuardEvent γ ι M} (hs : Step C s e s')
    (he : Asks D H e) : s'.Booked D (hold H e) := by
  cases hs with
  | construct i m locked hg => exact h.update (by rw [hg]; rfl) h.word
  | lock hg hpc => exact h.update (by rw [hg, entry_lock hpc]) h.word
  | unlock hg hpc => exact h.update (by rw [hg, entry_unlock hpc]) h.word
  | destroy hg hpc => exact h.update (by rw [hg, entry_unlock hpc]) h.word
  | @take g G w hg hpc hin =>
      have hnone : entry (s.guards g) = none := by rw [hg, entry, hpc]
      have hnot : ∀ x, (g, x) ∉ H := by
        intro x hx
        rw [h.entries, hnone] at hx
        cases hx
      have hown : ∀ m', (G.thread, m') ∈ H.map Prod.snd → D.compat G.mode m' := by
        intro m' hm'
        obtain ⟨⟨h', _⟩, hmem, rfl⟩ := Multiset.mem_map.mp hm'
        exact he g _ _ (Or.inl rfl) h' m' hmem
      refine ⟨Multiset.nodup_cons.mpr ⟨hnot _, h.nodup⟩, fun g' x => ?_, ?_⟩
      · show (g', x) ∈ (g, G.thread, G.mode) ::ₘ H ↔
          entry (Function.update s.guards g _ g') = some x
        rw [Multiset.mem_cons]
        by_cases hg' : g' = g
        · subst hg'
          rw [Function.update_self, entry, Option.some.injEq, Prod.mk.injEq]
          simp [hnot x, eq_comm]
        · rw [Function.update_of_ne hg', ← h.entries, Prod.mk.injEq]
          simp [hg']
      · show D.Holds w (((g, G.thread, G.mode) ::ₘ H).map Prod.snd)
        rw [Multiset.map_cons]
        exact (D.taken h.word hown hin).2
  | @miss g G w hg hpc hin =>
      have hown : ∀ m', (G.thread, m') ∈ H.map Prod.snd → D.compat G.mode m' := by
        intro m' hm'
        obtain ⟨⟨h', _⟩, hmem, rfl⟩ := Multiset.mem_map.mp hm'
        exact he g _ _ (Or.inr rfl) h' m' hmem
      exact ⟨h.nodup, h.entries, (D.missed h.word hown hin).2⟩
  | mark hg hpc => exact h.update (by rw [hg, entry, entry, hpc]; rfl) h.word
  | @give g G w dying hg hpc hout =>
      have hsome : entry (s.guards g) = some (G.thread, G.mode) := by rw [hg, entry, hpc]
      obtain ⟨H, rfl⟩ := Multiset.exists_cons_of_mem ((h.entries g _).mpr hsome)
      have hword := h.word
      rw [Multiset.map_cons] at hword
      obtain ⟨w', hw', hholds⟩ := D.released hword
      obtain rfl := Option.some.inj (hw'.symm.trans hout)
      obtain ⟨hnot, hnodup⟩ := Multiset.nodup_cons.mp h.nodup
      have hhold : hold ((g, G.thread, G.mode) ::ₘ H) (.give g G.thread G.mode) = H :=
        Multiset.erase_cons_head _ H
      rw [hhold]
      refine ⟨hnodup, fun g' x => ?_, hholds⟩
      have hentries := h.entries g' x
      rw [Multiset.mem_cons] at hentries
      show (g', x) ∈ H ↔ entry (Function.update s.guards g _ g') = some x
      by_cases hg' : g' = g
      · subst hg'
        rw [Function.update_self]
        refine iff_of_false (fun hx => hnot ?_) nofun
        have hx' := hentries.mp (Or.inr hx)
        rw [hsome] at hx'
        rwa [Option.some.inj hx']
      · rw [Function.update_of_ne hg', ← hentries, Prod.mk.injEq]
        simp [hg']
  | @clear g G dying hg hpc =>
      refine h.update ?_ h.word
      rw [hg, entry.eq_def (some G)]
      cases dying <;> simp [entry, hpc]

/-- **Run lemma.** -/
theorem booked (hrun : Run (Step C) (new C) tr s) (hc : Considerate D tr) :
    s.Booked D (holders tr) := by
  induction hrun with
  | nil => exact ⟨Multiset.nodup_zero, fun g x => iff_of_false (Multiset.notMem_zero _) nofun, D.clear⟩
  | @snoc tr s e s' hr hs ih =>
      rw [holders_concat]
      refine (ih fun tr₁ x tr₂ htr => ?_).step hs (hc tr ⟨s, e, s'⟩ [] rfl)
      exact hc tr₁ x (tr₂ ++ [⟨s, e, s'⟩]) (by rw [htr]; simp)

/-- What the guards of a lock do, where `H` hold it. -/
structure Sound (D : C.Correct) (H : Multiset (γ × ι × M)) (s : Guards γ W ι M) : Prop where
  /-- Holders get along. -/
  together : ∀ x y H', H = x ::ₘ y ::ₘ H' → D.compat x.2.2 y.2.2
  /-- Between calls, `m_locked` tells whether the guard holds the lock. -/
  flag : ∀ g G, s.guards g = some G → G.pc = .idle →
    (G.locked = true ↔ (g, G.thread, G.mode) ∈ H)
  /-- It is given back by those who hold it, and this is defined. -/
  release : ∀ g G dying, s.guards g = some G → G.pc = .giving dying →
    (g, G.thread, G.mode) ∈ H ∧ ∃ w, C.release G.thread s.word = some w
  /-- Who waits for it waits for another thread. -/
  waits : ∀ g G w, s.guards g = some G → G.pc = .taking →
    (∀ h m', (h, G.thread, m') ∈ H → D.compat G.mode m') →
    C.attempt G.thread G.mode s.word = (false, w) →
    ∃ x ∈ H, x.2.1 ≠ G.thread ∧ ¬ D.compat G.mode x.2.2
  /-- A guard that is gone does not hold it. -/
  gone : ∀ g x, s.guards g = none → (g, x) ∉ H
  /-- When all are gone, it is as new. -/
  free : (∀ g, s.guards g = none) → s.word = C.clear

omit [DecidableEq ι] [DecidableEq γ] [DecidableEq M] in
theorem Booked.sound (h : s.Booked D H) : s.Sound D H where
  together := by
    rintro x y H' rfl
    have hword := h.word
    rw [Multiset.map_cons, Multiset.map_cons] at hword
    exact D.together hword
  flag := by
    intro g G hg hpc
    rw [h.entries, hg, entry, hpc]
    cases G.locked <;> simp
  release := by
    intro g G dying hg hpc
    have hsome : entry (s.guards g) = some (G.thread, G.mode) := by rw [hg, entry, hpc]
    have hmem := (h.entries g _).mpr hsome
    obtain ⟨H, rfl⟩ := Multiset.exists_cons_of_mem hmem
    have hword := h.word
    rw [Multiset.map_cons] at hword
    obtain ⟨w, hw, -⟩ := D.released hword
    exact ⟨hmem, w, hw⟩
  waits := by
    intro g G w hg hpc hask hin
    have hown : ∀ m', (G.thread, m') ∈ H.map Prod.snd → D.compat G.mode m' := by
      intro m' hm'
      obtain ⟨⟨h', _⟩, hmem, rfl⟩ := Multiset.mem_map.mp hm'
      exact hask h' m' hmem
    obtain ⟨⟨y, hy, hnot⟩, -⟩ := D.missed h.word hown hin
    obtain ⟨⟨h', j, m'⟩, hmem, rfl⟩ := Multiset.mem_map.mp hy
    refine ⟨_, hmem, ?_, hnot⟩
    rintro rfl
    exact hnot (hask h' m' hmem)
  gone := by
    intro g x hg hmem
    rw [h.entries, hg] at hmem
    cases hmem
  free := by
    intro hall
    have hzero : H = 0 := by
      refine Multiset.eq_zero_of_forall_notMem fun ⟨g, x⟩ hmem => ?_
      rw [h.entries, hall] at hmem
      cases hmem
    have hword := h.word
    rw [hzero] at hword
    exact D.clear_of hword

end Guards

/-- **Guards do what they are for**, whatever is called on them: as long as no thread asks for
the lock against a guard of its own, holders get along, the flags tell who holds the lock, it
is given back where it is held and only there, and in the end it is free. -/
theorem guards_sound {γ W : Type} [DecidableEq γ] [DecidableEq M] {C : LockClass W ι M}
    (D : C.Correct) {s : Guards γ W ι M}
    {tr : List (Taken (Guards γ W ι M) (GuardEvent γ ι M))}
    (hrun : Run (Guards.Step C) (.new C) tr s) (hc : Guards.Considerate D tr) :
    s.Sound D (Guards.holders tr) :=
  (Guards.booked hrun hc).sound

/-- A thread has a `Mutex_RW` for reading, and another one waits to write. -/
theorem guards_sound_waits :
    let C : LockClass (RWWord Bool) Bool Mode := MutexRW false
    let D : C.Correct := MutexRW.correct false
    ∃ tr, ∃ s : Guards Nat (RWWord Bool) Bool Mode, Run (Guards.Step C) (.new C) tr s ∧
      Guards.holders tr = {(0, true, .read)} ∧
      s.guards 1 = some (WriteScopedLockImpl false false) ∧ s.Sound D (Guards.holders tr) := by
  intro C D
  let s₁ : Guards Nat (RWWord Bool) Bool Mode :=
    ⟨.readers 0, Function.update (fun _ => none) 0 (some (ReadScopedLockImpl true false))⟩
  let s₂ : Guards Nat (RWWord Bool) Bool Mode :=
    ⟨.readers {true}, Function.update s₁.guards 0 (some ⟨true, .read, false, .taken⟩)⟩
  let s₃ : Guards Nat (RWWord Bool) Bool Mode :=
    ⟨.readers {true}, Function.update s₂.guards 1 (some (WriteScopedLockImpl false false))⟩
  have h₁ : Guards.Step C (.new C) (.construct 0 true .read) s₁ := .construct true Mode.read false rfl
  have h₂ : Guards.Step C s₁ (.take 0 true .read) s₂ :=
    .take (G := ReadScopedLockImpl true false) rfl rfl rfl
  have h₃ : Guards.Step C s₂ (.construct 1 false .write) s₃ := .construct false Mode.write false rfl
  have hrun := ((Run.nil.snoc h₁).snoc h₂).snoc h₃
  -- nobody holds anything when the lock is taken
  have hc : Guards.Considerate D
      ([] ++ [⟨.new C, .construct 0 true .read, s₁⟩] ++ [⟨s₁, .take 0 true .read, s₂⟩] ++
        [⟨s₂, .construct 1 false .write, s₃⟩]) := by
    refine Guards.considerate_concat (Guards.considerate_concat (Guards.considerate_concat
      Guards.considerate_nil ?_) ?_) ?_
    · rintro g i m (h | h) <;> cases h
    · intro g i m _ h m' hmem
      cases Multiset.notMem_zero _ hmem
    · rintro g i m (h | h) <;> cases h
  exact ⟨_, s₃, hrun, rfl, rfl, guards_sound D hrun hc⟩

end Threads

/-! ### The calls of the two modules -/

deriving instance DecidableEq for Mutex

section Words

variable {U : Types} {ι : Type} [DecidableEq ι]

/-- The words of the locks. -/
def Mutex.Word (ι : Type) : Mutex U → Type
  | .logging _ => Option ι
  | _ => Threads.RWWord ι

/-- `Config` and `ConfigVar` have a `Mutex_RW`, the logging module has spin locks. -/
def Mutex.lockClass (detects : Bool) : ∀ l : Mutex U, LockClass (l.Word ι) ι Mode
  | .registry => Threads.MutexRW detects
  | .ofVar _ => Threads.MutexRW detects
  | .logging _ => Threads.SpinLock

def Mutex.correct (detects : Bool) :
    ∀ l : Mutex U, (Mutex.lockClass detects l : LockClass (l.Word ι) ι Mode).Correct
  | .registry => Threads.MutexRW.correct detects
  | .ofVar _ => Threads.MutexRW.correct detects
  | .logging _ => Threads.SpinLock.correct

theorem Mutex.excluding (detects : Bool) :
    WordConfig.Excluding
      (Mutex.correct detects : ∀ l : Mutex U, (lockClass (ι := ι) detects l).Correct) := by
  rintro (_ | p | l) m m' h
  · exact h
  · exact h
  · exact h.elim

/-- **Over the words of the locks** the calls of the two modules do, between attempts that
miss, what they do where it is recorded who holds what; they never unlock what they do not
hold, and all of them return. -/
theorem calls_on_words (detects : Bool) {C : Client U} (hC : C.InOrder) {s₀ : Runtime U}
    {k : ConfigCall U} {a : Result U}
    {s : WordCalls (Mutex.Word (U := U) ι) ι (ConfigCall U) (Runtime U) (Result U)}
    {tr : List (Taken (WordCalls (Mutex.Word (U := U) ι) ι (ConfigCall U) (Runtime U) (Result U))
      (WordEvent ι (ConfigCall U)))}
    (hrun : Run (WordCalls.Step (Mutex.lockClass detects) (ConfigCall.code C))
      (.start (Mutex.lockClass detects) s₀ k a) tr s)
    (hcalls : ∀ x ∈ tr, ∀ i k, x.label = .call i k → k.InOrder) :
    (∃ tr' t, Run (SharedLocks.Calls.Step (Policy.preferReaders ι (Mutex U) (Runtime U)
        (Result U)) (ConfigCall.code C)) (.start s₀ k a) tr' t ∧
      tr'.map Taken.label = tr.filterMap (fun x => x.label.event?) ∧
      t.history = s.history ∧ t.config.state = s.config.state) ∧
    s.config.Completes (Mutex.lockClass detects) ∧
    ∀ i m l p, s.config.program i = .unlock (m, l) p →
      ∃ w, (Mutex.lockClass detects l).release i (s.config.words l) = some w := by
  have hS := Mutex.excluding (U := U) (ι := ι) detects
  have hcode : ∀ x ∈ tr, ∀ i k, x.label = .call i k →
      (ConfigCall.code C k).Ordered (fun r => r.2.rank) ∅ ∅ := fun x hx i k hk =>
    ConfigCall.inOrder_code hC (hcalls x hx i k hk)
  obtain ⟨tr', t, hrun', hlabels, hstands, _⟩ := WordCalls.refines hS Mutex.rank hrun hcode
  exact ⟨⟨tr', t, hrun', hlabels, hstands.history, hstands.config.state⟩,
    WordCalls.completes hS Mutex.rank hrun hcode,
    fun i m l p hp => WordCalls.defined hS Mutex.rank hrun hcode hp⟩

/-- A thread has the registry while another one makes an attempt at it. -/
theorem calls_on_words_spin :
    let C := Client.logs Types.logs (fun _ v => v) (Env.sample [])
    let K : ∀ l : Mutex Types.logs, LockClass (l.Word Bool) Bool Mode := Mutex.lockClass false
    let k : ConfigCall Types.logs := .lookup (Env.sample []) "logs" () SortedBy.empty
    let s₀ : WordCalls (Mutex.Word Bool) Bool (ConfigCall Types.logs) (Runtime Types.logs)
      (Result Types.logs) := .start K ⟨Registry.start .init, fun _ => 0⟩ (.lookupBase "") (.key 0)
    ∃ tr s, Run (WordCalls.Step K (ConfigCall.code C)) s₀ tr s ∧
      tr.map Taken.label = [.call true k, .call false k, .step true, .miss false] ∧
      s.config.Completes K := by
  intro C K k s₀
  have hrun : Run (WordCalls.Step K (ConfigCall.code C)) s₀ _ _ :=
    (((Run.nil.snoc (.call (i := true) k ⟨_, rfl⟩)).snoc (.call (i := false) k ⟨_, rfl⟩)).snoc
      (.step (i := true) (.take (l := .registry) (m := .write) rfl rfl))).snoc
      (.miss (i := false) (.miss (l := .registry) (m := .write) rfl rfl))
  refine ⟨_, _, hrun, rfl, (calls_on_words false (Client.inOrder_logs _ _) hrun ?_).2.1⟩
  -- whatever is called here is a lookup
  intro x hx i k' hk'
  rcases List.mem_append.mp hx with hx | hx
  · rcases List.mem_append.mp hx with hx | hx
    · rcases List.mem_append.mp hx with hx | hx
      · obtain rfl := List.mem_singleton.mp hx
        cases hk'
        trivial
      · obtain rfl := List.mem_singleton.mp hx
        cases hk'
        trivial
    · obtain rfl := List.mem_singleton.mp hx
      cases hk'
  · obtain rfl := List.mem_singleton.mp hx
    cases hk'

end Words

end Sylar
