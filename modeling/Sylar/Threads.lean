/-
Sylar/Threads.lean

Thread objects and the threads they start (threads.hpp, threads.cpp).

Any number of objects are constructed, each by a creator of its own, and each
starts a thread; every statement that touches memory shared with another thread
is one step, and steps of all creators and threads are interleaved in any order.
An object is gone when it has been destroyed, or when its constructor throws.

What holds in every run, whatever happens to the objects: a thread works for the
object it was started with, and for no other (`Sound`).
-/
import Mathlib.Logic.Function.Basic
import Sylar.Lib.Transition

namespace Sylar

open Transition

/-! ### Objects and threads -/

/-- What a callback does. -/
inductive CallbackOp
  | getThis
  | getName
  | setName (name : String)
  deriving DecidableEq

/-- `Thread`; its id is not initialised. -/
structure Thread (τ : Type) where
  m_id : Option Int
  m_thread : Option τ
  m_callback : Option (List CallbackOp)
  m_name : String
  m_semaphore : Nat

/-- Where the creator of an object stands. -/
inductive Creation
  | absent
  /-- The members are initialised. -/
  | initialised
  /-- The thread is created, and the creator is in `m_semaphore.wait()`. -/
  | waiting
  /-- The constructor has returned. -/
  | returned
  /-- The object is destroyed, or its constructor has thrown. -/
  | gone
  deriving DecidableEq

/-- The next statement of a thread. -/
inductive Pc
  | unborn
  /-- `t_thread = thread` -/
  | enter
  /-- `t_thread_name = thread->m_name` -/
  | copyName
  /-- `thread->m_id = GetThreadID()` -/
  | storeId
  /-- `pthread_setname_np(…, thread->m_name…)` -/
  | setOsName
  /-- `callback.swap(thread->m_callback)` -/
  | swap
  /-- `thread->m_semaphore.notify()` -/
  | notify (callback : Option (List CallbackOp))
  /-- `callback()` -/
  | call (callback : Option (List CallbackOp))
  /-- In the callback, with this to do. -/
  | callback (rest : List CallbackOp)
  /-- In `SetName`, at `t_thread_name = name`. -/
  | rename (name : String) (rest : List CallbackOp)
  | finished
  deriving DecidableEq

/-- A thread and its own variables. -/
structure ThreadLocal (ι : Type) where
  /-- The argument of `run`. -/
  thread : Option ι
  t_thread : Option ι
  t_thread_name : String
  pc : Pc

/-- All objects, creators and threads. -/
structure Threads (ι τ : Type) where
  objects : ι → Thread τ
  creation : ι → Creation
  threads : τ → ThreadLocal ι

/-- What happens in a step. -/
inductive ThreadEvent (ι τ : Type)
  | construct (i : ι) (callback : List CallbackOp) (name : String)
  | create (i : ι) (t : τ)
  | createFails (i : ι)
  | wait (i : ι)
  /-- `sem_wait` is interrupted, and the constructor throws. -/
  | waitFails (i : ι)
  | join (i : ι)
  | destroy (i : ι)
  /-- A statement of `run`, or of `SetName`. -/
  | run (t : τ)
  /-- The callback of the object `i` is called. -/
  | call (t : τ) (i : ι) (callback : List CallbackOp)
  | getThis (t : τ) (result : Option ι)
  | getName (t : τ) (result : String)

namespace ThreadEvent

variable {ι τ : Type}

/-- The new thread whose step it is. -/
def actor : ThreadEvent ι τ → Option τ
  | run t => some t
  | call t _ _ => some t
  | getThis t _ => some t
  | getName t _ => some t
  | _ => none

/-- The object whose life ends while it may have a thread. -/
def ends : ThreadEvent ι τ → Option ι
  | waitFails i => some i
  | destroy i => some i
  | _ => none

end ThreadEvent

/-- `GetThis` is the argument of `run`, once it is set. -/
def ThreadLocal.Own {ι : Type} (l : ThreadLocal ι) : Prop :=
  ∀ i, l.t_thread = some i → l.thread = some i

namespace Threads

variable {ι τ : Type} [DecidableEq ι] [DecidableEq τ]

def setObject (s : Threads ι τ) (i : ι) (o : Thread τ) : Threads ι τ :=
  { s with objects := Function.update s.objects i o }

def setCreation (s : Threads ι τ) (i : ι) (c : Creation) : Threads ι τ :=
  { s with creation := Function.update s.creation i c }

def setLocal (s : Threads ι τ) (t : τ) (l : ThreadLocal ι) : Threads ι τ :=
  { s with threads := Function.update s.threads t l }

/-- The thread goes to another statement. -/
def goto (s : Threads ι τ) (t : τ) (pc : Pc) : Threads ι τ :=
  s.setLocal t { s.threads t with pc := pc }

/-- Nothing has been constructed. -/
def start : Threads ι τ :=
  ⟨fun _ => ⟨none, none, none, "", 0⟩, fun _ => .absent, fun _ => ⟨none, none, "UNKNOWN", .unborn⟩⟩

/-- A step of the thread `t`: `Thread::run`, and the functions its callback calls. -/
inductive Next (threadID : τ → Int) (t : τ) (s : Threads ι τ) :
    ThreadEvent ι τ → Threads ι τ → Prop
  | enter (hpc : (s.threads t).pc = .enter) : Next threadID t s (.run t)
      (s.setLocal t { s.threads t with t_thread := (s.threads t).thread, pc := .copyName })
  | copyName {i} (hpc : (s.threads t).pc = .copyName) (hi : (s.threads t).thread = some i) :
      Next threadID t s (.run t)
        (s.setLocal t { s.threads t with
          t_thread_name := (s.objects i).m_name
          pc := .storeId })
  | storeId {i} (hpc : (s.threads t).pc = .storeId) (hi : (s.threads t).thread = some i) :
      Next threadID t s (.run t)
        ((s.setObject i { s.objects i with m_id := some (threadID t) }).goto t .setOsName)
  | setOsName {i} (hpc : (s.threads t).pc = .setOsName) (hi : (s.threads t).thread = some i) :
      Next threadID t s (.run t) (s.goto t .swap)
  | swap {i} (hpc : (s.threads t).pc = .swap) (hi : (s.threads t).thread = some i) :
      Next threadID t s (.run t)
        ((s.setObject i { s.objects i with m_callback := none }).goto t
          (.notify (s.objects i).m_callback))
  | notify {i callback} (hpc : (s.threads t).pc = .notify callback)
      (hi : (s.threads t).thread = some i) : Next threadID t s (.run t)
        ((s.setObject i { s.objects i with m_semaphore := (s.objects i).m_semaphore + 1 }).goto t
          (.call callback))
  -- an empty function would end the process
  | call {i ops} (hpc : (s.threads t).pc = .call (some ops)) (hi : (s.threads t).thread = some i) :
      Next threadID t s (.call t i ops) (s.goto t (.callback ops))
  | getThis {rest} (hpc : (s.threads t).pc = .callback (.getThis :: rest)) :
      Next threadID t s (.getThis t (s.threads t).t_thread) (s.goto t (.callback rest))
  | getName {rest} (hpc : (s.threads t).pc = .callback (.getName :: rest)) :
      Next threadID t s (.getName t (s.threads t).t_thread_name) (s.goto t (.callback rest))
  | setNameEmpty {rest} (hpc : (s.threads t).pc = .callback (.setName "" :: rest)) :
      Next threadID t s (.run t) (s.goto t (.callback rest))
  | setName {i name rest} (hpc : (s.threads t).pc = .callback (.setName name :: rest))
      (hname : name ≠ "") (hi : (s.threads t).t_thread = some i) : Next threadID t s (.run t)
        ((s.setObject i { s.objects i with m_name := name }).goto t (.rename name rest))
  | setNameAlone {name rest} (hpc : (s.threads t).pc = .callback (.setName name :: rest))
      (hname : name ≠ "") (hnull : (s.threads t).t_thread = none) :
      Next threadID t s (.run t) (s.goto t (.rename name rest))
  | rename {name rest} (hpc : (s.threads t).pc = .rename name rest) : Next threadID t s (.run t)
      (s.setLocal t { s.threads t with t_thread_name := name, pc := .callback rest })
  | finish (hpc : (s.threads t).pc = .callback []) :
      Next threadID t s (.run t) (s.goto t .finished)

/-- A step of a creator or of a thread. -/
inductive Step (threadID : τ → Int) (s : Threads ι τ) : ThreadEvent ι τ → Threads ι τ → Prop
  | construct {i} (h : s.creation i = .absent) (callback : List CallbackOp) (name : String) :
      Step threadID s (.construct i callback name)
        ((s.setObject i ⟨none, none, some callback, if name = "" then "UNKNOWN" else name, 0⟩
          ).setCreation i .initialised)
  | create {i t} (h : s.creation i = .initialised) (ht : (s.threads t).pc = .unborn) :
      Step threadID s (.create i t)
        (((s.setObject i { s.objects i with m_thread := some t }).setCreation i .waiting).setLocal t
          ⟨some i, none, "UNKNOWN", .enter⟩)
  | createFails {i} (h : s.creation i = .initialised) :
      Step threadID s (.createFails i) (s.setCreation i .gone)
  | wait {i} (h : s.creation i = .waiting) (hsem : 0 < (s.objects i).m_semaphore) :
      Step threadID s (.wait i)
        ((s.setObject i { s.objects i with m_semaphore := (s.objects i).m_semaphore - 1 }
          ).setCreation i .returned)
  | waitFails {i} (h : s.creation i = .waiting) :
      Step threadID s (.waitFails i) (s.setCreation i .gone)
  | join {i t} (h : s.creation i = .returned) (hm : (s.objects i).m_thread = some t)
      (ht : (s.threads t).pc = .finished) :
      Step threadID s (.join i) (s.setObject i { s.objects i with m_thread := none })
  | destroy {i} (h : s.creation i = .returned) :
      Step threadID s (.destroy i) (s.setCreation i .gone)
  | thread {t e s'} (h : Next threadID t s e s') : Step threadID s e s'

variable (s : Threads ι τ) {s' : Threads ι τ} {t u : τ} {i : ι} {e : ThreadEvent ι τ}
  {threadID : τ → Int}

section

omit [DecidableEq ι]

theorem setLocal_self (l : ThreadLocal ι) : (s.setLocal t l).threads t = l := by
  rw [setLocal]
  apply Function.update_self

theorem setLocal_of_ne (l : ThreadLocal ι) (h : u ≠ t) :
    (s.setLocal t l).threads u = s.threads u := by
  rw [setLocal]
  exact Function.update_of_ne h _ _

theorem goto_self (pc : Pc) : (s.goto t pc).threads t = { s.threads t with pc := pc } :=
  s.setLocal_self _

theorem goto_of_ne (pc : Pc) (h : u ≠ t) : (s.goto t pc).threads u = s.threads u :=
  s.setLocal_of_ne _ h

end

variable {s}

/-- **Frame**: a thread changes its own variables, and creates or destroys nothing. -/
theorem Next.frame (h : Next threadID t s e s') : s'.creation = s.creation ∧
    (∀ u, u ≠ t → s'.threads u = s.threads u) ∧ e.actor = some t ∧ e.ends = none := by
  cases h with
  | enter | copyName | rename => exact ⟨rfl, fun u hu => setLocal_of_ne _ _ hu, rfl, rfl⟩
  | _ => exact ⟨rfl, fun u hu => goto_of_ne _ _ hu, rfl, rfl⟩

/-- A thread works for one object. -/
theorem Next.thread_eq (h : Next threadID t s e s') (u : τ) :
    (s'.threads u).thread = (s.threads u).thread := by
  by_cases hut : u = t
  · subst hut
    cases h with
    | enter | copyName | rename => rw [setLocal_self]
    | _ => exact (congrArg ThreadLocal.thread (goto_self _ _)).trans rfl
  · rw [h.frame.2.1 u hut]

theorem Next.own (h : Next threadID t s e s') (hown : ∀ u, (s.threads u).Own) (u : τ) :
    (s'.threads u).Own := by
  have hu := hown u
  by_cases hut : u = t
  · subst hut
    cases h with
    | enter =>
        rw [setLocal_self]
        exact fun _ hi => hi
    | copyName | rename =>
        rw [setLocal_self]
        exact hu
    | _ =>
        rw [goto_self]
        exact hu
  · rw [h.frame.2.1 u hut]
    exact hu

/-! ### Every run -/

/-- What holds in every run: threads belong to objects whose creator has created them. -/
structure Sound (s : Threads ι τ) : Prop where
  own : ∀ t, (s.threads t).Own
  absent : ∀ t i, (s.threads t).thread = some i → s.creation i ≠ .absent
  initialised : ∀ t i, (s.threads t).thread = some i → s.creation i ≠ .initialised

omit [DecidableEq ι] [DecidableEq τ] in
theorem sound_start : Sound (start : Threads ι τ) where
  own _ _ h := by cases h
  absent _ _ h := by cases h
  initialised _ _ h := by cases h

omit [DecidableEq τ] in
theorem setCreation_self (s : Threads ι τ) (c : Creation) :
    (s.setCreation i c).creation i = c := by
  rw [setCreation]
  apply Function.update_self

omit [DecidableEq τ] in
/-- A creator that goes on keeps what other creators have done. -/
theorem creation_ne {c : Creation} {j : ι} (s : Threads ι τ) {c' : Creation} (hc : c' ≠ c)
    (h : s.creation j ≠ c) : (s.setCreation i c').creation j ≠ c := by
  show Function.update s.creation i c' j ≠ c
  by_cases hj : j = i
  · subst hj
    rw [Function.update_self]
    exact hc
  · rw [Function.update_of_ne hj]
    exact h

/-- **Step lemma.** -/
theorem Sound.step (h : Sound s) (hs : Step threadID s e s') : Sound s' := by
  have hset : ∀ i c, c ≠ .absent → c ≠ .initialised → Sound (s.setCreation i c) := fun i c ha hi =>
    ⟨h.own, fun t j hj => s.creation_ne ha (h.absent t j hj),
      fun t j hj => s.creation_ne hi (h.initialised t j hj)⟩
  cases hs with
  | @construct i habsent =>
      refine ⟨h.own, fun t j hj => s.creation_ne (by decide) (h.absent t j hj), fun t j hj => ?_⟩
      -- no thread has an object that was not there
      have hne : j ≠ i := by
        rintro rfl
        exact h.absent t j hj habsent
      show Function.update s.creation i _ j ≠ _
      rw [Function.update_of_ne hne]
      exact h.initialised t j hj
  | @create i u =>
      have hs := hset i .waiting (by decide) (by decide)
      -- the new thread has the object that is waiting, and the others have theirs
      have hcreated : ∀ c, c ≠ .waiting →
          (∀ t j, (s.threads t).thread = some j → (s.setCreation i .waiting).creation j ≠ c) →
          ∀ t j, ((s.setLocal u ⟨some i, none, "UNKNOWN", .enter⟩).threads t).thread = some j →
            (s.setCreation i .waiting).creation j ≠ c := by
        intro c hc hold t j hj
        by_cases htu : t = u
        · subst htu
          rw [setLocal_self] at hj
          obtain rfl := Option.some.inj hj
          rw [setCreation_self]
          exact hc.symm
        · rw [setLocal_of_ne _ _ htu] at hj
          exact hold t j hj
      refine ⟨fun t => ?_, hcreated .absent (by decide) hs.absent,
        hcreated .initialised (by decide) hs.initialised⟩
      by_cases htu : t = u
      · subst htu
        rw [setLocal_self]
        exact fun _ hi => by cases hi
      · rw [setLocal_of_ne _ _ htu]
        exact h.own t
  | createFails => exact hset _ .gone (by decide) (by decide)
  | @wait i =>
      have hs := hset i .returned (by decide) (by decide)
      exact ⟨hs.own, hs.absent, hs.initialised⟩
  | waitFails => exact hset _ .gone (by decide) (by decide)
  | join => exact ⟨h.own, h.absent, h.initialised⟩
  | destroy => exact hset _ .gone (by decide) (by decide)
  | @thread u _ _ hnext =>
      obtain ⟨hcreation, _⟩ := hnext.frame
      refine ⟨hnext.own h.own, fun t j hj => ?_, fun t j hj => ?_⟩
      · rw [hcreation]
        exact h.absent t j ((hnext.thread_eq t).symm.trans hj)
      · rw [hcreation]
        exact h.initialised t j ((hnext.thread_eq t).symm.trans hj)

end Threads

end Sylar
