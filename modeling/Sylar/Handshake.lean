/-
Sylar/Handshake.lean

How a thread starts (threads.cpp).

The constructor of `Thread` waits for a `notify` that its thread makes once it
has left its id in the object and taken the callback out of it.  So whoever has
the object can ask it for the thread's id, and the callback, which the thread
calls next, sees this object as `GetThis` and its name as `GetName`
(`start_handshake`).

`Stage` says for each statement of `run` what is true of the object and of the
thread before it; the object belongs to one thread, and no other touches it.
-/
import Sylar.Threads

namespace Sylar

open Transition

/-- The name of an object, constructed with `name`, after the operations. -/
def named (name : String) (done : List CallbackOp) : String :=
  done.foldl (fun n op =>
      match op with
      | .setName m => if m = "" then n else m
      | _ => n)
    (if name = "" then "UNKNOWN" else name)

theorem named_concat (name : String) (done : List CallbackOp) (op : CallbackOp) :
    named name (done ++ [op]) =
      match op with
      | .setName m => if m = "" then named name done else m
      | _ => named name done := by
  rw [named, List.foldl_append]
  rfl

/-- The calls of the callback of the object `i`: the thread, and what was called. -/
def ThreadEvent.calls {ι τ : Type} [DecidableEq ι] (i : ι) (es : List (ThreadEvent ι τ)) :
    List (τ × List CallbackOp) :=
  es.filterMap fun e =>
    match e with
    | .call t j callback => if j = i then some (t, callback) else none
    | _ => none

/-- The constructions of the object `i`: the callback and the name. -/
def ThreadEvent.constructions {ι τ : Type} [DecidableEq ι] (i : ι) (es : List (ThreadEvent ι τ)) :
    List (List CallbackOp × String) :=
  es.filterMap fun e =>
    match e with
    | .construct j callback name => if j = i then some (callback, name) else none
    | _ => none

namespace Threads

open ThreadEvent

section Stage

variable {ι τ : Type}

/-- The callback is where the constructor put it. -/
def Unused (callback : List CallbackOp) (name : String) (o : Thread τ)
    (called : List (τ × List CallbackOp)) : Prop :=
  o.m_callback = some callback ∧ o.m_name = named name [] ∧ o.m_semaphore = 0 ∧ called = []

/-- The object and the thread know each other. -/
def Introduced (id : Int) (i : ι) (o : Thread τ) (l : ThreadLocal ι) : Prop :=
  o.m_id = some id ∧ l.t_thread = some i

/-- `notify` has been called, and the creator has taken notice or not. -/
def Posted (c : Creation) (o : Thread τ) : Prop :=
  (c = .waiting ∧ o.m_semaphore = 1) ∨ (c = .returned ∧ o.m_semaphore = 0)

/-- The operations behind `rest` have been done. -/
def Renamed (callback rest : List CallbackOp) (name : String) (o : Thread τ) : Prop :=
  ∃ done, callback = done ++ rest ∧ o.m_name = named name done

/-- What is true of an object `i` and its thread `t`, before its next statement. -/
def Stage (id : Int) (t : τ) (i : ι) (callback : List CallbackOp) (name : String) (c : Creation)
    (o : Thread τ) (l : ThreadLocal ι) (called : List (τ × List CallbackOp)) : Prop :=
  match l.pc with
  | .unborn => False
  | .enter => c = .waiting ∧ Unused callback name o called
  | .copyName => c = .waiting ∧ Unused callback name o called ∧ l.t_thread = some i
  | .storeId => c = .waiting ∧ Unused callback name o called ∧ l.t_thread = some i ∧
      l.t_thread_name = o.m_name
  | .setOsName => c = .waiting ∧ Unused callback name o called ∧ Introduced id i o l ∧
      l.t_thread_name = o.m_name
  | .swap => c = .waiting ∧ Unused callback name o called ∧ Introduced id i o l ∧
      l.t_thread_name = o.m_name
  | .notify taken => c = .waiting ∧ taken = some callback ∧ o.m_semaphore = 0 ∧ called = [] ∧
      o.m_name = named name [] ∧ Introduced id i o l ∧ l.t_thread_name = o.m_name
  | .call taken => Posted c o ∧ taken = some callback ∧ called = [] ∧
      o.m_name = named name [] ∧ Introduced id i o l ∧ l.t_thread_name = o.m_name
  | .callback rest => Posted c o ∧ called = [(t, callback)] ∧ Renamed callback rest name o ∧
      Introduced id i o l ∧ l.t_thread_name = o.m_name
  -- between its two assignments `SetName` has set one of the two names
  | .rename new rest => Posted c o ∧ called = [(t, callback)] ∧ Renamed callback rest name o ∧
      Introduced id i o l ∧ new = o.m_name
  | .finished => Posted c o ∧ called = [(t, callback)] ∧ Renamed callback [] name o ∧
      Introduced id i o l ∧ l.t_thread_name = o.m_name

/-- An operation that leaves the name has been done. -/
theorem Renamed.next {callback rest : List CallbackOp} {name : String} {o : Thread τ}
    {op : CallbackOp} (h : Renamed callback (op :: rest) name o)
    (hop : ∀ done, named name (done ++ [op]) = named name done) :
    Renamed callback rest name o := by
  obtain ⟨done, hdone, hname⟩ := h
  exact ⟨_, hdone.trans (List.append_cons ..), hname.trans (hop done).symm⟩

variable {id : Int} {t : τ} {i : ι} {callback : List CallbackOp} {name : String} {c : Creation}
  {o : Thread τ} {l : ThreadLocal ι} {called : List (τ × List CallbackOp)}

/-- Nothing is said of `m_thread`. -/
theorem Stage.of_m_thread (h : Stage id t i callback name c o l called) (m_thread : Option τ) :
    Stage id t i callback name c { o with m_thread := m_thread } l called := h

theorem Stage.ne_unborn (h : Stage id t i callback name c o l called) : l.pc ≠ .unborn := by
  intro hpc
  rw [Stage, hpc] at h
  exact h

theorem Stage.creation (h : Stage id t i callback name c o l called) :
    c = .waiting ∨ c = .returned := by
  have hposted : Posted c o → c = .waiting ∨ c = .returned :=
    fun hposted => hposted.imp And.left And.left
  rw [Stage] at h
  cases hpc : l.pc with
  | unborn =>
      rw [hpc] at h
      exact h.elim
  | call | callback | rename | finished =>
      rw [hpc] at h
      exact hposted h.1
  | _ =>
      rw [hpc] at h
      exact Or.inl h.1

/-- If the creator can go on, the thread has called `notify`. -/
theorem Stage.wait (h : Stage id t i callback name .waiting o l called) (hsem : 0 < o.m_semaphore) :
    Stage id t i callback name .returned { o with m_semaphore := o.m_semaphore - 1 } l called := by
  have hnot : o.m_semaphore ≠ 0 := Nat.ne_of_gt hsem
  have hposted : Posted .waiting o →
      Posted .returned { o with m_semaphore := o.m_semaphore - 1 } := by
    rintro (⟨_, hone⟩ | ⟨hc, _⟩)
    · exact Or.inr ⟨rfl, by rw [hone]⟩
    · cases hc
  rw [Stage] at h ⊢
  cases hpc : l.pc with
  | unborn =>
      rw [hpc] at h
      exact h
  | enter =>
      rw [hpc] at h
      exact absurd h.2.2.2.1 hnot
  | copyName | storeId | setOsName | swap =>
      rw [hpc] at h
      exact absurd h.2.1.2.2.1 hnot
  | notify taken =>
      rw [hpc] at h
      exact absurd h.2.2.1 hnot
  | call | callback | rename | finished =>
      rw [hpc] at h
      exact ⟨hposted h.1, h.2⟩

end Stage

variable {ι τ : Type} [DecidableEq ι] [DecidableEq τ] {s s' : Threads ι τ} {t u : τ} {i : ι}
  {e : ThreadEvent ι τ} {es : List (ThreadEvent ι τ)} {threadID : τ → Int}
  {callback : List CallbackOp} {name : String}

section

omit [DecidableEq τ]

theorem calls_append (es es' : List (ThreadEvent ι τ)) :
    calls i (es ++ es') = calls i es ++ calls i es' := by
  rw [calls, List.filterMap_append]
  rfl

theorem calls_concat_nil (h : calls i [e] = []) : calls i (es ++ [e]) = calls i es := by
  rw [calls_append, h, List.append_nil]

theorem calls_call : calls i [.call t i callback] = [(t, callback)] := by
  show (if i = i then some (t, callback) else none).toList = _
  rw [if_pos rfl]
  rfl

theorem calls_call_of_ne {j : ι} (h : j ≠ i) :
    calls i [(.call t j callback : ThreadEvent ι τ)] = [] := by
  show (if j = i then some (t, callback) else none).toList = _
  rw [if_neg h]
  rfl

theorem constructions_append (es es' : List (ThreadEvent ι τ)) :
    constructions i (es ++ es') = constructions i es ++ constructions i es' := by
  rw [constructions, List.filterMap_append]
  rfl

theorem constructions_concat_nil (h : constructions i [e] = []) :
    constructions i (es ++ [e]) = constructions i es := by
  rw [constructions_append, h, List.append_nil]

theorem constructions_construct :
    constructions i [(.construct i callback name : ThreadEvent ι τ)] = [(callback, name)] := by
  show (if i = i then some (callback, name) else none).toList = _
  rw [if_pos rfl]
  rfl

theorem constructions_construct_of_ne {j : ι} (h : j ≠ i) :
    constructions i [(.construct j callback name : ThreadEvent ι τ)] = [] := by
  show (if j = i then some (callback, name) else none).toList = _
  rw [if_neg h]
  rfl

end

/-- **Step lemma**, the thread of the object. -/
theorem Stage.next (h : Stage (threadID t) t i callback name (s.creation i) (s.objects i)
      (s.threads t) (calls i es)) (hnext : Next threadID t s e s')
    (hi : (s.threads t).thread = some i) :
    Stage (threadID t) t i callback name (s'.creation i) (s'.objects i) (s'.threads t)
      (calls i (es ++ [e])) := by
  rw [Stage] at h
  cases hnext with
  | enter hpc =>
      rw [hpc] at h
      rw [setLocal_self, calls_concat_nil rfl]
      exact ⟨h.1, h.2, hi⟩
  | copyName hpc hi' =>
      obtain rfl := Option.some.inj (hi.symm.trans hi')
      rw [hpc] at h
      rw [setLocal_self, calls_concat_nil rfl]
      exact ⟨h.1, h.2.1, h.2.2, rfl⟩
  | storeId hpc hi' =>
      obtain rfl := Option.some.inj (hi.symm.trans hi')
      rw [hpc] at h
      rw [goto_self, calls_concat_nil rfl]
      show Stage _ _ _ _ _ _ (Function.update s.objects i _ i) _ _
      rw [Function.update_self]
      exact ⟨h.1, h.2.1, ⟨rfl, h.2.2.1⟩, h.2.2.2⟩
  | setOsName hpc hi' =>
      rw [hpc] at h
      rw [goto_self, calls_concat_nil rfl]
      exact h
  | swap hpc hi' =>
      obtain rfl := Option.some.inj (hi.symm.trans hi')
      rw [hpc] at h
      obtain ⟨hwaiting, ⟨hcallback, hname, hsem, hcalls⟩, hintro, hsame⟩ := h
      rw [goto_self, calls_concat_nil rfl]
      show Stage _ _ _ _ _ _ (Function.update s.objects i _ i) _ _
      rw [Function.update_self]
      exact ⟨hwaiting, hcallback, hsem, hcalls, hname, hintro, hsame⟩
  | notify hpc hi' =>
      obtain rfl := Option.some.inj (hi.symm.trans hi')
      rw [hpc] at h
      obtain ⟨hwaiting, htaken, hsem, hcalls, hname, hintro, hsame⟩ := h
      rw [goto_self, calls_concat_nil rfl]
      show Stage _ _ _ _ _ _ (Function.update s.objects i _ i) _ _
      rw [Function.update_self]
      exact ⟨Or.inl ⟨hwaiting, congrArg (· + 1) hsem⟩, htaken, hcalls, hname, hintro, hsame⟩
  | call hpc hi' =>
      obtain rfl := Option.some.inj (hi.symm.trans hi')
      rw [hpc] at h
      obtain ⟨hposted, htaken, hcalls, hname, hintro, hsame⟩ := h
      obtain rfl := Option.some.inj htaken
      rw [goto_self, calls_append, hcalls, List.nil_append, calls_call]
      exact ⟨hposted, rfl, ⟨[], rfl, hname⟩, hintro, hsame⟩
  | getThis hpc =>
      rw [hpc] at h
      obtain ⟨hposted, hcalls, hrenamed, hintro, hsame⟩ := h
      rw [goto_self, calls_concat_nil rfl]
      exact ⟨hposted, hcalls, hrenamed.next (named_concat name · _), hintro, hsame⟩
  | getName hpc =>
      rw [hpc] at h
      obtain ⟨hposted, hcalls, hrenamed, hintro, hsame⟩ := h
      rw [goto_self, calls_concat_nil rfl]
      exact ⟨hposted, hcalls, hrenamed.next (named_concat name · _), hintro, hsame⟩
  | setNameEmpty hpc =>
      rw [hpc] at h
      obtain ⟨hposted, hcalls, hrenamed, hintro, hsame⟩ := h
      rw [goto_self, calls_concat_nil rfl]
      have hop := fun done => (named_concat name done (.setName "")).trans (if_pos rfl)
      exact ⟨hposted, hcalls, hrenamed.next hop, hintro, hsame⟩
  | setName hpc hname hi' =>
      rw [hpc] at h
      obtain ⟨hposted, hcalls, ⟨done, hdone, _⟩, hintro, _⟩ := h
      obtain rfl := Option.some.inj (hintro.2.symm.trans hi')
      rw [goto_self, calls_concat_nil rfl]
      show Stage _ _ _ _ _ _ (Function.update s.objects i _ i) _ _
      rw [Function.update_self]
      refine ⟨hposted, hcalls, ⟨_, hdone.trans (List.append_cons ..), ?_⟩, hintro, rfl⟩
      rw [named_concat]
      exact (if_neg hname).symm
  | setNameAlone hpc _ hnull =>
      rw [hpc] at h
      cases hnull.symm.trans h.2.2.2.1.2
  | rename hpc =>
      rw [hpc] at h
      rw [setLocal_self, calls_concat_nil rfl]
      exact h
  | finish hpc =>
      rw [hpc] at h
      rw [goto_self, calls_concat_nil rfl]
      exact h

/-- A thread constructs nothing. -/
theorem Next.constructions (hnext : Next threadID t s e s') : constructions i [e] = [] := by
  cases hnext <;> rfl

/-- A thread changes no object but its own, and calls no other callback. -/
theorem Next.other (hnext : Next threadID t s e s') (hown : (s.threads t).Own)
    (hi : (s.threads t).thread ≠ some i) :
    s'.objects i = s.objects i ∧ calls i (es ++ [e]) = calls i es := by
  have hset : ∀ {j o}, (s.threads t).thread = some j →
      Function.update s.objects j o i = s.objects i :=
    fun hj => Function.update_of_ne (fun hij => hi (hj.trans (congrArg some hij.symm))) _ _
  cases hnext with
  | enter => exact ⟨rfl, calls_concat_nil rfl⟩
  | copyName => exact ⟨rfl, calls_concat_nil rfl⟩
  | storeId _ hj => exact ⟨hset hj, calls_concat_nil rfl⟩
  | setOsName => exact ⟨rfl, calls_concat_nil rfl⟩
  | swap _ hj => exact ⟨hset hj, calls_concat_nil rfl⟩
  | notify _ hj => exact ⟨hset hj, calls_concat_nil rfl⟩
  | call _ hj =>
      refine ⟨rfl, calls_concat_nil (calls_call_of_ne ?_)⟩
      rintro rfl
      exact hi hj
  | getThis => exact ⟨rfl, calls_concat_nil rfl⟩
  | getName => exact ⟨rfl, calls_concat_nil rfl⟩
  | setNameEmpty => exact ⟨rfl, calls_concat_nil rfl⟩
  | setName _ _ hj => exact ⟨hset (hown _ hj), calls_concat_nil rfl⟩
  | setNameAlone => exact ⟨rfl, calls_concat_nil rfl⟩
  | rename => exact ⟨rfl, calls_concat_nil rfl⟩
  | finish => exact ⟨rfl, calls_concat_nil rfl⟩

/-! ### Every object -/

/-- What is true of an object, of its thread if it has one, and of their past. -/
def Kept (threadID : τ → Int) (es : List (ThreadEvent ι τ)) (s : Threads ι τ) (i : ι) : Prop :=
  match s.creation i with
  | .absent => constructions i es = [] ∧ calls i es = [] ∧ ∀ t, (s.threads t).thread ≠ some i
  | .initialised => (∃ callback name, constructions i es = [(callback, name)] ∧
      Unused callback name (s.objects i) (calls i es)) ∧ ∀ t, (s.threads t).thread ≠ some i
  -- only `pthread_create` has failed
  | .gone => ∀ t, (s.threads t).thread ≠ some i
  | c => ∃ callback name t, constructions i es = [(callback, name)] ∧
      (∀ u, (s.threads u).thread = some i ↔ u = t) ∧
      Stage (threadID t) t i callback name c (s.objects i) (s.threads t) (calls i es)

section

omit [DecidableEq τ]

/-- **Frame**: what is true of an object stays if the object and its thread do. -/
theorem Kept.frame {es' : List (ThreadEvent ι τ)} (h : Kept threadID es s i)
    (hcreation : s'.creation i = s.creation i) (hobject : s'.objects i = s.objects i)
    (hthreads : ∀ t, s'.threads t = s.threads t ∨
      (s.threads t).thread ≠ some i ∧ (s'.threads t).thread ≠ some i)
    (hconstructions : constructions i es' = constructions i es)
    (hcalls : calls i es' = calls i es) :
    Kept threadID es' s' i := by
  have hthread : ∀ t, (s'.threads t).thread = some i ↔ (s.threads t).thread = some i := by
    intro t
    rcases hthreads t with hsame | ⟨hnot, hnot'⟩
    · rw [hsame]
    · exact iff_of_false hnot' hnot
  have hno : (∀ t, (s.threads t).thread ≠ some i) → ∀ t, (s'.threads t).thread ≠ some i :=
    fun hnone t ht => hnone t ((hthread t).mp ht)
  have hsame : ∀ t, (s.threads t).thread = some i → s'.threads t = s.threads t :=
    fun t ht => (hthreads t).resolve_right fun hnot => hnot.1 ht
  rw [Kept] at h ⊢
  rw [hcreation, hobject, hconstructions, hcalls]
  cases hc : s.creation i with
  | absent =>
      rw [hc] at h
      exact ⟨h.1, h.2.1, hno h.2.2⟩
  | initialised =>
      rw [hc] at h
      exact ⟨h.1, hno h.2⟩
  | gone =>
      rw [hc] at h
      exact hno h
  | waiting =>
      rw [hc] at h
      obtain ⟨callback, name, t, hcons, hone, hstage⟩ := h
      refine ⟨callback, name, t, hcons, fun u => (hthread u).trans (hone u), ?_⟩
      rw [hsame t ((hone t).mpr rfl)]
      exact hstage
  | returned =>
      rw [hc] at h
      obtain ⟨callback, name, t, hcons, hone, hstage⟩ := h
      refine ⟨callback, name, t, hcons, fun u => (hthread u).trans (hone u), ?_⟩
      rw [hsame t ((hone t).mpr rfl)]
      exact hstage

theorem Kept.of_thread (h : Kept threadID es s i) (ht : (s.threads t).thread = some i) :
    ∃ callback name, constructions i es = [(callback, name)] ∧
      (∀ u, (s.threads u).thread = some i ↔ u = t) ∧
      Stage (threadID t) t i callback name (s.creation i) (s.objects i) (s.threads t)
        (calls i es) := by
  rw [Kept] at h
  cases hc : s.creation i with
  | absent =>
      rw [hc] at h
      exact absurd ht (h.2.2 t)
  | initialised =>
      rw [hc] at h
      exact absurd ht (h.2 t)
  | gone =>
      rw [hc] at h
      exact absurd ht (h t)
  | waiting =>
      rw [hc] at h
      obtain ⟨callback, name, u, hcons, hone, hstage⟩ := h
      obtain rfl := (hone t).mp ht
      exact ⟨callback, name, hcons, hone, hstage⟩
  | returned =>
      rw [hc] at h
      obtain ⟨callback, name, u, hcons, hone, hstage⟩ := h
      obtain rfl := (hone t).mp ht
      exact ⟨callback, name, hcons, hone, hstage⟩

theorem Kept.of_stage (hstage : Stage (threadID t) t i callback name (s.creation i) (s.objects i)
      (s.threads t) (calls i es)) (hcons : constructions i es = [(callback, name)])
    (hone : ∀ u, (s.threads u).thread = some i ↔ u = t) : Kept threadID es s i := by
  rw [Kept]
  have hcreation := hstage.creation
  cases hc : s.creation i with
  | waiting =>
      rw [hc] at hstage
      exact ⟨callback, name, t, hcons, hone, hstage⟩
  | returned =>
      rw [hc] at hstage
      exact ⟨callback, name, t, hcons, hone, hstage⟩
  | _ =>
      rw [hc] at hcreation
      rcases hcreation with hc | hc <;> cases hc

/-! ### Steps -/

theorem Kept.construct (h : Kept threadID es s i) (hi : s.creation i = .absent)
    (callback : List CallbackOp) (name : String) :
    Kept threadID (es ++ [.construct i callback name])
      ((s.setObject i ⟨none, none, some callback, if name = "" then "UNKNOWN" else name, 0⟩
        ).setCreation i .initialised) i := by
  rw [Kept, hi] at h
  obtain ⟨hcons, hcalls, hnone⟩ := h
  rw [Kept, setCreation_self, constructions_append, hcons, calls_concat_nil rfl]
  refine ⟨⟨callback, name, constructions_construct, ?_⟩, hnone⟩
  show Unused _ _ (Function.update s.objects i _ i) _
  rw [Function.update_self]
  exact ⟨rfl, rfl, rfl, hcalls⟩

theorem Kept.createFails (h : Kept threadID es s i) (hi : s.creation i = .initialised) :
    Kept threadID (es ++ [.createFails i]) (s.setCreation i .gone) i := by
  rw [Kept, hi] at h
  rw [Kept, setCreation_self]
  exact h.2

theorem Kept.wait (h : Kept threadID es s i) (hi : s.creation i = .waiting)
    (hsem : 0 < (s.objects i).m_semaphore) :
    Kept threadID (es ++ [.wait i])
      ((s.setObject i { s.objects i with m_semaphore := (s.objects i).m_semaphore - 1 }
        ).setCreation i .returned) i := by
  rw [Kept, hi] at h
  obtain ⟨callback, name, t, hcons, hone, hstage⟩ := h
  refine Kept.of_stage ?_ ((constructions_concat_nil rfl).trans hcons) hone
  rw [setCreation_self, calls_concat_nil rfl]
  show Stage _ _ _ _ _ _ (Function.update s.objects i _ i) _ _
  rw [Function.update_self]
  exact hstage.wait hsem

theorem Kept.join (h : Kept threadID es s i) (hi : s.creation i = .returned) :
    Kept threadID (es ++ [.join i]) (s.setObject i { s.objects i with m_thread := none }) i := by
  rw [Kept, hi] at h
  obtain ⟨callback, name, t, hcons, hone, hstage⟩ := h
  refine Kept.of_stage ?_ ((constructions_concat_nil rfl).trans hcons) hone
  rw [calls_concat_nil rfl]
  show Stage _ _ _ _ _ (s.creation i) (Function.update s.objects i _ i) _ _
  rw [Function.update_self, hi]
  exact hstage.of_m_thread none

end

theorem Kept.create (h : Kept threadID es s i) (hi : s.creation i = .initialised) :
    Kept threadID (es ++ [.create i t])
      (((s.setObject i { s.objects i with m_thread := some t }).setCreation i .waiting).setLocal t
        ⟨some i, none, "UNKNOWN", .enter⟩) i := by
  rw [Kept, hi] at h
  obtain ⟨⟨callback, name, hcons, hunused⟩, hnone⟩ := h
  refine Kept.of_stage (t := t) ?_ ((constructions_concat_nil rfl).trans hcons) (fun u => ?_)
  · rw [setLocal_self, calls_concat_nil rfl]
    show Stage _ _ _ _ _ (Function.update s.creation i .waiting i)
      (Function.update s.objects i _ i) _ _
    rw [Function.update_self, Function.update_self]
    exact ⟨rfl, hunused⟩
  · by_cases hut : u = t
    · subst hut
      rw [setLocal_self]
      exact iff_of_true rfl rfl
    · rw [setLocal_of_ne _ _ hut]
      exact iff_of_false (hnone u) hut

/-- A step of the thread of the object. -/
theorem Kept.next (h : Kept threadID es s i) (hnext : Next threadID t s e s')
    (ht : (s.threads t).thread = some i) : Kept threadID (es ++ [e]) s' i := by
  obtain ⟨callback, name, hcons, hone, hstage⟩ := h.of_thread ht
  refine Kept.of_stage (hstage.next hnext ht)
    ((constructions_concat_nil hnext.constructions).trans hcons) (fun u => ?_)
  rw [hnext.thread_eq]
  exact hone u

/-- A step of another thread. -/
theorem Kept.next_other (h : Kept threadID es s i) (hnext : Next threadID t s e s')
    (hown : (s.threads t).Own) (ht : (s.threads t).thread ≠ some i) :
    Kept threadID (es ++ [e]) s' i := by
  obtain ⟨hcreation, hframe, _⟩ := hnext.frame
  have hother : _ ∧ calls i (es ++ [e]) = calls i es := hnext.other hown ht
  refine h.frame (congrFun hcreation i) hother.1 (fun u => ?_)
    (constructions_concat_nil hnext.constructions) hother.2
  by_cases hut : u = t
  · subst hut
    rw [← hnext.thread_eq] at ht
    exact Or.inr ⟨(hnext.thread_eq u) ▸ ht, ht⟩
  · exact Or.inl (hframe u hut)

/-- **Step lemma**, if no object ends that may have a thread. -/
theorem Kept.step (hi : Kept threadID es s i) (hsound : Sound s) (hs : Step threadID s e s')
    (hends : e.ends = none) : Kept threadID (es ++ [e]) s' i := by
  cases hs with
  | @construct j hj callback name =>
      by_cases hij : i = j
      · subst hij
        exact hi.construct hj callback name
      · exact hi.frame (Function.update_of_ne hij _ _) (Function.update_of_ne hij _ _)
          (fun _ => Or.inl rfl)
          (constructions_concat_nil (constructions_construct_of_ne (Ne.symm hij)))
          (calls_concat_nil rfl)
  | @create j t hj ht =>
      by_cases hij : i = j
      · subst hij
        exact hi.create hj
      · refine hi.frame (Function.update_of_ne hij _ _) (Function.update_of_ne hij _ _)
          (fun u => ?_) (constructions_concat_nil rfl) (calls_concat_nil rfl)
        by_cases hut : u = t
        · subst hut
          rw [setLocal_self]
          refine Or.inr ⟨fun hu => ?_, fun hji => hij (Option.some.inj hji).symm⟩
          -- the thread has not been born, so that no object has it
          obtain ⟨_, _, _, _, hstage⟩ := hi.of_thread hu
          exact hstage.ne_unborn ht
        · exact Or.inl (setLocal_of_ne _ _ hut)
  | @createFails j hj =>
      by_cases hij : i = j
      · subst hij
        exact hi.createFails hj
      · exact hi.frame (Function.update_of_ne hij _ _) rfl (fun _ => Or.inl rfl)
          (constructions_concat_nil rfl) (calls_concat_nil rfl)
  | @wait j hj hsem =>
      by_cases hij : i = j
      · subst hij
        exact hi.wait hj hsem
      · exact hi.frame (Function.update_of_ne hij _ _) (Function.update_of_ne hij _ _)
          (fun _ => Or.inl rfl) (constructions_concat_nil rfl) (calls_concat_nil rfl)
  | waitFails => cases hends
  | @join j t hj hm ht =>
      by_cases hij : i = j
      · subst hij
        exact hi.join hj
      · exact hi.frame rfl (Function.update_of_ne hij _ _) (fun _ => Or.inl rfl)
          (constructions_concat_nil rfl) (calls_concat_nil rfl)
  | destroy => cases hends
  | @thread u _ _ hnext =>
      by_cases hu : (s.threads u).thread = some i
      · exact hi.next hnext hu
      · exact hi.next_other hnext (hsound.own u) hu

/-- **Run lemma.** -/
theorem kept_of_run {tr : List (Taken (Threads ι τ) (ThreadEvent ι τ))}
    (hrun : Run (Step threadID) start tr s) (halive : ∀ x ∈ tr, x.label.ends = none) :
    Sound s ∧ ∀ i, Kept threadID (tr.map Taken.label) s i := by
  induction hrun with
  | nil => exact ⟨sound_start, fun i => ⟨rfl, rfl, fun t ht => by cases ht⟩⟩
  | snoc _ hs ih =>
      obtain ⟨halive, hends⟩ := List.forall_mem_append.mp halive
      obtain ⟨hsound, hkept⟩ := ih halive
      refine ⟨hsound.step hs, ?_⟩
      rw [List.map_append]
      exact fun i => (hkept i).step hsound hs (hends _ List.mem_cons_self)

section

omit [DecidableEq ι] [DecidableEq τ]

/-- What the constructor promises when it returns. -/
theorem Stage.returned {called : List (τ × List CallbackOp)} {o : Thread τ} {l : ThreadLocal ι}
    {id : Int} (h : Stage id t i callback name .returned o l called) :
    o.m_id = some id ∧ l.t_thread = some i ∧
      (called = [] ∧ l.pc = .call (some callback) ∨ called = [(t, callback)]) := by
  rw [Stage] at h
  cases hpc : l.pc with
  | call taken =>
      rw [hpc] at h
      obtain ⟨_, htaken, hcalls, _, ⟨hid, hthis⟩, _⟩ := h
      exact ⟨hid, hthis, Or.inl ⟨hcalls, by rw [htaken]⟩⟩
  | callback | rename | finished =>
      rw [hpc] at h
      obtain ⟨_, hcalls, _, ⟨hid, hthis⟩, _⟩ := h
      exact ⟨hid, hthis, Or.inr hcalls⟩
  | unborn =>
      rw [hpc] at h
      exact h.elim
  | _ =>
      rw [hpc] at h
      cases h.1

/-- The callback is called once, and by no other thread. -/
theorem Stage.called {called : List (τ × List CallbackOp)} {o : Thread τ} {l : ThreadLocal ι}
    {id : Int} {c : Creation} (h : Stage id t i callback name c o l called) :
    called = [] ∨ called = [(t, callback)] := by
  rw [Stage] at h
  cases hpc : l.pc with
  | unborn =>
      rw [hpc] at h
      exact h.elim
  | enter =>
      rw [hpc] at h
      exact Or.inl h.2.2.2.2
  | copyName | storeId | setOsName | swap =>
      rw [hpc] at h
      exact Or.inl h.2.1.2.2.2
  | notify taken =>
      rw [hpc] at h
      exact Or.inl h.2.2.2.1
  | call taken =>
      rw [hpc] at h
      exact Or.inl h.2.2.1
  | callback | rename | finished =>
      rw [hpc] at h
      exact Or.inr h.2.1

/-- What a callback finds. -/
theorem Stage.inside {called : List (τ × List CallbackOp)} {o : Thread τ} {l : ThreadLocal ι}
    {id : Int} {c : Creation} {rest : List CallbackOp}
    (h : Stage id t i callback name c o l called) (hpc : l.pc = .callback rest) :
    o.m_id = some id ∧ l.t_thread = some i ∧
      ∃ done, callback = done ++ rest ∧ l.t_thread_name = named name done ∧
        o.m_name = named name done := by
  rw [Stage, hpc] at h
  obtain ⟨_, _, ⟨done, hdone, hname⟩, ⟨hid, hthis⟩, hsame⟩ := h
  exact ⟨hid, hthis, done, hdone, hsame.trans hname, hname⟩

end

/-- **Start.**  Let an object be constructed with a callback and a name, in any run in which no
object ends while it may have a thread.  Once its constructor has returned there is a thread
whose id the object has and whose `GetThis` is the object, and which has called the callback
once, or is about to; nobody else calls it.  Wherever the thread is in the callback `GetName`
and the name of the object are the name as the operations so far have left it, and so
`GetThis` and `GetName` return the object and its name. -/
theorem start_handshake {tr : List (Taken (Threads ι τ) (ThreadEvent ι τ))}
    (hrun : Run (Step threadID) start tr s) (halive : ∀ x ∈ tr, x.label.ends = none)
    (hconstruct : .construct i callback name ∈ tr.map Taken.label) :
    (s.creation i = .returned → ∃ t, (s.threads t).thread = some i ∧
      (s.objects i).m_id = some (threadID t) ∧ (s.threads t).t_thread = some i ∧
      (calls i (tr.map Taken.label) = [] ∧ (s.threads t).pc = .call (some callback) ∨
        calls i (tr.map Taken.label) = [(t, callback)])) ∧
    (∀ t, (s.threads t).thread = some i →
      (calls i (tr.map Taken.label) = [] ∨ calls i (tr.map Taken.label) = [(t, callback)]) ∧
      ∀ rest, (s.threads t).pc = .callback rest → (s.objects i).m_id = some (threadID t) ∧
        (s.threads t).t_thread = some i ∧ ∃ done, callback = done ++ rest ∧
        (s.threads t).t_thread_name = named name done ∧ (s.objects i).m_name = named name done) ∧
    ∀ x ∈ tr, ∀ t, (x.source.threads t).thread = some i →
      (∀ result, x.label = .getThis t result → result = some i) ∧
      ∀ result, x.label = .getName t result → result = (x.source.objects i).m_name := by
  obtain ⟨_, hkept⟩ := kept_of_run hrun halive
  have hunique : ∀ {cb nm}, constructions i (tr.map Taken.label) = [(cb, nm)] →
      cb = callback ∧ nm = name := by
    intro cb nm hcons
    have hmem : (callback, name) ∈ constructions i (tr.map Taken.label) :=
      List.mem_filterMap.mpr ⟨_, hconstruct, if_pos rfl⟩
    rw [hcons] at hmem
    obtain ⟨rfl, rfl⟩ := Prod.mk.inj (List.mem_singleton.mp hmem)
    exact ⟨rfl, rfl⟩
  refine ⟨fun hreturned => ?_, fun t ht => ?_, fun x hx t ht => ?_⟩
  · have h := hkept i
    rw [Kept, hreturned] at h
    obtain ⟨cb, nm, t, hcons, hone, hstage⟩ := h
    obtain ⟨rfl, rfl⟩ := hunique hcons
    exact ⟨t, (hone t).mpr rfl, hstage.returned⟩
  · obtain ⟨cb, nm, hcons, _, hstage⟩ := (hkept i).of_thread ht
    obtain ⟨rfl, rfl⟩ := hunique hcons
    exact ⟨hstage.called, fun rest hpc => hstage.inside hpc⟩
  · obtain ⟨v, e, w⟩ := x
    obtain ⟨⟨tr', hpre, hrun'⟩, hs⟩ := hrun.mem hx
    replace hs : Step threadID v e w := hs
    obtain ⟨_, hkept'⟩ := kept_of_run hrun' fun y hy => halive y (hpre.subset hy)
    obtain ⟨cb, nm, _, _, hstage⟩ := (hkept' i).of_thread ht
    constructor
    · rintro result (rfl : e = _)
      cases hs with
      | thread hnext =>
          cases hnext with
          | getThis hpc => exact (hstage.inside hpc).2.1
    · rintro result (rfl : e = _)
      cases hs with
      | thread hnext =>
          cases hnext with
          | getName hpc =>
              obtain ⟨_, _, done, _, hown, hname⟩ := hstage.inside hpc
              exact hown.trans hname.symm

/-- A callback that changes the name of its thread, and then asks for it. -/
theorem start_handshake_renamed :
    ∃ (tr : List (Taken (Threads Unit Unit) (ThreadEvent Unit Unit))) (s : Threads Unit Unit),
      Run (Step fun _ => 1) start tr s ∧
        tr.map Taken.label = [.construct () [.setName "x", .getName] "w", .create () (), .run (),
          .run (), .run (), .run (), .run (), .run (), .wait (),
          .call () () [.setName "x", .getName], .run (), .run (), .getName () "x"] ∧
        (s.threads ()).t_thread = some () ∧ (s.objects ()).m_id = some 1 ∧
        calls () (tr.map Taken.label) = [((), [.setName "x", .getName])] := by
  let T : Threads Unit Unit → ThreadEvent Unit Unit → Threads Unit Unit → Prop := Step fun _ => 1
  have hrun : ∃ (tr : _) (s : _), Run T start tr s ∧
      tr.map Taken.label = [.construct () [.setName "x", .getName] "w", .create () (), .run (),
        .run (), .run (), .run (), .run (), .run (), .wait (),
        .call () () [.setName "x", .getName], .run (), .run (), .getName () "x"] ∧
      s.creation () = .returned ∧ (s.threads ()).pc = .callback [] := by
    refine ⟨_, _, (((((((((((((Run.nil.snoc
      (.construct (i := ()) rfl [.setName "x", .getName] "w")).snoc
      (.create (i := ()) (t := ()) rfl rfl)).snoc
      (.thread (.enter (t := ()) rfl))).snoc
      (.thread (.copyName (t := ()) rfl rfl))).snoc
      (.thread (.storeId (t := ()) rfl rfl))).snoc
      (.thread (.setOsName (t := ()) rfl rfl))).snoc
      (.thread (.swap (t := ()) rfl rfl))).snoc
      (.thread (.notify (t := ()) rfl rfl))).snoc
      (.wait (i := ()) rfl (by decide))).snoc
      (.thread (.call (t := ()) rfl rfl))).snoc
      (.thread (.setName (t := ()) rfl (by decide) rfl))).snoc
      (.thread (.rename (t := ()) rfl))).snoc
      (.thread (.getName (t := ()) rfl))), rfl, rfl, rfl⟩
  obtain ⟨tr, s, hrun, hlabels, hreturned, hpc⟩ := hrun
  have halive : ∀ x ∈ tr, x.label.ends = none := by
    have hall : ∀ e ∈ tr.map Taken.label, e.ends = none := by
      rw [hlabels]
      simp [ThreadEvent.ends]
    exact fun x hx => hall x.label (List.mem_map_of_mem hx)
  have hconstruct : .construct () [.setName "x", .getName] "w" ∈ tr.map Taken.label := by
    rw [hlabels]
    exact List.mem_cons_self
  obtain ⟨u, _, hid, hthis, hcalled⟩ := (start_handshake hrun halive hconstruct).1 hreturned
  refine ⟨tr, s, hrun, hlabels, hthis, hid, hcalled.resolve_left fun h => ?_⟩
  cases hpc.symm.trans h.2

end Threads

end Sylar
