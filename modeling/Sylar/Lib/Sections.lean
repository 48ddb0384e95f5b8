/-
Sylar/Lib/Sections.lean

Objects that are protected by a lock.

Threads call operations of a system, one after the other; a call is a program
that takes and gives back locks.  Part of the state, `view s`, is an object that
the lock `l` protects: a call that is about it is one section under the lock, for
reading only or for writing (`Section`), and a call of any other kind may look at
it under the lock, but leaves it as it is (`Apart`).

A call need not be finished before another begins, so `Calls` lets the threads
go on in any order, whatever else they do meanwhile.  `Calls.atomic` says that
this cannot be seen: what the calls return is what they would return one at a
time, in the order in which they ended, and what they leave in the object as
well.  A call that ended before another began is therefore before it in that
order.

What a call does on its own is a relation, `Computes`: it may depend on parts of the state
other threads are changing, as long as the relation allows for it.
-/
import Sylar.Lib.SharedLocks
import Sylar.Lib.Transition

namespace SharedLocks

open Locks Locks.Prog Transition

/-! ### What a call does to the object -/

section Programs

variable {L σ τ α β : Type*}

/-- The program has nothing to do with the lock. -/
def Avoids (l : L) : Prog (Request L) σ α → Prop
  | .done _ => True
  | .lock r p => r.2 ≠ l ∧ Avoids l p
  | .unlock r p => r.2 ≠ l ∧ Avoids l p
  | .act _ p => ∀ s, Avoids l (p s)

/-- The program takes the lock only for reading, and not twice; `inside` says whether it
holds it now. -/
def ReadsOnly (l : L) : Prog (Request L) σ α → Bool → Prop
  | .done _, inside => inside = false
  | .lock r p, inside =>
      (r = (.read, l) ∧ inside = false ∧ ReadsOnly l p true) ∨ (r.2 ≠ l ∧ ReadsOnly l p inside)
  | .unlock r p, inside =>
      (r = (.read, l) ∧ inside = true ∧ ReadsOnly l p false) ∨ (r.2 ≠ l ∧ ReadsOnly l p inside)
  | .act _ p, inside => ∀ s, ReadsOnly l (p s) inside

/-- Nothing the program does changes the object. -/
def Keeps (view : σ → τ) : Prog (Request L) σ α → Prop
  | .done _ => True
  | .lock _ p => Keeps view p
  | .unlock _ p => Keeps view p
  | .act f p => (∀ s, view (f s) = view s) ∧ ∀ s, Keeps view (p s)

/-- If nobody else touches the object, which is now `t`, the program ends with a value and
an object that are in `Q`, whatever happens to the rest of the state. -/
def Computes (view : σ → τ) : Prog (Request L) σ α → τ → (α × τ → Prop) → Prop
  | .done a, t, Q => Q (a, t)
  | .lock _ p, t, Q => Computes view p t Q
  | .unlock _ p, t, Q => Computes view p t Q
  | .act f p, t, Q => ∀ s, view s = t → Computes view (p s) (view (f s)) Q

variable {l : L} {view : σ → τ} {t : τ}

theorem Avoids.pure (a : α) : Avoids l (Pure.pure a : Prog (Request L) σ α) := trivial

theorem Avoids.read : Avoids l (Prog.read : Prog (Request L) σ σ) := fun _ => trivial

theorem Avoids.modify (f : σ → σ) : Avoids l (Prog.modify f : Prog (Request L) σ Unit) :=
  fun _ => trivial

theorem Keeps.pure (a : α) : Keeps view (Pure.pure a : Prog (Request L) σ α) := trivial

theorem Keeps.read : Keeps view (Prog.read : Prog (Request L) σ σ) :=
  ⟨fun _ => rfl, fun _ => trivial⟩

theorem Keeps.modify {f : σ → σ} (hf : ∀ s, view (f s) = view s) :
    Keeps view (Prog.modify f : Prog (Request L) σ Unit) := ⟨hf, fun _ => trivial⟩

theorem Avoids.bind {α β : Type _} {p : Prog (Request L) σ α} {k : α → Prog (Request L) σ β}
    (hp : Avoids l p) (hk : ∀ a, Avoids l (k a)) : Avoids l (p >>= k) := by
  induction p with
  | done a => exact hk a
  | lock r p ih => exact ⟨hp.1, ih hp.2⟩
  | unlock r p ih => exact ⟨hp.1, ih hp.2⟩
  | act f p ih => exact fun s => ih s (hp s)

theorem Avoids.scopedLock {r : Request L} {p : Prog (Request L) σ α} (hr : r.2 ≠ l)
    (hp : Avoids l p) : Avoids l (scopedLock r p) :=
  ⟨hr, Avoids.bind hp fun _ => ⟨hr, trivial⟩⟩

theorem ReadsOnly.bind {α β : Type _} {p : Prog (Request L) σ α} {k : α → Prog (Request L) σ β}
    {inside : Bool} (hp : ReadsOnly l p inside) (hk : ∀ a, ReadsOnly l (k a) false) :
    ReadsOnly l (p >>= k) inside := by
  induction p generalizing inside with
  | done a =>
      obtain rfl : inside = false := hp
      exact hk a
  | lock r p ih => exact hp.imp (fun h => ⟨h.1, h.2.1, ih h.2.2⟩) fun h => ⟨h.1, ih h.2⟩
  | unlock r p ih => exact hp.imp (fun h => ⟨h.1, h.2.1, ih h.2.2⟩) fun h => ⟨h.1, ih h.2⟩
  | act f p ih => exact fun s => ih s (hp s)

/-- Who has nothing to do with the lock may do it inside as well as outside. -/
theorem Avoids.bind_readsOnly {α β : Type _} {p : Prog (Request L) σ α}
    {k : α → Prog (Request L) σ β} {inside : Bool} (hp : Avoids l p)
    (hk : ∀ a, ReadsOnly l (k a) inside) : ReadsOnly l (p >>= k) inside := by
  induction p with
  | done a => exact hk a
  | lock r p ih => exact Or.inr ⟨hp.1, ih hp.2⟩
  | unlock r p ih => exact Or.inr ⟨hp.1, ih hp.2⟩
  | act f p ih => exact fun s => ih s (hp s)

theorem Avoids.readsOnly_scopedLock {p : Prog (Request L) σ α} (h : Avoids l p) :
    ReadsOnly l (Prog.scopedLock (.read, l) p) false :=
  Or.inl ⟨rfl, rfl, h.bind_readsOnly fun _ => Or.inl ⟨rfl, rfl, rfl⟩⟩

theorem Keeps.bind {α β : Type _} {p : Prog (Request L) σ α} {k : α → Prog (Request L) σ β}
    (hp : Keeps view p) (hk : ∀ a, Keeps view (k a)) : Keeps view (p >>= k) := by
  induction p with
  | done a => exact hk a
  | lock r p ih => exact ih hp
  | unlock r p ih => exact ih hp
  | act f p ih => exact ⟨hp.1, fun s => ih s (hp.2 s)⟩

theorem Keeps.scopedLock {r : Request L} {p : Prog (Request L) σ α} (hp : Keeps view p) :
    Keeps view (scopedLock r p) :=
  Keeps.bind hp fun _ => trivial

theorem Computes.mono {p : Prog (Request L) σ α} {Q Q' : α × τ → Prop} (h : Computes view p t Q)
    (hQ : ∀ x, Q x → Q' x) : Computes view p t Q' := by
  induction p generalizing t with
  | done a => exact hQ _ h
  | lock r p ih => exact ih h
  | unlock r p ih => exact ih h
  | act f p ih => exact fun s hs => ih s (h s hs)

theorem Computes.bind {α β : Type _} {p : Prog (Request L) σ α} {k : α → Prog (Request L) σ β}
    {R : α × τ → Prop} {Q : β × τ → Prop} (hp : Computes view p t R)
    (hk : ∀ a t', R (a, t') → Computes view (k a) t' Q) : Computes view (p >>= k) t Q := by
  induction p generalizing t with
  | done a => exact hk a t hp
  | lock r p ih => exact ih hp
  | unlock r p ih => exact ih hp
  | act f p ih => exact fun s hs => ih s (hp s hs)

theorem Computes.read {β : Type _} {k : σ → Prog (Request L) σ β} {Q : β × τ → Prop}
    (h : ∀ s, view s = t → Computes view (k s) t Q) : Computes view (Prog.read >>= k) t Q :=
  fun s hs => (show view (id s) = t from hs).symm ▸ h s hs

/-- A program that keeps the object computes something with it as it was. -/
theorem Keeps.computes {p : Prog (Request L) σ α} (h : Keeps view p) (t : τ) :
    Computes view p t fun x => x.2 = t := by
  induction p with
  | done a => rfl
  | lock r p ih => exact ih h
  | unlock r p ih => exact ih h
  | act f p ih =>
      intro s hs
      rw [h.1 s, hs]
      exact ih s (h.2 s)

theorem bind_bind {α β γ : Type*} (p : Prog L σ α) (k : α → Prog L σ β) (k' : β → Prog L σ γ) :
    (p.bind k).bind k' = p.bind fun a => (k a).bind k' := by
  induction p with
  | done a => rfl
  | lock l p ih => exact congrArg (Prog.lock l) ih
  | unlock l p ih => exact congrArg (Prog.unlock l) ih
  | act f p ih => exact congrArg (Prog.act f) (funext ih)

/-- What is made of the value returned may be made of it under the lock. -/
theorem map_scopedLock {α β : Type _} (f : α → β) (r : Request L) (p : Prog (Request L) σ α) :
    f <$> scopedLock r p = scopedLock r (f <$> p) := by
  show Prog.lock r ((p.bind fun a => .unlock r (.done a)).bind fun a => .done (f a)) =
    Prog.lock r ((p.bind fun a => .done (f a)).bind fun b => .unlock r (.done b))
  rw [bind_bind, bind_bind]
  rfl

/-! A component of the system that has a lock and a state of its own. -/

section Embed

variable {L' S : Type*} {name : L' → L} {get : σ → S} {put : S → σ → σ}

theorem avoids_embed (hname : ∀ l', name l' ≠ l) (p : Prog L' S α) :
    Avoids l (embed name get put p) := by
  induction p with
  | done a => trivial
  | lock l' p ih => exact ⟨hname l', ih⟩
  | unlock l' p ih => exact ⟨hname l', ih⟩
  | act f p ih => exact fun s => ih (get s)

theorem keeps_embed (hput : ∀ x s, view (put x s) = view s) (p : Prog L' S α) :
    Keeps view (embed name get put p) := by
  induction p with
  | done a => trivial
  | lock l' p ih => exact ih
  | unlock l' p ih => exact ih
  | act f p ih => exact ⟨fun s => hput _ s, fun s => ih (get s)⟩

end Embed

end Programs

/-! ### Calls -/

variable {ι κ L σ τ α : Type*}

/-- The threads, what each was called for last, and the calls that have returned, oldest
first. -/
structure Calls (ι κ L σ α : Type*) where
  config : Config ι L σ α
  call : ι → κ
  history : List (κ × α)

/-- What happens: an idle thread is called, or a thread goes on. -/
inductive CallEvent (ι κ : Type*)
  | call (i : ι) (k : κ)
  | step (i : ι)

namespace Calls

/-- What a thread returns by getting to `p`. -/
def returned (k : κ) : Prog (Request L) σ α → List (κ × α)
  | .done a => [(k, a)]
  | _ => []

variable [DecidableEq ι]

/-- One step; `code k` is the program of the operation `k`. -/
inductive Step (P : Policy ι L σ α) (code : κ → Prog (Request L) σ α) (s : Calls ι κ L σ α) :
    CallEvent ι κ → Calls ι κ L σ α → Prop
  | call {i : ι} (k : κ) (hidle : s.config.Idle i) :
      Step P code s (.call i k)
        ⟨{ s.config with program := Function.update s.config.program i (code k) },
          Function.update s.call i k, s.history⟩
  | step {i : ι} {c : Config ι L σ α} (hs : Config.Step P i s.config c) :
      Step P code s (.step i) ⟨c, s.call, s.history ++ returned (s.call i) (c.program i)⟩

/-- Nobody has been called yet; `a` stands for what the threads returned before. -/
def start (s : σ) (k : κ) (a : α) : Calls ι κ L σ α :=
  ⟨⟨s, fun _ => ∅, fun _ => .done a⟩, fun _ => k, []⟩

end Calls

/-! ### Every call returns -/

namespace Calls

variable [DecidableEq ι] {P : Policy ι L σ α} {code : κ → Prog (Request L) σ α}
  {s s' : Calls ι κ L σ α} {R : Type*} [Preorder R] {rank : L → R}

/-- Locks are taken in order, and finitely many threads are at work. -/
structure InOrder (rank : L → R) (s : Calls ι κ L σ α) : Prop where
  disciplined : s.config.Disciplined rank
  finite : {i | ¬ s.config.Idle i}.Finite

omit [DecidableEq ι] in
theorem inOrder_start (s : σ) (k : κ) (a : α) :
    InOrder rank (start s k a : Calls ι κ L σ α) := by
  refine ⟨fun _ => rfl, Set.finite_empty.subset fun i hi => ?_⟩
  exact hi ⟨a, rfl⟩

/-- **Step lemma**: what is called takes its locks in order. -/
theorem InOrder.step (h : InOrder rank s) {e : CallEvent ι κ} (hs : Step P code s e s')
    (hcode : ∀ i k, e = .call i k → (code k).Ordered (fun r => rank r.2) ∅ ∅) :
    InOrder rank s' := by
  cases hs with
  | @call i k hidle =>
      have hother : ∀ j, j ≠ i → Function.update s.config.program i (code k) j =
          s.config.program j := fun j hji => Function.update_of_ne hji ..
      refine ⟨fun j => ?_, (h.finite.insert i).subset fun j hj => ?_⟩
      · show (Function.update s.config.program i (code k) j).Ordered _ (s.config.held j) ∅
        by_cases hji : j = i
        · subst hji
          -- an idle thread holds nothing
          obtain ⟨a, ha⟩ := hidle
          have hheld : s.config.held j = ∅ := by
            have hj := h.disciplined j
            rwa [ha] at hj
          rw [Function.update_self, hheld]
          exact hcode j k rfl
        · rw [hother j hji]
          exact h.disciplined j
      · by_cases hji : j = i
        · exact Or.inl hji
        · refine Or.inr fun ⟨a, ha⟩ => hj ⟨a, ?_⟩
          exact (hother j hji).trans ha
  | step hs =>
      exact ⟨h.disciplined.step hs, h.finite.subset fun j hj hj' => hj (hs.idle hj')⟩

/-- **All calls return**, whatever is called and however the threads are scheduled, if the
locks are taken in order. -/
theorem completes [WellFoundedGT R] (rank : L → R) {s₀ : σ} {k : κ} {a : α}
    {tr : List (Taken (Calls ι κ L σ α) (CallEvent ι κ))}
    (hrun : Run (Step P code) (start s₀ k a) tr s)
    (hcode : ∀ x ∈ tr, ∀ i k, x.label = .call i k →
      (code k).Ordered (fun r => rank r.2) ∅ ∅) : s.config.Completes P := by
  have h := hrun.invariant_of (I := InOrder rank)
    (C := fun x => ∀ i k, x.label = .call i k → (code k).Ordered (fun r => rank r.2) ∅ ∅)
    (inOrder_start s₀ k a) (fun _ _ _ h hs hc => h.step hs hc) hcode
  exact h.disciplined.completes P h.finite

end Calls

/-! ### Atomicity -/

/-- The calls of the history, made one at a time, lead from `t` to the last object. -/
inductive Sequential (spec : κ → τ → α × τ → Prop) (t : τ) : List (κ × α) → τ → Prop
  | nil : Sequential spec t [] t
  | snoc {h : List (κ × α)} {t' t'' : τ} {k : κ} {a : α} (hh : Sequential spec t h t')
      (hk : spec k t' (a, t'')) : Sequential spec t (h ++ [(k, a)]) t''

/-- What holds of an object throughout a sequential history. -/
theorem Sequential.invariant {spec : κ → τ → α × τ → Prop} {t t' : τ} {h : List (κ × α)}
    {I : List (κ × α) → τ → Prop} (h0 : I [] t)
    (hstep : ∀ h t k a t', I h t → spec k t (a, t') → I (h ++ [(k, a)]) t')
    (hh : Sequential spec t h t') : I h t' := by
  induction hh with
  | nil => exact h0
  | snoc _ hk ih => exact hstep _ _ _ _ _ ih hk

/-- A call all of which is a section under the lock. -/
structure Section (view : σ → τ) (l : L) (spec : τ → α × τ → Prop) (p : Prog (Request L) σ α)
    (m : Mode) (body : Prog (Request L) σ α) : Prop where
  code : p = scopedLock (m, l) body
  avoids : Avoids l body
  reads : m = .read → Keeps view body
  computes : ∀ t, Computes view body t (spec t)

/-- A call that leaves the object as it is, and whose specification asks nothing else; `inside`
says whether it holds the lock. -/
structure Apart (view : σ → τ) (l : L) (spec : τ → α × τ → Prop) (p : Prog (Request L) σ α)
    (inside : Bool) : Prop where
  reads : ReadsOnly l p inside
  keeps : Keeps view p
  free : ∀ t a, spec t (a, t)

/-- The lock protects the object in the call with the program `p`. -/
def Protects (view : σ → τ) (l : L) (spec : τ → α × τ → Prop) (p : Prog (Request L) σ α) : Prop :=
  (∃ m body, Section view l spec p m body) ∨ Apart view l spec p false

/-- Where a thread stands with regard to the lock: it holds `held` and has `p` to do; the
calls so far have left the object `t`, and it is now `now`. -/
inductive Standing (view : σ → τ) (l : L) (spec : τ → α × τ → Prop) (t now : τ)
    (held : Set (Request L)) (p : Prog (Request L) σ α) : Prop
  | idle (hout : ∀ m, (m, l) ∉ held) (a : α) (hp : p = .done a)
  /-- Before the section. -/
  | before (hout : ∀ m, (m, l) ∉ held) (m : Mode) (body : Prog (Request L) σ α)
      (hsec : Section view l spec p m body)
  /-- Inside: `q` of the section is left. -/
  | inside (m : Mode) (q : Prog (Request L) σ α)
      (hp : p = q.bind fun a => .unlock (m, l) (.done a)) (hin : ∀ m', (m', l) ∈ held ↔ m' = m)
      (avoids : Avoids l q) (reads : m = .read → Keeps view q)
      (computes : Computes view q now (spec t))
  | apart (inside : Bool) (hin : ∀ m, (m, l) ∈ held ↔ m = .read ∧ inside = true)
      (hp : Apart view l spec p inside)

/-- The invariant: the calls that have returned lead to `t`, which is what is there unless a
writer is at work. -/
structure Atomic (view : σ → τ) (l : L) (spec : κ → τ → α × τ → Prop) (t₀ t : τ)
    (s : Calls ι κ L σ α) : Prop where
  exclusive : s.config.Exclusive
  sequential : Sequential spec t₀ s.history t
  settled : (∀ i, (.write, l) ∉ s.config.held i) → view s.config.state = t
  standing : ∀ i, Standing view l (spec (s.call i)) t (view s.config.state) (s.config.held i)
    (s.config.program i)

section Standing

variable {view : σ → τ} {l : L} {spec : τ → α × τ → Prop} {t now : τ} {held : Set (Request L)}
  {p : Prog (Request L) σ α}

/-- Who has nothing to do holds nothing. -/
theorem Standing.out_of_done {a : α} (h : Standing view l spec t now held (.done a)) :
    ∀ m, (m, l) ∉ held := by
  cases h with
  | idle hout => exact hout
  | before hout => exact hout
  | inside m q hp =>
      -- inside, the lock is still to be given back
      cases q with
      | _ => cases hp
  | apart inside hin hp =>
      obtain rfl : inside = false := hp.reads
      exact fun m hm => Bool.false_ne_true ((hin m).mp hm).2

/-- Who is outside does not care what the object is. -/
theorem Standing.of_out (h : Standing view l spec t now held p) (hout : ∀ m, (m, l) ∉ held)
    (t' now' : τ) : Standing view l spec t' now' held p := by
  cases h with
  | idle _ a hp => exact .idle hout a hp
  | before _ m body hsec => exact .before hout m body hsec
  | inside m q hp hin => exact absurd ((hin m).mpr rfl) (hout m)
  | apart inside hin hp => exact .apart inside hin hp

/-- What is taken or given back elsewhere. -/
theorem mem_insert_of_ne {r : Request L} (hr : r.2 ≠ l) {m : Mode} :
    (m, l) ∈ insert r held ↔ (m, l) ∈ held := by
  rw [Set.mem_insert_iff, or_iff_right]
  rintro rfl
  exact hr rfl

theorem mem_sdiff_of_ne {r : Request L} (hr : r.2 ≠ l) {m : Mode} :
    (m, l) ∈ held \ {r} ↔ (m, l) ∈ held := by
  rw [Set.mem_sdiff, Set.mem_singleton_iff, and_iff_left]
  rintro rfl
  exact hr rfl

end Standing

section Atomic

variable [DecidableEq ι] {P : Policy ι L σ α} {code : κ → Prog (Request L) σ α} {view : σ → τ}
  {l : L} {spec : κ → τ → α × τ → Prop} {t₀ t : τ} {s s' : Calls ι κ L σ α} {i : ι}
  {c' : Config ι L σ α}

/-- A step of thread `i` is right if it leaves `i` standing well, and the object is as it
was or nobody else is near it. -/
theorem Atomic.next (h : Atomic view l spec t₀ t s) (hs : Config.Step P i s.config c')
    {history : List (κ × α)} {t' : τ} (hsequential : Sequential spec t₀ history t')
    (hsettled : (∀ j, (.write, l) ∉ c'.held j) → view c'.state = t')
    (hi : Standing view l (spec (s.call i)) t' (view c'.state) (c'.held i) (c'.program i))
    (hothers : (t' = t ∧ view c'.state = view s.config.state) ∨
      ∀ j, j ≠ i → ∀ m, (m, l) ∉ s.config.held j) :
    Atomic view l spec t₀ t' ⟨c', s.call, history⟩ := by
  refine ⟨h.exclusive.step hs, hsequential, hsettled, fun j => ?_⟩
  by_cases hji : j = i
  · exact hji ▸ hi
  · show Standing view l (spec (s.call j)) t' (view c'.state) (c'.held j) (c'.program j)
    rw [hs.program_of_ne hji, hs.held_of_ne hji]
    rcases hothers with ⟨rfl, hview⟩ | hout
    · rw [hview]
      exact h.standing j
    · exact (h.standing j).of_out (hout j hji) _ _

/-- A step of thread `i` that leaves the object alone, and writes on if it was writing. -/
theorem Atomic.pass (h : Atomic view l spec t₀ t s) (hs : Config.Step P i s.config c')
    {history : List (κ × α)} (hsequential : Sequential spec t₀ history t)
    (hview : view c'.state = view s.config.state)
    (hheld : (.write, l) ∈ s.config.held i → (.write, l) ∈ c'.held i)
    (hi : Standing view l (spec (s.call i)) t (view s.config.state) (c'.held i) (c'.program i)) :
    Atomic view l spec t₀ t ⟨c', s.call, history⟩ := by
  refine h.next hs hsequential (fun hfree => ?_) (hview ▸ hi) (Or.inl ⟨rfl, hview⟩)
  refine hview.trans (h.settled fun j hj => ?_)
  by_cases hji : j = i
  · exact hfree j (hji ▸ hheld (hji ▸ hj))
  · exact hfree j (by rwa [hs.held_of_ne hji])

/-- Nothing is returned before the lock is given back. -/
theorem Calls.returned_bind (k : κ) (q : Prog (Request L) σ α) (r : Request L) :
    Calls.returned k (q.bind fun a => .unlock r (.done a)) = [] := by
  cases q <;> rfl

/-- A call of another kind goes on. -/
theorem Atomic.step_apart (h : Atomic view l spec t₀ t s) (hs : Config.Step P i s.config c')
    {inside : Bool} (hin : ∀ m, (m, l) ∈ s.config.held i ↔ m = .read ∧ inside = true)
    (hi : Apart view l (spec (s.call i)) (s.config.program i) inside) :
    Atomic view l spec t₀ t
      ⟨c', s.call, s.history ++ Calls.returned (s.call i) (c'.program i)⟩ := by
  -- what it returns, if it does, is of no account
  have hhistory : Sequential spec t₀
      (s.history ++ Calls.returned (s.call i) (c'.program i)) t := by
    cases c'.program i with
    | done a => exact h.sequential.snoc (hi.free t a)
    | _ =>
        show Sequential spec t₀ (s.history ++ []) t
        rw [List.append_nil]
        exact h.sequential
  suffices hnext : ∃ inside', (∀ m, (m, l) ∈ c'.held i ↔ m = .read ∧ inside' = true) ∧
      view c'.state = view s.config.state ∧ ReadsOnly l (c'.program i) inside' ∧
      Keeps view (c'.program i) by
    obtain ⟨inside', hin', hview, hreads, hkeeps⟩ := hnext
    refine h.pass hs hhistory hview (fun hw => ?_) (.apart inside' hin' ⟨hreads, hkeeps, hi.free⟩)
    cases ((hin _).mp hw).1
  have hreads := hi.reads
  have hkeeps := hi.keeps
  cases hprog : s.config.program i with
  | done a => exact absurd ⟨a, hprog⟩ hs.not_idle
  | lock r p =>
      rw [hprog] at hreads hkeeps
      obtain ⟨_, hstate, hheld, hprog'⟩ := hs.of_lock hprog
      rw [hprog', hheld, hstate]
      rcases hreads with ⟨rfl, rfl, hreads⟩ | ⟨hr, hreads⟩
      · refine ⟨true, fun m => ?_, rfl, hreads, hkeeps⟩
        rw [Set.mem_insert_iff, hin, Prod.mk.injEq]
        simp
      · exact ⟨inside, fun m => (mem_insert_of_ne hr).trans (hin m), rfl, hreads, hkeeps⟩
  | unlock r p =>
      rw [hprog] at hreads hkeeps
      obtain ⟨hstate, hheld, hprog'⟩ := hs.of_unlock hprog
      rw [hprog', hheld, hstate]
      rcases hreads with ⟨rfl, rfl, hreads⟩ | ⟨hr, hreads⟩
      · refine ⟨false, fun m => ?_, rfl, hreads, hkeeps⟩
        rw [Set.mem_sdiff, hin, Set.mem_singleton_iff, Prod.mk.injEq]
        simp
      · exact ⟨inside, fun m => (mem_sdiff_of_ne hr).trans (hin m), rfl, hreads, hkeeps⟩
  | act f p =>
      rw [hprog] at hreads hkeeps
      obtain ⟨hstate, hheld, hprog'⟩ := hs.of_act hprog
      rw [hprog', hheld, hstate]
      exact ⟨inside, hin, hkeeps.1 _, hreads _, hkeeps.2 _⟩

/-- A section begins: what is there is what the calls so far have left. -/
theorem Atomic.step_before (h : Atomic view l spec t₀ t s) (hs : Config.Step P i s.config c')
    (hout : ∀ m, (m, l) ∉ s.config.held i) {m : Mode} {body : Prog (Request L) σ α}
    (hsec : Section view l (spec (s.call i)) (s.config.program i) m body) :
    Atomic view l spec t₀ t
      ⟨c', s.call, s.history ++ Calls.returned (s.call i) (c'.program i)⟩ := by
  obtain ⟨hin, hstate, hheld, hprog⟩ := hs.of_lock hsec.code
  have hsettled := h.settled fun j => (P.free _ _ _ hin j).1
  rw [hprog, Calls.returned_bind, List.append_nil]
  refine h.next hs h.sequential (fun _ => hstate ▸ hsettled) ?_ (Or.inl ⟨rfl, by rw [hstate]⟩)
  rw [hstate, hsettled]
  refine .inside m body hprog (fun m' => ?_) hsec.avoids hsec.reads (hsec.computes t)
  rw [hheld, Set.mem_insert_iff, or_iff_left (hout m'), Prod.mk.injEq, and_iff_left rfl]

/-- A section goes on, or ends. -/
theorem Atomic.step_inside (h : Atomic view l spec t₀ t s) (hs : Config.Step P i s.config c')
    {m : Mode} {q : Prog (Request L) σ α}
    (hp : s.config.program i = q.bind fun a => .unlock (m, l) (.done a))
    (hin : ∀ m', (m', l) ∈ s.config.held i ↔ m' = m) (hq : Avoids l q)
    (hreads : m = .read → Keeps view q)
    (hcomputes : Computes view q (view s.config.state) (spec (s.call i) t)) :
    ∃ t', Atomic view l spec t₀ t'
      ⟨c', s.call, s.history ++ Calls.returned (s.call i) (c'.program i)⟩ := by
  have hmine : (m, l) ∈ s.config.held i := (hin m).mpr rfl
  -- while a writer is inside nobody else is; readers find what the calls so far have left
  have halone : m = .write → ∀ j, j ≠ i → ∀ m', (m', l) ∉ s.config.held j := by
    rintro rfl j hji m' hj
    exact hji (h.exclusive i j m' l hmine hj).symm
  have hread : m = .read → view s.config.state = t := by
    rintro rfl
    refine h.settled fun j hj => ?_
    obtain rfl := h.exclusive j i _ l hj hmine
    cases (hin _).mp hj
  cases q with
  | done a =>
      obtain ⟨hstate, hheld, hprog⟩ := hs.of_unlock hp
      refine ⟨view s.config.state, ?_⟩
      rw [hprog]
      refine h.next hs (h.sequential.snoc hcomputes) (fun _ => by rw [hstate]) ?_ ?_
      · refine .idle (fun m' hm' => ?_) a hprog
        rw [hheld] at hm'
        obtain rfl := (hin m').mp hm'.1
        exact hm'.2 rfl
      · cases m with
        | read => exact Or.inl ⟨hread rfl, by rw [hstate]⟩
        | write => exact Or.inr (halone rfl)
  | lock r q =>
      obtain ⟨_, hstate, hheld, hprog⟩ := hs.of_lock hp
      have hsame : ∀ m', (m', l) ∈ c'.held i ↔ (m', l) ∈ s.config.held i :=
        fun m' => hheld ▸ mem_insert_of_ne hq.1
      rw [hprog, Calls.returned_bind, List.append_nil]
      exact ⟨t, h.pass hs h.sequential (congrArg view hstate) (hsame _).mpr
        (.inside m q hprog (fun m' => (hsame m').trans (hin m')) hq.2 hreads hcomputes)⟩
  | unlock r q =>
      obtain ⟨hstate, hheld, hprog⟩ := hs.of_unlock hp
      have hsame : ∀ m', (m', l) ∈ c'.held i ↔ (m', l) ∈ s.config.held i :=
        fun m' => hheld ▸ mem_sdiff_of_ne hq.1
      rw [hprog, Calls.returned_bind, List.append_nil]
      exact ⟨t, h.pass hs h.sequential (congrArg view hstate) (hsame _).mpr
        (.inside m q hprog (fun m' => (hsame m').trans (hin m')) hq.2 hreads hcomputes)⟩
  | act f q =>
      obtain ⟨hstate, hheld, hprog⟩ := hs.of_act hp
      rw [hprog, Calls.returned_bind, List.append_nil]
      refine ⟨t, h.next hs h.sequential (fun hfree => ?_) ?_ ?_⟩
      · cases m with
        | read => exact hstate ▸ ((hreads rfl).1 _).trans (hread rfl)
        | write => exact absurd (hheld ▸ hmine) (hfree i)
      · rw [hstate]
        exact .inside m (q s.config.state) hprog (fun m' => hheld ▸ hin m') (hq s.config.state)
          (fun hm => (hreads hm).2 s.config.state) (hcomputes s.config.state rfl)
      · cases m with
        | read => exact Or.inl ⟨rfl, hstate ▸ (hreads rfl).1 _⟩
        | write => exact Or.inr (halone rfl)

/-- A thread is called. -/
theorem Atomic.called (h : Atomic view l spec t₀ t s) (hidle : s.config.Idle i) {k : κ}
    (hk : Protects view l (spec k) (code k)) :
    Atomic view l spec t₀ t
      ⟨{ s.config with program := Function.update s.config.program i (code k) },
        Function.update s.call i k, s.history⟩ := by
  refine ⟨h.exclusive, h.sequential, h.settled, fun j => ?_⟩
  by_cases hji : j = i
  · subst hji
    obtain ⟨a, ha⟩ := hidle
    have hout := (ha ▸ h.standing j).out_of_done
    show Standing view l (spec (Function.update s.call j k j)) t (view s.config.state)
      (s.config.held j) (Function.update s.config.program j (code k) j)
    rw [Function.update_self, Function.update_self]
    rcases hk with ⟨m, body, hsec⟩ | hapart
    · exact .before hout m body hsec
    · exact .apart false (fun m => iff_of_false (hout m) fun h => Bool.false_ne_true h.2) hapart
  · show Standing view l (spec (Function.update s.call i k j)) t (view s.config.state)
      (s.config.held j) (Function.update s.config.program i (code k) j)
    rw [Function.update_of_ne hji, Function.update_of_ne hji]
    exact h.standing j

/-- **Step lemma.** -/
theorem Atomic.step (h : Atomic view l spec t₀ t s) {e : CallEvent ι κ}
    (hs : Calls.Step P code s e s')
    (he : ∀ i k, e = .call i k → Protects view l (spec k) (code k)) :
    ∃ t', Atomic view l spec t₀ t' s' := by
  cases hs with
  | call k hidle => exact ⟨t, h.called hidle (he _ k rfl)⟩
  | @step i c' hs =>
      cases h.standing i with
      | idle _ a hp => exact absurd ⟨a, hp⟩ hs.not_idle
      | before hout m body hsec => exact ⟨t, h.step_before hs hout hsec⟩
      | inside m q hp hin hq hreads hcomputes =>
          exact h.step_inside hs hp hin hq hreads hcomputes
      | apart inside hin hi => exact ⟨t, h.step_apart hs hin hi⟩

omit [DecidableEq ι] in
theorem atomic_start (s : σ) (k : κ) (a : α) :
    Atomic view l spec (view s) (view s) (Calls.start s k a : Calls ι κ L σ α) where
  exclusive _ _ _ _ h := absurd h (Set.notMem_empty _)
  sequential := .nil
  settled _ := rfl
  standing _ := .idle (fun _ => Set.notMem_empty _) a rfl

/-- **Calls are atomic**: whatever the threads do and in whatever order, what their calls
have returned is what they return one at a time in the order in which they ended; and where
no writer is at work the object is as they leave it. -/
theorem Calls.atomic {s₀ : σ} {k : κ} {a : α}
    {tr : List (Taken (Calls ι κ L σ α) (CallEvent ι κ))}
    (hrun : Run (Calls.Step P code) (Calls.start s₀ k a) tr s)
    (hcalls : ∀ x ∈ tr, ∀ i k, x.label = .call i k → Protects view l (spec k) (code k)) :
    ∃ t, Sequential spec (view s₀) s.history t ∧
      ((∀ i, (.write, l) ∉ s.config.held i) → view s.config.state = t) := by
  obtain ⟨t, h⟩ := hrun.invariant_of (I := fun s => ∃ t, Atomic view l spec (view s₀) t s)
    (C := fun x => ∀ i k, x.label = .call i k → Protects view l (spec k) (code k))
    ⟨_, atomic_start s₀ k a⟩ (fun _ _ _ ⟨_, h⟩ hs he => h.step hs he) hcalls
  exact ⟨t, h.sequential, h.settled⟩

end Atomic

end SharedLocks
