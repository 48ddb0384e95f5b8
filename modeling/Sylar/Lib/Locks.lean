/-
Sylar/Lib/Locks.lean

Threads that take non-recursive locks.

`Prog L σ α` is what one thread does: it takes and gives back locks of type `L`,
acts on a shared state of type `σ`, and ends with a value.  `scopedLock` is the guard
of the C++ library.  A `Config` is the shared state, who holds which lock, and
what each thread has still to do; in a step one thread does its next thing, which
for taking a lock means that nobody holds it.

The discipline is an order on the locks: `Ordered` says that a program only takes
a lock above all those it holds, and gives back what it takes.  It is checked
program by program with one rule for each way of building programs.  Under it

    Disciplined.lt         a thread that wants a lock holds only lower ones
    Disciplined.completes  however the threads are scheduled, all of them finish

The second is progress (follow the holders upwards until one can go on) and
termination (a step replaces one program by a part of it, so the multiset of
programs goes down).
-/
import Mathlib.Data.Finset.Basic
import Mathlib.Data.Set.Finite.Basic
import Mathlib.Logic.Hydra
import Mathlib.Order.WellFounded

namespace Locks

/-! ### Programs -/

/-- What a thread does.  `act` applies `f` to the state in one step and goes on with
`next`, having seen the state it found. -/
inductive Prog (L : Type*) (σ : Type*) (α : Type*)
  | done (a : α)
  | lock (l : L) (next : Prog L σ α)
  | unlock (l : L) (next : Prog L σ α)
  | act (f : σ → σ) (next : σ → Prog L σ α)

namespace Prog

variable {L σ α β : Type*}

/-- One program after the other. -/
protected def bind : Prog L σ α → (α → Prog L σ β) → Prog L σ β
  | done a, k => k a
  | lock l p, k => lock l (p.bind k)
  | unlock l p, k => unlock l (p.bind k)
  | act f p, k => act f fun s => (p s).bind k

instance : Monad (Prog L σ) where
  pure := done
  bind := Prog.bind

/-- Look at the state. -/
def read : Prog L σ σ := act id done

/-- Change the state. -/
def modify (f : σ → σ) : Prog L σ Unit := act f fun _ => done ()

/-- The lock is held while `p` runs. -/
def scopedLock (l : L) (p : Prog L σ α) : Prog L σ α :=
  lock l (p.bind fun a => unlock l (done a))

/-- What the program computes when nobody disturbs it. -/
def eval : Prog L σ α → σ → α × σ
  | done a, s => (a, s)
  | lock _ p, s => p.eval s
  | unlock _ p, s => p.eval s
  | act f p, s => (p s).eval (f s)

@[simp] theorem eval_pure (a : α) (s : σ) : (pure a : Prog L σ α).eval s = (a, s) := rfl

@[simp] theorem eval_done (a : α) (s : σ) : (done a : Prog L σ α).eval s = (a, s) := rfl

@[simp] theorem eval_read (s : σ) : (read : Prog L σ σ).eval s = (s, s) := rfl

theorem eval_bind' (p : Prog L σ α) (k : α → Prog L σ β) (s : σ) :
    (p.bind k).eval s = (k (p.eval s).1).eval (p.eval s).2 := by
  induction p generalizing s with
  | done a => rfl
  | lock l p ih => exact ih s
  | unlock l p ih => exact ih s
  | act f p ih => exact ih s (f s)

@[simp] theorem eval_bind {α β : Type _} (p : Prog L σ α) (k : α → Prog L σ β) (s : σ) :
    (p >>= k).eval s = (k (p.eval s).1).eval (p.eval s).2 := eval_bind' p k s

/-- The same, where it is known what the first program computes. -/
theorem eval_bind_of_eq {α β : Type _} {p : Prog L σ α} {k : α → Prog L σ β} {s s' : σ} {a : α}
    (h : p.eval s = (a, s')) : (p >>= k).eval s = (k a).eval s' := by
  rw [eval_bind, h]

@[simp] theorem eval_scopedLock (l : L) (p : Prog L σ α) (s : σ) :
    (scopedLock l p).eval s = p.eval s := by
  show (p.bind fun a => unlock l (done a)).eval s = p.eval s
  rw [eval_bind']
  rfl

/-! ### The order of the locks -/

section Ordered

variable {R : Type*} [Preorder R] (rank : L → R)

/-- With the locks `held` at its beginning the program takes only locks above all that it
holds, gives back only what it holds, and ends with the locks `left`. -/
def Ordered : Prog L σ α → Set L → Set L → Prop
  | done _, held, left => held = left
  | lock l p, held, left => (∀ h ∈ held, rank h < rank l) ∧ p.Ordered (insert l held) left
  | unlock l p, held, left => l ∈ held ∧ p.Ordered (held \ {l}) left
  | act _ p, held, left => ∀ s, (p s).Ordered held left

variable {rank} {held left after : Set L}

theorem Ordered.pure (a : α) (held : Set L) :
    (Pure.pure a : Prog L σ α).Ordered rank held held := rfl

theorem Ordered.act {f : σ → σ} {p : σ → Prog L σ α} (h : ∀ s, (p s).Ordered rank held left) :
    (act f p).Ordered rank held left := h

theorem Ordered.read (held : Set L) : (read : Prog L σ σ).Ordered rank held held := fun _ => rfl

theorem Ordered.modify (f : σ → σ) (held : Set L) :
    (modify f : Prog L σ Unit).Ordered rank held held := fun _ => rfl

theorem Ordered.bind' {p : Prog L σ α} {k : α → Prog L σ β} (hp : p.Ordered rank held left)
    (hk : ∀ a, (k a).Ordered rank left after) : (p.bind k).Ordered rank held after := by
  induction p generalizing held with
  | done a =>
      obtain rfl : held = left := hp
      exact hk a
  | lock l p ih => exact ⟨hp.1, ih hp.2⟩
  | unlock l p ih => exact ⟨hp.1, ih hp.2⟩
  | act f p ih => exact fun s => ih s (hp s)

theorem Ordered.bind {α β : Type _} {p : Prog L σ α} {k : α → Prog L σ β}
    (hp : p.Ordered rank held left) (hk : ∀ a, (k a).Ordered rank left after) :
    (p >>= k).Ordered rank held after := hp.bind' hk

/-- **The guard**: it is enough that the lock is above the locks held around it. -/
theorem Ordered.scopedLock {l : L} {p : Prog L σ α} (hl : ∀ h ∈ held, rank h < rank l)
    (hp : p.Ordered rank (insert l held) (insert l held)) :
    (scopedLock l p).Ordered rank held held := by
  have hl' : l ∉ held := fun h => lt_irrefl _ (hl l h)
  refine ⟨hl, hp.bind' fun a => ⟨Set.mem_insert l held, ?_⟩⟩
  show insert l held \ {l} = held
  exact Set.insert_sdiff_self_of_notMem hl'

theorem Ordered.foldlM {α β : Type _} {f : β → α → Prog L σ β} {xs : List α} {b : β}
    (h : ∀ b, ∀ a ∈ xs, (f b a).Ordered rank held held) :
    (xs.foldlM f b).Ordered rank held held := by
  induction xs generalizing b with
  | nil => exact .pure b held
  | cons a xs ih =>
      exact (h b a List.mem_cons_self).bind fun b' =>
        ih fun b a ha => h b a (List.mem_cons_of_mem _ ha)

theorem Ordered.forM {α : Type _} {f : α → Prog L σ PUnit} {xs : List α}
    (h : ∀ a ∈ xs, (f a).Ordered rank held held) : (xs.forM f).Ordered rank held held := by
  induction xs with
  | nil => exact .pure _ held
  | cons a xs ih =>
      exact (h a List.mem_cons_self).bind fun _ =>
        ih fun a ha => h a (List.mem_cons_of_mem _ ha)

end Ordered

/-! ### Parts of a program -/

/-- `q` is what remains of `p` after its first thing. -/
inductive Child : Prog L σ α → Prog L σ α → Prop
  | lock (l : L) (p : Prog L σ α) : Child p (lock l p)
  | unlock (l : L) (p : Prog L σ α) : Child p (unlock l p)
  | act (f : σ → σ) (p : σ → Prog L σ α) (s : σ) : Child (p s) (act f p)

theorem child_wf : WellFounded (Child (L := L) (σ := σ) (α := α)) := by
  refine ⟨fun p => ?_⟩
  induction p with
  | done a => exact ⟨_, fun q h => by cases h⟩
  | lock l p ih => exact ⟨_, fun q h => by cases h; exact ih⟩
  | unlock l p ih => exact ⟨_, fun q h => by cases h; exact ih⟩
  | act f p ih => exact ⟨_, fun q h => by cases h; exact ih _⟩

end Prog

open Prog

/-! ### Threads -/

/-- The shared state, who holds each lock, and what each thread has still to do. -/
structure Config (ι L σ : Type*) where
  state : σ
  holder : L → Option ι
  program : ι → Prog L σ Unit

namespace Config

variable {ι L σ : Type*}

/-- The thread has nothing to do. -/
def Idle (c : Config ι L σ) (i : ι) : Prop := c.program i = .done ()

/-- The locks of a thread. -/
def held (c : Config ι L σ) (i : ι) : Set L := {l | c.holder l = some i}

/-! ### The discipline -/

section Disciplined

variable {c : Config ι L σ} {i : ι} {R : Type*} [Preorder R] {rank : L → R}

/-- Every thread takes the locks it will still take in order, and gives all of them back. -/
def Disciplined (rank : L → R) (c : Config ι L σ) : Prop :=
  ∀ i, (c.program i).Ordered rank (c.held i) ∅

/-- **A thread that wants a lock holds only lower ones.** -/
theorem Disciplined.lt (h : Disciplined rank c) {l l' : L} {p : Prog L σ Unit}
    (hp : c.program i = .lock l p) (hl' : c.holder l' = some i) : rank l' < rank l := by
  have hi := h i
  rw [hp] at hi
  exact hi.1 l' hl'

variable [DecidableEq ι]

/-- An idle thread is given something to do. -/
def start (c : Config ι L σ) (i : ι) (p : Prog L σ Unit) : Config ι L σ :=
  { c with program := Function.update c.program i p }

@[simp] theorem program_start (c : Config ι L σ) (i : ι) (p : Prog L σ Unit) :
    (c.start i p).program i = p := Function.update_self ..

theorem Disciplined.start {p : Prog L σ Unit} (h : Disciplined rank c) (hi : c.Idle i)
    (hp : p.Ordered rank ∅ ∅) : Disciplined rank (c.start i p) := by
  intro j
  by_cases hji : j = i
  · subst hji
    -- an idle thread holds nothing
    have hheld : c.held j = ∅ := by
      have hj := h j
      rwa [show c.program j = .done () from hi] at hj
    show (Function.update c.program j p j).Ordered rank (c.held j) ∅
    rw [Function.update_self, hheld]
    exact hp
  · show (Function.update c.program i p j).Ordered rank (c.held j) ∅
    rw [Function.update_of_ne hji]
    exact h j

end Disciplined

/-! ### Steps -/

variable [DecidableEq ι] [DecidableEq L]

/-- Thread `i` does its next thing. -/
inductive Step (i : ι) : Config ι L σ → Config ι L σ → Prop
  | lock {c : Config ι L σ} {l : L} {p : Prog L σ Unit} (hp : c.program i = .lock l p)
      (hfree : c.holder l = none) :
      Step i c ⟨c.state, Function.update c.holder l (some i), Function.update c.program i p⟩
  | unlock {c : Config ι L σ} {l : L} {p : Prog L σ Unit} (hp : c.program i = .unlock l p)
      (hmine : c.holder l = some i) :
      Step i c ⟨c.state, Function.update c.holder l none, Function.update c.program i p⟩
  | act {c : Config ι L σ} {f : σ → σ} {p : σ → Prog L σ Unit} (hp : c.program i = .act f p) :
      Step i c ⟨f c.state, c.holder, Function.update c.program i (p c.state)⟩

/-- **All threads finish**, however they are scheduled: no schedule goes on for ever, and
where none of them can go on, none has anything left to do. -/
inductive Completes : Config ι L σ → Prop
  | intro {c : Config ι L σ} (hnext : ∀ i c', Step i c c' → Completes c')
      (hend : (∀ i c', ¬ Step i c c') → ∀ i, c.Idle i) : Completes c

variable {c c' : Config ι L σ} {i : ι} {R : Type*} [Preorder R] {rank : L → R}

omit [DecidableEq ι] in
/-- A lock that is taken. -/
theorem held_take (c : Config ι L σ) (l : L) (i : ι) :
    {l' | Function.update c.holder l (some i) l' = some i} = insert l (c.held i) := by
  ext l'
  by_cases hl : l' = l
  · simp [hl]
  · simp [held, hl]

omit [DecidableEq ι] in
/-- A lock that is given back. -/
theorem held_give (c : Config ι L σ) (l : L) (i : ι) :
    {l' | Function.update c.holder l none l' = some i} = c.held i \ {l} := by
  ext l'
  by_cases hl : l' = l
  · simp [hl]
  · simp [held, hl]

omit [DecidableEq ι] in
/-- The locks of another thread. -/
theorem held_update (c : Config ι L σ) (l : L) (o : Option ι) (j : ι) (hj : c.holder l ≠ some j)
    (ho : o ≠ some j) : {l' | Function.update c.holder l o l' = some j} = c.held j := by
  ext l'
  by_cases hl : l' = l
  · subst hl
    simp [held, hj, ho]
  · simp [held, Function.update_of_ne hl]

/-- **Step lemma.** -/
theorem Disciplined.step (h : Disciplined rank c) (hs : Step i c c') : Disciplined rank c' := by
  intro j
  have hj := h j
  cases hs with
  | @lock l p hp hfree =>
      by_cases hji : j = i
      · subst hji
        rw [hp] at hj
        simpa only [held, Function.update_self, held_take] using hj.2
      · have hheld := held_update c l (some i) j (by simp [hfree])
          fun e => hji (Option.some.inj e).symm
        simpa only [held, Function.update_of_ne hji, hheld] using hj
  | @unlock l p hp hmine =>
      by_cases hji : j = i
      · subst hji
        rw [hp] at hj
        simpa only [held, Function.update_self, held_give] using hj.2
      · have hheld := held_update c l none j
          (fun e => hji (Option.some.inj (e.symm.trans hmine))) (by simp)
        simpa only [held, Function.update_of_ne hji, hheld] using hj
  | @act f p hp =>
      by_cases hji : j = i
      · subst hji
        rw [hp] at hj
        simpa only [held, Function.update_self] using hj c.state
      · simpa only [held, Function.update_of_ne hji] using hj

/-! ### Progress -/

/-- Some thread can go on as long as one has something left to do. -/
theorem Disciplined.progress [WellFoundedGT R] (h : Disciplined rank c) (hi : ¬ c.Idle i) :
    ∃ j c', Step j c c' := by
  -- a thread that wants the lock `l`: by induction on the rank of `l`, from above
  have hwait : ∀ r : R, ∀ (l : L) (i : ι) (p : Prog L σ Unit), rank l = r →
      c.program i = .lock l p → ∃ j c', Step j c c' := by
    intro r
    induction r using WellFoundedGT.induction with
    | ind r ih =>
        intro l i p hr hp
        cases hholder : c.holder l with
        | none => exact ⟨i, _, .lock hp hholder⟩
        | some j =>
            have hj := h j
            cases hprog : c.program j with
            | done a =>
                rw [hprog] at hj
                exact absurd (show l ∈ c.held j from hholder) (hj ▸ Set.notMem_empty l)
            | lock l' q =>
                rw [hprog] at hj
                exact ih _ (hr ▸ hj.1 l hholder) l' j q rfl hprog
            | unlock l' q =>
                rw [hprog] at hj
                exact ⟨j, _, .unlock hprog hj.1⟩
            | act f q => exact ⟨j, _, .act hprog⟩
  have hci := h i
  cases hprog : c.program i with
  | done a => exact absurd hprog hi
  | lock l p => exact hwait _ l i p rfl hprog
  | unlock l p =>
      rw [hprog] at hci
      exact ⟨i, _, .unlock hprog hci.1⟩
  | act f p => exact ⟨i, _, .act hprog⟩

/-! ### Termination -/

/-- What a step leaves to do. -/
theorem Step.program_eq (hs : Step i c c') :
    ∃ p, Child p (c.program i) ∧ c'.program = Function.update c.program i p := by
  cases hs with
  | @lock l p hp hfree => exact ⟨p, hp ▸ .lock l p, rfl⟩
  | @unlock l p hp hmine => exact ⟨p, hp ▸ .unlock l p, rfl⟩
  | @act f p hp => exact ⟨p c.state, hp ▸ .act f p c.state, rfl⟩

theorem Step.not_idle (hs : Step i c c') : ¬ c.Idle i := by
  intro hi
  obtain ⟨p, hchild, _⟩ := hs.program_eq
  rw [show c.program i = .done () from hi] at hchild
  cases hchild

/-- All that the threads in `s` have still to do. -/
def rest (s : Finset ι) (c : Config ι L σ) : Multiset (Prog L σ Unit) := s.val.map c.program

/-- A step replaces one of the programs by a part of it. -/
theorem Step.cutExpand {s : Finset ι} (hs : Step i c c') (hi : i ∈ s) :
    Relation.CutExpand Child (rest s c') (rest s c) := by
  obtain ⟨p, hchild, hprog⟩ := hs.program_eq
  -- the other programs stay
  have hothers : (s.erase i).val.map c'.program = (s.erase i).val.map c.program := by
    apply Multiset.map_congr rfl
    intro j hj
    rw [hprog, Function.update_of_ne (Finset.ne_of_mem_erase hj)]
  have hsplit : ∀ d : Config ι L σ, rest s d = {d.program i} + (s.erase i).val.map d.program := by
    intro d
    rw [rest, ← Finset.insert_erase hi, Finset.insert_val_of_notMem (Finset.notMem_erase i s),
      Multiset.map_cons, Finset.erase_insert (Finset.notMem_erase i s), Multiset.singleton_add]
  rw [hsplit c, hsplit c', hothers, hprog, Function.update_self]
  exact Relation.cutExpand_single_add hchild _

/-- Who has nothing to do stays so. -/
theorem Step.idle (hs : Step i c c') {j : ι} (hj : c.Idle j) : c'.Idle j := by
  have hji : j ≠ i := by
    rintro rfl
    exact hs.not_idle hj
  obtain ⟨p, _, hprog⟩ := hs.program_eq
  show c'.program j = .done ()
  rw [hprog, Function.update_of_ne hji]
  exact hj

/-- **All threads finish under the discipline**, if finitely many have something to do. -/
theorem Disciplined.completes [WellFoundedGT R]
    (h : Disciplined rank c) (hfin : {i | ¬ c.Idle i}.Finite) : c.Completes := by
  -- the threads that have something to do now are all that ever will
  have hbusy : ∀ i, ¬ c.Idle i → i ∈ hfin.toFinset := fun i hi => hfin.mem_toFinset.mpr hi
  generalize hfin.toFinset = s at hbusy
  generalize hm : rest s c = m
  clear hfin
  induction m using child_wf.cutExpand.induction generalizing c with
  | _ m ih =>
      subst hm
      refine ⟨fun i c' hs => ?_, fun hstuck i => ?_⟩
      · exact ih _ (hs.cutExpand (hbusy i hs.not_idle)) (h.step hs)
          (fun j hj => hbusy j fun hidle => hj (hs.idle hidle)) rfl
      · by_contra hi
        obtain ⟨j, c', hs⟩ := h.progress hi
        exact hstuck j c' hs

/-! ### A thread on its own -/

/-- Any number of steps. -/
abbrev Steps : Config ι L σ → Config ι L σ → Prop :=
  Relation.ReflTransGen fun c c' => ∃ i, Step i c c'

/-- **Alone** a disciplined thread finishes, and has then computed what its program
evaluates to. -/
theorem solo (hi : (c.program i).Ordered rank (c.held i) ∅)
    (hfree : ∀ l, c.holder l = none ∨ c.holder l = some i) :
    Steps c ⟨((c.program i).eval c.state).2, fun _ => none,
      Function.update c.program i (.done ())⟩ := by
  generalize hp : c.program i = p at hi ⊢
  induction p generalizing c with
  | done a =>
      -- what is not free is held by the thread itself, and it holds nothing
      have hholder : c.holder = fun _ => none := by
        funext l
        apply (hfree l).resolve_right
        intro hl
        exact Set.notMem_empty l (hi ▸ hl)
      have hprog : Function.update c.program i (.done ()) = c.program :=
        Function.update_eq_self_iff.mpr hp.symm
      rw [hprog, eval_done, ← hholder]
  | lock l p ih =>
      have hl : c.holder l = none :=
        (hfree l).resolve_right fun hl => lt_irrefl _ (hi.1 l hl)
      have hrest := ih (c := ⟨c.state, Function.update c.holder l (some i),
        Function.update c.program i p⟩) ?_ (Function.update_self ..) ?_
      · rw [Function.update_idem] at hrest
        exact .head ⟨i, .lock hp hl⟩ hrest
      · intro l'
        by_cases hl' : l' = l
        · exact Or.inr (hl' ▸ Function.update_self ..)
        · simpa only [Function.update_of_ne hl'] using hfree l'
      · rw [held, held_take]
        exact hi.2
  | unlock l p ih =>
      have hrest := ih (c := ⟨c.state, Function.update c.holder l none,
        Function.update c.program i p⟩) ?_ (Function.update_self ..) ?_
      · rw [Function.update_idem] at hrest
        exact .head ⟨i, .unlock hp hi.1⟩ hrest
      · intro l'
        by_cases hl' : l' = l
        · exact Or.inl (hl' ▸ Function.update_self ..)
        · simpa only [Function.update_of_ne hl'] using hfree l'
      · rw [held, held_give]
        exact hi.2
  | act f p ih =>
      have hrest := ih c.state (c := ⟨f c.state, c.holder, Function.update c.program i (p c.state)⟩)
        hfree (Function.update_self ..) (hi c.state)
      rw [Function.update_idem] at hrest
      exact .head ⟨i, .act hp⟩ hrest

/-! ### A lock wanted twice -/

/-- The thread is about to take `l` twice, or has taken it and is about to do so again. -/
def Twice (l : L) (i : ι) (c : Config ι L σ) : Prop :=
  (∃ p, c.program i = .lock l (.lock l p)) ∨
    (c.holder l = some i ∧ ∃ p, c.program i = .lock l p)

theorem Twice.step {l : L} (h : Twice l i c) {j : ι} (hs : Step j c c') : Twice l i c' := by
  by_cases hji : i = j
  · subst hji
    rcases h with ⟨p, hp⟩ | ⟨hmine, p, hp⟩
    · cases hs with
      | lock hp' _ =>
          obtain ⟨rfl, rfl⟩ := Prog.lock.inj (hp.symm.trans hp')
          exact Or.inr ⟨Function.update_self .., p, Function.update_self ..⟩
      | unlock hp' _ => cases hp.symm.trans hp'
      | act hp' => cases hp.symm.trans hp'
    · cases hs with
      | lock hp' hfree =>
          obtain ⟨rfl, rfl⟩ := Prog.lock.inj (hp.symm.trans hp')
          cases hfree.symm.trans hmine
      | unlock hp' _ => cases hp.symm.trans hp'
      | act hp' => cases hp.symm.trans hp'
  · -- another thread: it has no part in this
    have hprog : c'.program i = c.program i := by
      obtain ⟨p, _, hprog⟩ := hs.program_eq
      rw [hprog, Function.update_of_ne hji]
    rcases h with ⟨p, hp⟩ | ⟨hmine, p, hp⟩
    · exact Or.inl ⟨p, hprog.trans hp⟩
    · refine Or.inr ⟨?_, p, hprog.trans hp⟩
      cases hs with
      | @lock l' p' hp' hfree =>
          have hl : l ≠ l' := by
            rintro rfl
            cases hmine.symm.trans hfree
          exact (Function.update_of_ne hl _ _).trans hmine
      | @unlock l' p' hp' hother =>
          have hl : l ≠ l' := by
            rintro rfl
            exact hji (Option.some.inj (hmine.symm.trans hother))
          exact (Function.update_of_ne hl _ _).trans hmine
      | act hp' => exact hmine

/-- **A thread that takes a lock twice never finishes.** -/
theorem Twice.not_completes {l : L} (h : Twice l i c) : ¬ c.Completes := by
  intro hc
  induction hc with
  | @intro c hnext hend ih =>
      by_cases hstep : ∃ j c', Step j c c'
      · obtain ⟨j, c', hs⟩ := hstep
        exact ih j c' hs (h.step hs)
      · have hidle : c.program i = .done () := hend (fun j c' hs => hstep ⟨j, c', hs⟩) i
        rcases h with ⟨p, hp⟩ | ⟨_, p, hp⟩
        · cases hp.symm.trans hidle
        · cases hp.symm.trans hidle

end Config

end Locks
