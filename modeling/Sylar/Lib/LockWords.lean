/-
Sylar/Lib/LockWords.lean

Locks as words in memory.

A `LockClass` says how the word of a lock begins, what one attempt to take the lock
makes of it, and what giving the lock back makes of it, which may be undefined.  A
thread that wants the lock makes attempts until one succeeds.  The class is `Correct`
if its words tell who holds the lock: an attempt succeeds exactly if nobody who holds
the lock stands against it, and giving back is defined for all who hold it.

The programs of Sylar.Lib.SharedLocks can then be executed over such words instead of
over a record of who holds what:

    WordCalls.refines      what is executed over words is, without the attempts that
                           miss, an execution over that record, with the same returns
    WordCalls.completes    all threads finish, whatever attempts miss in between
    WordCalls.defined      no lock is given back where that is undefined

if the locks are taken in order, and nobody gets along with a writer.
-/
import Sylar.Lib.Sections

namespace SharedLocks

open Locks Locks.Prog Transition

/-! ### Words -/

/-- A class of locks whose words are of type `W`, for threads `ι` that ask in modes `M`. -/
structure LockClass (W ι M : Type*) where
  /-- The word of a new lock. -/
  clear : W
  /-- One attempt: whether it succeeds, and what becomes of the word. -/
  attempt : ι → M → W → Bool × W
  /-- What giving the lock back makes of the word, where that is defined. -/
  release : ι → W → Option W

/-- The words of the class tell who holds the lock, in which mode. -/
structure LockClass.Correct {W ι M : Type*} (C : LockClass W ι M) where
  /-- Two holders get along. -/
  compat : M → M → Prop
  /-- The word while these hold the lock. -/
  Holds : W → Multiset (ι × M) → Prop
  clear : Holds C.clear 0
  clear_of : ∀ {w}, Holds w 0 → w = C.clear
  together : ∀ {w x y s}, Holds w (x ::ₘ y ::ₘ s) → compat x.2 y.2
  taken : ∀ {w s i m w'}, Holds w s → (∀ m', (i, m') ∈ s → compat m m') →
    C.attempt i m w = (true, w') → (∀ x ∈ s, compat m x.2) ∧ Holds w' ((i, m) ::ₘ s)
  missed : ∀ {w s i m w'}, Holds w s → (∀ m', (i, m') ∈ s → compat m m') →
    C.attempt i m w = (false, w') → (∃ x ∈ s, ¬ compat m x.2) ∧ Holds w' s
  released : ∀ {w s i m}, Holds w ((i, m) ::ₘ s) → ∃ w', C.release i w = some w' ∧ Holds w' s

variable {L ι σ α κ : Type*} {W : L → Type*}

/-! ### Who holds a lock -/

/-- Those in `s`, and nobody else, hold the lock `l`. -/
def HoldersAre (held : ι → Set (Request L)) (l : L) (s : Multiset (ι × Mode)) : Prop :=
  s.Nodup ∧ ∀ i m, (i, m) ∈ s ↔ (m, l) ∈ held i

namespace HoldersAre

variable [DecidableEq ι] {held : ι → Set (Request L)} {l l' : L} {s : Multiset (ι × Mode)}
  {i : ι} {m : Mode}

theorem insert (h : HoldersAre held l s) (hnot : (m, l) ∉ held i) :
    HoldersAre (Function.update held i (insert (m, l) (held i))) l ((i, m) ::ₘ s) := by
  refine ⟨Multiset.nodup_cons.mpr ⟨fun hmem => hnot ((h.2 i m).mp hmem), h.1⟩, fun j m' => ?_⟩
  rw [Multiset.mem_cons, h.2]
  by_cases hji : j = i
  · subst hji
    rw [Function.update_self, Set.mem_insert_iff, Prod.mk.injEq, Prod.mk.injEq]
    simp
  · rw [Function.update_of_ne hji, Prod.mk.injEq]
    simp [hji]

theorem erase (h : HoldersAre held l ((i, m) ::ₘ s)) :
    HoldersAre (Function.update held i (held i \ {(m, l)})) l s := by
  obtain ⟨hnot, hs⟩ := Multiset.nodup_cons.mp h.1
  refine ⟨hs, fun j m' => ?_⟩
  have hj := h.2 j m'
  rw [Multiset.mem_cons] at hj
  by_cases hji : j = i
  · subst hji
    rw [Function.update_self, Set.mem_sdiff, ← hj, Set.mem_singleton_iff]
    constructor
    · intro hmem
      refine ⟨Or.inr hmem, fun heq => hnot ?_⟩
      rwa [← (Prod.mk.inj heq).1]
    · rintro ⟨heq | hmem, hne⟩
      · exact absurd (congrArg (·, l) (Prod.mk.inj heq).2) hne
      · exact hmem
  · rw [Function.update_of_ne hji, ← hj, Prod.mk.injEq]
    simp [hji]

/-- What happens to one lock is nothing to another. -/
theorem of_ne (h : HoldersAre held l' s) {rs : Set (Request L)}
    (hrs : ∀ m, (m, l') ∈ rs ↔ (m, l') ∈ held i) :
    HoldersAre (Function.update held i rs) l' s := by
  refine ⟨h.1, fun j m => ?_⟩
  by_cases hji : j = i
  · subst hji
    rw [Function.update_self, hrs, h.2]
  · rw [Function.update_of_ne hji, h.2]

end HoldersAre

/-! ### Threads -/

/-- The shared state, the word of each lock, and what each thread has still to do. -/
structure WordConfig (W : L → Type*) (ι σ α : Type*) where
  state : σ
  words : ∀ l, W l
  program : ι → Prog (Request L) σ α

namespace WordConfig

/-- The thread has nothing to do. -/
def Idle (c : WordConfig W ι σ α) (i : ι) : Prop := ∃ a, c.program i = .done a

variable [DecidableEq ι] [DecidableEq L] {C : ∀ l, LockClass (W l) ι Mode}

/-- Thread `i` does its next thing; if it takes a lock, by an attempt that succeeds. -/
inductive Step (C : ∀ l, LockClass (W l) ι Mode) (i : ι) :
    WordConfig W ι σ α → WordConfig W ι σ α → Prop
  | take {c : WordConfig W ι σ α} {m : Mode} {l : L} {p : Prog (Request L) σ α} {w : W l}
      (hp : c.program i = .lock (m, l) p) (hin : (C l).attempt i m (c.words l) = (true, w)) :
      Step C i c ⟨c.state, Function.update c.words l w, Function.update c.program i p⟩
  | unlock {c : WordConfig W ι σ α} {m : Mode} {l : L} {p : Prog (Request L) σ α} {w : W l}
      (hp : c.program i = .unlock (m, l) p) (hout : (C l).release i (c.words l) = some w) :
      Step C i c ⟨c.state, Function.update c.words l w, Function.update c.program i p⟩
  | act {c : WordConfig W ι σ α} {f : σ → σ} {p : σ → Prog (Request L) σ α}
      (hp : c.program i = .act f p) :
      Step C i c ⟨f c.state, c.words, Function.update c.program i (p c.state)⟩

/-- Thread `i` makes an attempt that misses. -/
inductive Miss (C : ∀ l, LockClass (W l) ι Mode) (i : ι) :
    WordConfig W ι σ α → WordConfig W ι σ α → Prop
  | miss {c : WordConfig W ι σ α} {m : Mode} {l : L} {p : Prog (Request L) σ α} {w : W l}
      (hp : c.program i = .lock (m, l) p) (hin : (C l).attempt i m (c.words l) = (false, w)) :
      Miss C i c ⟨c.state, Function.update c.words l w, c.program⟩

/-- Some attempts miss. -/
abbrev Spin (C : ∀ l, LockClass (W l) ι Mode) :
    WordConfig W ι σ α → WordConfig W ι σ α → Prop :=
  Relation.ReflTransGen fun c c' => ∃ i, Miss C i c c'

/-- **All threads finish**, however they are scheduled and whatever attempts miss. -/
inductive Completes (C : ∀ l, LockClass (W l) ι Mode) : WordConfig W ι σ α → Prop
  | intro {c : WordConfig W ι σ α}
      (hnext : ∀ c₁ i c', Spin C c c₁ → Step C i c₁ c' → Completes C c')
      (hend : (∀ i c', ¬ Step C i c c') → ∀ i, c.Idle i) : Completes C c

/-! ### What the words stand for -/

/-- The words of `c` tell who holds what in `d`; otherwise they are the same. -/
structure Stands (S : ∀ l, (C l).Correct) (c : WordConfig W ι σ α) (d : Config ι L σ α) :
    Prop where
  state : d.state = c.state
  program : d.program = c.program
  words : ∀ l, ∃ s, HoldersAre d.held l s ∧ (S l).Holds (c.words l) s

variable {S : ∀ l, (C l).Correct} {c c' : WordConfig W ι σ α} {d : Config ι L σ α} {i : ι}
  {R : Type*} [Preorder R] {rank : L → R}

omit [DecidableEq ι] [DecidableEq L] in
/-- A thread that wants a lock does not hold it. -/
theorem not_mem_held (hd : d.Disciplined rank) {m : Mode} {l : L} {p : Prog (Request L) σ α}
    (hp : d.program i = .lock (m, l) p) (m' : Mode) : (m', l) ∉ d.held i := by
  intro hmem
  have hi := hd i
  rw [hp] at hi
  exact lt_irrefl (rank l) (hi.1 (m', l) hmem)

omit [DecidableEq ι] [DecidableEq L] in
/-- So an attempt does as the class promises. -/
theorem Stands.attempt (h : c.Stands S d) (hd : d.Disciplined rank) {m : Mode} {l : L}
    {p : Prog (Request L) σ α} (hp : c.program i = .lock (m, l) p) :
    ∃ s, HoldersAre d.held l s ∧
      (∀ w, (C l).attempt i m (c.words l) = (true, w) →
        (∀ x ∈ s, (S l).compat m x.2) ∧ (S l).Holds w ((i, m) ::ₘ s)) ∧
      ∀ w, (C l).attempt i m (c.words l) = (false, w) →
        (∃ x ∈ s, ¬ (S l).compat m x.2) ∧ (S l).Holds w s := by
  obtain ⟨s, hs, hword⟩ := h.words l
  have hown : ∀ m', (i, m') ∈ s → (S l).compat m m' := fun m' hmem =>
    absurd ((hs.2 i m').mp hmem) (not_mem_held hd (h.program ▸ hp) m')
  exact ⟨s, hs, fun w => (S l).taken hword hown, fun w => (S l).missed hword hown⟩

omit [DecidableEq ι] in
/-- **An attempt that misses changes nothing.** -/
theorem Stands.miss (h : c.Stands S d) (hd : d.Disciplined rank) (hs : Miss C i c c') :
    c'.Stands S d := by
  cases hs with
  | @miss m l p w hp hin =>
      obtain ⟨s, hs, -, hmissed⟩ := h.attempt hd hp
      refine ⟨h.state, h.program, fun l' => ?_⟩
      by_cases hl : l' = l
      · subst hl
        refine ⟨s, hs, ?_⟩
        show (S l').Holds (Function.update c.words l' w l') s
        rw [Function.update_self]
        exact (hmissed w hin).2
      · show ∃ s, HoldersAre d.held l' s ∧ (S l').Holds (Function.update c.words l w l') s
        rw [Function.update_of_ne hl]
        exact h.words l'

omit [DecidableEq ι] in
theorem Stands.spin (h : c.Stands S d) (hd : d.Disciplined rank) (hs : Spin C c c') :
    c'.Stands S d := by
  induction hs with
  | refl => exact h
  | tail _ hmiss ih =>
      obtain ⟨i, hmiss⟩ := hmiss
      exact ih.miss hd hmiss

/-- Nobody gets along with a writer. -/
def Excluding (S : ∀ l, (C l).Correct) : Prop :=
  ∀ l m m', (S l).compat m m' → m = .read ∧ m' = .read

/-- **Step lemma**: a step over words is a step over the record. -/
theorem Stands.step (hS : Excluding S) (h : c.Stands S d) (hd : d.Disciplined rank)
    (hs : Step C i c c') :
    ∃ d', Config.Step (Policy.preferReaders ι L σ α) i d d' ∧ c'.Stands S d' := by
  cases hs with
  | @take m l p w hp hin =>
      have hpd : d.program i = .lock (m, l) p := h.program ▸ hp
      obtain ⟨s, hs, htaken, -⟩ := h.attempt hd hp
      obtain ⟨hcompat, hholds⟩ := htaken w hin
      have hfree : d.Free m l := by
        refine fun j => ⟨fun hmem => ?_, fun hm hmem => ?_⟩
        · cases (hS l m .write (hcompat _ ((hs.2 j .write).mpr hmem))).2
        · cases hm.symm.trans (hS l m .read (hcompat _ ((hs.2 j .read).mpr hmem))).1
      refine ⟨_, .lock hpd hfree, h.state, by rw [h.program], fun l' => ?_⟩
      by_cases hl : l' = l
      · subst hl
        refine ⟨_, hs.insert (not_mem_held hd hpd m), ?_⟩
        show (S l').Holds (Function.update c.words l' w l') _
        rw [Function.update_self]
        exact hholds
      · obtain ⟨s', hs', hword⟩ := h.words l'
        refine ⟨s', hs'.of_ne fun m' => ?_, ?_⟩
        · rw [Set.mem_insert_iff, Prod.mk.injEq]
          simp [hl]
        · show (S l').Holds (Function.update c.words l w l') s'
          rwa [Function.update_of_ne hl]
  | @unlock m l p w hp hout =>
      have hpd : d.program i = .unlock (m, l) p := h.program ▸ hp
      have hmine : (m, l) ∈ d.held i := by
        have hi := hd i
        rw [hpd] at hi
        exact hi.1
      refine ⟨_, .unlock hpd hmine, h.state, by rw [h.program], fun l' => ?_⟩
      by_cases hl : l' = l
      · subst hl
        obtain ⟨s, hs, hword⟩ := h.words l'
        obtain ⟨s, rfl⟩ := Multiset.exists_cons_of_mem ((hs.2 i m).mpr hmine)
        obtain ⟨w', hw', hholds⟩ := (S l').released hword
        obtain rfl := Option.some.inj (hw'.symm.trans hout)
        refine ⟨s, hs.erase, ?_⟩
        show (S l').Holds (Function.update c.words l' w' l') s
        rwa [Function.update_self]
      · obtain ⟨s, hs, hword⟩ := h.words l'
        refine ⟨s, hs.of_ne fun m' => ?_, ?_⟩
        · rw [Set.mem_sdiff, Set.mem_singleton_iff, Prod.mk.injEq]
          simp [hl]
        · show (S l').Holds (Function.update c.words l w l') s
          rwa [Function.update_of_ne hl]
  | @act f p hp =>
      have hpd : d.program i = .act f p := h.program ▸ hp
      exact ⟨_, .act hpd, congrArg f h.state, by rw [h.program, h.state], h.words⟩

omit [DecidableEq ι] [DecidableEq L] in
/-- What a thread holds it can give back. -/
theorem Stands.release (h : c.Stands S d) (hd : d.Disciplined rank) {m : Mode} {l : L}
    {p : Prog (Request L) σ α} (hp : c.program i = .unlock (m, l) p) :
    ∃ w, (C l).release i (c.words l) = some w := by
  have hi := hd i
  rw [h.program, hp] at hi
  obtain ⟨s, hs, hword⟩ := h.words l
  obtain ⟨s, rfl⟩ := Multiset.exists_cons_of_mem ((hs.2 i m).mpr hi.1)
  obtain ⟨w, hw, -⟩ := (S l).released hword
  exact ⟨w, hw⟩

/-- Some thread can go on as long as one has something left to do. -/
theorem Stands.progress [WellFoundedGT R] (h : c.Stands S d) (hd : d.Disciplined rank)
    (hi : ¬ c.Idle i) : ∃ j c', Step C j c c' := by
  -- a thread that wants the lock `l`: by induction on the rank of `l`, from above
  have hwait : ∀ r : R, ∀ (m : Mode) (l : L) (i : ι) (p : Prog (Request L) σ α), rank l = r →
      c.program i = .lock (m, l) p → ∃ j c', Step C j c c' := by
    intro r
    induction r using WellFoundedGT.induction with
    | ind r ih =>
        intro m l i p hr hp
        obtain ⟨s, hs, -, hmissed⟩ := h.attempt hd hp
        obtain ⟨took, w, hin⟩ : ∃ took w, (C l).attempt i m (c.words l) = (took, w) :=
          ⟨_, _, rfl⟩
        cases took with
        | true => exact ⟨i, _, .take hp hin⟩
        | false =>
            -- whoever is in the way will go on, or waits for a higher lock
            obtain ⟨⟨⟨j, m'⟩, hmem, -⟩, -⟩ := hmissed w hin
            have hj : (m', l) ∈ d.held j := (hs.2 j m').mp hmem
            rcases hprog : c.program j with a | ⟨⟨m'', l'⟩, q⟩ | ⟨⟨m'', l'⟩, q⟩ | ⟨f, q⟩
            · have hdj := hd j
              rw [h.program, hprog] at hdj
              exact absurd hj (hdj ▸ Set.notMem_empty _)
            · have hdj := hd j
              rw [h.program, hprog] at hdj
              exact ih _ (hr ▸ hdj.1 _ hj) m'' l' j q rfl hprog
            · obtain ⟨w', hw'⟩ := h.release hd hprog
              exact ⟨j, _, .unlock hprog hw'⟩
            · exact ⟨j, _, .act hprog⟩
  rcases hprog : c.program i with a | ⟨⟨m, l⟩, p⟩ | ⟨⟨m, l⟩, p⟩ | ⟨f, p⟩
  · exact absurd ⟨a, hprog⟩ hi
  · exact hwait _ m l i p rfl hprog
  · obtain ⟨w, hw⟩ := h.release hd hprog
    exact ⟨i, _, .unlock hprog hw⟩
  · exact ⟨i, _, .act hprog⟩

/-- All threads finish over the words if they do over the record. -/
theorem Stands.completes [WellFoundedGT R] (hS : Excluding S) (h : c.Stands S d)
    (hd : d.Disciplined rank) (hfin : d.Completes (Policy.preferReaders ι L σ α)) :
    c.Completes C := by
  induction hfin generalizing c with
  | @intro d _ _ ih =>
      refine ⟨fun c₁ i c' hspin hstep => ?_, fun hstuck i => ?_⟩
      · obtain ⟨d', hd', hstands⟩ := (h.spin hd hspin).step hS hd hstep
        exact ih i d' hd' hstands (hd.step hd')
      · by_contra hi
        obtain ⟨j, c', hs⟩ := h.progress hd hi
        exact hstuck j c' hs

end WordConfig

/-! ### Calls -/

/-- The threads with the operation each of them is executing, and what has returned. -/
structure WordCalls (W : L → Type*) (ι κ σ α : Type*) where
  config : WordConfig W ι σ α
  call : ι → κ
  history : List (κ × α)

/-- What happens over words; `miss i` is an attempt of the thread `i` that misses. -/
inductive WordEvent (ι κ : Type*)
  | call (i : ι) (k : κ)
  | step (i : ι)
  | miss (i : ι)

/-- What of it happens over the record. -/
def WordEvent.event? : WordEvent ι κ → Option (CallEvent ι κ)
  | call i k => some (.call i k)
  | step i => some (.step i)
  | miss _ => none

namespace WordCalls

variable [DecidableEq ι] [DecidableEq L]

/-- One step; `code k` is the program of the operation `k`. -/
inductive Step (C : ∀ l, LockClass (W l) ι Mode) (code : κ → Prog (Request L) σ α)
    (s : WordCalls W ι κ σ α) : WordEvent ι κ → WordCalls W ι κ σ α → Prop
  | call {i : ι} (k : κ) (hidle : s.config.Idle i) :
      Step C code s (.call i k)
        ⟨{ s.config with program := Function.update s.config.program i (code k) },
          Function.update s.call i k, s.history⟩
  | step {i : ι} {c : WordConfig W ι σ α} (hs : WordConfig.Step C i s.config c) :
      Step C code s (.step i)
        ⟨c, s.call, s.history ++ Calls.returned (s.call i) (c.program i)⟩
  | miss {i : ι} {c : WordConfig W ι σ α} (hs : WordConfig.Miss C i s.config c) :
      Step C code s (.miss i) { s with config := c }

/-- Nobody has been called yet, and all locks are new. -/
def start (C : ∀ l, LockClass (W l) ι Mode) (s : σ) (k : κ) (a : α) : WordCalls W ι κ σ α :=
  ⟨⟨s, fun l => (C l).clear, fun _ => .done a⟩, fun _ => k, []⟩

variable {C : ∀ l, LockClass (W l) ι Mode} {S : ∀ l, (C l).Correct}
  {code : κ → Prog (Request L) σ α} {s s' : WordCalls W ι κ σ α} {t : Calls ι κ L σ α}
  {R : Type*} [Preorder R] {rank : L → R}

/-- The words of `s` tell who holds what in `t`; otherwise they are the same. -/
structure Stands (S : ∀ l, (C l).Correct) (s : WordCalls W ι κ σ α) (t : Calls ι κ L σ α) :
    Prop where
  config : s.config.Stands S t.config
  call : t.call = s.call
  history : t.history = s.history

omit [DecidableEq ι] [DecidableEq L] in
theorem stands_start (S : ∀ l, (C l).Correct) (s : σ) (k : κ) (a : α) :
    (start C s k a).Stands S (Calls.start s k a : Calls ι κ L σ α) where
  config := ⟨rfl, rfl, fun l =>
    ⟨0, ⟨Multiset.nodup_zero, fun _ _ => iff_of_false (Multiset.notMem_zero _) id⟩, (S l).clear⟩⟩
  call := rfl
  history := rfl

/-- **Step lemma**: what happens over words happens over the record, or is an attempt that
misses. -/
theorem Stands.step (hS : WordConfig.Excluding S) (h : s.Stands S t)
    (hd : t.config.Disciplined rank) {e : WordEvent ι κ} (hs : Step C code s e s') :
    match e.event? with
    | some e => ∃ t', Calls.Step (Policy.preferReaders ι L σ α) code t e t' ∧ s'.Stands S t'
    | none => s'.Stands S t := by
  cases hs with
  | @call i k hidle =>
      have hidle' : t.config.Idle i := by
        obtain ⟨a, ha⟩ := hidle
        exact ⟨a, h.config.program ▸ ha⟩
      refine ⟨_, .call k hidle', ⟨h.config.state, ?_, h.config.words⟩, ?_, h.history⟩
      · show Function.update t.config.program i (code k) = _
        rw [h.config.program]
      · show Function.update t.call i k = _
        rw [h.call]
  | @step i c hs =>
      obtain ⟨d, hd', hstands⟩ := h.config.step hS hd hs
      refine ⟨_, .step hd', hstands, h.call, ?_⟩
      show t.history ++ Calls.returned (t.call i) (d.program i) = _
      rw [h.history, h.call, hstands.program]
  | miss hs => exact ⟨h.config.miss hd hs, h.call, h.history⟩

/-- **Refinement**: an execution over words is one over the record, without the attempts that
miss. -/
theorem refines (hS : WordConfig.Excluding S) (rank : L → R) {s₀ : σ} {k : κ} {a : α}
    {tr : List (Taken (WordCalls W ι κ σ α) (WordEvent ι κ))}
    (hrun : Run (Step C code) (start C s₀ k a) tr s)
    (hcode : ∀ x ∈ tr, ∀ i k, x.label = .call i k →
      (code k).Ordered (fun r => rank r.2) ∅ ∅) :
    ∃ tr' t, Run (Calls.Step (Policy.preferReaders ι L σ α) code) (Calls.start s₀ k a) tr' t ∧
      tr'.map Taken.label = tr.filterMap (fun x => x.label.event?) ∧ s.Stands S t ∧
      t.InOrder rank := by
  induction hrun with
  | nil => exact ⟨[], _, .nil, rfl, stands_start S s₀ k a, Calls.inOrder_start s₀ k a⟩
  | @snoc tr s e s' hr hs ih =>
      obtain ⟨tr', t, hrun', hlabels, hstands, horder⟩ :=
        ih fun x hx => hcode x (List.mem_append_left _ hx)
      have hstep := hstands.step hS horder.disciplined hs
      rw [List.filterMap_append, ← hlabels]
      cases he : e.event? with
      | none =>
          rw [he] at hstep
          refine ⟨tr', t, hrun', ?_, hstep, horder⟩
          simp [he]
      | some e' =>
          rw [he] at hstep
          obtain ⟨t', ht', hstands'⟩ := hstep
          refine ⟨_, t', hrun'.snoc ht', ?_, hstands', horder.step ht' fun i k hk => ?_⟩
          · simp [he]
          · have hcall : e = .call i k := by
              cases e with
              | call j k' =>
                  cases he
                  cases hk
                  rfl
              | step j =>
                  cases he
                  cases hk
              | miss j => cases he
            exact hcode ⟨s, e, s'⟩ (List.mem_append_right _ (List.mem_singleton_self _)) i k hcall

/-- **All calls return** over the words, whatever attempts miss. -/
theorem completes [WellFoundedGT R] (hS : WordConfig.Excluding S) (rank : L → R) {s₀ : σ} {k : κ}
    {a : α} {tr : List (Taken (WordCalls W ι κ σ α) (WordEvent ι κ))}
    (hrun : Run (Step C code) (start C s₀ k a) tr s)
    (hcode : ∀ x ∈ tr, ∀ i k, x.label = .call i k →
      (code k).Ordered (fun r => rank r.2) ∅ ∅) : s.config.Completes C := by
  obtain ⟨tr', t, -, -, hstands, horder⟩ := refines hS rank hrun hcode
  exact hstands.config.completes hS horder.disciplined
    (horder.disciplined.completes _ horder.finite)

/-- **No undefined behaviour**: whatever lock a thread is about to give back, the word of the
lock allows it. -/
theorem defined (hS : WordConfig.Excluding S) (rank : L → R) {s₀ : σ} {k : κ}
    {a : α} {tr : List (Taken (WordCalls W ι κ σ α) (WordEvent ι κ))}
    (hrun : Run (Step C code) (start C s₀ k a) tr s)
    (hcode : ∀ x ∈ tr, ∀ i k, x.label = .call i k →
      (code k).Ordered (fun r => rank r.2) ∅ ∅) {i : ι} {m : Mode} {l : L}
    {p : Prog (Request L) σ α} (hp : s.config.program i = .unlock (m, l) p) :
    ∃ w, (C l).release i (s.config.words l) = some w := by
  obtain ⟨tr', t, -, -, hstands, horder⟩ := refines hS rank hrun hcode
  exact hstands.config.release horder.disciplined hp

end WordCalls

end SharedLocks
