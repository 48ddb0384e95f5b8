/-
Sylar/Lib/Protection.lean

What locks keep as it is.

A `Protection` says of every lock which part of the state only its holder may
change, and which part a holder who reads may change as well.  Whether a program
keeps to it is checked action by action against the locks that are held there
(`Respects`), with one rule for each way of building programs; a component may be
checked on its own (`respects_embed`).

In every run of threads that keep to it

    Calls.kept_reading   while a thread holds a lock for reading, what only writers
                         change stays as it is
    Calls.kept_writing   while a thread holds a lock for writing, all that the lock
                         protects changes by this thread alone
-/
import Sylar.Lib.Sections

namespace SharedLocks

open Locks Locks.Prog Transition

/-! ### Programs -/

/-- The program begins with the locks `held` and ends with `left`, and every action is in `R`
of the locks it is done with.  A lock that is held is not asked for. -/
def Respects {L σ α : Type*} (R : Set L → σ → σ → Prop) : Prog L σ α → Set L → Set L → Prop
  | .done _, held, left => held = left
  | .lock l p, held, left => l ∉ held → Respects R p (insert l held) left
  | .unlock l p, held, left => Respects R p (held \ {l}) left
  | .act f p, held, left => (∀ s, R held s (f s)) ∧ ∀ s, Respects R (p s) held left

section Respects

variable {L σ : Type*} {R : Set L → σ → σ → Prop} {held mid left : Set L}

theorem Respects.pure {α : Type _} (a : α) : Respects R (Pure.pure a : Prog L σ α) held held := rfl

theorem Respects.read (hR : ∀ s, R held s s) : Respects R (Prog.read : Prog L σ σ) held held :=
  ⟨hR, fun _ => rfl⟩

theorem Respects.modify {f : σ → σ} (hf : ∀ s, R held s (f s)) :
    Respects R (Prog.modify f : Prog L σ Unit) held held := ⟨hf, fun _ => rfl⟩

theorem Respects.act {α : Type _} {f : σ → σ} {p : σ → Prog L σ α} (hf : ∀ s, R held s (f s))
    (hp : ∀ s, Respects R (p s) held left) : Respects R (Prog.act f p) held left := ⟨hf, hp⟩

theorem Respects.bind {α β : Type _} {p : Prog L σ α} {k : α → Prog L σ β}
    (hp : Respects R p held mid) (hk : ∀ a, Respects R (k a) mid left) :
    Respects R (p >>= k) held left := by
  induction p generalizing held with
  | done a =>
      obtain rfl : held = mid := hp
      exact hk a
  | lock l p ih => exact fun hl => ih (hp hl)
  | unlock l p ih => exact ih hp
  | act f p ih => exact ⟨hp.1, fun s => ih s (hp.2 s)⟩

/-- **The guard**: what is done under it may use the lock. -/
theorem Respects.scopedLock {α : Type _} {l : L} {p : Prog L σ α}
    (hp : Respects R p (insert l held) (insert l held)) :
    Respects R (Prog.scopedLock l p) held held := by
  intro hl
  exact Respects.bind hp fun _ => (Set.insert_sdiff_self_of_notMem hl : insert l held \ {l} = held)

theorem Respects.map {α β : Type _} {p : Prog L σ α} (f : α → β) (hp : Respects R p held left) :
    Respects R (f <$> p) held left :=
  Respects.bind hp fun _ => rfl

theorem Respects.foldlM {α β : Type _} {f : β → α → Prog L σ β} {xs : List α} {b : β}
    (h : ∀ b a, Respects R (f b a) held held) : Respects R (xs.foldlM f b) held held := by
  induction xs generalizing b with
  | nil => exact .pure b
  | cons a xs ih => exact (h b a).bind fun _ => ih

theorem Respects.forM {α : Type _} {f : α → Prog L σ PUnit} {xs : List α}
    (h : ∀ a, Respects R (f a) held held) : Respects R (xs.forM f) held held := by
  induction xs with
  | nil => exact .pure _
  | cons a xs ih => exact (h a).bind fun _ => ih

/-- A component may be checked on its own, if the system holds none of its locks around it. -/
theorem respects_embed {L' S : Type*} {α : Type _} {R' : Set (Request L') → S → S → Prop}
    {name : L → L'} {get : S → σ} {put : σ → S → S} {base : Set (Request L')}
    (hinj : Function.Injective name) (hbase : ∀ l, (.write, name l) ∉ base)
    (hR : ∀ held s x, R held (get s) x → R' (lockSet name base held) s (put x s)) {p : Prog L σ α}
    (hp : Respects R p held left) :
    Respects R' (embed name get put p) (lockSet name base held) (lockSet name base left) := by
  have hpair : Function.Injective fun l => ((.write, name l) : Request L') :=
    fun l l' h => hinj (Prod.mk.inj h).2
  induction p generalizing held with
  | done a =>
      obtain rfl : held = left := hp
      rfl
  | lock l p ih =>
      intro hl
      have hinsert : insert (.write, name l) (lockSet name base held) =
          lockSet name base (insert l held) := by
        rw [lockSet, lockSet, Set.image_insert_eq, Set.union_insert]
      show Respects R' (embed name get put p) (insert (.write, name l) (lockSet name base held)) _
      rw [hinsert]
      exact ih (hp fun hmem => hl (Or.inr ⟨l, hmem, rfl⟩))
  | unlock l p ih =>
      have hsdiff : lockSet name base held \ {(.write, name l)} =
          lockSet name base (held \ {l}) := by
        rw [lockSet, lockSet, Set.union_sdiff_distrib, Set.sdiff_singleton_eq_self (hbase l),
          Set.image_sdiff hpair, Set.image_singleton]
      show Respects R' (embed name get put p) (lockSet name base held \ {(.write, name l)}) _
      rw [hsdiff]
      exact ih hp
  | act f p ih => exact ⟨fun s => hR held s _ (hp.1 (get s)), fun s => ih (get s) (hp.2 (get s))⟩

end Respects

/-! ### What is protected -/

/-- What locks are for: `same m l` compares what only they may change who hold the lock `l` in
the mode `m`, or for writing. -/
structure Protection (L σ : Type*) where
  same : Mode → L → σ → σ → Prop
  refl : ∀ m l s, same m l s s
  trans : ∀ m l s s' s'', same m l s s' → same m l s' s'' → same m l s s''

/-- The step is open to who holds these locks. -/
def Protection.Open {L σ : Type*} (D : Protection L σ) (held : Set (Request L)) (s s' : σ) :
    Prop :=
  ∀ m l, (m, l) ∉ held → (.write, l) ∉ held → D.same m l s s'

theorem Protection.open_refl {L σ : Type*} (D : Protection L σ) (held : Set (Request L)) (s : σ) :
    D.Open held s s := fun m l _ _ => D.refl m l s

/-! ### Threads -/

namespace Calls

variable {ι κ L σ α R : Type*} [Preorder R] {rank : L → R} {D : Protection L σ}
  {s s' : Calls ι κ L σ α}

/-- The invariant: nobody has a lock twice, and everybody will do only what is open. -/
structure Protected (D : Protection L σ) (rank : L → R) (s : Calls ι κ L σ α) : Prop where
  inOrder : InOrder rank s
  exclusive : s.config.Exclusive
  once : ∀ i l, (.read, l) ∈ s.config.held i → (.write, l) ∉ s.config.held i
  threads : ∀ i, Respects D.Open (s.config.program i) (s.config.held i) ∅

theorem protected_start [DecidableEq ι] (s₀ : σ) (k : κ) (a : α) :
    Protected D rank (start s₀ k a : Calls ι κ L σ α) where
  inOrder := inOrder_start s₀ k a
  exclusive _ _ _ _ h := absurd h (Set.notMem_empty _)
  once _ _ h := absurd h (Set.notMem_empty _)
  threads _ := rfl

variable [DecidableEq ι] {P : Policy ι L σ α} {code : κ → Prog (Request L) σ α} {i : ι} {l : L}

/-- What is called takes its locks in order, and does only what is open. -/
def Lawful (D : Protection L σ) (rank : L → R) (code : κ → Prog (Request L) σ α)
    (e : CallEvent ι κ) : Prop :=
  ∀ i k, e = .call i k →
    (code k).Ordered (fun r => rank r.2) ∅ ∅ ∧ Respects D.Open (code k) ∅ ∅

/-- What a thread does next is open to it. -/
theorem Protected.open (h : Protected D rank s) {c' : Config ι L σ α}
    (hs : Config.Step P i s.config c') : D.Open (s.config.held i) s.config.state c'.state := by
  have hi := h.threads i
  cases hs with
  | lock hp hin => exact D.open_refl _ _
  | unlock hp hmine => exact D.open_refl _ _
  | act hp =>
      rw [hp] at hi
      exact hi.1 s.config.state

/-- **Step lemma.** -/
theorem Protected.step (h : Protected D rank s) {e : CallEvent ι κ} (hs : Step P code s e s')
    (he : Lawful D rank code e) : Protected D rank s' := by
  have horder := h.inOrder.step hs fun i k hk => (he i k hk).1
  cases hs with
  | @call i k hidle =>
      refine ⟨horder, h.exclusive, h.once, fun j => ?_⟩
      show Respects D.Open (Function.update s.config.program i (code k) j) (s.config.held j) ∅
      by_cases hji : j = i
      · subst hji
        -- who has nothing to do holds nothing
        obtain ⟨a, ha⟩ := hidle
        have hheld : s.config.held j = ∅ := by
          have hj := h.threads j
          rwa [ha] at hj
        rw [Function.update_self, hheld]
        exact (he j k rfl).2
      · rw [Function.update_of_ne hji]
        exact h.threads j
  | @step i c' hs =>
      refine ⟨horder, h.exclusive.step hs, fun j l hread hwrite => ?_, fun j => ?_⟩
      · by_cases hji : j = i
        · subst hji
          have hbelow := h.inOrder.disciplined j
          cases hs with
          | @lock m l' p hp hin =>
              rw [hp] at hbelow
              -- what is asked for is above what is held
              have hnot : ∀ m', (m', l') ∉ s.config.held j := fun m' hm =>
                lt_irrefl _ (hbelow.1 (m', l') hm)
              simp only [Function.update_self] at hread hwrite
              rcases hread with hread | hread
              · obtain ⟨rfl, rfl⟩ := Prod.mk.inj hread
                rcases hwrite with hwrite | hwrite
                · cases hwrite
                · exact hnot _ hwrite
              · rcases hwrite with hwrite | hwrite
                · obtain ⟨rfl, rfl⟩ := Prod.mk.inj hwrite
                  exact hnot _ hread
                · exact h.once j l hread hwrite
          | @unlock r p hp hmine =>
              simp only [Function.update_self] at hread hwrite
              exact h.once j l hread.1 hwrite.1
          | act hp => exact h.once j l hread hwrite
        · rw [hs.held_of_ne hji] at hread hwrite
          exact h.once j l hread hwrite
      · show Respects D.Open (c'.program j) (c'.held j) ∅
        by_cases hji : j = i
        · subst hji
          have hj := h.threads j
          have hbelow := h.inOrder.disciplined j
          cases hs with
          | @lock m l p hp hin =>
              rw [hp] at hj hbelow
              simp only [Function.update_self]
              exact hj fun hm => lt_irrefl _ (hbelow.1 (m, l) hm)
          | @unlock r p hp hmine =>
              rw [hp] at hj
              simp only [Function.update_self]
              exact hj
          | @act f p hp =>
              rw [hp] at hj
              simp only [Function.update_self]
              exact hj.2 s.config.state
        · rw [hs.program_of_ne hji, hs.held_of_ne hji]
          exact h.threads j

/-- A step of whoever it may be, where one thread is reading. -/
theorem Protected.same_of_read (h : Protected D rank s) {e : CallEvent ι κ}
    (hs : Step P code s e s') (hi : (.read, l) ∈ s.config.held i) :
    D.same .write l s.config.state s'.config.state := by
  cases hs with
  | call k hidle => exact D.refl .write l _
  | @step j c' hs =>
      have hj : (.write, l) ∉ s.config.held j := by
        intro hj
        obtain rfl := h.exclusive j i .read l hj hi
        exact h.once j l hi hj
      exact h.open hs .write l hj hj

/-- A step of another thread, where one is writing. -/
theorem Protected.same_of_write (h : Protected D rank s) {e : CallEvent ι κ}
    (hs : Step P code s e s') (hi : (.write, l) ∈ s.config.held i) (he : e ≠ .step i) (m : Mode) :
    D.same m l s.config.state s'.config.state := by
  cases hs with
  | call k hidle => exact D.refl m l _
  | @step j c' hs =>
      have hj : ∀ m, (m, l) ∉ s.config.held j := by
        intro m hj
        obtain rfl := h.exclusive i j m l hi hj
        exact he rfl
      exact h.open hs m l (hj m) (hj .write)

section Runs

variable {tr : List (Taken (Calls ι κ L σ α) (CallEvent ι κ))}

/-- What every step leaves as it is stays as it is, if the locks that this takes are held. -/
theorem Protected.run {m : Mode} {C : Taken (Calls ι κ L σ α) (CallEvent ι κ) → Prop}
    (h : Protected D rank s) (hrun : Run (Step P code) s tr s')
    (hlawful : ∀ x ∈ tr, Lawful D rank code x.label) (hC : ∀ x ∈ tr, C x)
    (hstep : ∀ t e u, Protected D rank t → Step P code t e u → C ⟨t, e, u⟩ →
      D.same m l t.config.state u.config.state) :
    D.same m l s.config.state s'.config.state := by
  have hinv := hrun.invariant_of
    (I := fun t => Protected D rank t ∧ D.same m l s.config.state t.config.state)
    (C := fun x => Lawful D rank code x.label ∧ C x) ⟨h, D.refl m l _⟩
    (fun t e u ht hs hx => ⟨ht.1.step hs hx.1, D.trans m l _ _ _ ht.2 (hstep t e u ht.1 hs hx.2)⟩)
    fun x hx => ⟨hlawful x hx, hC x hx⟩
  exact hinv.2

/-- **While a thread reads**, nobody changes what only writers change. -/
theorem kept_reading (h : Protected D rank s) (hrun : Run (Step P code) s tr s')
    (hlawful : ∀ x ∈ tr, Lawful D rank code x.label)
    (hheld : ∀ x ∈ tr, (.read, l) ∈ x.source.config.held i) :
    D.same .write l s.config.state s'.config.state :=
  h.run hrun hlawful hheld fun _ _ _ ht hs hx => ht.same_of_read hs hx

/-- **While a thread writes**, nobody else changes anything the lock protects. -/
theorem kept_writing (h : Protected D rank s) (hrun : Run (Step P code) s tr s')
    (hlawful : ∀ x ∈ tr, Lawful D rank code x.label)
    (hheld : ∀ x ∈ tr, (.write, l) ∈ x.source.config.held i ∧ x.label ≠ .step i) (m : Mode) :
    D.same m l s.config.state s'.config.state :=
  h.run hrun hlawful hheld fun _ _ _ ht hs hx => ht.same_of_write hs hx.1 hx.2 m

end Runs

end Calls

end SharedLocks
