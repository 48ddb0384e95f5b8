/-
Sylar/Lib/SharedLocks.lean

Threads that take readers–writer locks.

The programs are those of Sylar.Lib.Locks; what they ask for is a lock together
with a mode.  A lock that only excludes is one that is only ever asked for in
the mode `write`.

Who gets a lock that several threads ask for is left open: a `Policy` may let a
reader in before a writer who has been waiting, or after.  Under the order on the
locks

    Disciplined.completes  however the threads are scheduled, and whatever the
                           policy, all of them finish

and at all times

    Exclusive              who holds a lock for writing holds it alone
-/
import Sylar.Lib.Locks

namespace SharedLocks

open Locks Locks.Prog

/-- How a lock is asked for. -/
inductive Mode
  | read
  | write
  deriving DecidableEq

/-- A lock, in a mode. -/
abbrev Request (L : Type*) := Mode × L

/-! ### A component inside a system -/

section Embed

variable {L L' S σ α β : Type*}

/-- A program of a component all of whose locks exclude, as one of the system it is part of:
`name` tells which lock of the system a lock is, `get` and `put` where the state is. -/
def embed (name : L → L') (get : S → σ) (put : σ → S → S) : Prog L σ α → Prog (Request L') S α
  | .done a => .done a
  | .lock l p => .lock (.write, name l) (embed name get put p)
  | .unlock l p => .unlock (.write, name l) (embed name get put p)
  | .act f p => .act (fun s => put (f (get s)) s) fun s => embed name get put (p (get s))

variable {name : L → L'} {get : S → σ} {put : σ → S → S}

/-- It computes what it computes on its own, and the rest of the system stays. -/
theorem eval_embed (hget : ∀ x s, get (put x s) = x) (hput : ∀ s, put (get s) s = s)
    (hputput : ∀ x y s, put x (put y s) = put x s) (p : Prog L σ α) (s : S) :
    (embed name get put p).eval s = ((p.eval (get s)).1, put (p.eval (get s)).2 s) := by
  induction p generalizing s with
  | done a => exact Prod.ext rfl (hput s).symm
  | lock l p ih => exact ih s
  | unlock l p ih => exact ih s
  | act f p ih =>
      show (embed name get put (p (get s))).eval (put (f (get s)) s) = _
      rw [ih, hget, hputput]
      rfl

variable {R R' : Type*} [Preorder R] [Preorder R'] {rank : L → R} {rank' : L' → R'}

/-- The locks `base` of the system, and those of the component in `held`. -/
def lockSet (name : L → L') (base : Set (Request L')) (held : Set L) : Set (Request L') :=
  base ∪ (fun l => (.write, name l)) '' held

theorem lockSet_empty (base : Set (Request L')) : lockSet name base ∅ = base := by
  rw [lockSet, Set.image_empty, Set.union_empty]

/-- **Order**: if the component's locks are ordered among each other, and stand above all
that the system holds around it, the system is in order. -/
theorem ordered_embed (hname : ∀ l l', rank l < rank l' → rank' (name l) < rank' (name l'))
    (hinj : Function.Injective name) {base : Set (Request L')}
    (hbase : ∀ r ∈ base, ∀ l, rank' r.2 < rank' (name l)) {p : Prog L σ α} {held left : Set L}
    (hp : p.Ordered rank held left) :
    (embed name get put p).Ordered (fun r => rank' r.2) (lockSet name base held)
      (lockSet name base left) := by
  induction p generalizing held with
  | done a =>
      obtain rfl : held = left := hp
      rfl
  | lock l p ih =>
      refine ⟨?_, ?_⟩
      · rintro r (hr | ⟨l', hl', rfl⟩)
        · exact hbase r hr l
        · exact hname l' l (hp.1 l' hl')
      · have hinsert : insert (.write, name l) (lockSet name base held) =
            lockSet name base (insert l held) := by
          rw [lockSet, lockSet, Set.image_insert_eq, Set.union_insert]
        rw [hinsert]
        exact ih hp.2
  | unlock l p ih =>
      refine ⟨Or.inr ⟨l, hp.1, rfl⟩, ?_⟩
      have hsdiff : lockSet name base held \ {(.write, name l)} =
          lockSet name base (held \ {l}) := by
        -- what the system holds is below the lock that is given back
        have hnot : (.write, name l) ∉ base := fun h => lt_irrefl _ (hbase _ h l)
        have hpair : Function.Injective fun l => ((.write, name l) : Request L') :=
          fun l l' h => hinj (Prod.mk.inj h).2
        rw [lockSet, lockSet, Set.union_sdiff_distrib, Set.sdiff_singleton_eq_self hnot,
          Set.image_sdiff hpair, Set.image_singleton]
      rw [hsdiff]
      exact ih hp.2
  | act f p ih => exact fun s => ih (get s) (hp (get s))

end Embed

/-! ### Threads -/

/-- The shared state, what each thread holds, and what it has still to do. -/
structure Config (ι L σ α : Type*) where
  state : σ
  held : ι → Set (Request L)
  program : ι → Prog (Request L) σ α

namespace Config

variable {ι L σ α : Type*}

/-- The thread has nothing to do. -/
def Idle (c : Config ι L σ α) (i : ι) : Prop := ∃ a, c.program i = .done a

/-- Nobody stands against the lock being taken. -/
def Free (c : Config ι L σ α) (m : Mode) (l : L) : Prop :=
  ∀ j, (.write, l) ∉ c.held j ∧ (m = .write → (.read, l) ∉ c.held j)

/-- Somebody waits for the lock in order to write. -/
def WriterWaits (c : Config ι L σ α) (l : L) : Prop := ∃ i p, c.program i = .lock (.write, l) p

/-- Who holds a lock for writing holds it alone. -/
def Exclusive (c : Config ι L σ α) : Prop :=
  ∀ i j m l, (.write, l) ∈ c.held i → (m, l) ∈ c.held j → i = j

end Config

/-- Who is let in.  A lock that is free is given to a writer, and to a reader unless a writer
waits; in that case it is open. -/
structure Policy (ι L σ α : Type*) where
  admits : Config ι L σ α → Mode → L → Prop
  free : ∀ c m l, admits c m l → c.Free m l
  writer : ∀ c l, c.Free .write l → admits c .write l
  reader : ∀ c l, c.Free .read l → ¬ c.WriterWaits l → admits c .read l

/-- A lock that is free is given to whoever asks. -/
def Policy.preferReaders (ι L σ α : Type*) : Policy ι L σ α :=
  ⟨Config.Free, fun _ _ _ h => h, fun _ _ h => h, fun _ _ h _ => h⟩

namespace Config

variable {ι L σ α : Type*} [DecidableEq ι]

/-- Thread `i` does its next thing. -/
inductive Step (P : Policy ι L σ α) (i : ι) : Config ι L σ α → Config ι L σ α → Prop
  | lock {c : Config ι L σ α} {m : Mode} {l : L} {p : Prog (Request L) σ α}
      (hp : c.program i = .lock (m, l) p) (hin : P.admits c m l) :
      Step P i c ⟨c.state, Function.update c.held i (insert (m, l) (c.held i)),
        Function.update c.program i p⟩
  | unlock {c : Config ι L σ α} {r : Request L} {p : Prog (Request L) σ α}
      (hp : c.program i = .unlock r p) (hmine : r ∈ c.held i) :
      Step P i c ⟨c.state, Function.update c.held i (c.held i \ {r}),
        Function.update c.program i p⟩
  | act {c : Config ι L σ α} {f : σ → σ} {p : σ → Prog (Request L) σ α}
      (hp : c.program i = .act f p) :
      Step P i c ⟨f c.state, c.held, Function.update c.program i (p c.state)⟩

/-- **All threads finish**, however they are scheduled. -/
inductive Completes (P : Policy ι L σ α) : Config ι L σ α → Prop
  | intro {c : Config ι L σ α} (hnext : ∀ i c', Step P i c c' → Completes P c')
      (hend : (∀ i c', ¬ Step P i c c') → ∀ i, c.Idle i) : Completes P c

variable {P : Policy ι L σ α} {c c' : Config ι L σ α} {i : ι}

/-! What a thread does next is what its program says. -/

theorem Step.of_lock {m : Mode} {l : L} {p : Prog (Request L) σ α} (hs : Step P i c c')
    (hp : c.program i = .lock (m, l) p) :
    P.admits c m l ∧ c'.state = c.state ∧ c'.held i = insert (m, l) (c.held i) ∧
      c'.program i = p := by
  cases hs with
  | lock hp' hin =>
      obtain ⟨hr, rfl⟩ := Prog.lock.inj (hp'.symm.trans hp)
      obtain ⟨rfl, rfl⟩ := Prod.mk.inj hr
      exact ⟨hin, rfl, Function.update_self .., Function.update_self ..⟩
  | unlock hp' hmine => cases hp'.symm.trans hp
  | act hp' => cases hp'.symm.trans hp

theorem Step.of_unlock {r : Request L} {p : Prog (Request L) σ α} (hs : Step P i c c')
    (hp : c.program i = .unlock r p) :
    c'.state = c.state ∧ c'.held i = c.held i \ {r} ∧ c'.program i = p := by
  cases hs with
  | lock hp' hin => cases hp'.symm.trans hp
  | unlock hp' hmine =>
      obtain ⟨rfl, rfl⟩ := Prog.unlock.inj (hp'.symm.trans hp)
      exact ⟨rfl, Function.update_self .., Function.update_self ..⟩
  | act hp' => cases hp'.symm.trans hp

theorem Step.of_act {f : σ → σ} {p : σ → Prog (Request L) σ α} (hs : Step P i c c')
    (hp : c.program i = .act f p) :
    c'.state = f c.state ∧ c'.held i = c.held i ∧ c'.program i = p c.state := by
  cases hs with
  | lock hp' hin => cases hp'.symm.trans hp
  | unlock hp' hmine => cases hp'.symm.trans hp
  | act hp' =>
      obtain ⟨rfl, rfl⟩ := Prog.act.inj (hp'.symm.trans hp)
      exact ⟨rfl, rfl, Function.update_self ..⟩

/-- What a step leaves to do. -/
theorem Step.program_eq (hs : Step P i c c') :
    ∃ p, Child p (c.program i) ∧ c'.program = Function.update c.program i p := by
  cases hs with
  | @lock m l p hp hin => exact ⟨p, hp ▸ .lock (m, l) p, rfl⟩
  | @unlock r p hp hmine => exact ⟨p, hp ▸ .unlock r p, rfl⟩
  | @act f p hp => exact ⟨p c.state, hp ▸ .act f p c.state, rfl⟩

theorem Step.not_idle (hs : Step P i c c') : ¬ c.Idle i := by
  rintro ⟨a, hi⟩
  obtain ⟨p, hchild, _⟩ := hs.program_eq
  rw [hi] at hchild
  cases hchild

/-- Other threads stand where they stood. -/
theorem Step.program_of_ne (hs : Step P i c c') {j : ι} (hji : j ≠ i) :
    c'.program j = c.program j := by
  obtain ⟨p, _, hprog⟩ := hs.program_eq
  rw [hprog, Function.update_of_ne hji]

theorem Step.held_of_ne (hs : Step P i c c') {j : ι} (hji : j ≠ i) : c'.held j = c.held j := by
  cases hs with
  | lock hp hin => exact Function.update_of_ne hji ..
  | unlock hp hmine => exact Function.update_of_ne hji ..
  | act hp => rfl

/-- Who has nothing to do stays so. -/
theorem Step.idle (hs : Step P i c c') {j : ι} (hj : c.Idle j) : c'.Idle j := by
  have hji : j ≠ i := by
    rintro rfl
    exact hs.not_idle hj
  obtain ⟨a, hj⟩ := hj
  exact ⟨a, (hs.program_of_ne hji).trans hj⟩

/-! ### Exclusion -/

/-- A lock that is free can be taken. -/
theorem Exclusive.take (h : c.Exclusive) {m : Mode} {l : L} (hfree : c.Free m l)
    {program : ι → Prog (Request L) σ α} :
    Exclusive ⟨c.state, Function.update c.held i (insert (m, l) (c.held i)), program⟩ := by
  -- what a thread holds afterwards it held before, unless it is what was taken
  have hheld : ∀ (j : ι) (m' : Mode) (l' : L),
      (m', l') ∈ Function.update c.held i (insert (m, l) (c.held i)) j →
      (m', l') ∈ c.held j ∨ (j = i ∧ m' = m ∧ l' = l) := by
    intro j m' l' hmem
    by_cases hji : j = i
    · subst hji
      rw [Function.update_self] at hmem
      rcases hmem with heq | hmem
      · exact Or.inr ⟨rfl, Prod.mk.inj heq⟩
      · exact Or.inl hmem
    · exact Or.inl (by rwa [Function.update_of_ne hji] at hmem)
  intro j k m' l' hj hk
  rcases hheld j .write l' hj with hj' | ⟨hji, rfl, rfl⟩
  · rcases hheld k m' l' hk with hk' | ⟨_, _, rfl⟩
    · exact h j k m' l' hj' hk'
    · exact absurd hj' (hfree j).1
  · rcases hheld k m' l' hk with hk' | ⟨hki, _, _⟩
    · cases m' with
      | read => exact absurd hk' ((hfree k).2 rfl)
      | write => exact absurd hk' (hfree k).1
    · exact hji.trans hki.symm

/-- **Step lemma.** -/
theorem Exclusive.step (h : c.Exclusive) (hs : Step P i c c') : c'.Exclusive := by
  cases hs with
  | lock hp hin => exact h.take (P.free _ _ _ hin)
  | @unlock r p hp hmine =>
      -- nobody holds more than before
      have hheld : ∀ (j : ι) (r' : Request L),
          r' ∈ Function.update c.held i (c.held i \ {r}) j → r' ∈ c.held j := by
        intro j r' hmem
        by_cases hji : j = i
        · subst hji
          rw [Function.update_self] at hmem
          exact hmem.1
        · rwa [Function.update_of_ne hji] at hmem
      exact fun j k m l hj hk => h j k m l (hheld j _ hj) (hheld k _ hk)
  | act hp => exact h

/-! ### The discipline -/

section Disciplined

variable {R : Type*} [Preorder R] {rank : L → R}

/-- Every thread takes the locks it will still take in order, and gives all of them back. -/
def Disciplined (rank : L → R) (c : Config ι L σ α) : Prop :=
  ∀ i, (c.program i).Ordered (fun r => rank r.2) (c.held i) ∅

theorem Disciplined.step (h : Disciplined rank c) (hs : Step P i c c') : Disciplined rank c' := by
  intro j
  have hj := h j
  by_cases hji : j = i
  · subst hji
    cases hs with
    | @lock m l p hp hin =>
        rw [hp] at hj
        simpa only [Function.update_self] using hj.2
    | @unlock r p hp hmine =>
        rw [hp] at hj
        simpa only [Function.update_self] using hj.2
    | @act f p hp =>
        rw [hp] at hj
        simpa only [Function.update_self] using hj c.state
  · rw [hs.program_of_ne hji, hs.held_of_ne hji]
    exact hj

/-- A thread that holds a lock will go on, or wait for a higher one. -/
theorem Disciplined.holder (h : Disciplined rank c) {r : Request L} (hr : r ∈ c.held i) :
    (∃ c', Step P i c c') ∨
      ∃ (m : Mode) (l : L) (p : Prog (Request L) σ α),
        c.program i = .lock (m, l) p ∧ rank r.2 < rank l := by
  have hi := h i
  cases hprog : c.program i with
  | done a =>
      rw [hprog] at hi
      exact absurd hr (hi ▸ Set.notMem_empty r)
  | lock r' q =>
      rw [hprog] at hi
      exact Or.inr ⟨r'.1, r'.2, q, rfl, hi.1 r hr⟩
  | unlock r' q =>
      rw [hprog] at hi
      exact Or.inl ⟨_, .unlock hprog hi.1⟩
  | act f q => exact Or.inl ⟨_, .act hprog⟩

/-- Some thread can go on as long as one has something left to do. -/
theorem Disciplined.progress [WellFoundedGT R] (P : Policy ι L σ α) (h : Disciplined rank c)
    (hi : ¬ c.Idle i) : ∃ j c', Step P j c c' := by
  -- a thread that wants the lock `l`: by induction on the rank of `l`, from above
  have hwait : ∀ r : R, ∀ (m : Mode) (l : L) (i : ι) (p : Prog (Request L) σ α), rank l = r →
      c.program i = .lock (m, l) p → ∃ j c', Step P j c c' := by
    intro r
    induction r using WellFoundedGT.induction with
    | ind r ih =>
        intro m l i p hr hp
        by_cases hheld : ∃ j m', (m', l) ∈ c.held j
        · obtain ⟨j, m', hj⟩ := hheld
          rcases h.holder (P := P) hj with ⟨c', hs⟩ | ⟨m'', l', q, hq, hlt⟩
          · exact ⟨j, c', hs⟩
          · exact ih _ (hr ▸ hlt) m'' l' j q rfl hq
        · have hfree : ∀ m', c.Free m' l := fun m' j =>
            ⟨fun hj => hheld ⟨j, _, hj⟩, fun _ hj => hheld ⟨j, _, hj⟩⟩
          cases m with
          | write => exact ⟨i, _, .lock hp (P.writer c l (hfree _))⟩
          | read =>
              by_cases hw : c.WriterWaits l
              · -- the reader may have to wait, but the writer need not
                obtain ⟨j, q, hq⟩ := hw
                exact ⟨j, _, .lock hq (P.writer c l (hfree _))⟩
              · exact ⟨i, _, .lock hp (P.reader c l (hfree _) hw)⟩
  have hci := h i
  cases hprog : c.program i with
  | done a => exact absurd ⟨a, hprog⟩ hi
  | lock r p => exact hwait _ r.1 r.2 i p rfl hprog
  | unlock r p =>
      rw [hprog] at hci
      exact ⟨i, _, .unlock hprog hci.1⟩
  | act f p => exact ⟨i, _, .act hprog⟩

/-- One of several programs is replaced by a part of it. -/
theorem cutExpand_update {program : ι → Prog (Request L) σ α} {p : Prog (Request L) σ α}
    {s : Finset ι} (hi : i ∈ s) (hchild : Child p (program i)) :
    Relation.CutExpand Child (s.val.map (Function.update program i p)) (s.val.map program) := by
  -- the other programs stay
  have hothers : (s.erase i).val.map (Function.update program i p) =
      (s.erase i).val.map program := by
    apply Multiset.map_congr rfl
    intro j hj
    rw [Function.update_of_ne (Finset.ne_of_mem_erase hj)]
  have hsplit : ∀ f : ι → Prog (Request L) σ α,
      s.val.map f = {f i} + (s.erase i).val.map f := by
    intro f
    rw [← Multiset.cons_erase (Finset.mem_val.mpr hi), Multiset.map_cons,
      Multiset.singleton_add, Finset.erase_val]
  rw [hsplit program, hsplit (Function.update program i p), hothers, Function.update_self]
  exact Relation.cutExpand_single_add hchild _

/-- **All threads finish under the discipline**, if finitely many have something to do. -/
theorem Disciplined.completes [WellFoundedGT R] (P : Policy ι L σ α) (h : Disciplined rank c)
    (hfin : {i | ¬ c.Idle i}.Finite) : c.Completes P := by
  -- the threads that have something to do now are all that ever will
  have hbusy : ∀ i, ¬ c.Idle i → i ∈ hfin.toFinset := fun i hi => hfin.mem_toFinset.mpr hi
  generalize hfin.toFinset = s at hbusy
  generalize hm : s.val.map c.program = m
  clear hfin
  induction m using child_wf.cutExpand.induction generalizing c with
  | _ m ih =>
      subst hm
      refine ⟨fun i c' hs => ?_, fun hstuck i => ?_⟩
      · obtain ⟨p, hchild, hprog⟩ := hs.program_eq
        refine ih _ ?_ (h.step hs) (fun j hj => hbusy j fun hidle => hj (hs.idle hidle)) rfl
        rw [hprog]
        exact cutExpand_update (hbusy i hs.not_idle) hchild
      · by_contra hi
        obtain ⟨j, c', hs⟩ := h.progress P hi
        exact hstuck j c' hs

end Disciplined

end Config

end SharedLocks
