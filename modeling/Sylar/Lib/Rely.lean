/-
Sylar/Lib/Rely.lean

Reasoning about threads one at a time.

A `Contract` says what the threads of a system promise each other: what holds at
all times, what every step does and does not do, what part of the state a lock
protects, and what holds of that part whenever nobody writes under the lock.
What a thread knows has to be stable: the other threads only take steps that are
within the contract, and leave alone what the locks in its hands protect.

`Meets` says of one program that it keeps to the contract, and what is known when
it ends; it is shown with one rule for each way of building programs.  Then,

    Calls.sound  however the threads are scheduled, what is known at the end of a
                 call is true from then on, and a lock that nobody writes under has its
                 invariant

A program that changes nothing a lock protects need not be looked at closely
(`Calm.meets`).
-/
import Sylar.Lib.Sections

namespace SharedLocks

open Locks Locks.Prog Transition

/-! ### Contracts -/

/-- What the threads promise each other. -/
structure Contract (L σ : Type*) where
  /-- What holds in every state. -/
  always : σ → Prop
  /-- What a step may do. -/
  guar : σ → σ → Prop
  /-- The states agree on what the lock protects. -/
  same : L → σ → σ → Prop
  /-- What holds of it while nobody writes. -/
  inv : L → σ → Prop
  guar_refl : ∀ s, guar s s
  same_refl : ∀ l s, same l s s
  inv_stable : ∀ l s s', always s → always s' → guar s s' → same l s s' → inv l s → inv l s'

/-- Everything the program does to the state is in `R`. -/
def Within {L σ α : Type*} (R : σ → σ → Prop) : Prog L σ α → Prop
  | .done _ => True
  | .lock _ p => Within R p
  | .unlock _ p => Within R p
  | .act f p => (∀ s, R s (f s)) ∧ ∀ s, Within R (p s)

section Within

variable {L σ : Type*} {R : σ → σ → Prop}

theorem Within.mono {α : Type*} {R' : σ → σ → Prop} {p : Prog L σ α} (h : Within R p)
    (hR : ∀ s s', R s s' → R' s s') : Within R' p := by
  induction p with
  | done a => trivial
  | lock l p ih => exact ih h
  | unlock l p ih => exact ih h
  | act f p ih => exact ⟨fun s => hR _ _ (h.1 s), fun s => ih s (h.2 s)⟩

theorem Within.pure {α : Type _} (a : α) : Within R (Pure.pure a : Prog L σ α) := trivial

theorem Within.read (hR : ∀ s, R s s) : Within R (Prog.read : Prog L σ σ) :=
  ⟨hR, fun _ => trivial⟩

theorem Within.modify {f : σ → σ} (hf : ∀ s, R s (f s)) :
    Within R (Prog.modify f : Prog L σ Unit) := ⟨hf, fun _ => trivial⟩

theorem Within.act {α : Type _} {f : σ → σ} {p : σ → Prog L σ α} (hf : ∀ s, R s (f s))
    (hp : ∀ s, Within R (p s)) : Within R (Prog.act f p) := ⟨hf, hp⟩

theorem Within.bind {α β : Type _} {p : Prog L σ α} {k : α → Prog L σ β} (hp : Within R p)
    (hk : ∀ a, Within R (k a)) : Within R (p >>= k) := by
  induction p with
  | done a => exact hk a
  | lock l p ih => exact ih hp
  | unlock l p ih => exact ih hp
  | act f p ih => exact ⟨hp.1, fun s => ih s (hp.2 s)⟩

theorem Within.scopedLock {α : Type _} {l : L} {p : Prog L σ α} (hp : Within R p) :
    Within R (Prog.scopedLock l p) := Within.bind hp fun _ => trivial

end Within

namespace Contract

variable {L σ α β : Type*} (C : Contract L σ)

/-- Nothing that others do while the locks `held` are in one's hands makes `K` false. -/
def Stable (held : Set (Request L)) (K : σ → Prop) : Prop :=
  ∀ s s', C.always s → C.always s' → C.guar s s' → (∀ m l, (m, l) ∈ held → C.same l s s') →
    K s → K s'

/-- A step that is open to a thread with the locks `held`. -/
structure Allows (held : Set (Request L)) (s s' : σ) : Prop where
  always : C.always s'
  guar : C.guar s s'
  same : ∀ l, (.write, l) ∉ held → C.same l s s'

/-- Who holds `held` and asks for this waits for himself. -/
def Stuck (held : Set (Request L)) (r : Request L) : Prop :=
  (.write, r.2) ∈ held ∨ r.1 = .write ∧ (.read, r.2) ∈ held

/-- With the locks `held` and knowing `K`, the program keeps to the contract; at its end it has
the locks `left`, and `Q` is known. -/
def Meets : Prog (Request L) σ α → Set (Request L) → (σ → Prop) → Set (Request L) →
    (α → σ → Prop) → Prop
  | .done a, held, K, left, Q => held = left ∧ ∀ s, C.always s → K s → Q a s
  | .lock r p, held, K, left, Q =>
      ¬ Stuck held r → ∃ K', C.Stable (insert r held) K' ∧
        (∀ s, C.always s → K s → C.inv r.2 s → K' s) ∧ Meets p (insert r held) K' left Q
  | .unlock r p, held, K, left, Q =>
      (r.1 = .write → ∀ s, C.always s → K s → C.inv r.2 s) ∧
        ∃ K', C.Stable (held \ {r}) K' ∧ (∀ s, C.always s → K s → K' s) ∧
          Meets p (held \ {r}) K' left Q
  | .act f p, held, K, left, Q => ∀ s, C.always s → K s →
      C.Allows held s (f s) ∧ ∃ K', C.Stable held K' ∧ K' (f s) ∧ Meets (p s) held K' left Q

variable {C} {held left mid : Set (Request L)} {K K' : σ → Prop} {l : L}

/-! ### What is stable -/

theorem stable_true : C.Stable held fun _ => True := fun _ _ _ _ _ _ _ => trivial

theorem Stable.and (h : C.Stable held K) (h' : C.Stable held K') :
    C.Stable held fun s => K s ∧ K' s :=
  fun s s' hs hs' hg hsame hK => ⟨h s s' hs hs' hg hsame hK.1, h' s s' hs hs' hg hsame hK.2⟩

theorem Stable.mono {held' : Set (Request L)} (h : C.Stable held K) (hsub : held ⊆ held') :
    C.Stable held' K :=
  fun s s' hs hs' hg hsame => h s s' hs hs' hg fun m l hl => hsame m l (hsub hl)

theorem stable_forall {γ : Sort*} {K : γ → σ → Prop} (h : ∀ x, C.Stable held (K x)) :
    C.Stable held fun s => ∀ x, K x s :=
  fun s s' hs hs' hg hsame hK x => h x s s' hs hs' hg hsame (hK x)

/-- What a lock protects is in order as long as one holds it and leaves it alone. -/
theorem stable_inv {m : Mode} (h : (m, l) ∈ held) : C.Stable held (C.inv l) :=
  fun s s' hs hs' hg hsame => C.inv_stable l s s' hs hs' hg (hsame m l h)

theorem allows_refl {s : σ} (h : C.always s) : C.Allows held s s :=
  ⟨h, C.guar_refl s, fun l _ => C.same_refl l s⟩

theorem Allows.mono {held' : Set (Request L)} {s s' : σ} (h : C.Allows held s s')
    (hsub : held ⊆ held') : C.Allows held' s s' :=
  ⟨h.always, h.guar, fun l hl => h.same l fun hmem => hl (hsub hmem)⟩

/-! ### Rules -/

variable {p : Prog (Request L) σ α} {Q Q' : α → σ → Prop}

theorem Meets.of_imp (h : C.Meets p held K' left Q) (hK : ∀ s, C.always s → K s → K' s) :
    C.Meets p held K left Q := by
  cases p with
  | done a => exact ⟨h.1, fun s hs hs' => h.2 s hs (hK s hs hs')⟩
  | lock r p =>
      intro hfree
      obtain ⟨K'', hstable, himp, hp⟩ := h hfree
      exact ⟨K'', hstable, fun s hs hs' => himp s hs (hK s hs hs'), hp⟩
  | unlock r p =>
      obtain ⟨hinv, K'', hstable, himp, hp⟩ := h
      exact ⟨fun hr s hs hs' => hinv hr s hs (hK s hs hs'), K'', hstable,
        fun s hs hs' => himp s hs (hK s hs hs'), hp⟩
  | act f p => exact fun s hs hs' => h s hs (hK s hs hs')

theorem Meets.imp (h : C.Meets p held K left Q) (hQ : ∀ a s, C.always s → Q a s → Q' a s) :
    C.Meets p held K left Q' := by
  induction p generalizing held K with
  | done a => exact ⟨h.1, fun s hs hK => hQ a s hs (h.2 s hs hK)⟩
  | lock r p ih =>
      intro hfree
      obtain ⟨K', hstable, himp, hp⟩ := h hfree
      exact ⟨K', hstable, himp, ih hp⟩
  | unlock r p ih =>
      obtain ⟨hinv, K', hstable, himp, hp⟩ := h
      exact ⟨hinv, K', hstable, himp, ih hp⟩
  | act f p ih =>
      intro s hs hK
      obtain ⟨hallow, K', hstable, hstate, hp⟩ := h s hs hK
      exact ⟨hallow, K', hstable, hstate, ih s hp⟩

/-- What is known may depend on something that only the proof knows. -/
theorem Meets.of_exists {γ : Sort*} [Nonempty γ] {K : γ → σ → Prop}
    (h : ∀ x, C.Meets p held (K x) left Q) : C.Meets p held (fun s => ∃ x, K x s) left Q := by
  have hstable : ∀ {held : Set (Request L)} {K' : γ → σ → Prop}, (∀ x, C.Stable held (K' x)) →
      C.Stable held fun s => ∃ x, K' x s := fun hK' s s' hs hs' hg hsame hex => by
    obtain ⟨x, hx⟩ := hex
    exact ⟨x, hK' x s s' hs hs' hg hsame hx⟩
  induction p generalizing held K with
  | done a => exact ⟨(h (Classical.arbitrary γ)).1, fun s hs ⟨x, hx⟩ => (h x).2 s hs hx⟩
  | lock r p ih =>
      intro hfree
      choose K' hK' himp hp using fun x => h x hfree
      exact ⟨_, hstable hK', fun s hs ⟨x, hx⟩ hi => ⟨x, himp x s hs hx hi⟩, ih hp⟩
  | unlock r p ih =>
      have hinv := fun x => (h x).1
      choose K' hK' himp hp using fun x => (h x).2
      exact ⟨fun hr s hs ⟨x, hx⟩ => hinv x hr s hs hx, _, hstable hK',
        fun s hs ⟨x, hx⟩ => ⟨x, himp x s hs hx⟩, ih hp⟩
  | act f p ih => exact fun s hs ⟨x, hx⟩ => h x s hs hx

theorem Meets.pure {a : α} (h : ∀ s, C.always s → K s → Q a s) :
    C.Meets (Pure.pure a : Prog (Request L) σ α) held K held Q := ⟨rfl, h⟩

theorem Meets.of_stuck {r : Request L} (h : Stuck held r) :
    C.Meets (.lock r p) held K left Q := fun hfree => absurd h hfree

theorem Meets.bind {α β : Type _} {p : Prog (Request L) σ α} {k : α → Prog (Request L) σ β}
    {R : α → σ → Prop} {Q : β → σ → Prop} (hp : C.Meets p held K mid R)
    (hk : ∀ a, C.Meets (k a) mid (R a) left Q) : C.Meets (p >>= k) held K left Q := by
  induction p generalizing held K with
  | done a =>
      obtain ⟨rfl, himp⟩ := hp
      exact (hk a).of_imp himp
  | lock r p ih =>
      intro hfree
      obtain ⟨K', hstable, himp, hp⟩ := hp hfree
      exact ⟨K', hstable, himp, ih hp⟩
  | unlock r p ih =>
      obtain ⟨hinv, K', hstable, himp, hp⟩ := hp
      exact ⟨hinv, K', hstable, himp, ih hp⟩
  | act f p ih =>
      intro s hs hs'
      obtain ⟨hallow, K', hstable, hstate, hp⟩ := hp s hs hs'
      exact ⟨hallow, K', hstable, hstate, ih s hp⟩

theorem Meets.read {R : σ → σ → Prop} (hstable : ∀ s, C.Stable held (R s))
    (h : ∀ s, C.always s → K s → R s s) :
    C.Meets (Prog.read : Prog (Request L) σ σ) held K held R :=
  fun s hs hs' => ⟨allows_refl hs, R s, hstable s, h s hs hs', rfl, fun _ _ h => h⟩

/-- What has been read may be used to say what is known. -/
theorem Meets.read_bind {α : Type _} {k : σ → Prog (Request L) σ α} {Q : α → σ → Prop}
    (h : ∀ s, C.always s → K s → ∃ K', C.Stable held K' ∧ K' s ∧ C.Meets (k s) held K' left Q) :
    C.Meets (Prog.read >>= k) held K left Q := fun s hs hK => ⟨allows_refl hs, h s hs hK⟩

theorem Meets.modify {f : σ → σ} {R : Unit → σ → Prop} (hstable : C.Stable held (R ()))
    (h : ∀ s, C.always s → K s → C.Allows held s (f s) ∧ R () (f s)) :
    C.Meets (Prog.modify f : Prog (Request L) σ Unit) held K held R :=
  fun s hs hs' => ⟨(h s hs hs').1, R (), hstable, (h s hs hs').2, rfl, fun _ _ h => h⟩

/-- A section under a lock begins with the invariant, and if it is for writing it has to end with
it. -/
theorem Meets.scopedLock {r : Request L} {R : α → σ → Prop} (hr : r ∉ held)
    (hK : C.Stable held K)
    (hp : C.Meets p (insert r held) (fun s => K s ∧ C.inv r.2 s) (insert r held) R)
    (hinv : r.1 = .write → ∀ a s, R a s → C.inv r.2 s) (hQ : ∀ a s, R a s → Q a s)
    (hstable : ∀ a, C.Stable held (Q a)) : C.Meets (Prog.scopedLock r p) held K held Q := by
  have hsdiff : insert r held \ {r} = held := by
    rw [Set.insert_sdiff_self_of_notMem hr]
  refine fun _ => ⟨fun s => K s ∧ C.inv r.2 s,
    (hK.mono (Set.subset_insert r held)).and (stable_inv (Set.mem_insert r held)),
    fun s _ hs hi => ⟨hs, hi⟩, ?_⟩
  refine Meets.bind hp fun a => ⟨fun hwrite s _ => hinv hwrite a s, Q a, ?_,
    fun s _ => hQ a s, hsdiff, fun s _ h => h⟩
  rw [hsdiff]
  exact hstable a

/-- A loop: what is known grows with what has been visited. -/
theorem Meets.forM {γ : Type _} {f : γ → Prog (Request L) σ Unit} {I : List γ → σ → Prop}
    {xs : List γ} (h : ∀ done x rest, xs = done ++ x :: rest →
      C.Meets (f x) held (I done) held fun _ => I (done ++ [x])) :
    C.Meets (xs.forM f) held (I []) held fun _ => I xs := by
  suffices hfrom : ∀ done rest, xs = done ++ rest →
      C.Meets (rest.forM f) held (I done) held fun _ => I xs from hfrom [] xs rfl
  intro done rest
  induction rest generalizing done with
  | nil =>
      rintro rfl
      exact .pure fun s _ hs => (List.append_nil done).symm ▸ hs
  | cons x rest ih =>
      intro hxs
      refine (h done x rest hxs).bind fun _ => ih (done ++ [x]) ?_
      rw [hxs, List.append_assoc]
      rfl

theorem Meets.map {α β : Type _} {p : Prog (Request L) σ α} {f : α → β} {R : α → σ → Prop}
    {Q : β → σ → Prop} (hp : C.Meets p held K left R)
    (hQ : ∀ a s, C.always s → R a s → Q (f a) s) : C.Meets (f <$> p) held K left Q :=
  hp.bind fun a => .pure fun s hs hR => hQ a s hs hR

/-- What nobody can make false stays known. -/
theorem Meets.frame {F : σ → Prop} (hF : C.Stable ∅ F) (h : C.Meets p held K left Q) :
    C.Meets p held (fun s => K s ∧ F s) left fun a s => Q a s ∧ F s := by
  induction p generalizing held K with
  | done a => exact ⟨h.1, fun s hs hK => ⟨h.2 s hs hK.1, hK.2⟩⟩
  | lock r p ih =>
      intro hfree
      obtain ⟨K', hstable, himp, hp⟩ := h hfree
      exact ⟨_, hstable.and (hF.mono (Set.empty_subset _)),
        fun s hs hK hi => ⟨himp s hs hK.1 hi, hK.2⟩, ih hp⟩
  | unlock r p ih =>
      obtain ⟨hinv, K', hstable, himp, hp⟩ := h
      exact ⟨fun hr s hs hK => hinv hr s hs hK.1, _, hstable.and (hF.mono (Set.empty_subset _)),
        fun s hs hK => ⟨himp s hs hK.1, hK.2⟩, ih hp⟩
  | act f p ih =>
      intro s hs hK
      obtain ⟨hallow, K', hstable, hstate, hp⟩ := h s hs hK.1
      refine ⟨hallow, _, hstable.and (hF.mono (Set.empty_subset _)), ⟨hstate, ?_⟩, ih s hp⟩
      exact hF _ _ hs hallow.always hallow.guar (fun _ _ hl => absurd hl (Set.notMem_empty _)) hK.2

/-! ### Programs that leave alone what the locks protect -/

/-- Knowing `K`, everything the program does is open to everybody. -/
def Calm (C : Contract L σ) (K : σ → Prop) : Prog (Request L) σ α → Prop
  | .done _ => True
  | .lock _ p => Calm C K p
  | .unlock _ p => Calm C K p
  | .act f p => (∀ s, C.always s → K s → C.Allows ∅ s (f s)) ∧ ∀ s, Calm C K (p s)

/-- The locks it takes must be given back in order, and that is all. -/
theorem Calm.meets {R : Type*} [Preorder R] {rank : L → R} (hK : C.Stable ∅ K)
    (h : Calm C K p) (ho : p.Ordered (fun r => rank r.2) held left) :
    C.Meets p held (fun s => K s ∧ ∀ l, (.write, l) ∈ held → C.inv l s) left fun _ _ => True := by
  have hstable : ∀ held : Set (Request L),
      C.Stable held fun s => K s ∧ ∀ l, (.write, l) ∈ held → C.inv l s :=
    fun held => (hK.mono (Set.empty_subset held)).and <| stable_forall fun l => by
      by_cases hl : (.write, l) ∈ held
      · exact fun s s' hs hs' hg hsame hi _ => stable_inv hl s s' hs hs' hg hsame (hi hl)
      · exact fun _ _ _ _ _ _ _ hl' => absurd hl' hl
  induction p generalizing held with
  | done a => exact ⟨ho, fun _ _ _ => trivial⟩
  | lock r p ih =>
      refine fun _ => ⟨_, hstable (insert r held), fun s _ hs hi => ⟨hs.1, fun l hl => ?_⟩, ih h ho.2⟩
      rcases hl with rfl | hl
      · exact hi
      · exact hs.2 l hl
  | unlock r p ih =>
      exact ⟨fun hr s _ hs => hs.2 r.2 (hr ▸ ho.1), _, hstable (held \ {r}),
        fun s _ hs => ⟨hs.1, fun l hl => hs.2 l hl.1⟩, ih h ho.2⟩
  | act f p ih =>
      rintro s hs ⟨hKs, hinv⟩
      have hfree := h.1 s hs hKs
      have hallow := hfree.mono (Set.empty_subset held)
      refine ⟨hallow, _, hstable held, ⟨?_, fun l hl => ?_⟩, ih s (h.2 s) (ho s)⟩
      · exact hK _ _ hs hallow.always hallow.guar (fun _ _ hl => absurd hl (Set.notMem_empty _)) hKs
      · exact C.inv_stable l s (f s) hs hallow.always hallow.guar
          (hfree.same l (Set.notMem_empty _)) (hinv l hl)

/-- A component, as part of a system. -/
theorem calm_embed {L' S : Type*} {C : Contract L' S} {K : S → Prop} {name : L → L'}
    {get : S → σ} {put : σ → S → S} {R : σ → σ → Prop} {p : Prog L σ α} (h : Within R p)
    (hR : ∀ s x, C.always s → K s → R (get s) x → C.Allows ∅ s (put x s)) :
    Calm C K (embed name get put p) := by
  induction p with
  | done a => trivial
  | lock l p ih => exact ih h
  | unlock l p ih => exact ih h
  | act f p ih => exact ⟨fun s hs hK => hR s _ hs hK (h.1 _), fun s => ih _ (h.2 _)⟩

end Contract

/-! ### Threads -/

namespace Calls

variable {ι κ L σ α : Type*} {C : Contract L σ} {Q : κ → α → σ → Prop} {s s' : Calls ι κ L σ α}

/-- The invariant: every thread knows something that is true, and will keep to the contract. -/
structure Sound (C : Contract L σ) (Q : κ → α → σ → Prop) (s : Calls ι κ L σ α) : Prop where
  exclusive : s.config.Exclusive
  always : C.always s.config.state
  inv : ∀ l, (∀ i, (.write, l) ∉ s.config.held i) → C.inv l s.config.state
  threads : ∀ i, s.config.Idle i ∧ s.config.held i = ∅ ∨
    ∃ K, C.Stable (s.config.held i) K ∧ K s.config.state ∧
      C.Meets (s.config.program i) (s.config.held i) K ∅ (Q (s.call i))
  history : ∀ e ∈ s.history, Q e.1 e.2 s.config.state

theorem sound_start {s₀ : σ} (halways : C.always s₀) (hinv : ∀ l, C.inv l s₀) (k : κ) (a : α) :
    Sound C Q (start s₀ k a : Calls ι κ L σ α) where
  exclusive _ _ _ _ h := absurd h (Set.notMem_empty _)
  always := halways
  inv l _ := hinv l
  threads _ := Or.inl ⟨⟨a, rfl⟩, rfl⟩
  history _ h := absurd h List.not_mem_nil

variable [DecidableEq ι] {P : Policy ι L σ α} {code : κ → Prog (Request L) σ α} {i : ι}
  {c' : Config ι L σ α}

/-- A step that is open to thread `i` is no surprise to the others. -/
theorem Sound.next (h : Sound C Q s) (hQ : ∀ k a, C.Stable ∅ (Q k a))
    (hs : Config.Step P i s.config c')
    (hallow : C.Allows (s.config.held i) s.config.state c'.state)
    (hinv : ∀ l, (∀ j, (.write, l) ∉ c'.held j) → C.inv l c'.state) {K : σ → Prop}
    (hK : C.Stable (c'.held i) K) (hstate : K c'.state)
    (hmeets : C.Meets (c'.program i) (c'.held i) K ∅ (Q (s.call i))) :
    Sound C Q ⟨c', s.call, s.history ++ returned (s.call i) (c'.program i)⟩ := by
  refine ⟨h.exclusive.step hs, hallow.always, hinv, fun j => ?_, fun e he => ?_⟩
  · by_cases hji : j = i
    · subst hji
      exact Or.inr ⟨K, hK, hstate, hmeets⟩
    · show c'.Idle j ∧ c'.held j = ∅ ∨ _
      rw [hs.held_of_ne hji]
      rcases h.threads j with ⟨hidle, hheld⟩ | ⟨K', hK', hstate', hmeets'⟩
      · exact Or.inl ⟨hs.idle hidle, hheld⟩
      · refine Or.inr ⟨K', hK', ?_, (hs.program_of_ne hji).symm ▸ hmeets'⟩
        -- what a lock of `j` protects is not for `i` to change
        refine hK' _ _ h.always hallow.always hallow.guar (fun m l hl => hallow.same l ?_) hstate'
        exact fun hw => hji (h.exclusive i j m l hw hl).symm
  · rcases List.mem_append.mp he with he | he
    · exact hQ e.1 e.2 _ _ h.always hallow.always hallow.guar
        (fun _ _ hl => absurd hl (Set.notMem_empty _)) (h.history e he)
    · cases hprog : c'.program i with
      | done a =>
          rw [hprog] at he hmeets
          obtain rfl := List.mem_singleton.mp he
          exact hmeets.2 _ hallow.always hstate
      | _ =>
          rw [hprog] at he
          cases he

/-- **Step lemma**: a call begins with something known, and threads keep to their programs. -/
theorem Sound.step (h : Sound C Q s) (hQ : ∀ k a, C.Stable ∅ (Q k a)) {e : CallEvent ι κ}
    (hs : Step P code s e s')
    (he : ∀ i k, e = .call i k → ∃ K, C.Stable ∅ K ∧ K s.config.state ∧
      C.Meets (code k) ∅ K ∅ (Q k)) : Sound C Q s' := by
  cases hs with
  | @call i k hidle =>
      obtain ⟨K, hK, hstate, hmeets⟩ := he i k rfl
      refine ⟨h.exclusive, h.always, h.inv, fun j => ?_, h.history⟩
      show (∃ a, Function.update s.config.program i (code k) j = .done a) ∧ s.config.held j = ∅ ∨
        ∃ K, C.Stable (s.config.held j) K ∧ K s.config.state ∧
          C.Meets (Function.update s.config.program i (code k) j) (s.config.held j) K ∅
            (Q (Function.update s.call i k j))
      by_cases hji : j = i
      · subst hji
        -- who has nothing to do holds nothing
        have hheld : s.config.held j = ∅ := by
          rcases h.threads j with ⟨_, hheld⟩ | ⟨K', _, _, hmeets'⟩
          · exact hheld
          · obtain ⟨a, ha⟩ := hidle
            rw [ha] at hmeets'
            exact hmeets'.1
        rw [Function.update_self, Function.update_self, hheld]
        exact Or.inr ⟨K, hK, hstate, hmeets⟩
      · rw [Function.update_of_ne hji, Function.update_of_ne hji]
        exact h.threads j
  | @step i c' hs =>
      rcases h.threads i with ⟨hidle, _⟩ | ⟨K, hK, hstate, hmeets⟩
      · exact absurd hidle hs.not_idle
      cases hprog : s.config.program i with
      | done a => exact absurd ⟨a, hprog⟩ hs.not_idle
      | lock r p =>
          rw [hprog] at hmeets
          obtain ⟨hin, hsame, hheld, hprog'⟩ := hs.of_lock hprog
          have hopen := P.free _ _ _ hin
          obtain ⟨K', hK', himp, hp⟩ := hmeets fun hstuck =>
            hstuck.elim (hopen i).1 fun hread => (hopen i).2 hread.1 hread.2
          have hfree := h.inv r.2 fun j => (hopen j).1
          have hallow : C.Allows (s.config.held i) s.config.state c'.state := by
            rw [hsame]
            exact Contract.allows_refl h.always
          refine h.next hQ hs hallow (fun l hl => ?_) (hheld ▸ hK')
            (hsame ▸ himp _ h.always hstate hfree) (by rw [hprog', hheld]; exact hp)
          rw [hsame]
          refine h.inv l fun j hj => hl j ?_
          by_cases hji : j = i
          · subst hji
            exact hheld ▸ Set.mem_insert_of_mem _ hj
          · rwa [hs.held_of_ne hji]
      | unlock r p =>
          rw [hprog] at hmeets
          obtain ⟨hsame, hheld, hprog'⟩ := hs.of_unlock hprog
          obtain ⟨hwrite, K', hK', himp, hp⟩ := hmeets
          have hallow : C.Allows (s.config.held i) s.config.state c'.state := by
            rw [hsame]
            exact Contract.allows_refl h.always
          refine h.next hQ hs hallow (fun l hl => ?_) (hheld ▸ hK')
            (hsame ▸ himp _ h.always hstate) (by rw [hprog', hheld]; exact hp)
          rw [hsame]
          -- either it is this lock that is given back, or nobody wrote under it before
          by_cases hr : r = (.write, l)
          · subst hr
            exact hwrite rfl _ h.always hstate
          · refine h.inv l fun j hj => hl j ?_
            by_cases hji : j = i
            · subst hji
              exact hheld ▸ ⟨hj, fun heq => hr heq.symm⟩
            · rwa [hs.held_of_ne hji]
      | act f p =>
          rw [hprog] at hmeets
          obtain ⟨hact, hheld, hprog'⟩ := hs.of_act hprog
          obtain ⟨hallow, K', hK', hstate', hp⟩ := hmeets _ h.always hstate
          rw [← hact] at hallow hstate'
          refine h.next hQ hs hallow (fun l hl => ?_) (hheld ▸ hK') hstate'
            (by rw [hprog', hheld]; exact hp)
          have hfree : ∀ j, (.write, l) ∉ s.config.held j := by
            intro j hj
            refine hl j ?_
            by_cases hji : j = i
            · subst hji
              rwa [hheld]
            · rwa [hs.held_of_ne hji]
          exact C.inv_stable l _ _ h.always hallow.always hallow.guar (hallow.same l (hfree i))
            (h.inv l hfree)

/-- **What is known is true**: if every call meets the contract, then however the threads
are scheduled, what is known at the end of a call holds from then on, and so do the
invariants of the locks under which nobody is writing. -/
theorem sound {s₀ : σ} {k : κ} {a : α}
    {tr : List (Taken (Calls ι κ L σ α) (CallEvent ι κ))}
    (hrun : Run (Step P code) (start s₀ k a) tr s) (halways : C.always s₀)
    (hinv : ∀ l, C.inv l s₀) (hQ : ∀ k a, C.Stable ∅ (Q k a))
    (hcalls : ∀ x ∈ tr, ∀ i k, x.label = .call i k → ∃ K, C.Stable ∅ K ∧
      K x.source.config.state ∧ C.Meets (code k) ∅ K ∅ (Q k)) : Sound C Q s :=
  hrun.invariant_of (I := Sound C Q)
    (C := fun x => ∀ i k, x.label = .call i k → ∃ K, C.Stable ∅ K ∧ K x.source.config.state ∧
      C.Meets (code k) ∅ K ∅ (Q k))
    (sound_start halways hinv k a) (fun _ _ _ h hs hc => h.step hQ hs hc) hcalls

end Calls

end SharedLocks
