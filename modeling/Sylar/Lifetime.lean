/-
Sylar/Lifetime.lean

How long a thread needs its object (threads.cpp).

The new thread uses the object it was started with: `run` does, up to the
`notify` the constructor waits for, and every later `SetName` does, through
`t_thread`.  Nobody sees to it that the object is still there: it can be
destroyed once the constructor has returned, and an interrupted constructor
takes it away at once.  All accesses are to objects that are there exactly if no
object ends while a thread still needs it (`accesses_alive_iff`).
-/
import Sylar.Threads

namespace Sylar

open Transition

/-! ### Accesses and needs -/

/-- There is a `SetName` with a name among the operations. -/
def Renames (ops : List CallbackOp) : Prop := ∃ name, name ≠ "" ∧ .setName name ∈ ops

theorem renames_cons {op : CallbackOp} {ops : List CallbackOp} :
    Renames (op :: ops) ↔ (∃ name, name ≠ "" ∧ op = .setName name) ∨ Renames ops := by
  simp only [Renames, List.mem_cons, and_or_left, exists_or, eq_comm]

theorem Renames.cons {ops : List CallbackOp} (h : Renames ops) (op : CallbackOp) :
    Renames (op :: ops) :=
  renames_cons.mpr (Or.inr h)

section Needs

variable {ι : Type}

/-- The object the next statement reads or writes. -/
def Pc.accesses (thread t_thread : Option ι) : Pc → Option ι
  | copyName => thread
  | storeId => thread
  | setOsName => thread
  | swap => thread
  | notify _ => thread
  | callback (.setName name :: _) => if name = "" then none else t_thread
  | _ => none

/-- The object will be read or written: `notify` is still to be called, or there is a
`SetName` with a name ahead. -/
def Pc.Needs (thread t_thread : Option ι) (i : ι) : Pc → Prop
  | enter => thread = some i
  | copyName => thread = some i
  | storeId => thread = some i
  | setOsName => thread = some i
  | swap => thread = some i
  | notify _ => thread = some i
  | call (some ops) => t_thread = some i ∧ Renames ops
  | callback rest => t_thread = some i ∧ Renames rest
  | rename _ rest => t_thread = some i ∧ Renames rest
  | _ => False

def ThreadLocal.accesses (l : ThreadLocal ι) : Option ι := l.pc.accesses l.thread l.t_thread

def ThreadLocal.Needs (l : ThreadLocal ι) (i : ι) : Prop := l.pc.Needs l.thread l.t_thread i

theorem ThreadLocal.Needs.thread_eq {l : ThreadLocal ι} {i : ι} (h : l.Needs i) (hown : l.Own) :
    l.thread = some i := by
  obtain ⟨thread, t_thread, name, pc⟩ := l
  match pc with
  | .enter => exact h
  | .copyName => exact h
  | .storeId => exact h
  | .setOsName => exact h
  | .swap => exact h
  | .notify _ => exact h
  | .call (some ops) => exact hown i h.1
  | .callback rest => exact hown i h.1
  | .rename _ rest => exact hown i h.1

theorem ThreadLocal.needs_of_accesses {l : ThreadLocal ι} {i : ι} (h : l.accesses = some i) :
    l.Needs i := by
  obtain ⟨thread, t_thread, name, pc⟩ := l
  match pc with
  | .copyName => exact h
  | .storeId => exact h
  | .setOsName => exact h
  | .swap => exact h
  | .notify _ => exact h
  | .callback (.setName name :: rest) =>
      replace h : (if name = "" then none else t_thread) = some i := h
      split_ifs at h with hname
      exact ⟨h, name, hname, List.mem_cons_self⟩

end Needs

namespace Threads

variable {ι τ : Type} [DecidableEq ι] [DecidableEq τ]
  {s s' : Threads ι τ} {t u : τ} {i : ι} {e : ThreadEvent ι τ} {threadID : τ → Int}

/-- The object can be used. -/
def Alive (s : Threads ι τ) (i : ι) : Prop := s.creation i ≠ .absent ∧ s.creation i ≠ .gone

/-- **Step lemma**: what a thread needs it needed before. -/
theorem Next.needs (h : Next threadID t s e s') (hown : (s.threads t).Own)
    (hneeds : (s'.threads t).Needs i) : (s.threads t).Needs i := by
  rw [ThreadLocal.Needs]
  cases h with
  | enter hpc | copyName hpc | rename hpc =>
      rw [setLocal_self] at hneeds
      rw [hpc]
      exact hneeds
  | storeId hpc | setOsName hpc | swap hpc | call hpc =>
      rw [goto_self] at hneeds
      rw [hpc]
      exact hneeds
  | @notify j callback hpc hi =>
      rw [goto_self] at hneeds
      rw [hpc]
      cases callback with
      | none => exact hneeds.elim
      | some ops => exact hown i hneeds.1
  | getThis hpc | getName hpc | setNameEmpty hpc | setName hpc | setNameAlone hpc =>
      -- what is needed for the rest is needed for all
      rw [goto_self] at hneeds
      rw [hpc]
      exact ⟨hneeds.1, hneeds.2.cons _⟩
  | finish hpc =>
      rw [goto_self] at hneeds
      exact hneeds.elim

/-- What a thread needs it uses now or needs afterwards. -/
theorem Next.needs_kept (h : Next threadID t s e s') (hneeds : (s.threads t).Needs i) :
    (s.threads t).accesses = some i ∨ (s'.threads t).Needs i := by
  rw [ThreadLocal.Needs] at hneeds
  rw [ThreadLocal.accesses]
  cases h with
  | enter hpc | rename hpc =>
      rw [hpc] at hneeds
      rw [setLocal_self]
      exact Or.inr hneeds
  | copyName hpc | storeId hpc | setOsName hpc | swap hpc | notify hpc =>
      rw [hpc] at hneeds ⊢
      exact Or.inl hneeds
  | call hpc =>
      rw [hpc] at hneeds
      rw [goto_self]
      exact Or.inr hneeds
  | getThis hpc | getName hpc =>
      rw [hpc] at hneeds
      rw [goto_self]
      refine Or.inr ⟨hneeds.1, (renames_cons.mp hneeds.2).resolve_left ?_⟩
      rintro ⟨name, _, hop⟩
      cases hop
  | setNameEmpty hpc =>
      rw [hpc] at hneeds
      rw [goto_self]
      refine Or.inr ⟨hneeds.1, (renames_cons.mp hneeds.2).resolve_left ?_⟩
      rintro ⟨name, hname, hop⟩
      cases hop
      exact hname rfl
  | setName hpc hname =>
      rw [hpc] at hneeds ⊢
      exact Or.inl ((if_neg hname).trans hneeds.1)
  | setNameAlone hpc _ hnull =>
      rw [hpc] at hneeds
      cases hnull.symm.trans hneeds.1
  | finish hpc =>
      rw [hpc] at hneeds
      obtain ⟨_, name, _, hmem⟩ := hneeds
      cases hmem

/-! ### Runs without accesses to what is gone -/

/-- The step is not an access to an object that is gone. -/
def Safe (x : Taken (Threads ι τ) (ThreadEvent ι τ)) : Prop :=
  ∀ t i, x.label.actor = some t → (x.source.threads t).accesses = some i → x.source.Alive i

/-- The step ends no object that a thread needs. -/
def Timely (x : Taken (Threads ι τ) (ThreadEvent ι τ)) : Prop :=
  ∀ i, x.label.ends = some i → ∀ t, ¬ (x.source.threads t).Needs i

/-- The objects that threads need can be used. -/
structure Tended (s : Threads ι τ) : Prop where
  sound : Sound s
  alive : ∀ t i, (s.threads t).Needs i → s.Alive i

omit [DecidableEq ι] [DecidableEq τ] in
theorem tended_start : Tended (start : Threads ι τ) := ⟨sound_start, fun _ _ h => h.elim⟩

/-- **Step lemma.** -/
theorem Tended.step (h : Tended s) (hs : Step threadID s e s') (htimely : Timely ⟨s, e, s'⟩) :
    Tended s' := by
  refine ⟨h.sound.step hs, fun t i hneeds => ?_⟩
  have hset : ∀ {j c}, c ≠ .absent → (c = .gone → i ≠ j) → (s.threads t).Needs i →
      (s.setCreation j c).Alive i := by
    intro j c habsent hgone hneeds
    obtain ⟨ha, hg⟩ := h.alive t i hneeds
    refine ⟨s.creation_ne habsent ha, ?_⟩
    by_cases hc : c = .gone
    · show Function.update s.creation j c i ≠ _
      rw [Function.update_of_ne (hgone hc)]
      exact hg
    · exact s.creation_ne hc hg
  cases hs with
  | construct => exact hset (by decide) (fun hc => by cases hc) hneeds
  | @create j u =>
      by_cases htu : t = u
      · subst htu
        rw [setLocal_self] at hneeds
        obtain rfl : j = i := Option.some.inj hneeds
        show Function.update s.creation j _ j ≠ _ ∧ Function.update s.creation j _ j ≠ _
        rw [Function.update_self]
        decide
      · rw [setLocal_of_ne _ _ htu] at hneeds
        exact hset (by decide) (fun hc => by cases hc) hneeds
  | createFails hinit =>
      refine hset (by decide) (fun _ e => ?_) hneeds
      exact h.sound.initialised t i (hneeds.thread_eq (h.sound.own t)) (e ▸ hinit)
  | wait => exact hset (by decide) (fun hc => by cases hc) hneeds
  | waitFails => exact hset (by decide) (fun _ e => htimely _ rfl t (e ▸ hneeds)) hneeds
  | join => exact h.alive t i hneeds
  | destroy => exact hset (by decide) (fun _ e => htimely _ rfl t (e ▸ hneeds)) hneeds
  | @thread u _ _ hnext =>
      obtain ⟨hcreation, hframe, _⟩ := hnext.frame
      have hbefore : (s.threads t).Needs i := by
        by_cases htu : t = u
        · subst htu
          exact hnext.needs (h.sound.own t) hneeds
        · rwa [hframe t htu] at hneeds
      show s'.creation i ≠ _ ∧ s'.creation i ≠ _
      rw [hcreation]
      exact h.alive t i hbefore

omit [DecidableEq ι] [DecidableEq τ] in
/-- In such a state a step is safe. -/
theorem Tended.safe (h : Tended s) : Safe ⟨s, e, s'⟩ :=
  fun t i _ haccess => h.alive t i (ThreadLocal.needs_of_accesses haccess)

/-- The object is gone and the thread still needs it. -/
def Doomed (s : Threads ι τ) (t : τ) (i : ι) : Prop :=
  s.creation i = .gone ∧ (s.threads t).Needs i

omit [DecidableEq ι] [DecidableEq τ] in
theorem Doomed.not_safe (h : Doomed s t i) (hactor : e.actor = some t)
    (haccess : (s.threads t).accesses = some i) : ¬ Safe ⟨s, e, s'⟩ :=
  fun hsafe => (hsafe t i hactor haccess).2 h.1

/-- **Step lemma**: there is no way back but by an access. -/
theorem Doomed.step (h : Doomed s t i) (hs : Step threadID s e s') :
    ¬ Safe ⟨s, e, s'⟩ ∨ Doomed s' t i := by
  have hset : ∀ {j c}, s.creation j ≠ .gone → Doomed (s.setCreation j c) t i := by
    intro j c hj
    refine ⟨?_, h.2⟩
    have hne : i ≠ j := fun e => hj (e ▸ h.1)
    exact (Function.update_of_ne hne _ _).trans h.1
  cases hs with
  | construct hj => exact Or.inr (hset (by rw [hj]; decide))
  | @create j u hj hu =>
      have hne : t ≠ u := by
        rintro rfl
        have hneeds := h.2
        rw [ThreadLocal.Needs, hu] at hneeds
        exact hneeds
      refine Or.inr ⟨(hset (by rw [hj]; decide)).1, ?_⟩
      rw [setLocal_of_ne _ _ hne]
      exact h.2
  | createFails hj => exact Or.inr (hset (by rw [hj]; decide))
  | wait hj => exact Or.inr (hset (by rw [hj]; decide))
  | waitFails hj => exact Or.inr (hset (by rw [hj]; decide))
  | join => exact Or.inr h
  | destroy hj => exact Or.inr (hset (by rw [hj]; decide))
  | @thread u _ _ hnext =>
      obtain ⟨hcreation, hframe, hactor, _⟩ := hnext.frame
      by_cases htu : t = u
      · subst htu
        rcases hnext.needs_kept h.2 with haccess | hneeds
        · exact Or.inl (h.not_safe hactor haccess)
        · exact Or.inr ⟨hcreation ▸ h.1, hneeds⟩
      · refine Or.inr ⟨hcreation ▸ h.1, ?_⟩
        rw [hframe t htu]
        exact h.2

/-- The threads can go on to an access to what is gone, without another object ending. -/
def Faulty (threadID : τ → Int) (s : Threads ι τ) : Prop :=
  ∃ tr s', Run (Step threadID) s tr s' ∧ (∀ x ∈ tr, x.label.ends = none) ∧ ∃ x ∈ tr, ¬ Safe x

theorem Faulty.of_next (hnext : Next threadID t s e s') (h : Faulty threadID s') :
    Faulty threadID s := by
  obtain ⟨tr, s'', hrun, hends, x, hx, hsafe⟩ := h
  refine ⟨_, s'', .cons (.thread hnext) hrun, List.forall_mem_cons.mpr ⟨hnext.frame.2.2.2, hends⟩,
    x, List.mem_cons_of_mem _ hx, hsafe⟩

theorem Doomed.faulty_of_access (h : Doomed s t i) (hnext : Next threadID t s e s')
    (haccess : (s.threads t).accesses = some i) : Faulty threadID s := by
  obtain ⟨_, _, hactor, hends⟩ := hnext.frame
  exact ⟨_, s', .cons (.thread hnext) .nil, List.forall_mem_singleton.mpr hends, _,
    List.mem_singleton_self _, h.not_safe hactor haccess⟩

/-- In a callback, by induction on what is left of it. -/
theorem Doomed.faulty_callback {rest : List CallbackOp} (h : Doomed s t i)
    (hpc : (s.threads t).pc = .callback rest) : Faulty threadID s := by
  induction rest generalizing s with
  | nil =>
      have hneeds := h.2
      rw [ThreadLocal.Needs, hpc] at hneeds
      obtain ⟨_, name, _, hmem⟩ := hneeds
      cases hmem
  | cons op rest ih =>
      -- a step that does not use the object leaves the shorter rest
      have hstep : ∀ {e}, Next threadID t s e (s.goto t (.callback rest)) →
          Faulty threadID s := by
        intro e hnext
        rcases hnext.needs_kept h.2 with haccess | hneeds
        · exact h.faulty_of_access hnext haccess
        · exact .of_next hnext (ih ⟨h.1, hneeds⟩ (by rw [goto_self]))
      cases op with
      | getThis => exact hstep (.getThis hpc)
      | getName => exact hstep (.getName hpc)
      | setName name =>
          by_cases hname : name = ""
          · subst hname
            exact hstep (.setNameEmpty hpc)
          · have hneeds := h.2
            rw [ThreadLocal.Needs, hpc] at hneeds
            refine h.faulty_of_access (.setName hpc hname hneeds.1) ?_
            rw [ThreadLocal.accesses, hpc]
            exact (if_neg hname).trans hneeds.1

/-- **A thread that needs an object gets to it.** -/
theorem Doomed.faulty (h : Doomed s t i) (hown : (s.threads t).Own) : Faulty threadID s := by
  have hneeds := h.2
  have hthread := hneeds.thread_eq hown
  rw [ThreadLocal.Needs] at hneeds
  have haccess : ∀ {e s'}, Next threadID t s e s' → (s.threads t).pc.accesses
      (s.threads t).thread (s.threads t).t_thread = (s.threads t).thread → Faulty threadID s :=
    fun hnext hpc => h.faulty_of_access hnext (hpc.trans hthread)
  cases hpc : (s.threads t).pc with
  | unborn =>
      rw [hpc] at hneeds
      exact hneeds.elim
  | enter =>
      -- the name is copied next
      have hnext : Next threadID t s _ _ := .enter hpc
      refine .of_next hnext (Doomed.faulty_of_access (t := t) (i := i) ⟨h.1, ?_⟩
        (.copyName (by rw [setLocal_self]) (by rw [setLocal_self]; exact hthread)) ?_)
      · rw [setLocal_self]
        exact hthread
      · rw [setLocal_self]
        exact hthread
  | copyName => exact haccess (.copyName hpc hthread) (by rw [hpc]; rfl)
  | storeId => exact haccess (.storeId hpc hthread) (by rw [hpc]; rfl)
  | setOsName => exact haccess (.setOsName hpc hthread) (by rw [hpc]; rfl)
  | swap => exact haccess (.swap hpc hthread) (by rw [hpc]; rfl)
  | notify callback => exact haccess (.notify hpc hthread) (by rw [hpc]; rfl)
  | call callback =>
      rw [hpc] at hneeds
      cases callback with
      | none => exact hneeds.elim
      | some ops =>
          have hnext : Next threadID t s _ _ := .call hpc hthread
          have hdoomed : Doomed (s.goto t (.callback ops)) t i := by
            refine ⟨h.1, ?_⟩
            rw [goto_self]
            exact hneeds
          exact .of_next hnext (hdoomed.faulty_callback (by rw [goto_self]))
  | callback rest => exact h.faulty_callback hpc
  | rename name rest =>
      rw [hpc] at hneeds
      have hnext : Next threadID t s _ _ := .rename hpc
      have hdoomed : Doomed (s.setLocal t { s.threads t with
          t_thread_name := name, pc := .callback rest }) t i := by
        refine ⟨h.1, ?_⟩
        rw [setLocal_self]
        exact hneeds
      exact .of_next hnext (hdoomed.faulty_callback (by rw [setLocal_self]))
  | finished =>
      rw [hpc] at hneeds
      exact hneeds.elim

/-- A run that ends an object too early has accessed it since, or will. -/
theorem unsafe_or_doomed {tr : List (Taken (Threads ι τ) (ThreadEvent ι τ))}
    (hrun : Run (Step threadID) start tr s) (h : ∃ x ∈ tr, ¬ Timely x) :
    (∃ x ∈ tr, ¬ Safe x) ∨ ∃ t i, Doomed s t i := by
  induction hrun with
  | nil =>
      obtain ⟨x, hx, _⟩ := h
      cases hx
  | @snoc tr v e w _ hs ih =>
      obtain ⟨x, hx, htimely⟩ := h
      rcases List.mem_append.mp hx with hx | hx
      · rcases ih ⟨x, hx, htimely⟩ with ⟨y, hy, hsafe⟩ | ⟨t, i, hdoomed⟩
        · exact Or.inl ⟨y, List.mem_append_left _ hy, hsafe⟩
        · rcases hdoomed.step hs with hsafe | hdoomed
          · exact Or.inl ⟨_, List.mem_append_right _ List.mem_cons_self, hsafe⟩
          · exact Or.inr ⟨t, i, hdoomed⟩
      · -- the object ends in this step
        obtain rfl := List.mem_singleton.mp hx
        simp only [Timely, not_forall, not_not] at htimely
        obtain ⟨i, hends, t, hneeds⟩ := htimely
        refine Or.inr ⟨t, i, ?_⟩
        cases hs with
        | waitFails =>
            obtain rfl := Option.some.inj hends
            exact ⟨Function.update_self _ _ _, hneeds⟩
        | destroy =>
            obtain rfl := Option.some.inj hends
            exact ⟨Function.update_self _ _ _, hneeds⟩
        | thread hnext =>
            rw [hnext.frame.2.2.2] at hends
            cases hends
        | _ => cases hends

/-- **Objects outlive their use exactly if none ends too early.**  In a run, and in whatever
the threads do after it, every access of a new thread is to an object that can be used, if
and only if each object was destroyed, and each constructor was interrupted, at a time when
the thread had called `notify` and had no `SetName` with a name ahead of it. -/
theorem accesses_alive_iff {tr : List (Taken (Threads ι τ) (ThreadEvent ι τ))}
    (hrun : Run (Step threadID) start tr s) :
    (∀ tr' s', Run (Step threadID) s tr' s' → (∀ x ∈ tr', x.label.ends = none) →
      ∀ x ∈ tr ++ tr', Safe x) ↔ ∀ x ∈ tr, Timely x := by
  have hsound : Sound s := hrun.invariant sound_start fun _ _ _ h hs => h.step hs
  constructor
  · intro h
    by_contra htimely
    simp only [not_forall] at htimely
    obtain ⟨x, hx, htimely⟩ := htimely
    rcases unsafe_or_doomed hrun ⟨x, hx, htimely⟩ with ⟨y, hy, hsafe⟩ | ⟨t, i, hdoomed⟩
    · exact hsafe (h [] s .nil (List.forall_mem_nil _) y (List.mem_append_left _ hy))
    · have hfaulty : Faulty threadID s := hdoomed.faulty (hsound.own t)
      obtain ⟨tr', s', hrun', hends, y, hy, hsafe⟩ := hfaulty
      exact hsafe (h tr' s' hrun' hends y (List.mem_append_right _ hy))
  · intro htimely tr' s' hrun' hends x hx
    have hall : ∀ y ∈ tr ++ tr', Timely y := by
      refine List.forall_mem_append.mpr ⟨htimely, fun y hy i hi => ?_⟩
      rw [hends y hy] at hi
      cases hi
    obtain ⟨⟨tr₁, hpre, hrun₁⟩, hs⟩ := (hrun.append hrun').mem hx
    have htended : Tended x.source := hrun₁.invariant_of tended_start
      (fun _ _ _ h hs => h.step hs) fun y hy => hall y (hpre.subset hy)
    exact htended.safe

/-- An object is destroyed while its thread is in the callback, which has no `SetName`. -/
theorem accesses_alive_iff_getName :
    ∃ (tr : List (Taken (Threads Unit Unit) (ThreadEvent Unit Unit))) (s : Threads Unit Unit),
      Run (Step fun _ => 1) start tr s ∧
        tr.map Taken.label = [.construct () [.getName] "w", .create () (), .run (), .run (),
          .run (), .run (), .run (), .run (), .wait (), .destroy (), .call () () [.getName],
          .getName () "w"] ∧
        ∀ x ∈ tr, Safe x := by
  let T : Threads Unit Unit → ThreadEvent Unit Unit → Threads Unit Unit → Prop := Step fun _ => 1
  have hrun : ∃ (tr : _) (s : _), Run T start tr s ∧
      tr.map Taken.label = [.construct () [.getName] "w", .create () (), .run (), .run (),
        .run (), .run (), .run (), .run (), .wait (), .destroy (), .call () () [.getName],
        .getName () "w"] ∧ ∀ x ∈ tr, Timely x := by
    refine ⟨_, _, ((((((((((((Run.nil.snoc (.construct (i := ()) rfl [.getName] "w")).snoc
      (.create (i := ()) (t := ()) rfl rfl)).snoc
      (.thread (.enter (t := ()) rfl))).snoc
      (.thread (.copyName (t := ()) rfl rfl))).snoc
      (.thread (.storeId (t := ()) rfl rfl))).snoc
      (.thread (.setOsName (t := ()) rfl rfl))).snoc
      (.thread (.swap (t := ()) rfl rfl))).snoc
      (.thread (.notify (t := ()) rfl rfl))).snoc
      (.wait (i := ()) rfl (by decide))).snoc
      (.destroy (i := ()) rfl)).snoc
      (.thread (.call (t := ()) rfl rfl))).snoc
      (.thread (.getName (t := ()) rfl))), rfl, ?_⟩
    simp only [List.forall_mem_append, List.forall_mem_singleton, Timely, ThreadEvent.ends,
      reduceCtorEq, false_implies, implies_true, and_true]
    refine ⟨List.forall_mem_nil _, ?_⟩
    rintro i - t ⟨-, name, -, hmem⟩
    cases List.mem_singleton.mp hmem
  obtain ⟨tr, s, hrun, hlabels, htimely⟩ := hrun
  refine ⟨tr, s, hrun, hlabels, fun x hx => ?_⟩
  exact (accesses_alive_iff hrun).mpr htimely [] s .nil (List.forall_mem_nil _) x
    (List.mem_append_left _ hx)

/-- The constructor has returned, the object is destroyed, and the callback sets the name of
its thread; and the constructor is interrupted before the thread has begun. -/
theorem access_to_gone :
    (∃ (tr : List (Taken (Threads Unit Unit) (ThreadEvent Unit Unit))) (s : Threads Unit Unit),
      Run (Step fun _ => 1) start tr s ∧
        tr.map Taken.label = [.construct () [.setName "x"] "w", .create () (), .run (), .run (),
          .run (), .run (), .run (), .run (), .wait (), .destroy (), .call () () [.setName "x"],
          .run ()] ∧ ∃ x ∈ tr, ¬ Safe x) ∧
    ∃ (tr : List (Taken (Threads Unit Unit) (ThreadEvent Unit Unit))) (s : Threads Unit Unit),
      Run (Step fun _ => 1) start tr s ∧
        tr.map Taken.label = [.construct () [] "w", .create () (), .waitFails (), .run (),
          .run ()] ∧ ∃ x ∈ tr, ¬ Safe x := by
  constructor
  · refine ⟨_, _, ((((((((((((Run.nil.snoc (.construct (i := ()) rfl [.setName "x"] "w")).snoc
      (.create (i := ()) (t := ()) rfl rfl)).snoc
      (.thread (.enter (t := ()) rfl))).snoc
      (.thread (.copyName (t := ()) rfl rfl))).snoc
      (.thread (.storeId (t := ()) rfl rfl))).snoc
      (.thread (.setOsName (t := ()) rfl rfl))).snoc
      (.thread (.swap (t := ()) rfl rfl))).snoc
      (.thread (.notify (t := ()) rfl rfl))).snoc
      (.wait (i := ()) rfl (by decide))).snoc
      (.destroy (i := ()) rfl)).snoc
      (.thread (.call (t := ()) rfl rfl))).snoc
      (.thread (.setName (t := ()) rfl (by decide) rfl))), rfl, ?_⟩
    refine ⟨_, List.mem_append_right _ List.mem_cons_self, fun hsafe => ?_⟩
    exact (hsafe () () rfl rfl).2 rfl
  · refine ⟨_, _, (((((Run.nil.snoc (.construct (i := ()) rfl [] "w")).snoc
      (.create (i := ()) (t := ()) rfl rfl)).snoc
      (.waitFails (i := ()) rfl)).snoc
      (.thread (.enter (t := ()) rfl))).snoc
      (.thread (.copyName (t := ()) rfl rfl))), rfl, ?_⟩
    refine ⟨_, List.mem_append_right _ List.mem_cons_self, fun hsafe => ?_⟩
    exact (hsafe () () rfl rfl).2 rfl

end Threads

end Sylar
