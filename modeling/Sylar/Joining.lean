/-
Sylar/Joining.lean

What becomes of the handle of a thread (threads.cpp).

The object of a thread has the handle that `pthread_create` has given it.  The
handle must be given back, by `pthread_join` or by `pthread_detach`, and only
once.  `join` gives it back when the thread has finished, and the destructor if
`join` has not; a constructor that is interrupted leaves it to nobody.

`handle_released` counts, over all runs, how often each handle is given back.
An object that has been joined is one that its thread has no more use for, so
those who always join before they destroy are safe (`joined_accesses_alive`).

Each object has one owner: it is joined and destroyed by one caller after the other.  Two who are
in `join` of the same object at once both find the handle, and this is not spoken of here.
-/
import Sylar.Lifetime

namespace Sylar

open Transition

namespace Threads

variable {ι τ : Type} [DecidableEq ι] [DecidableEq τ]
  {s s' : Threads ι τ} {t u : τ} {i j : ι} {e : ThreadEvent ι τ} {threadID : τ → Int}
  {tr : List (Taken (Threads ι τ) (ThreadEvent ι τ))}

/-! ### Handles -/

/-- The thread whose handle a step gives back: `pthread_join` in `join`, and
`pthread_detach` in the destructor if there is a handle. -/
def released (x : Taken (Threads ι τ) (ThreadEvent ι τ)) : Option τ :=
  match x.label with
  | .join i => (x.source.objects i).m_thread
  | .destroy i => (x.source.objects i).m_thread
  | _ => none

/-- How often the handle of `t` is given back. -/
def releases (tr : List (Taken (Threads ι τ) (ThreadEvent ι τ))) (t : τ) : Nat :=
  tr.countP fun x => released x = some t

/-- Is it something that is done to the object, once there is a thread? -/
def treats (i : ι) : ThreadEvent ι τ → Bool
  | .join j => j = i
  | .destroy j => j = i
  | .waitFails j => j = i
  | _ => false

/-- What has been done to the object. -/
def treatment (tr : List (Taken (Threads ι τ) (ThreadEvent ι τ))) (i : ι) :
    List (ThreadEvent ι τ) :=
  (tr.map Taken.label).filter (treats i)

omit [DecidableEq ι] in
theorem releases_concat (tr : List (Taken (Threads ι τ) (ThreadEvent ι τ)))
    (x : Taken (Threads ι τ) (ThreadEvent ι τ)) (t : τ) :
    releases (tr ++ [x]) t = releases tr t + if released x = some t then 1 else 0 := by
  rw [releases, List.countP_append, List.countP_singleton]
  simp only [decide_eq_true_eq]
  rfl

omit [DecidableEq τ] in
theorem treatment_concat (tr : List (Taken (Threads ι τ) (ThreadEvent ι τ)))
    (x : Taken (Threads ι τ) (ThreadEvent ι τ)) (i : ι) :
    treatment (tr ++ [x]) i = treatment tr i ++ if treats i x.label then [x.label] else [] := by
  rw [treatment, List.map_append, List.filter_append, List.map_singleton, List.filter_cons,
    List.filter_nil]
  rfl

/-- The ways a handle can go: what has been done to the object, and how often the handle has
been given back. -/
inductive Handle (s : Threads ι τ) (t : τ) (i : ι) : List (ThreadEvent ι τ) → Nat → Prop
  | kept (hc : s.creation i = .waiting ∨ s.creation i = .returned)
      (hm : (s.objects i).m_thread = some t) : Handle s t i [] 0
  | joined (hc : s.creation i = .returned) (hm : (s.objects i).m_thread = none)
      (hpc : (s.threads t).pc = .finished) : Handle s t i [.join i] 1
  | detached (hc : s.creation i = .gone) : Handle s t i [.destroy i] 1
  | destroyed (hc : s.creation i = .gone) (hpc : (s.threads t).pc = .finished) :
      Handle s t i [.join i, .destroy i] 1
  /-- Nobody can give it back any more. -/
  | leaked (hc : s.creation i = .gone) : Handle s t i [.waitFails i] 0

omit [DecidableEq ι] [DecidableEq τ] in
/-- It depends on the object, its creator and the thread. -/
theorem Handle.congr {es : List (ThreadEvent ι τ)} {n : Nat} (h : Handle s t i es n)
    (hc : s'.creation i = s.creation i)
    (hm : (s'.objects i).m_thread = (s.objects i).m_thread)
    (hpc : (s.threads t).pc = .finished → (s'.threads t).pc = .finished) : Handle s' t i es n := by
  cases h with
  | kept hc' hm' => exact .kept (hc ▸ hc') (hm.trans hm')
  | joined hc' hm' hpc' => exact .joined (hc.trans hc') (hm.trans hm') (hpc hpc')
  | detached hc' => exact .detached (hc.trans hc')
  | destroyed hc' hpc' => exact .destroyed (hc.trans hc') (hpc hpc')
  | leaked hc' => exact .leaked (hc.trans hc')

/-- What holds in every run. -/
structure Accounted (tr : List (Taken (Threads ι τ) (ThreadEvent ι τ))) (s : Threads ι τ) :
    Prop where
  sound : Sound s
  unborn : ∀ t, (s.threads t).pc = .unborn → (s.threads t).thread = none
  started : ∀ i, s.creation i = .waiting ∨ s.creation i = .returned →
    ∃ t, (s.threads t).thread = some i
  untreated : ∀ i, (∀ t, (s.threads t).thread ≠ some i) → treatment tr i = []
  unreleased : ∀ t, (s.threads t).thread = none → releases tr t = 0
  handle : ∀ t i, (s.threads t).thread = some i → Handle s t i (treatment tr i) (releases tr t)

theorem accounted_start : Accounted [] (start : Threads ι τ) where
  sound := sound_start
  unborn _ _ := rfl
  started i h := by rcases h with h | h <;> cases h
  untreated _ _ := rfl
  unreleased _ _ := rfl
  handle t i h := by cases h

/-! ### Steps of threads -/

/-- A thread leaves the handles alone. -/
theorem Next.m_thread_eq (h : Next threadID t s e s') (i : ι) :
    (s'.objects i).m_thread = (s.objects i).m_thread := by
  have hset : ∀ (j : ι) (o : Thread τ), o.m_thread = (s.objects j).m_thread →
      (Function.update s.objects j o i).m_thread = (s.objects i).m_thread := by
    intro j o ho
    by_cases hij : i = j
    · subst hij
      rw [Function.update_self, ho]
    · rw [Function.update_of_ne hij]
  cases h with
  | storeId | swap | notify | setName => exact hset _ _ rfl
  | _ => rfl

/-- A thread that has been born does not get back there, and one that has finished does
nothing. -/
theorem Next.pc_ne (h : Next threadID t s e s') :
    (s'.threads t).pc ≠ .unborn ∧ (s.threads t).pc ≠ .finished := by
  cases h with
  | enter hpc | copyName hpc | rename hpc =>
      rw [setLocal_self, hpc]
      exact ⟨nofun, nofun⟩
  | storeId hpc | setOsName hpc | swap hpc | notify hpc | call hpc | getThis hpc | getName hpc
  | setNameEmpty hpc | setName hpc | setNameAlone hpc | finish hpc =>
      rw [goto_self, hpc]
      exact ⟨nofun, nofun⟩

/-- A step that treats no object and gives back no handle, and leaves the handles where they
are. -/
theorem Accounted.quiet (h : Accounted tr s) (hsound : Sound s') (hnone : ∀ i, treats i e = false)
    (hthread : ∀ t, (s'.threads t).thread = (s.threads t).thread)
    (hunborn : ∀ t, (s'.threads t).pc = .unborn → (s.threads t).pc = .unborn)
    (hhandle : ∀ t i es n, (s.threads t).thread = some i → Handle s t i es n → Handle s' t i es n)
    (hstarted : ∀ i, s'.creation i = .waiting ∨ s'.creation i = .returned →
      s.creation i = .waiting ∨ s.creation i = .returned) : Accounted (tr ++ [⟨s, e, s'⟩]) s' := by
  have htreatment : ∀ i, treatment (tr ++ [⟨s, e, s'⟩]) i = treatment tr i := by
    intro i
    rw [treatment_concat, if_neg (by simp [hnone i]), List.append_nil]
  have hreleased : released ⟨s, e, s'⟩ = none := by
    cases e with
    | join i => exact absurd (hnone i) (by simp [treats])
    | destroy i => exact absurd (hnone i) (by simp [treats])
    | _ => rfl
  have hreleases : ∀ t, releases (tr ++ [⟨s, e, s'⟩]) t = releases tr t := by
    intro t
    rw [releases_concat, hreleased, if_neg (by simp), Nat.add_zero]
  refine ⟨hsound, fun t ht => ?_, fun i hi => ?_, fun i hi => ?_, fun t ht => ?_,
    fun t i hi => ?_⟩
  · exact (hthread t).trans (h.unborn t (hunborn t ht))
  · obtain ⟨t, ht⟩ := h.started i (hstarted i hi)
    exact ⟨t, (hthread t).trans ht⟩
  · exact (htreatment i).trans (h.untreated i fun t => hthread t ▸ hi t)
  · exact (hreleases t).trans (h.unreleased t ((hthread t).symm.trans ht))
  · rw [hthread] at hi
    rw [htreatment, hreleases]
    exact hhandle t i _ _ hi (h.handle t i hi)

/-! ### Steps of creators -/

omit [DecidableEq ι] [DecidableEq τ] in
/-- The object that has a handle has it from its thread. -/
theorem Handle.m_thread_eq {es : List (ThreadEvent ι τ)} {n : Nat} (h : Handle s t i es n)
    (hc : s.creation i = .waiting ∨ s.creation i = .returned)
    (hm : (s.objects i).m_thread = some u) : t = u ∧ es = [] ∧ n = 0 := by
  have hgone : s.creation i ≠ .gone := by
    intro hgone
    rw [hgone] at hc
    rcases hc with hc | hc <;> cases hc
  cases h with
  | kept _ hm' => exact ⟨Option.some.inj (hm'.symm.trans hm), rfl, rfl⟩
  | joined _ hm' => cases hm'.symm.trans hm
  | detached hc' => exact absurd hc' hgone
  | destroyed hc' => exact absurd hc' hgone
  | leaked hc' => exact absurd hc' hgone

theorem Accounted.thread_eq (h : Accounted tr s)
    (hc : s.creation i = .waiting ∨ s.creation i = .returned)
    (hm : (s.objects i).m_thread = some t) : (s.threads t).thread = some i := by
  obtain ⟨u, hu⟩ := h.started i hc
  obtain ⟨rfl, _⟩ := (h.handle u i hu).m_thread_eq hc hm
  exact hu

/-- A step that treats the object `i` and no other, and gives back the handle of `r`. -/
theorem Accounted.treat {r : Option τ} (h : Accounted tr s) (hsound : Sound s')
    (hc : s.creation i = .waiting ∨ s.creation i = .returned)
    (htreats : ∀ j, treats j e = decide (i = j)) (hthreads : s'.threads = s.threads)
    (hother : ∀ j, j ≠ i → s'.creation j = s.creation j ∧ s'.objects j = s.objects j)
    (hr : released ⟨s, e, s'⟩ = r) (hreleased : ∀ t, r = some t → (s.objects i).m_thread = some t)
    (hhandle : ∀ t es n, Handle s t i es n →
      Handle s' t i (es ++ [e]) (n + if r = some t then 1 else 0)) :
    Accounted (tr ++ [⟨s, e, s'⟩]) s' := by
  subst hr
  have hof : ∀ t, released ⟨s, e, s'⟩ = some t → (s.threads t).thread = some i :=
    fun t ht => h.thread_eq hc (hreleased t ht)
  have htreatment : ∀ j, j ≠ i → treatment (tr ++ [⟨s, e, s'⟩]) j = treatment tr j := by
    intro j hj
    rw [treatment_concat, if_neg (by simp [htreats, Ne.symm hj]), List.append_nil]
  have hreleases : ∀ t, (s.threads t).thread ≠ some i →
      releases (tr ++ [⟨s, e, s'⟩]) t = releases tr t := by
    intro t ht
    rw [releases_concat, if_neg fun hr => ht (hof t hr), Nat.add_zero]
  refine ⟨hsound, fun t ht => ?_, fun j hj => ?_, fun j hj => ?_, fun t ht => ?_,
    fun t j hj => ?_⟩
  · rw [hthreads] at ht ⊢
    exact h.unborn t ht
  · rw [hthreads]
    by_cases hji : j = i
    · exact hji ▸ h.started i hc
    · exact h.started j ((hother j hji).1 ▸ hj)
  · rw [hthreads] at hj
    have hji : j ≠ i := by
      rintro rfl
      obtain ⟨t, ht⟩ := h.started j hc
      exact hj t ht
    exact (htreatment j hji).trans (h.untreated j hj)
  · rw [hthreads] at ht
    exact (hreleases t (by simp [ht])).trans (h.unreleased t ht)
  · rw [hthreads] at hj
    by_cases hji : j = i
    · subst hji
      rw [treatment_concat, if_pos (by simp [htreats]), releases_concat]
      exact hhandle t _ _ (h.handle t j hj)
    · rw [htreatment j hji, hreleases t (by simp [hj, hji])]
      obtain ⟨hc', ho⟩ := hother j hji
      exact (h.handle t j hj).congr hc' (by rw [ho]) fun hpc => by rwa [hthreads]

section

omit [DecidableEq τ]

theorem setCreation_of_ne (s : Threads ι τ) (c : Creation) (h : j ≠ i) :
    (s.setCreation i c).creation j = s.creation j := Function.update_of_ne h ..

theorem setObject_self (s : Threads ι τ) (o : Thread τ) : (s.setObject i o).objects i = o :=
  Function.update_self ..

theorem setObject_of_ne (s : Threads ι τ) (o : Thread τ) (h : j ≠ i) :
    (s.setObject i o).objects j = s.objects j := Function.update_of_ne h ..

/-- A creator that gets to `c` is in the constructor or has returned from it only if `c` says
so. -/
theorem started_of_setCreation {c : Creation} (hc : c ≠ .waiting ∧ c ≠ .returned)
    (h : (s.setCreation i c).creation j = .waiting ∨ (s.setCreation i c).creation j = .returned) :
    s.creation j = .waiting ∨ s.creation j = .returned := by
  by_cases hj : j = i
  · subst hj
    rw [setCreation_self] at h
    rcases h with h | h
    · exact absurd h hc.1
    · exact absurd h hc.2
  · rwa [setCreation_of_ne _ _ hj] at h

end

/-- **Step lemma.** -/
theorem Accounted.step (h : Accounted tr s) (hs : Step threadID s e s') :
    Accounted (tr ++ [⟨s, e, s'⟩]) s' := by
  have hsound := h.sound.step hs
  cases hs with
  | @construct i habsent callback name =>
      -- there is no thread yet that has this object
      have hne : ∀ j t, (s.threads t).thread = some j → j ≠ i := by
        rintro j t hj rfl
        exact h.sound.absent t j hj habsent
      exact h.quiet hsound (fun _ => rfl) (fun _ => rfl) (fun _ h => h)
        (fun t j es n hj hhandle => hhandle.congr (setCreation_of_ne _ _ (hne j t hj))
          (congrArg Thread.m_thread (setObject_of_ne s _ (hne j t hj))) fun hpc => hpc)
        fun j hj => started_of_setCreation (by decide) hj
  | @create i u hinit hu =>
      have hu' := h.unborn u hu
      have hne : ∀ j t, (s.threads t).thread = some j → j ≠ i := by
        rintro j t hj rfl
        exact h.sound.initialised t j hj hinit
      let o : Thread τ := { s.objects i with m_thread := some u }
      let s' := ((s.setObject i o).setCreation i .waiting).setLocal u ⟨some i, none, "UNKNOWN", .enter⟩
      have hself : s'.threads u = ⟨some i, none, "UNKNOWN", .enter⟩ := setLocal_self ..
      have hother : ∀ t, t ≠ u → s'.threads t = s.threads t := fun t ht => setLocal_of_ne _ _ ht
      have htreatment : ∀ j, treatment (tr ++ [⟨s, .create i u, s'⟩]) j = treatment tr j :=
        fun j => (treatment_concat ..).trans (List.append_nil _)
      have hreleases : ∀ t, releases (tr ++ [⟨s, .create i u, s'⟩]) t = releases tr t := fun t =>
        (releases_concat ..).trans (Nat.add_zero _)
      refine ⟨hsound, fun t ht => ?_, fun j hj => ?_, fun j hj => ?_, fun t ht => ?_,
        fun t j hj => ?_⟩
      · by_cases htu : t = u
        · subst htu
          rw [hself] at ht
          cases ht
        · rw [hother t htu] at ht ⊢
          exact h.unborn t ht
      · by_cases hji : j = i
        · subst hji
          exact ⟨u, congrArg ThreadLocal.thread hself⟩
        · have hold : s.creation j = .waiting ∨ s.creation j = .returned := by
            rwa [← show s'.creation j = s.creation j from setCreation_of_ne (s.setObject i o) _ hji]
          obtain ⟨t, ht⟩ := h.started j hold
          have htu : t ≠ u := by
            rintro rfl
            cases hu'.symm.trans ht
          exact ⟨t, (congrArg ThreadLocal.thread (hother t htu)).trans ht⟩
      · refine (htreatment j).trans (h.untreated j fun t ht => hj t ?_)
        have htu : t ≠ u := by
          rintro rfl
          cases hu'.symm.trans ht
        exact (congrArg ThreadLocal.thread (hother t htu)).trans ht
      · have htu : t ≠ u := by
          rintro rfl
          cases (congrArg ThreadLocal.thread hself).symm.trans ht
        exact (hreleases t).trans (h.unreleased t ((congrArg _ (hother t htu)).symm.trans ht))
      · rw [htreatment, hreleases]
        by_cases htu : t = u
        · subst htu
          obtain rfl := Option.some.inj ((congrArg ThreadLocal.thread hself).symm.trans hj)
          rw [h.untreated i fun v hv => hne i v hv rfl, h.unreleased t hu']
          exact .kept (Or.inl (setCreation_self (s.setObject i o) _))
            (congrArg Thread.m_thread (setObject_self s o))
        · have hj' : (s.threads t).thread = some j :=
            (congrArg ThreadLocal.thread (hother t htu)).symm.trans hj
          exact (h.handle t j hj').congr (setCreation_of_ne (s.setObject i o) _ (hne j t hj'))
            (congrArg Thread.m_thread (setObject_of_ne s o (hne j t hj')))
            fun hpc => (congrArg ThreadLocal.pc (hother t htu)).trans hpc
  | @createFails i hinit =>
      have hne : ∀ j t, (s.threads t).thread = some j → j ≠ i := by
        rintro j t hj rfl
        exact h.sound.initialised t j hj hinit
      exact h.quiet hsound (fun _ => rfl) (fun _ => rfl) (fun _ h => h)
        (fun t j es n hj hhandle => hhandle.congr (setCreation_of_ne _ _ (hne j t hj)) rfl
          fun hpc => hpc) fun j hj => started_of_setCreation (by decide) hj
  | @wait i hwait hsem =>
      refine h.quiet hsound (fun _ => rfl) (fun _ => rfl) (fun _ h => h)
        (fun t j es n hj hhandle => ?_) fun j hj => ?_
      · by_cases hji : j = i
        · subst hji
          cases hhandle with
          | kept _ hm =>
              refine .kept (Or.inr (setCreation_self _ _)) ?_
              exact (congrArg Thread.m_thread (setObject_self s _)).trans hm
          | joined hc => cases hwait.symm.trans hc
          | detached hc => cases hwait.symm.trans hc
          | destroyed hc => cases hwait.symm.trans hc
          | leaked hc => cases hwait.symm.trans hc
        · exact hhandle.congr (setCreation_of_ne _ _ hji)
            (congrArg Thread.m_thread (setObject_of_ne s _ hji)) fun hpc => hpc
      · by_cases hji : j = i
        · exact Or.inl (hji ▸ hwait)
        · rwa [setCreation_of_ne _ _ hji] at hj
  | @waitFails i hwait =>
      refine h.treat hsound (Or.inl hwait) (fun _ => rfl) rfl
        (fun j hj => ⟨setCreation_of_ne _ _ hj, rfl⟩) (r := none) rfl (fun t ht => by cases ht)
        fun t es n hhandle => ?_
      rw [if_neg (by simp)]
      cases hhandle with
      | kept => exact .leaked (setCreation_self _ _)
      | joined hc => cases hwait.symm.trans hc
      | detached hc => cases hwait.symm.trans hc
      | destroyed hc => cases hwait.symm.trans hc
      | leaked hc => cases hwait.symm.trans hc
  | @join i u hret hm hpc =>
      refine h.treat hsound (Or.inr hret) (fun _ => rfl) rfl
        (fun j hj => ⟨rfl, setObject_of_ne s _ hj⟩) hm (fun t ht => ht ▸ hm) fun t es n hhandle => ?_
      obtain ⟨rfl, rfl, rfl⟩ := hhandle.m_thread_eq (Or.inr hret) hm
      rw [if_pos rfl]
      exact .joined hret (congrArg Thread.m_thread (setObject_self s _)) hpc
  | @destroy i hret =>
      refine h.treat hsound (Or.inr hret) (fun _ => rfl) rfl
        (fun j hj => ⟨setCreation_of_ne _ _ hj, rfl⟩) (r := (s.objects i).m_thread) rfl
        (fun t ht => ht) fun t es n hhandle => ?_
      cases hhandle with
      | kept _ hm =>
          rw [if_pos hm]
          exact .detached (setCreation_self _ _)
      | joined _ hm hpc =>
          rw [hm, if_neg (by simp)]
          exact .destroyed (setCreation_self _ _) hpc
      | detached hc => cases hret.symm.trans hc
      | destroyed hc => cases hret.symm.trans hc
      | leaked hc => cases hret.symm.trans hc
  | @thread u _ _ hnext =>
      obtain ⟨hcreation, hframe, -⟩ := hnext.frame
      refine h.quiet hsound ?_ (hnext.thread_eq) (fun t ht => ?_)
        (fun t j es n hj hhandle => hhandle.congr (by rw [hcreation]) (hnext.m_thread_eq j)
          fun hpc => ?_) fun j hj => hcreation ▸ hj
      · intro j
        cases hnext <;> rfl
      · by_cases htu : t = u
        · subst htu
          exact absurd ht hnext.pc_ne.1
        · rwa [hframe t htu] at ht
      · by_cases htu : t = u
        · subst htu
          exact absurd hpc hnext.pc_ne.2
        · rwa [hframe t htu]

/-! ### Whole runs -/

theorem accounted (hrun : Run (Step threadID) start tr s) : Accounted tr s := by
  induction hrun with
  | nil => exact accounted_start
  | snoc _ hs ih => exact ih.step hs

/-- The object has been joined before its life ends. -/
def Joined (x : Taken (Threads ι τ) (ThreadEvent ι τ)) : Prop :=
  ∀ i, x.label.ends = some i → (x.source.objects i).m_thread = none

/-- An object is joined and destroyed; its thread has set its own name before. -/
theorem joined_run : ∃ (tr : List (Taken (Threads Unit Unit) (ThreadEvent Unit Unit)))
    (s : Threads Unit Unit), Run (Step fun _ => 1) start tr s ∧
      (s.threads ()).thread = some () ∧
      tr.map Taken.label = [.construct () [.setName "x"] "w", .create () (), .run (), .run (),
        .run (), .run (), .run (), .run (), .wait (), .call () () [.setName "x"], .run (),
        .run (), .run (), .join (), .destroy ()] ∧ ∀ x ∈ tr, Joined x := by
  refine ⟨_, _, (((((((((((((((Run.nil.snoc (.construct (i := ()) rfl [.setName "x"] "w")).snoc
    (.create (i := ()) (t := ()) rfl rfl)).snoc
    (.thread (.enter (t := ()) rfl))).snoc
    (.thread (.copyName (t := ()) rfl rfl))).snoc
    (.thread (.storeId (t := ()) rfl rfl))).snoc
    (.thread (.setOsName (t := ()) rfl rfl))).snoc
    (.thread (.swap (t := ()) rfl rfl))).snoc
    (.thread (.notify (t := ()) rfl rfl))).snoc
    (.wait (i := ()) rfl (by decide))).snoc
    (.thread (.call (t := ()) rfl rfl))).snoc
    (.thread (.setName (t := ()) rfl (by decide) rfl))).snoc
    (.thread (.rename (t := ()) rfl))).snoc
    (.thread (.finish (t := ()) rfl))).snoc
    (.join (i := ()) (t := ()) rfl rfl rfl)).snoc
    (.destroy (i := ()) rfl)), rfl, rfl, ?_⟩
  simp only [List.forall_mem_append, List.forall_mem_singleton, Joined, ThreadEvent.ends,
    reduceCtorEq, false_implies, implies_true, and_true]
  exact ⟨List.forall_mem_nil _, fun _ _ => rfl⟩

omit [DecidableEq τ] in
/-- What has been done to the object is among the labels of the run. -/
theorem mem_treatment (he : treats i e = true) : e ∈ treatment tr i ↔ e ∈ tr.map Taken.label := by
  rw [treatment, List.mem_filter, and_iff_left he]

/-- **Handles are given back once**: in every run in which the calls on an object come one after
the other, the handle of a thread is given back as soon as its object has been joined or
destroyed, not before, and not again; never, when the constructor of the object has been
interrupted; and an object is joined only when its thread has finished. -/
theorem handle_released (hrun : Run (Step threadID) start tr s)
    (hi : (s.threads t).thread = some i) :
    releases tr t ≤ 1 ∧
      (releases tr t = 1 ↔ .join i ∈ tr.map Taken.label ∨ .destroy i ∈ tr.map Taken.label) ∧
      (.waitFails i ∈ tr.map Taken.label → releases tr t = 0) ∧
      (.join i ∈ tr.map Taken.label → (s.threads t).pc = .finished) := by
  have hhandle := (accounted hrun).handle t i hi
  rw [← mem_treatment (i := i) (e := .join i) (by simp [treats]),
    ← mem_treatment (i := i) (e := .destroy i) (by simp [treats]),
    ← mem_treatment (i := i) (e := .waitFails i) (by simp [treats])]
  generalize treatment tr i = es at hhandle
  generalize releases tr t = n at hhandle
  cases hhandle with
  | kept => simp
  | joined _ _ hpc => simp [hpc]
  | detached => simp
  | destroyed _ hpc => simp [hpc]
  | leaked => simp

/-- In the run above. -/
theorem handle_released_joined :
    ∃ (tr : List (Taken (Threads Unit Unit) (ThreadEvent Unit Unit))) (s : Threads Unit Unit),
      Run (Step fun _ => 1) start tr s ∧ releases tr () = 1 ∧ (s.threads ()).pc = .finished := by
  obtain ⟨tr, s, hrun, hi, hlabels, -⟩ := joined_run
  obtain ⟨-, hone, -, hfinished⟩ := handle_released hrun hi
  have hjoin : .join () ∈ tr.map Taken.label := by
    rw [hlabels]
    simp
  exact ⟨tr, s, hrun, hone.mpr (Or.inl hjoin), hfinished hjoin⟩

/-- The life of an object ends in its constructor or afterwards. -/
theorem Step.creation_of_ends (hs : Step threadID s e s') (he : e.ends = some i) :
    s.creation i = .waiting ∨ s.creation i = .returned := by
  cases hs with
  | waitFails hwait =>
      obtain rfl := Option.some.inj he
      exact Or.inl hwait
  | destroy hret =>
      obtain rfl := Option.some.inj he
      exact Or.inr hret
  | thread hnext => cases hnext.frame.2.2.2.symm.trans he
  | _ => cases he

/-- An object that has been joined is not needed by its thread. -/
theorem Accounted.timely (h : Accounted tr s) (hs : Step threadID s e s')
    (hjoined : Joined ⟨s, e, s'⟩) : Timely ⟨s, e, s'⟩ := by
  intro i hends t hneeds
  have hgone : s.creation i ≠ .gone := by
    intro hgone
    rcases hs.creation_of_ends hends with hc | hc <;> cases hc.symm.trans hgone
  have hhandle := h.handle t i (hneeds.thread_eq (h.sound.own t))
  generalize treatment tr i = es at hhandle
  generalize releases tr t = n at hhandle
  cases hhandle with
  | kept _ hm => cases hm.symm.trans (hjoined i hends)
  | joined _ _ hpc =>
      rw [ThreadLocal.Needs, hpc] at hneeds
      exact hneeds
  | detached hc => exact hgone hc
  | destroyed hc => exact hgone hc
  | leaked hc => exact hgone hc

/-- **Joining first is enough**: where every object is joined by its owner before it is destroyed,
and no constructor is interrupted, every access of a thread, in the run and in whatever the threads
do after it, is to an object that can be used. -/
theorem joined_accesses_alive (hrun : Run (Step threadID) start tr s) (hjoined : ∀ x ∈ tr, Joined x)
    {tr' : List (Taken (Threads ι τ) (ThreadEvent ι τ))} (hrun' : Run (Step threadID) s tr' s')
    (hends : ∀ x ∈ tr', x.label.ends = none) : ∀ x ∈ tr ++ tr', Safe x := by
  have hall : ∀ x ∈ tr ++ tr', Joined x := by
    refine List.forall_mem_append.mpr ⟨hjoined, fun x hx i hi => ?_⟩
    cases (hends x hx).symm.trans hi
  intro x hx
  obtain ⟨⟨tr₁, hpre, hrun₁⟩, -⟩ := (hrun.append hrun').mem hx
  -- up to `x`, no object has ended too early
  have htended : ∀ {tr₁ : List (Taken (Threads ι τ) (ThreadEvent ι τ))} {s₁ : Threads ι τ},
      Run (Step threadID) start tr₁ s₁ → (∀ y ∈ tr₁, Joined y) → Tended s₁ := by
    intro tr₁ s₁ hrun₁ hjoined₁
    induction hrun₁ with
    | nil => exact tended_start
    | @snoc tr₁ s₁ e s₂ hr hs ih =>
        have h := ih fun y hy => hjoined₁ y (List.mem_append_left _ hy)
        exact h.step hs ((accounted hr).timely hs
          (hjoined₁ _ (List.mem_append_right _ (List.mem_singleton_self _))))
  exact (htended hrun₁ fun y hy => hall y (hpre.subset hy)).safe

theorem joined_accesses_alive_setName :
    ∃ (tr : List (Taken (Threads Unit Unit) (ThreadEvent Unit Unit))) (s : Threads Unit Unit),
      Run (Step fun _ => 1) start tr s ∧
        tr.map Taken.label = [.construct () [.setName "x"] "w", .create () (), .run (), .run (),
          .run (), .run (), .run (), .run (), .wait (), .call () () [.setName "x"], .run (),
          .run (), .run (), .join (), .destroy ()] ∧ ∀ x ∈ tr, Safe x := by
  obtain ⟨tr, s, hrun, -, hlabels, hjoined⟩ := joined_run
  refine ⟨tr, s, hrun, hlabels, fun x hx => ?_⟩
  exact joined_accesses_alive hrun hjoined .nil (List.forall_mem_nil _) x
    (List.mem_append_left _ hx)

end Threads

end Sylar
