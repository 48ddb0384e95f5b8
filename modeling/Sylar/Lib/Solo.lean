/-
Sylar/Lib/Solo.lean

A thread that is left alone.

Under the order on the locks a thread goes on to the end of its call as soon as the others hold
nothing, whatever they have been called for, and computes what its program evaluates to
(`Calls.run_finished`).  So where nobody is at work, a call can be made
(`Calls.Quiet.run_call`), and so can two that overlap (`Calls.Quiet.run_two`).
-/
import Sylar.Lib.Sections

namespace SharedLocks

open Locks Locks.Prog Transition

namespace Calls

variable {ι κ L σ α : Type*} {s : Calls ι κ L σ α} {i j : ι} {code : κ → Prog (Request L) σ α}
  [DecidableEq ι]

/-- Thread `i` is called for `k`. -/
def called (code : κ → Prog (Request L) σ α) (i : ι) (k : κ) (s : Calls ι κ L σ α) :
    Calls ι κ L σ α :=
  ⟨{ s.config with program := Function.update s.config.program i (code k) },
    Function.update s.call i k, s.history⟩

@[simp] theorem called_program_self (k : κ) : (s.called code i k).config.program i = code k :=
  Function.update_self ..

@[simp] theorem called_program_of_ne (h : j ≠ i) (k : κ) :
    (s.called code i k).config.program j = s.config.program j := Function.update_of_ne h ..

/-- Thread `i` has gone on to the end of its call. -/
def finished (i : ι) (s : Calls ι κ L σ α) : Calls ι κ L σ α :=
  let r := (s.config.program i).eval s.config.state
  ⟨⟨r.2, Function.update s.config.held i ∅, Function.update s.config.program i (.done r.1)⟩,
    s.call, s.history ++ [(s.call i, r.1)]⟩

/-- Its first step, and after it the rest, unless it was the last. -/
theorem run_finished_of_step {P : Policy ι L σ α} {t : σ} {held : Set (Request L)}
    {p : Prog (Request L) σ α}
    (hs : Config.Step P i s.config ⟨t, Function.update s.config.held i held,
      Function.update s.config.program i p⟩)
    (heval : p.eval t = (s.config.program i).eval s.config.state)
    (hlast : ∀ a, p = .done a → held = ∅)
    (hrest : ∀ s' : Calls ι κ L σ α, s'.config.program i = p → s'.config.held i = held →
      (∀ j, j ≠ i → s'.config.held j = s.config.held j) → ¬ s'.config.Idle i →
      ∃ tr, Run (Step P code) s' tr (s'.finished i) ∧ ∀ x ∈ tr, x.label = .step i) :
    ∃ tr, Run (Step P code) s tr (s.finished i) ∧ ∀ x ∈ tr, x.label = .step i := by
  have hstep : Step P code s (.step i) _ := .step hs
  by_cases hdone : ∃ a, p = .done a
  · obtain ⟨a, rfl⟩ := hdone
    obtain rfl := hlast a rfl
    refine ⟨_, Run.nil.snoc ?_, fun x hx => List.mem_singleton.mp hx ▸ rfl⟩
    simpa only [finished, ← heval, Function.update_self, returned, eval_done] using hstep
  · have hreturned : returned (s.call i) (Function.update s.config.program i p i) = [] := by
      rw [Function.update_self]
      cases p with
      | done a => exact absurd ⟨a, rfl⟩ hdone
      | lock r p => rfl
      | unlock r p => rfl
      | act f p => rfl
    rw [hreturned, List.append_nil] at hstep
    let s₁ : Calls ι κ L σ α := ⟨⟨t, Function.update s.config.held i held,
      Function.update s.config.program i p⟩, s.call, s.history⟩
    have hprogram : s₁.config.program i = p := Function.update_self ..
    obtain ⟨tr, hrun, htr⟩ := hrest s₁ hprogram (Function.update_self ..)
      (fun j hj => Function.update_of_ne hj ..) fun ⟨a, ha⟩ => hdone ⟨a, hprogram.symm.trans ha⟩
    refine ⟨_, .cons hstep ?_, List.forall_mem_cons.mpr ⟨rfl, htr⟩⟩
    simpa only [s₁, finished, Function.update_self, Function.update_idem, heval] using hrun

variable (code) in
/-- Where readers are let in whenever nobody writes, a thread goes on to the end of its call
if the others hold nothing, whatever they have been called for. -/
theorem run_finished {R : Type*} [Preorder R] (rank : L → R)
    (hord : (s.config.program i).Ordered (fun r => rank r.2) (s.config.held i) ∅)
    (hothers : ∀ j, j ≠ i → s.config.held j = ∅) (hbusy : ¬ s.config.Idle i) :
    ∃ tr, Run (Step (Policy.preferReaders ι L σ α) code) s tr (s.finished i) ∧
      ∀ x ∈ tr, x.label = .step i := by
  generalize hp : s.config.program i = p at hord
  induction p generalizing s with
  | done a => exact absurd ⟨a, hp⟩ hbusy
  | lock r p ih =>
      -- the lock is above all that the thread holds, and the others hold nothing
      have hnot : ∀ j m, (m, r.2) ∉ s.config.held j := by
        intro j m hj
        by_cases hji : j = i
        · subst hji
          exact lt_irrefl (rank r.2) (hord.1 (m, r.2) hj)
        · exact Set.notMem_empty _ (hothers j hji ▸ hj)
      refine run_finished_of_step (.lock hp fun j => ⟨hnot j .write, fun _ => hnot j .read⟩)
        (by rw [hp]; rfl) (fun a ha => ?_) fun s' hp' hheld hsame hbusy' => ?_
      · have hrest := hord.2
        rwa [ha] at hrest
      · exact ih (fun j hj => (hsame j hj).trans (hothers j hj)) hbusy' hp' (hheld.symm ▸ hord.2)
  | unlock r p ih =>
      refine run_finished_of_step (.unlock hp hord.1) (by rw [hp]; rfl) (fun a ha => ?_)
        fun s' hp' hheld hsame hbusy' => ?_
      · have hrest := hord.2
        rwa [ha] at hrest
      · exact ih (fun j hj => (hsame j hj).trans (hothers j hj)) hbusy' hp' (hheld.symm ▸ hord.2)
  | act f p ih =>
      have hself : Function.update s.config.held i (s.config.held i) = s.config.held :=
        Function.update_eq_self i _
      have hact : Config.Step (Policy.preferReaders ι L σ α) i s.config ⟨f s.config.state,
          Function.update s.config.held i (s.config.held i),
          Function.update s.config.program i (p s.config.state)⟩ := hself.symm ▸ .act hp
      refine run_finished_of_step hact (by rw [hp]; rfl) (fun a ha => ?_)
        fun s' hp' hheld hsame hbusy' => ?_
      · have hrest := hord s.config.state
        rwa [ha] at hrest
      · exact ih _ (fun j hj => (hsame j hj).trans (hothers j hj)) hbusy' hp'
          (hheld.symm ▸ hord s.config.state)

/-- Nobody is at work, or holds anything. -/
structure Quiet (s : Calls ι κ L σ α) : Prop where
  idle : ∀ i, s.config.Idle i
  held : ∀ i, s.config.held i = ∅

omit [DecidableEq ι] in
theorem quiet_start (t : σ) (k : κ) (a : α) : Quiet (start t k a : Calls ι κ L σ α) :=
  ⟨fun _ => ⟨a, rfl⟩, fun _ => rfl⟩

theorem Quiet.finished {s : Calls ι κ L σ α} (hidle : ∀ j, j ≠ i → s.config.Idle j)
    (hheld : ∀ j, j ≠ i → s.config.held j = ∅) : Quiet (s.finished i) := by
  refine ⟨fun j => ?_, fun j => ?_⟩
  · by_cases hj : j = i
    · subst hj
      exact ⟨_, Function.update_self ..⟩
    · obtain ⟨a, ha⟩ := hidle j hj
      exact ⟨a, (Function.update_of_ne hj ..).trans ha⟩
  · by_cases hj : j = i
    · subst hj
      exact Function.update_self ..
    · exact (Function.update_of_ne hj ..).trans (hheld j hj)

variable (code) in
/-- Two calls that overlap: the one has taken its first lock when the other is made, which goes
on when the first one has returned. -/
theorem Quiet.run_two {R : Type*} [Preorder R] (rank : L → R) (h : Quiet s) (hij : i ≠ j)
    (k k' : κ) {r : Request L} {p : Prog (Request L) σ α} (hk : code k = .lock r p)
    (hord : (code k).Ordered (fun r => rank r.2) ∅ ∅)
    (hord' : (code k').Ordered (fun r => rank r.2) ∅ ∅) (hbusy' : ∀ a, code k' ≠ .done a) :
    ∃ tr s', Run (Step (Policy.preferReaders ι L σ α) code) s tr s' ∧ Quiet s' ∧
      s'.config.state = ((code k').eval ((code k).eval s.config.state).2).2 ∧
      s'.history = s.history ++ [(k, ((code k).eval s.config.state).1),
        (k', ((code k').eval ((code k).eval s.config.state).2).1)] ∧
      ∀ x ∈ tr, ∀ l k'', x.label = .call l k'' →
        (k'' = k ∨ k'' = k') ∧ x.source.config.state = s.config.state := by
  rw [hk] at hord
  -- a program that holds a lock is not done
  have hbusy : ∀ a, p ≠ .done a := by
    rintro a rfl
    have hheld : insert r ∅ = (∅ : Set (Request L)) := hord.2
    exact Set.notMem_empty r (hheld ▸ Set.mem_insert r ∅)
  let s₁ := s.called code i k
  have hfree : s₁.config.Free r.1 r.2 := fun l => by
    rw [show s₁.config.held l = ∅ from h.held l]
    exact ⟨Set.notMem_empty _, fun _ => Set.notMem_empty _⟩
  let s₂ : Calls ι κ L σ α := ⟨⟨s.config.state, Function.update s.config.held i (insert r ∅),
    Function.update s₁.config.program i p⟩, s₁.call, s.history⟩
  have hlock : Step (Policy.preferReaders ι L σ α) code s₁ (.step i) s₂ := by
    have hstep : Step (Policy.preferReaders ι L σ α) code s₁ (.step i) _ :=
      .step (.lock ((called_program_self k).trans hk) hfree)
    have hreturned : returned (s₁.call i) (Function.update s₁.config.program i p i) = [] := by
      rw [Function.update_self]
      cases p with
      | done a => exact absurd rfl (hbusy a)
      | lock r p => rfl
      | unlock r p => rfl
      | act f p => rfl
    rw [hreturned, List.append_nil, show s₁.config.held i = ∅ from h.held i] at hstep
    exact hstep
  let s₃ := s₂.called code j k'
  have hother : ∀ l, l ≠ i → s₂.config.program l = s.config.program l := fun l hl =>
    (Function.update_of_ne hl ..).trans (called_program_of_ne hl k)
  have hidle₂ : ∀ l, l ≠ i → s₂.config.Idle l := fun l hl =>
    (h.idle l).imp fun a ha => (hother l hl).trans ha
  have hheld₃ : ∀ l, l ≠ i → s₃.config.held l = ∅ := fun l hl =>
    (Function.update_of_ne hl ..).trans (h.held l)
  have hprogram₃ : s₃.config.program i = p :=
    (called_program_of_ne hij k').trans (Function.update_self ..)
  have hself₃ : s₃.config.held i = insert r ∅ := Function.update_self ..
  obtain ⟨tr, hrun, htr⟩ := run_finished code rank (s := s₃) (i := i)
    (by rw [hprogram₃, hself₃]; exact hord.2) hheld₃ fun ⟨a, ha⟩ => hbusy a (hprogram₃.symm.trans ha)
  let s₄ := s₃.finished i
  have hheld₄ : ∀ l, s₄.config.held l = ∅ := by
    intro l
    by_cases hl : l = i
    · subst hl
      exact Function.update_self ..
    · exact (Function.update_of_ne hl ..).trans (hheld₃ l hl)
  have hprogram₄ : s₄.config.program j = code k' :=
    (Function.update_of_ne hij.symm ..).trans (called_program_self k')
  obtain ⟨tr', hrun', htr'⟩ := run_finished code rank (s := s₄) (i := j)
    (by rw [hprogram₄, hheld₄ j]; exact hord') (fun l _ => hheld₄ l)
    fun ⟨a, ha⟩ => hbusy' a (hprogram₄.symm.trans ha)
  have hstate : (s₃.config.program i).eval s₃.config.state = (code k).eval s.config.state := by
    rw [hprogram₃, hk]
    rfl
  have hcall₃ : s₃.call i = k := (Function.update_of_ne hij ..).trans (Function.update_self ..)
  have hcall₄ : s₄.call j = k' := Function.update_self ..
  refine ⟨_, s₄.finished j, .cons (.call k (h.idle i)) (.cons hlock (.cons
    (.call k' (hidle₂ j hij.symm)) (hrun.append hrun'))), .finished (fun l hl => ?_)
    (fun l _ => hheld₄ l), ?_, ?_, ?_⟩
  · by_cases hli : l = i
    · subst hli
      exact ⟨_, Function.update_self ..⟩
    · obtain ⟨a, ha⟩ := hidle₂ l hli
      exact ⟨a, ((Function.update_of_ne hli ..).trans (called_program_of_ne hl k')).trans ha⟩
  · show ((s₄.config.program j).eval ((s₃.config.program i).eval s₃.config.state).2).2 = _
    rw [hprogram₄, hstate]
  · show (s.history ++ [(s₃.call i, ((s₃.config.program i).eval s₃.config.state).1)]) ++
      [(s₄.call j, ((s₄.config.program j).eval
        ((s₃.config.program i).eval s₃.config.state).2).1)] = _
    rw [hprogram₄, hstate, hcall₃, hcall₄, List.append_assoc]
    rfl
  · intro x hx l k'' hk''
    simp only [List.mem_cons, List.mem_append] at hx
    rcases hx with rfl | rfl | rfl | hx | hx
    · cases hk''
      exact ⟨Or.inl rfl, rfl⟩
    · cases hk''
    · cases hk''
      exact ⟨Or.inr rfl, rfl⟩
    · cases (htr x hx).symm.trans hk''
    · cases (htr' x hx).symm.trans hk''

end Calls

end SharedLocks
