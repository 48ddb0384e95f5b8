/-
Sylar/Lib/Transition.lean

Runs of a labelled step relation `step s a s'`.  A run is recorded as the list
of transitions it took, so that a property of a whole run can be stated about
the steps themselves (what each step found, did and left) and not only about
the state at the end.

`Run.invariant` is the induction every safety proof goes through; its
refinement `Run.invariant_of` allows the steps to be restricted to those that
satisfy a side condition.
-/
import Mathlib.Data.List.Basic
import Mathlib.Logic.Relation

namespace Transition

variable {σ α : Type*}

/-- One step that was taken: from `source`, labelled `label`, to `target`. -/
structure Taken (σ α : Type*) where
  source : σ
  label : α
  target : σ

/-- `Run step s tr t`: the transitions `tr`, in order, lead from `s` to `t`. -/
inductive Run (step : σ → α → σ → Prop) (s : σ) : List (Taken σ α) → σ → Prop
  | nil : Run step s [] s
  | snoc {tr t a u} : Run step s tr t → step t a u → Run step s (tr ++ [⟨t, a, u⟩]) u

variable {step : σ → α → σ → Prop} {s t : σ} {tr : List (Taken σ α)}

/-- **Invariant rule with a side condition**: what holds at the start and is kept
by every step that meets `C` holds at the end of every run all of whose steps
meet `C`. -/
theorem Run.invariant_of {I : σ → Prop} {C : Taken σ α → Prop} (h0 : I s)
    (hstep : ∀ t a u, I t → step t a u → C ⟨t, a, u⟩ → I u)
    (hrun : Run step s tr t) (hC : ∀ x ∈ tr, C x) : I t := by
  induction hrun with
  | nil => exact h0
  | snoc _ hs ih =>
      refine hstep _ _ _ (ih fun x hx => hC x ?_) hs (hC _ ?_)
      · simp [hx]
      · simp

/-- **Invariant rule.** -/
theorem Run.invariant {I : σ → Prop} (h0 : I s)
    (hstep : ∀ t a u, I t → step t a u → I u) (hrun : Run step s tr t) : I t :=
  hrun.invariant_of (C := fun _ => True) h0 (fun t a u ht hs _ => hstep t a u ht hs)
    fun _ _ => trivial

/-- Every transition of a run is a step, taken from a state the run had reached. -/
theorem Run.mem (hrun : Run step s tr t) {x : Taken σ α} (hx : x ∈ tr) :
    (∃ tr', tr' <+: tr ∧ Run step s tr' x.source) ∧ step x.source x.label x.target := by
  induction hrun with
  | nil => cases hx
  | @snoc tr t a u hr hs ih =>
      rcases List.mem_append.mp hx with hx | hx
      · obtain ⟨⟨tr', hpre, hr'⟩, hs'⟩ := ih hx
        exact ⟨⟨tr', hpre.trans (List.prefix_append _ _), hr'⟩, hs'⟩
      · obtain rfl := List.mem_singleton.mp hx
        exact ⟨⟨tr, List.prefix_append _ _, hr⟩, hs⟩

/-- What an invariant says about the source of a step says something about every
transition of a run. -/
theorem Run.forall_taken {I : σ → Prop} {P : Taken σ α → Prop} (h0 : I s)
    (hstep : ∀ t a u, I t → step t a u → I u)
    (hP : ∀ t a u, I t → step t a u → P ⟨t, a, u⟩) (hrun : Run step s tr t) :
    ∀ x ∈ tr, P x := by
  intro x hx
  obtain ⟨⟨tr', _, hr⟩, hs⟩ := hrun.mem hx
  exact hP _ _ _ (hr.invariant h0 hstep) hs

/-- A run up to one of its transitions, and that transition. -/
theorem Run.split {tr₁ tr₂ : List (Taken σ α)} {x : Taken σ α}
    (hrun : Run step s (tr₁ ++ x :: tr₂) t) :
    Run step s tr₁ x.source ∧ step x.source x.label x.target := by
  generalize htr : tr₁ ++ x :: tr₂ = tr at hrun
  induction hrun generalizing tr₂ with
  | nil => cases tr₁ <;> cases htr
  | @snoc tr t a u hr hs ih =>
      rcases List.eq_nil_or_concat tr₂ with rfl | ⟨tr₂, y, rfl⟩
      · obtain ⟨rfl, hx⟩ := List.append_inj' htr rfl
        obtain rfl := List.singleton_injective hx
        exact ⟨hr, hs⟩
      · rw [List.concat_eq_append, ← List.cons_append, ← List.append_assoc] at htr
        exact ih (List.append_inj' htr rfl).1

/-- A run after one of its transitions. -/
theorem Run.after {tr₁ tr₂ : List (Taken σ α)} {x : Taken σ α}
    (hrun : Run step s (tr₁ ++ x :: tr₂) t) : Run step x.target tr₂ t := by
  generalize htr : tr₁ ++ x :: tr₂ = tr at hrun
  induction hrun generalizing tr₂ with
  | nil => cases tr₁ <;> cases htr
  | @snoc tr t a u hr hs ih =>
      rcases List.eq_nil_or_concat tr₂ with rfl | ⟨tr₂, y, rfl⟩
      · obtain ⟨rfl, hx⟩ := List.append_inj' htr rfl
        obtain rfl := List.singleton_injective hx
        exact .nil
      · rw [List.concat_eq_append, ← List.cons_append, ← List.append_assoc] at htr
        obtain ⟨rfl, hy⟩ := List.append_inj' htr rfl
        obtain rfl := List.singleton_injective hy
        rw [List.concat_eq_append]
        exact (ih rfl).snoc hs

/-- **Two descriptions of the good runs**: as long as the invariant holds a step is good
in the one sense when it is in the other, and a good step keeps the invariant. -/
theorem Run.forall_iff {I : σ → Prop} {A B : Taken σ α → Prop} (h0 : I s)
    (hstep : ∀ t a u, I t → step t a u →
      (A ⟨t, a, u⟩ ↔ B ⟨t, a, u⟩) ∧ (A ⟨t, a, u⟩ → I u))
    (hrun : Run step s tr t) : (∀ x ∈ tr, A x) ↔ ∀ x ∈ tr, B x := by
  suffices h : ((∀ x ∈ tr, A x) ↔ ∀ x ∈ tr, B x) ∧ ((∀ x ∈ tr, A x) → I t) from h.1
  induction hrun with
  | nil => exact ⟨by simp, fun _ => h0⟩
  | @snoc tr t a u _ hs ih =>
      obtain ⟨hiff, hI⟩ := ih
      simp only [List.forall_mem_append, List.forall_mem_singleton]
      constructor
      · constructor
        · rintro ⟨htr, hA⟩
          exact ⟨hiff.mp htr, (hstep t a u (hI htr) hs).1.mp hA⟩
        · rintro ⟨htr, hB⟩
          have htr := hiff.mpr htr
          exact ⟨htr, (hstep t a u (hI htr) hs).1.mpr hB⟩
      · rintro ⟨htr, hA⟩
        exact (hstep t a u (hI htr) hs).2 hA

/-- Runs compose. -/
theorem Run.append {tr' : List (Taken σ α)} {u : σ} (h : Run step s tr t)
    (h' : Run step t tr' u) : Run step s (tr ++ tr') u := by
  induction h' with
  | nil => simpa using h
  | snoc _ hs ih => simpa using ih.snoc hs

/-- A step in front of a run. -/
theorem Run.cons {a : α} {u : σ} (h : step s a t) (h' : Run step t tr u) :
    Run step s (⟨s, a, t⟩ :: tr) u :=
  (Run.nil.snoc h).append h'

/-- **Counting rule**: if a step that counts costs something, and no step earns anything,
only so many are taken as can be paid for. -/
theorem Run.countP_add_le {I : σ → Prop} {μ : σ → Nat} {q : Taken σ α → Bool} (h0 : I s)
    (hkept : ∀ t a u, I t → step t a u → I u)
    (hstep : ∀ t a u, I t → step t a u → (if q ⟨t, a, u⟩ then 1 else 0) + μ u ≤ μ t)
    (hrun : Run step s tr t) : tr.countP q + μ t ≤ μ s := by
  induction hrun with
  | nil => simp
  | @snoc tr t a u hr hs ih =>
      have hlast := hstep t a u (hr.invariant h0 hkept) hs
      rw [List.countP_append, List.countP_singleton]
      omega

/-- A run that costs something at every step is no longer than what there is to pay. -/
theorem Run.length_le {I : σ → Prop} {μ : σ → Nat} (h0 : I s)
    (hkept : ∀ t a u, I t → step t a u → I u) (hstep : ∀ t a u, I t → step t a u → μ u < μ t)
    (hrun : Run step s tr t) : tr.length ≤ μ s := by
  have hcost : ∀ t a u, I t → step t a u → (if true then 1 else 0) + μ u ≤ μ t := by
    intro t a u ht hs
    rw [if_pos rfl, Nat.add_comm]
    exact hstep t a u ht hs
  have hcount := hrun.countP_add_le (q := fun _ => true) h0 hkept hcost
  rw [List.countP_true] at hcount
  exact Nat.le_trans (Nat.le_add_right _ _) hcount

/-- **Termination rule**: where every step costs something, and only final states have no
step, a final state is reached. -/
theorem Run.exists_final {I final : σ → Prop} {μ : σ → Nat}
    (hkept : ∀ t a u, I t → step t a u → I u) (hstep : ∀ t a u, I t → step t a u → μ u < μ t)
    (hprogress : ∀ t, I t → final t ∨ ∃ a u, step t a u) (h0 : I s) :
    ∃ tr t, Run step s tr t ∧ final t := by
  induction hn : μ s using Nat.strongRecOn generalizing s with
  | _ n ih =>
      rcases hprogress s h0 with hfinal | ⟨a, u, hs⟩
      · exact ⟨[], s, .nil, hfinal⟩
      · obtain ⟨tr, t, hrun, hfinal⟩ := ih (μ u) (hn ▸ hstep s a u h0 hs) (hkept s a u h0 hs) rfl
        exact ⟨_, t, .cons hs hrun, hfinal⟩

/-- A machine that executes a list of labels one after the other makes a run. -/
theorem Run.of_foldlM {next : σ → α → Option σ} {l : List α} (h : l.foldlM next s = some t) :
    ∃ tr, Run (fun s a s' => next s a = some s') s tr t := by
  induction l generalizing s with
  | nil =>
      obtain rfl := Option.some.inj h
      exact ⟨[], .nil⟩
  | cons a l ih =>
      rw [List.foldlM_cons] at h
      obtain ⟨u, hu, h⟩ := Option.bind_eq_some_iff.mp h
      obtain ⟨tr, hr⟩ := ih h
      exact ⟨_, .cons hu hr⟩

end Transition
