/-
Sylar/Lib/Outcome.lean

How a piece of imperative code can end.  It returns, it throws, it ends the
process, or it does something the language gives no meaning to:

    ret a      returns the value `a`
    throw e    an exception leaves, with `e` the state (or value) at that point
    exit n     the process has been ended with status `n`
    crash      undefined behaviour (a null pointer was followed)

Only the first lets the next statement run, so sequencing is the `bind` of a
monad in the returned value, and a loop over a list is `List.foldlM` in it.
The loop rules below are the ones a proof about a loop needs: what holds after a
loop that returned, why a loop returns, and why it at least survives.
-/
import Mathlib.Logic.Basic

universe u v

/-- The ways in which a piece of imperative code can end. -/
inductive Outcome (ε : Type u) (α : Type v)
  | ret (a : α)
  | throw (e : ε)
  | exit (code : Nat)
  | crash
  deriving DecidableEq, Repr

namespace Outcome

variable {ε : Type u} {α β σ : Type v}

/-- Run `f` on the returned value; every other ending is final. -/
protected def bind : Outcome ε α → (α → Outcome ε β) → Outcome ε β
  | ret a, f => f a
  | throw e, _ => throw e
  | exit n, _ => exit n
  | crash, _ => crash

instance : Monad (Outcome ε) where
  pure := ret
  bind := Outcome.bind

@[simp] theorem pure_eq (a : α) : (pure a : Outcome ε α) = ret a := rfl

@[simp] theorem ret_bind (a : α) (f : α → Outcome ε β) : (ret a >>= f) = f a := rfl

@[simp] theorem throw_bind (e : ε) (f : α → Outcome ε β) : (throw e >>= f) = throw e := rfl

@[simp] theorem exit_bind (n : Nat) (f : α → Outcome ε β) : (exit n >>= f) = exit n := rfl

@[simp] theorem crash_bind (f : α → Outcome ε β) : (crash >>= f) = crash := rfl

instance : LawfulMonad (Outcome ε) := by
  refine LawfulMonad.mk' (Outcome ε) ?_ ?_ ?_
  · intro _ x
    cases x <;> rfl
  · intros
    rfl
  · intro _ _ _ x _ _
    cases x <;> rfl

theorem bind_eq_ret {x : Outcome ε α} {f : α → Outcome ε β} {b : β} :
    (x >>= f) = ret b ↔ ∃ a, x = ret a ∧ f a = ret b := by
  cases x <;> simp

/-- The same, with what is thrown replaced. -/
def mapThrow {ε' : Type u} (f : ε → ε') : Outcome ε α → Outcome ε' α
  | ret a => ret a
  | throw e => throw (f e)
  | exit n => exit n
  | crash => crash

/-- `try { x } catch (e) { handler e }`. -/
def rescue {ε' : Type u} (handler : ε → α) : Outcome ε α → Outcome ε' α
  | ret a => ret a
  | throw e => ret (handler e)
  | exit n => exit n
  | crash => crash

/-- The value returned, if one is. -/
def value? : Outcome ε α → Option α
  | ret a => some a
  | throw _ => none
  | exit _ => none
  | crash => none

@[simp] theorem value?_ret (a : α) : (ret a : Outcome ε α).value? = some a := rfl

@[simp] theorem value?_throw (e : ε) : (throw e : Outcome ε α).value? = none := rfl

theorem value?_eq_some {x : Outcome ε α} {a : α} : x.value? = some a ↔ x = ret a := by
  cases x <;> simp [value?]

/-- `x` neither ends the process nor is undefined. -/
def Survives : Outcome ε α → Prop
  | ret _ => True
  | throw _ => True
  | exit _ => False
  | crash => False

@[simp] theorem survives_ret (a : α) : (ret a : Outcome ε α).Survives := trivial

@[simp] theorem survives_throw (e : ε) : (throw e : Outcome ε α).Survives := trivial

@[simp] theorem not_survives_exit (n : Nat) : ¬ (exit n : Outcome ε α).Survives := id

@[simp] theorem not_survives_crash : ¬ (crash : Outcome ε α).Survives := id

theorem Survives.bind {x : Outcome ε α} {f : α → Outcome ε β} (hx : x.Survives)
    (hf : ∀ a, x = ret a → (f a).Survives) : (x >>= f).Survives := by
  cases x with
  | ret a => exact hf a rfl
  | throw e => exact hx
  | exit n => exact hx
  | crash => exact hx

theorem Survives.mapThrow {ε' : Type u} {x : Outcome ε α} (h : x.Survives) {f : ε → ε'} :
    (x.mapThrow f).Survives := by
  cases x <;> exact h

theorem mapThrow_eq_ret {ε' : Type u} {x : Outcome ε α} {f : ε → ε'} {a : α} :
    x.mapThrow f = ret a ↔ x = ret a := by
  cases x <;> simp [Outcome.mapThrow]

/-- Two codes end in the same way, and `R` relates what they return, `E` what they throw. -/
inductive Alike {ε' : Type u} (R : α → β → Prop) (E : ε → ε' → Prop) :
    Outcome ε α → Outcome ε' β → Prop
  | ret {a : α} {b : β} (h : R a b) : Alike R E (ret a) (ret b)
  | throw {e : ε} {e' : ε'} (h : E e e') : Alike R E (throw e) (throw e')
  | exit (n : Nat) : Alike R E (exit n) (exit n)
  | crash : Alike R E crash crash

/-! ### Loops -/

/-- **What holds after a loop that returned.**  `P done s` speaks of the elements
already visited. -/
theorem foldlM_induction {f : σ → α → Outcome ε σ} {P : List α → σ → Prop}
    {l : List α} {s s' : σ} (h0 : P [] s)
    (hstep : ∀ done a rest t t', l = done ++ a :: rest → P done t → f t a = ret t' →
      P (done ++ [a]) t')
    (hrun : l.foldlM f s = ret s') : P l s' := by
  -- induction on what is left of the list, with `P` for what has been visited
  have aux : ∀ (rest done : List α) (t : σ), l = done ++ rest → P done t →
      rest.foldlM f t = ret s' → P l s' := by
    intro rest
    induction rest with
    | nil =>
        intro done t hl hP hr
        simp only [List.foldlM_nil, pure_eq, ret.injEq] at hr
        subst hr
        simpa [hl] using hP
    | cons a rest ih =>
        intro done t hl hP hr
        rw [List.foldlM_cons, bind_eq_ret] at hr
        obtain ⟨t', ht, hr⟩ := hr
        exact ih (done ++ [a]) t' (by simp [hl]) (hstep done a rest t t' hl hP ht) hr
  exact aux l [] s rfl h0 hrun

/-- **Why a loop returns**: every iteration does, and keeps what the next one
needs. -/
theorem foldlM_total {f : σ → α → Outcome ε σ} {P : List α → σ → Prop}
    {l : List α} {s : σ} (h0 : P [] s)
    (hstep : ∀ done a rest t, l = done ++ a :: rest → P done t →
      ∃ t', f t a = ret t' ∧ P (done ++ [a]) t') :
    ∃ s', l.foldlM f s = ret s' ∧ P l s' := by
  have aux : ∀ (rest done : List α) (t : σ), l = done ++ rest → P done t →
      ∃ s', rest.foldlM f t = ret s' ∧ P l s' := by
    intro rest
    induction rest with
    | nil =>
        intro done t hl hP
        exact ⟨t, rfl, by simpa [hl] using hP⟩
    | cons a rest ih =>
        intro done t hl hP
        obtain ⟨t', ht, hP'⟩ := hstep done a rest t hl hP
        obtain ⟨s', hs, hP''⟩ := ih (done ++ [a]) t' (by simp [hl]) hP'
        exact ⟨s', by rw [List.foldlM_cons, ht, ret_bind, hs], hP''⟩
  exact aux l [] s rfl h0

/-- A loop that computes something from each element and puts it into an accumulator. -/
theorem foldlM_push {g : α → Outcome ε β} {h : α → β} (push : σ → β → σ) {l : List α}
    (hg : ∀ a ∈ l, g a = ret (h a)) (s : σ) :
    (l.foldlM (fun s a => do let b ← g a; pure (push s b)) s : Outcome ε σ) =
      ret ((l.map h).foldl push s) := by
  induction l generalizing s with
  | nil => rfl
  | cons a l ih =>
      rw [List.foldlM_cons, hg a List.mem_cons_self, ret_bind, pure_eq, ret_bind,
        ih fun b hb => hg b (List.mem_cons_of_mem a hb)]
      rfl

/-- Such a loop throws as soon as one of the computations does. -/
theorem foldlM_push_throw {g : α → Outcome ε β} (push : σ → β → σ) {l : List α} {e : ε}
    (hg : ∀ a ∈ l, (∃ b, g a = ret b) ∨ g a = throw e) (hthrow : ∃ a ∈ l, g a = throw e) (s : σ) :
    (l.foldlM (fun s a => do let b ← g a; pure (push s b)) s : Outcome ε σ) = throw e := by
  induction l generalizing s with
  | nil =>
      obtain ⟨a, ha, _⟩ := hthrow
      cases ha
  | cons a l ih =>
      rw [List.foldlM_cons]
      rcases hg a List.mem_cons_self with ⟨b, hb⟩ | hthrows
      · obtain ⟨a', ha', hthrows⟩ := hthrow
        rw [hb, ret_bind, pure_eq, ret_bind]
        refine ih (fun c hc => hg c (List.mem_cons_of_mem a hc)) ⟨a', ?_, hthrows⟩ _
        rcases List.mem_cons.mp ha' with rfl | ha'
        · rw [hb] at hthrows
          cases hthrows
        · exact ha'
      · rw [hthrows]
        rfl

/-- A loop throws nothing if its iterations do not. -/
theorem foldlM_ne_throw {f : σ → α → Outcome ε σ} {l : List α} {s : σ}
    (hstep : ∀ t, ∀ a ∈ l, ∀ e, f t a ≠ throw e) (e : ε) : l.foldlM f s ≠ throw e := by
  induction l generalizing s with
  | nil => exact nofun
  | cons a l ih =>
      rw [List.foldlM_cons]
      cases ha : f s a with
      | ret t => exact ih fun t b hb => hstep t b (List.mem_cons_of_mem a hb)
      | throw e' => exact absurd ha (hstep s a List.mem_cons_self e')
      | exit n => exact nofun
      | crash => exact nofun

/-- Why a loop survives: every iteration does. -/
theorem foldlM_survives {f : σ → α → Outcome ε σ} {l : List α} {s : σ}
    (hstep : ∀ t, ∀ a ∈ l, (f t a).Survives) : (l.foldlM f s).Survives := by
  induction l generalizing s with
  | nil => trivial
  | cons a l ih =>
      rw [List.foldlM_cons]
      apply (hstep s a List.mem_cons_self).bind
      intro t _
      exact ih fun t b hb => hstep t b (List.mem_cons_of_mem a hb)

end Outcome
