/-
Sylar/ConfigVar.lean

A configuration variable (config.hpp) and its concurrent use.

`ConfigVar::setValue` has three sections: the comparison with the current value,
which takes no lock; the notification of the listeners, under the write lock; and
the assignment, under a lock of its own.  `Calls` runs any number of calls with
the three sections as atomic steps, interleaved in any order.

Nothing ties a notification to its assignment, so two notifications may start
from the same old value, and the last one need not be the last to assign.  As
long as no notification falls between another one and its assignment, the
listeners see a chain of values that ends in the value stored
(`listeners_in_step`).
-/
import Mathlib.Logic.Function.Basic
import Mathlib.Data.Nat.Basic
import Sylar.Lib.SortedBy
import Sylar.Lib.Transition

namespace Sylar

open Transition

/-! ### The variable -/

/-- `ConfigVar<T>`, less its name and lock; the callbacks are of type `β`. -/
structure ConfigVar (T β : Type) where
  val : T
  /-- `m_callbacks`: the listeners under their keys. -/
  callbacks : SortedMap Nat β

/-- One call of a listener. -/
structure Notice (T : Type) where
  /-- The key of the listener. -/
  key : Nat
  old : T
  new : T
  deriving DecidableEq

namespace ConfigVar

variable {T β : Type}

/-- The loop over the callbacks, for the new value `val`. -/
def notices (c : ConfigVar T β) (val : T) : List (Notice T) :=
  c.callbacks.toList.map fun f => ⟨f.1, c.val, val⟩

/-- `m_val = val`. -/
def assign (c : ConfigVar T β) (val : T) : ConfigVar T β := { c with val := val }

end ConfigVar

/-! ### Interleaved calls -/

/-- Where a caller of `setValue` stands. -/
inductive Phase (T : Type)
  | idle
  /-- The value was found to differ from the current one. -/
  | compared (val : T)
  /-- The listeners have been called with it. -/
  | notified (val : T)
  deriving DecidableEq

/-- The variable, its callers, and the calls of listeners so far, oldest first. -/
structure Calls (ι T β : Type) where
  var : ConfigVar T β
  phase : ι → Phase T
  notices : List (Notice T)

/-- One section of one call. -/
inductive Section (ι T : Type)
  | compare (i : ι) (val : T)
  | notify (i : ι)
  | assign (i : ι)

namespace Calls

variable {ι T β : Type}

/-- Nobody is in a call, and no listener has been called. -/
def start (c : ConfigVar T β) : Calls ι T β := ⟨c, fun _ => .idle, []⟩

/-- The state after a section. -/
def next [DecidableEq ι] [DecidableEq T] (s : Calls ι T β) : Section ι T → Option (Calls ι T β)
  | .compare i val =>
      -- `if (val == m_val) return;`, before any lock is taken
      if s.phase i = .idle then
        some (if val = s.var.val then s
          else { s with phase := Function.update s.phase i (.compared val) })
      else none
  | .notify i =>
      -- under the write lock; the old value is what `m_val` is now
      match s.phase i with
      | .compared val => some { s with
          phase := Function.update s.phase i (.notified val)
          notices := s.notices ++ s.var.notices val }
      | _ => none
  | .assign i =>
      -- under a lock of its own: by now `m_val` may be another
      match s.phase i with
      | .notified val => some { s with
          var := s.var.assign val
          phase := Function.update s.phase i .idle }
      | _ => none

/-- One step of an interleaving. -/
def Step [DecidableEq ι] [DecidableEq T] (s : Calls ι T β) (a : Section ι T)
    (s' : Calls ι T β) : Prop := s.next a = some s'

/-! ### What a listener has seen -/

/-- The calls of the listener with key `k`. -/
def seen (s : Calls ι T β) (k : Nat) : List (Notice T) := s.notices.filter fun n => n.key = k

/-- Every old value is the previous new one; the first is `v`. -/
def Chain (v : T) : List (Notice T) → Prop
  | [] => True
  | n :: ns => n.old = v ∧ Chain n.new ns

/-- The last new value, `v` when there is none. -/
def final (v : T) (ns : List (Notice T)) : T := (ns.getLast?.map Notice.new).getD v

/-- What is promised of a state of a run that began with the variable `c`. -/
structure InStep (c : ConfigVar T β) (s : Calls ι T β) : Prop where
  chain : ∀ k f, c.callbacks.get? k = some f → Chain c.val (s.seen k)
  settled : (∀ i, s.phase i = .idle) →
    ∀ k f, c.callbacks.get? k = some f → s.var.val = final c.val (s.seen k)

/-- No notification begins while another call is between its own and its assignment. -/
def Exclusive (x : Taken (Calls ι T β) (Section ι T)) : Prop :=
  ∀ i, x.label = .notify i → ∀ j val, x.source.phase j ≠ .notified val

@[simp] theorem final_nil (v : T) : final v [] = v := rfl

@[simp] theorem final_append (v : T) (ns : List (Notice T)) (n : Notice T) :
    final v (ns ++ [n]) = n.new := by
  simp [final]

theorem final_cons (v : T) (n : Notice T) (ns : List (Notice T)) :
    final v (n :: ns) = final n.new ns := by
  rw [final, final, List.getLast?_cons]
  cases ns.getLast? <;> rfl

/-- A chain goes on where it ended. -/
theorem Chain.append {v : T} {ns : List (Notice T)} {n : Notice T} (h : Chain v ns)
    (hn : n.old = final v ns) : Chain v (ns ++ [n]) := by
  induction ns generalizing v with
  | nil => exact ⟨hn, trivial⟩
  | cons m ns ih =>
      rw [final_cons] at hn
      exact ⟨h.1, ih h.2 hn⟩

/-- Every listener is called once. -/
theorem filter_notices (c : ConfigVar T β) (val : T) {k : Nat} {f : β}
    (hk : c.callbacks.get? k = some f) :
    (c.notices val).filter (fun n => n.key = k) = [⟨k, c.val, val⟩] := by
  have aux : ∀ l : List (Nat × β), l.Pairwise (fun a b => a.1 < b.1) → (k, f) ∈ l →
      (l.map fun g => (⟨g.1, c.val, val⟩ : Notice T)).filter (fun n => n.key = k) =
        [⟨k, c.val, val⟩] := by
    intro l hl hmem
    induction l with
    | nil => cases hmem
    | cons g gs ih =>
        obtain ⟨hg, hgs⟩ := List.pairwise_cons.mp hl
        rcases List.mem_cons.mp hmem with rfl | hmem
        · -- keys ascend strictly, so no listener after this one has the key
          have hnone : (gs.map fun g => (⟨g.1, c.val, val⟩ : Notice T)).filter
              (fun n => n.key = k) = [] := by
            rw [List.filter_eq_nil_iff]
            intro n hn
            obtain ⟨g, hgm, rfl⟩ := List.mem_map.mp hn
            simpa using (hg g hgm).ne'
          rw [List.map_cons, List.filter_cons_of_pos (by simp), hnone]
        · have hne : g.1 ≠ k := (hg _ hmem).ne
          rw [List.map_cons, List.filter_cons_of_neg (by simpa using hne)]
          exact ih hgs hmem
  exact aux _ c.callbacks.sorted (SortedMap.get?_eq_some.mp hk)

/-! ### The invariant of exclusive runs -/

/-- At most one call is between notification and assignment; the listeners have seen a
chain, and its end is the value that call is about to assign, or the one stored. -/
structure Orderly (c : ConfigVar T β) (s : Calls ι T β) : Prop where
  callbacks : s.var.callbacks = c.callbacks
  unique : ∀ i j v u, s.phase i = .notified v → s.phase j = .notified u → i = j
  chain : ∀ k f, c.callbacks.get? k = some f → Chain c.val (s.seen k)
  ahead : ∀ i v, s.phase i = .notified v →
    ∀ k f, c.callbacks.get? k = some f → final c.val (s.seen k) = v
  level : (∀ i v, s.phase i ≠ .notified v) →
    ∀ k f, c.callbacks.get? k = some f → final c.val (s.seen k) = s.var.val

variable {c : ConfigVar T β} {s s' : Calls ι T β}

theorem orderly_start (c : ConfigVar T β) : Orderly c (start c : Calls ι T β) where
  callbacks := rfl
  unique := nofun
  chain _ _ _ := trivial
  ahead := nofun
  level _ _ _ _ := rfl

theorem Orderly.inStep (h : Orderly c s) : InStep c s where
  chain := h.chain
  settled hidle k f hk := by
    refine (h.level (fun i v hi => ?_) k f hk).symm
    rw [hidle i] at hi
    cases hi

variable [DecidableEq ι]

/-- Comparing changes no phase that matters. -/
theorem Orderly.compare (h : Orderly c s) {i : ι} (hi : s.phase i = .idle) (val : T) :
    Orderly c { s with phase := Function.update s.phase i (.compared val) } := by
  have hphase : ∀ j v, Function.update s.phase i (.compared val) j = .notified v →
      s.phase j = .notified v := by
    intro j v hj
    by_cases hji : j = i
    · subst hji
      rw [Function.update_self] at hj
      cases hj
    · rwa [Function.update_of_ne hji] at hj
  refine ⟨h.callbacks, fun j k v u hj hk => h.unique j k v u (hphase j v hj) (hphase k u hk),
    h.chain, fun j v hj => h.ahead j v (hphase j v hj), fun hnone => h.level fun j v hj => ?_⟩
  apply hnone j v
  have hji : j ≠ i := by
    rintro rfl
    rw [hi] at hj
    cases hj
  simpa only [Function.update_of_ne hji] using hj

/-- A notification extends the chain: the value it starts from is the one the last
notification announced. -/
theorem Orderly.notify (h : Orderly c s) (hnone : ∀ j v, s.phase j ≠ .notified v) (i : ι) (val : T) :
    Orderly c { s with
      phase := Function.update s.phase i (.notified val)
      notices := s.notices ++ s.var.notices val } := by
  -- nobody was between notification and assignment, so now `i` alone is
  have honly : ∀ j v, Function.update s.phase i (.notified val) j = .notified v →
      j = i ∧ v = val := by
    intro j v hj
    by_cases hji : j = i
    · subst hji
      rw [Function.update_self] at hj
      exact ⟨rfl, (Phase.notified.inj hj).symm⟩
    · rw [Function.update_of_ne hji] at hj
      exact absurd hj (hnone j v)
  have hseen : ∀ k f, c.callbacks.get? k = some f →
      (s.notices ++ s.var.notices val).filter (fun n => n.key = k) =
        s.seen k ++ [⟨k, s.var.val, val⟩] := by
    intro k f hk
    rw [List.filter_append, filter_notices s.var val (h.callbacks ▸ hk)]
    rfl
  refine ⟨h.callbacks, ?_, ?_, ?_, ?_⟩
  · intro j k v u hj hk
    exact (honly j v hj).1.trans (honly k u hk).1.symm
  · intro k f hk
    rw [seen, hseen k f hk]
    exact (h.chain k f hk).append (h.level hnone k f hk).symm
  · intro j v hj k f hk
    rw [seen, hseen k f hk, final_append, (honly j v hj).2]
  · intro hno
    exact absurd (Function.update_self i (.notified val) s.phase) (hno i val)

/-- An assignment stores what was announced last. -/
theorem Orderly.assign (h : Orderly c s) {i : ι} {val : T} (hi : s.phase i = .notified val) :
    Orderly c { s with
      var := s.var.assign val
      phase := Function.update s.phase i .idle } := by
  -- `i` was the only one between notification and assignment
  have hnone : ∀ j v, Function.update s.phase i .idle j ≠ .notified v := by
    intro j v hj
    by_cases hji : j = i
    · subst hji
      rw [Function.update_self] at hj
      cases hj
    · rw [Function.update_of_ne hji] at hj
      exact hji (h.unique j i v val hj hi)
  exact ⟨h.callbacks, fun j _ v _ hj => absurd hj (hnone j v), h.chain,
    fun j v hj => absurd hj (hnone j v), fun _ k f hk => h.ahead i val hi k f hk⟩

variable [DecidableEq T]

/-- **Step lemma.** -/
theorem Orderly.step (h : Orderly c s) {a : Section ι T} (hs : Step s a s')
    (hexcl : Exclusive ⟨s, a, s'⟩) : Orderly c s' := by
  cases a with
  | compare i val =>
      obtain ⟨hi, hs⟩ := Option.ite_none_right_eq_some.mp hs
      obtain rfl := Option.some.inj hs
      split
      · exact h
      · exact h.compare hi val
  | notify i =>
      unfold Step next at hs
      cases hi : s.phase i with
      | compared val =>
          simp only [hi] at hs
          exact Option.some.inj hs ▸ h.notify (hexcl i rfl) i val
      | idle => simp [hi] at hs
      | notified val => simp [hi] at hs
  | assign i =>
      unfold Step next at hs
      cases hi : s.phase i with
      | notified val =>
          simp only [hi] at hs
          exact Option.some.inj hs ▸ h.assign hi
      | idle => simp [hi] at hs
      | compared val => simp [hi] at hs

/-- **Listeners stay in step with the variable** in every run in which no notification
falls between another one and its assignment: each sees a chain of values from the
initial one, which ends in the value stored whenever no call is in progress. -/
theorem listeners_in_step {tr : List (Taken (Calls ι T β) (Section ι T))} {t : Calls ι T β}
    (hrun : Run Step (start c) tr t) (hexcl : ∀ x ∈ tr, Exclusive x) :
    InStep c t ∧ ∀ x ∈ tr, InStep c x.source := by
  -- every state on the way ends a run of the same kind, an initial part of `tr`
  have horderly : ∀ {tr' : List (Taken (Calls ι T β) (Section ι T))} {u}, tr' <+: tr →
      Run Step (start c) tr' u → Orderly c u := by
    intro tr' u hpre hr
    exact hr.invariant_of (C := Exclusive) (orderly_start c) (fun _ _ _ h hs hC => h.step hs hC)
      fun x hx => hexcl x (hpre.subset hx)
  refine ⟨(horderly (List.prefix_refl tr) hrun).inStep, fun x hx => ?_⟩
  obtain ⟨⟨tr', hpre, hr⟩, _⟩ := hrun.mem hx
  exact (horderly hpre hr).inStep

/-- A variable that holds 0, with one listener. -/
def zero : ConfigVar Nat Unit := ⟨0, SortedMap.set SortedBy.empty 1 ()⟩

/-- Two callers set it, to 5 and to 7.  They compare at the same time, and then one has assigned
before the other notifies. -/
theorem listeners_in_step_zero :
    ∃ (tr : List (Taken (Calls Bool Nat Unit) (Section Bool Nat))) (t : Calls Bool Nat Unit),
      Run Step (start zero) tr t ∧
        tr.map Taken.label = [.compare true 5, .compare false 7, .notify true, .assign true,
          .notify false, .assign false] ∧
        t.var.val = 7 ∧ t.seen 1 = [⟨1, 0, 5⟩, ⟨1, 5, 7⟩] ∧
        InStep zero t ∧ ∀ x ∈ tr, InStep zero x.source := by
  have hrun : Run Step (start zero : Calls Bool Nat Unit) _ _ :=
    (((((Run.nil.snoc (show next _ (.compare true 5) = some _ from rfl)).snoc
      (show next _ (.compare false 7) = some _ from rfl)).snoc
      (show next _ (.notify true) = some _ from rfl)).snoc
      (show next _ (.assign true) = some _ from rfl)).snoc
      (show next _ (.notify false) = some _ from rfl)).snoc
      (show next _ (.assign false) = some _ from rfl)
  refine ⟨_, _, hrun, rfl, rfl, rfl, listeners_in_step hrun fun x hx i hi j v hj => ?_⟩
  -- nobody has notified at either notification
  simp only [List.nil_append, List.cons_append, List.mem_cons, List.not_mem_nil, or_false] at hx
  rcases hx with rfl | rfl | rfl | rfl | rfl | rfl <;> cases hi
  · cases j <;> cases hj
  · cases j <;> cases hj

/-- Two callers set it to 1 and to 2.  Both notify from 0, and the one that notified
first assigns last: the listener is left with 2, the variable with 1. -/
theorem listener_left_behind :
    ∃ (tr : List (Taken (Calls Bool Nat Unit) (Section Bool Nat))) (t : Calls Bool Nat Unit),
      Run Step (start zero) tr t ∧ (∀ i, t.phase i = .idle) ∧
        t.seen 1 = [⟨1, 0, 1⟩, ⟨1, 0, 2⟩] ∧ t.var.val = 1 ∧
        ¬ Chain zero.val (t.seen 1) ∧ t.var.val ≠ final zero.val (t.seen 1) := by
  have hrun : [Section.compare true 1, .compare false 2, .notify true, .notify false,
      .assign false, .assign true].foldlM next (start zero) = some _ := rfl
  obtain ⟨tr, hr⟩ := Run.of_foldlM hrun
  refine ⟨tr, _, hr, ?_, rfl, rfl, ?_, by decide⟩
  · intro i
    cases i <;> rfl
  · intro h
    exact absurd h.2.1 (by decide)

end Calls

end Sylar
