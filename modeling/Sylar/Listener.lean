/-
Sylar/Listener.lean

The listeners of configuration variables, one call after the other (config.hpp).

`setValue` calls the listeners in the order of their keys and stores the value
afterwards, so the first listener that throws ends the call: those before it
have been told of a value that is not stored (`observers_consistent_iff`).

Listeners that do not throw are told as one expects.  The keys come from a
counter that all variables of a type share, each variable keeps its own listeners
in the order of the keys, and a key is larger than all that were given out
before.  So a variable calls the listeners it was given and that were not taken
away, in the order in which they came (`listeners_called_in_order`).
-/
import Sylar.Config

namespace Sylar

open Transition

variable {T β : Type}

namespace ConfigVar

/-! ### One call -/

/-- What a call leaves: the variable, the listeners it has called, oldest first, and
whether the last of them threw. -/
structure Call (T β : Type) where
  var : ConfigVar T β
  notices : List (Notice T)
  threw : Bool

/-- The calls of listeners that returned. -/
def Call.returned (r : Call T β) : List (Notice T) :=
  if r.threw then r.notices.dropLast else r.notices

theorem Call.returned_subset (r : Call T β) : r.returned ⊆ r.notices := by
  unfold Call.returned
  split_ifs
  · exact r.notices.dropLast_subset
  · exact List.Subset.refl _

/-- The loop over the callbacks; `throws` says which function throws on which change. -/
def notifyAll (throws : β → T → T → Bool) (old new : T) :
    List (Nat × β) → List (Notice T) × Bool
  | [] => ([], false)
  | f :: fs =>
      if throws f.2 old new then ([⟨f.1, old, new⟩], true)
      else
        let r := notifyAll throws old new fs
        (⟨f.1, old, new⟩ :: r.1, r.2)

/-- `ConfigVar::setValue`. -/
def setValue [BEq T] (throws : β → T → T → Bool) (c : ConfigVar T β) (val : T) : Call T β :=
  if val == c.val then ⟨c, [], false⟩
  else
    let r := notifyAll throws c.val val c.callbacks.toList
    -- `m_val = val` is not reached by an exception
    if r.2 then ⟨c, r.1, true⟩ else ⟨c.assign val, r.1, false⟩

/-- `ConfigVar::fromString`, and whether it returned `true`. -/
def fromString [BEq T] (fromStr : String → Outcome Unit T) (throws : β → T → T → Bool)
    (c : ConfigVar T β) (s : String) : Outcome Unit (Call T β × Bool) :=
  match fromStr s with
  | .ret v =>
      let r := c.setValue throws v
      .ret (r, !r.threw)
  | .throw _ => .ret (⟨c, [], false⟩, false)
  | .exit n => .exit n
  | .crash => .crash

/-- The loop goes to its end, or up to the first listener that throws. -/
theorem notifyAll_cases (throws : β → T → T → Bool) (old new : T) (fs : List (Nat × β)) :
    ((∀ f ∈ fs, throws f.2 old new = false) ∧
      notifyAll throws old new fs = (fs.map fun f => ⟨f.1, old, new⟩, false)) ∨
    ∃ before f after, fs = before ++ f :: after ∧
      (∀ g ∈ before, throws g.2 old new = false) ∧ throws f.2 old new = true ∧
      notifyAll throws old new fs =
        ((before.map fun g => ⟨g.1, old, new⟩) ++ [⟨f.1, old, new⟩], true) := by
  induction fs with
  | nil => exact Or.inl ⟨fun _ hf => absurd hf List.not_mem_nil, rfl⟩
  | cons g fs ih =>
      by_cases hg : throws g.2 old new = true
      · refine Or.inr ⟨[], g, fs, rfl, fun _ hf => absurd hf List.not_mem_nil, hg, ?_⟩
        rw [notifyAll, if_pos hg]
        rfl
      · have hrest : notifyAll throws old new (g :: fs) =
            (⟨g.1, old, new⟩ :: (notifyAll throws old new fs).1,
              (notifyAll throws old new fs).2) := by
          rw [notifyAll, if_neg hg]
        have hg : throws g.2 old new = false := Bool.eq_false_iff.mpr hg
        rcases ih with ⟨hall, hrun⟩ | ⟨before, f, after, rfl, hbefore, hf, hrun⟩
        · left
          refine ⟨List.forall_mem_cons.mpr ⟨hg, hall⟩, ?_⟩
          rw [hrest, hrun]
          rfl
        · right
          refine ⟨g :: before, f, after, rfl, List.forall_mem_cons.mpr ⟨hg, hbefore⟩, hf, ?_⟩
          rw [hrest, hrun]
          rfl

variable [BEq T] {throws : β → T → T → Bool}

/-- **What an update does**: nothing if the value is the current one; else all listeners
are called and the value is stored, or they are called up to the first that throws and
the variable stays as it is. -/
theorem setValue_cases (throws : β → T → T → Bool) (c : ConfigVar T β) (val : T) :
    ((val == c.val) = true ∧ c.setValue throws val = ⟨c, [], false⟩) ∨
    ((val == c.val) = false ∧ (∀ f ∈ c.callbacks.toList, throws f.2 c.val val = false) ∧
      c.setValue throws val = ⟨c.assign val, c.notices val, false⟩) ∨
    ((val == c.val) = false ∧ ∃ before f after, c.callbacks.toList = before ++ f :: after ∧
      (∀ g ∈ before, throws g.2 c.val val = false) ∧ throws f.2 c.val val = true ∧
      c.setValue throws val =
        ⟨c, (before.map fun g => ⟨g.1, c.val, val⟩) ++ [⟨f.1, c.val, val⟩], true⟩) := by
  unfold setValue
  by_cases heq : (val == c.val) = true
  · exact Or.inl ⟨heq, if_pos heq⟩
  · rw [if_neg heq]
    have heq : (val == c.val) = false := Bool.eq_false_iff.mpr heq
    rcases notifyAll_cases throws c.val val c.callbacks.toList with
      ⟨hall, hrun⟩ | ⟨before, f, after, hfs, hbefore, hf, hrun⟩
    · exact Or.inr (Or.inl ⟨heq, hall, by rw [hrun]; rfl⟩)
    · exact Or.inr (Or.inr ⟨heq, before, f, after, hfs, hbefore, hf, by rw [hrun]; rfl⟩)

variable {c : ConfigVar T β} {v : T}

theorem setValue_callbacks (throws : β → T → T → Bool) (c : ConfigVar T β) (v : T) :
    (c.setValue throws v).var.callbacks = c.callbacks := by
  rcases setValue_cases throws c v with ⟨_, hr⟩ | ⟨_, _, hr⟩ | ⟨_, _, _, _, _, _, _, hr⟩
  · rw [hr]
  · rw [hr]
    rfl
  · rw [hr]

theorem setValue_threw (h : (c.setValue throws v).threw = true) :
    (c.setValue throws v).var = c := by
  rcases setValue_cases throws c v with ⟨_, hr⟩ | ⟨_, _, hr⟩ | ⟨_, _, _, _, _, _, _, hr⟩
  · rw [hr]
  · rw [hr] at h
    cases h
  · rw [hr]

/-- Only listeners are called, with the new value. -/
theorem setValue_notices {n : Notice T} (hn : n ∈ (c.setValue throws v).notices) :
    (∃ f ∈ c.callbacks.toList, f.1 = n.key) ∧ n.new = v := by
  rcases setValue_cases throws c v with
    ⟨_, hr⟩ | ⟨_, _, hr⟩ | ⟨_, before, f, after, hfs, _, _, hr⟩
  · rw [hr] at hn
    cases hn
  · rw [hr] at hn
    obtain ⟨f, hf, rfl⟩ := List.mem_map.mp hn
    exact ⟨⟨f, hf, rfl⟩, rfl⟩
  · rw [hr, List.mem_append, List.mem_singleton] at hn
    rw [hfs]
    rcases hn with hn | rfl
    · obtain ⟨g, hg, rfl⟩ := List.mem_map.mp hn
      exact ⟨⟨g, List.mem_append_left _ hg, rfl⟩, rfl⟩
    · exact ⟨⟨f, List.mem_append_right _ List.mem_cons_self, rfl⟩, rfl⟩

/-- A value equal to the current one is not stored, and nobody is told. -/
theorem setValue_of_beq (h : (v == c.val) = true) : c.setValue throws v = ⟨c, [], false⟩ :=
  if_pos h

end ConfigVar

open ConfigVar

/-! ### The same call on a registered variable -/

section Registered

variable {U : Types} {P : Program U} {throws : ∀ c, Nat → U.Val c → U.Val c → Bool}
  {what : String}

/-- The loop over the callbacks in a program whose listeners throw or do nothing. -/
theorem foldlM_callback (hP : ∀ c f old new p, P.callback c f old new p =
      if throws c f old new then .throw (p, what) else .ret p) {c : U.Code} (old new : U.Val c)
    (fs : List (Nat × Nat)) (p : Process U) :
    fs.foldlM (fun p f => P.callback c f.2 old new p) p =
      if (notifyAll (throws c) old new fs).2 then .throw (p, what) else .ret p := by
  induction fs with
  | nil => rfl
  | cons f fs ih =>
      rw [List.foldlM_cons, hP, notifyAll]
      split_ifs with hf hrest hrest
      · rfl
      · exact absurd rfl hrest
      · rw [Outcome.ret_bind, ih, if_pos hrest]
      · rw [Outcome.ret_bind, ih, if_neg hrest]

/-- **One call on a variable of the registry** throws or returns as it does on the variable
alone, and stores what it leaves there. -/
theorem config_setValue_eq (hP : ∀ c f old new p, P.callback c f old new p =
      if throws c f old new then .throw (p, what) else .ret p) {k : String} {x : Var U}
    {p : Process U} (hx : p.vars k = some x) (val : U.Val x.code) :
    ∃ p', p'.vars = Function.update p.vars k
        (some { x with var := (x.var.setValue (throws x.code) val).var }) ∧
      Config.setValue P k x val p =
        if (x.var.setValue (throws x.code) val).threw then .throw (p', what) else .ret p' := by
  have hself : Function.update p.vars k (some x) = p.vars :=
    Function.update_eq_self_iff.mpr hx.symm
  unfold Config.setValue ConfigVar.setValue
  rw [foldlM_callback hP]
  by_cases hval : val = x.var.val
  · rw [if_pos hval, if_pos (beq_iff_eq.mpr hval)]
    exact ⟨p, hself.symm, rfl⟩
  · rw [if_neg hval, if_neg (mt beq_iff_eq.mp hval)]
    by_cases hthrew : (notifyAll (throws x.code) x.var.val val x.var.callbacks.toList).2 = true
    · rw [if_pos hthrew, if_pos hthrew]
      exact ⟨p, hself.symm, rfl⟩
    · rw [if_neg hthrew, if_neg hthrew]
      exact ⟨{ p with data := p.data.set k (x.assign val) },
        SortedMap.get?_set p.data k (x.assign val), rfl⟩

end Registered

/-! ### What the observers know -/

/-- A call of a variable's user. -/
inductive Update (T : Type)
  | setValue (val : T)
  | fromString (s : String)

/-- A variable, and the calls of listeners so far, oldest first: all of them, and those
that returned. -/
structure Watched (T β : Type) where
  var : ConfigVar T β
  passed : List (Notice T)
  returned : List (Notice T)

namespace Update

/-- The value a call asks for; none if the conversion throws. -/
def asked (fromStr : String → Outcome Unit T) : Update T → Option T
  | setValue val => some val
  | fromString s => (fromStr s).value?

/-- The call, and whether it failed: an exception left `setValue`, or `fromString`
returned `false`. -/
def perform [BEq T] (fromStr : String → Outcome Unit T) (throws : β → T → T → Bool)
    (c : ConfigVar T β) : Update T → Outcome Unit (Call T β × Bool)
  | setValue val =>
      let r := c.setValue throws val
      .ret (r, r.threw)
  | fromString s => do
      let r ← c.fromString fromStr throws s
      pure (r.1, !r.2)

end Update

namespace Watched

/-- No listener has been called. -/
def start (c : ConfigVar T β) : Watched T β := ⟨c, [], []⟩

/-- One call and whether it failed.  The caller catches what `setValue` throws. -/
def Step [BEq T] (fromStr : String → Outcome Unit T) (throws : β → T → T → Bool)
    (s : Watched T β) (a : Update T × Bool) (s' : Watched T β) : Prop :=
  ∃ r, a.1.perform fromStr throws s.var = .ret (r, a.2) ∧
    s' = ⟨r.var, s.passed ++ r.notices, s.returned ++ r.returned⟩

/-- The last new value in the calls of each listener is `val`. -/
def Agree (log : List (Notice T)) (val : T) : Prop :=
  ∀ k n, (log.filter fun n => n.key = k).getLast? = some n → n.new = val

/-- No listener throws on the change asked for. -/
def NoneThrows [BEq T] (fromStr : String → Outcome Unit T) (throws : β → T → T → Bool)
    (x : Taken (Watched T β) (Update T × Bool)) : Prop :=
  ∀ v, x.label.1.asked fromStr = some v → (v == x.source.var.val) = false →
    ∀ f ∈ x.source.var.callbacks.toList, throws f.2 x.source.var.val v = false

/-- Unless the first listener throws on the change asked for, none does. -/
def OnlyFirstThrows [BEq T] (fromStr : String → Outcome Unit T) (throws : β → T → T → Bool)
    (x : Taken (Watched T β) (Update T × Bool)) : Prop :=
  ∀ v, x.label.1.asked fromStr = some v → (v == x.source.var.val) = false →
    ∀ f fs, x.source.var.callbacks.toList = f :: fs → throws f.2 x.source.var.val v = false →
      ∀ g ∈ fs, throws g.2 x.source.var.val v = false

variable {c : ConfigVar T β} {log ns : List (Notice T)} {v v' : T}

/-- Every listener that was told before is told again. -/
theorem agree_append (hkeys : ∀ n ∈ log, ∃ m ∈ ns, m.key = n.key) (hnew : ∀ m ∈ ns, m.new = v) :
    Agree (log ++ ns) v := by
  intro k n hn
  rw [List.filter_append] at hn
  cases hns : ns.filter (fun n => n.key = k) with
  | nil =>
      -- nobody under this key is told now, so nobody was before
      rw [hns, List.append_nil] at hn
      obtain ⟨hmem, hk⟩ := List.mem_filter.mp (List.mem_of_getLast? hn)
      obtain ⟨m, hm, hkey⟩ := hkeys n hmem
      have hmk : m ∈ ns.filter fun n => n.key = k :=
        List.mem_filter.mpr ⟨hm, decide_eq_true (hkey.trans (of_decide_eq_true hk))⟩
      rw [hns] at hmk
      cases hmk
  | cons m ms =>
      have hmem : n ∈ ns.filter fun n => n.key = k := by
        rw [hns] at hn ⊢
        rw [List.getLast?_append_of_ne_nil _ (List.cons_ne_nil m ms)] at hn
        exact List.mem_of_getLast? hn
      exact hnew n (List.mem_filter.mp hmem).1

/-- Telling anybody of another value than the one stored leaves them apart. -/
theorem agree_append_iff (hv : v' ≠ v) (hnew : ∀ m ∈ ns, m.new = v') :
    Agree (log ++ ns) v ↔ ns = [] ∧ Agree log v := by
  constructor
  · intro h
    rcases List.eq_nil_or_concat ns with rfl | ⟨ms, m, rfl⟩
    · exact ⟨rfl, by rwa [List.append_nil] at h⟩
    · have hm : [m].filter (fun n => n.key = m.key) = [m] := by simp
      refine absurd (h m.key m ?_) ?_
      · rw [List.concat_eq_append, ← List.append_assoc, List.filter_append, hm]
        exact List.getLast?_concat
      · rw [hnew m (by simp)]
        exact hv
  · rintro ⟨rfl, h⟩
    rwa [List.append_nil]

/-- Between calls: whoever was told is a listener, and was last told of the value
stored. -/
structure Level (c : ConfigVar T β) (log : List (Notice T)) : Prop where
  keys : ∀ n ∈ log, ∃ f ∈ c.callbacks.toList, f.1 = n.key
  agree : Agree log c.val

theorem Level.agree_notices (h : Level c log) (v : T) : Agree (log ++ c.notices v) v := by
  refine agree_append (fun n hn => ?_) fun m hm => ?_
  · obtain ⟨f, hf, hkey⟩ := h.keys n hn
    exact ⟨_, List.mem_map.mpr ⟨f, hf, rfl⟩, hkey⟩
  · obtain ⟨f, _, rfl⟩ := List.mem_map.mp hm
    rfl

section Calls

variable [BEq T] {fromStr : String → Outcome Unit T} {throws : β → T → T → Bool}

/-- A call sets the value it asks for; without one it does nothing. -/
theorem perform_cases {u : Update T} {r : Call T β} {failed : Bool}
    (h : u.perform fromStr throws c = .ret (r, failed)) :
    (∃ v, u.asked fromStr = some v ∧ r = c.setValue throws v ∧ failed = r.threw) ∨
    (u.asked fromStr = none ∧ r = ⟨c, [], false⟩) := by
  cases u with
  | setValue val =>
      obtain ⟨rfl, rfl⟩ := Prod.mk.inj (Outcome.ret.inj h)
      exact Or.inl ⟨val, rfl, rfl, rfl⟩
  | fromString s =>
      obtain ⟨q, hq, hret⟩ := Outcome.bind_eq_ret.mp h
      obtain ⟨rfl, rfl⟩ := Prod.mk.inj (Outcome.ret.inj hret)
      unfold ConfigVar.fromString at hq
      cases hconv : fromStr s with
      | ret v =>
          rw [hconv] at hq
          obtain rfl := Outcome.ret.inj hq
          exact Or.inl ⟨v, congrArg Outcome.value? hconv, rfl, Bool.not_not _⟩
      | throw e =>
          rw [hconv] at hq
          obtain rfl := Outcome.ret.inj hq
          exact Or.inr ⟨congrArg Outcome.value? hconv, rfl⟩
      | exit n => rw [hconv] at hq; cases hq
      | crash => rw [hconv] at hq; cases hq

/-- One log of calls over a run, with what each call adds to it. -/
theorem forall_agree_iff (part : Call T β → List (Notice T)) (log : Watched T β → List (Notice T))
    (Fine : ConfigVar T β → T → Prop) (hsub : ∀ r, part r ⊆ r.notices)
    (hlog : ∀ (s : Watched T β) (r : Call T β),
      log ⟨r.var, s.passed ++ r.notices, s.returned ++ r.returned⟩ = log s ++ part r)
    (hset : ∀ c l v, Level c l → (Agree (l ++ part (c.setValue throws v))
      (c.setValue throws v).var.val ↔ ((v == c.val) = false → Fine c v)))
    {s t : Watched T β} {tr : List (Taken (Watched T β) (Update T × Bool))}
    (h0 : Level s.var (log s)) (hrun : Run (Step fromStr throws) s tr t) :
    (∀ x ∈ tr, Agree (log x.target) x.target.var.val) ↔
      ∀ x ∈ tr, ∀ v, x.label.1.asked fromStr = some v → (v == x.source.var.val) = false →
        Fine x.source.var v := by
  refine Run.forall_iff (I := fun s => Level s.var (log s)) h0 ?_ hrun
  rintro s a s' h ⟨r, hr, hs⟩
  rcases perform_cases hr with ⟨v, hasked, rfl, _⟩ | ⟨hasked, rfl⟩
  · subst hs
    dsimp only
    rw [hlog, hasked]
    refine ⟨?_, fun hagree => ⟨fun n hn => ?_, hagree⟩⟩
    · rw [hset s.var (log s) v h]
      exact ⟨fun hfine w hw => Option.some.inj hw ▸ hfine, fun hfine => hfine v rfl⟩
    · rw [setValue_callbacks]
      rcases List.mem_append.mp hn with hn | hn
      · exact h.keys n hn
      · exact (setValue_notices (hsub _ hn)).1
  · -- no value was asked for, and nobody was called
    have hsame : s' = s := by
      rw [hs]
      simp [Call.returned]
    rw [hsame, hasked]
    exact ⟨iff_of_true h.agree (fun _ hv => by cases hv), fun _ => h⟩

variable [LawfulBEq T]

/-- Counting every call of a listener, an update keeps everybody level exactly when
nobody throws. -/
theorem Level.agree_passed_iff (h : Level c log) (v : T) :
    Agree (log ++ (c.setValue throws v).notices) (c.setValue throws v).var.val ↔
      ((v == c.val) = false → ∀ f ∈ c.callbacks.toList, throws f.2 c.val v = false) := by
  have hnew : ∀ m ∈ (c.setValue throws v).notices, m.new = v := fun m hm => (setValue_notices hm).2
  rcases setValue_cases throws c v with
    ⟨heq, hr⟩ | ⟨heq, hall, hr⟩ | ⟨heq, before, f, after, hfs, _, hf, hr⟩
  · rw [hr, List.append_nil, heq]
    exact iff_of_true h.agree fun hne => by cases hne
  · rw [hr]
    exact iff_of_true (h.agree_notices v) fun _ => hall
  · have hvar : (c.setValue throws v).var = c := by rw [hr]
    rw [hvar, agree_append_iff (ne_of_beq_false heq) hnew]
    refine iff_of_false ?_ fun hnone => ?_
    · rintro ⟨hnil, _⟩
      rw [hr] at hnil
      exact absurd hnil (by simp)
    · have hfalse := hnone heq f (by rw [hfs]; simp)
      rw [hf] at hfalse
      cases hfalse

/-- Counting the calls that returned, it may be the first listener that throws. -/
theorem Level.agree_returned_iff (h : Level c log) (v : T) :
    Agree (log ++ (c.setValue throws v).returned) (c.setValue throws v).var.val ↔
      ((v == c.val) = false → ∀ f fs, c.callbacks.toList = f :: fs →
        throws f.2 c.val v = false → ∀ g ∈ fs, throws g.2 c.val v = false) := by
  have hnew : ∀ m ∈ (c.setValue throws v).returned, m.new = v :=
    fun m hm => (setValue_notices (Call.returned_subset _ hm)).2
  rcases setValue_cases throws c v with
    ⟨heq, hr⟩ | ⟨heq, hall, hr⟩ | ⟨heq, before, f, after, hfs, hbefore, hf, hr⟩
  · have hret : (c.setValue throws v).returned = [] := by rw [hr]; rfl
    rw [hret, hr, List.append_nil, heq]
    exact iff_of_true h.agree fun hne => by cases hne
  · rw [hr]
    refine iff_of_true (h.agree_notices v) fun _ g fs hgs _ f hf => hall f ?_
    rw [hgs]
    exact List.mem_cons_of_mem g hf
  · have hvar : (c.setValue throws v).var = c := by rw [hr]
    have hret : (c.setValue throws v).returned = before.map fun g => ⟨g.1, c.val, v⟩ := by
      rw [hr, Call.returned, if_pos rfl, List.dropLast_concat]
    rw [hvar, agree_append_iff (ne_of_beq_false heq) hnew, hret, hfs, List.map_eq_nil_iff]
    cases before with
    | nil =>
        refine iff_of_true ⟨rfl, h.agree⟩ fun _ g fs hgs hg => ?_
        obtain ⟨rfl, rfl⟩ := List.cons.inj hgs
        rw [hf] at hg
        cases hg
    | cons g before =>
        -- `g` was told and returned, and `f` threw after it
        apply iff_of_false (fun h => absurd h.1 (List.cons_ne_nil g before))
        intro hfirst
        have hfalse := hfirst heq g (before ++ f :: after) rfl
          (hbefore g List.mem_cons_self) f (by simp)
        rw [hf] at hfalse
        cases hfalse

/-- **What observers know after failed updates.**  In every run of calls on a variable
whose listeners have not been called yet, a call that fails leaves the variable as it is.
The value last passed to each listener is the one stored after every call exactly when no
listener throws on a change it is told of; counting only the calls of listeners that
returned, exactly when no listener throws that stands behind one that does not. -/
theorem observers_consistent_iff {tr : List (Taken (Watched T β) (Update T × Bool))}
    {t : Watched T β} (hrun : Run (Step fromStr throws) (start c) tr t) :
    (∀ x ∈ tr, x.label.2 = true → x.target.var = x.source.var) ∧
      ((∀ x ∈ tr, Agree x.target.passed x.target.var.val) ↔
        ∀ x ∈ tr, NoneThrows fromStr throws x) ∧
      ((∀ x ∈ tr, Agree x.target.returned x.target.var.val) ↔
        ∀ x ∈ tr, OnlyFirstThrows fromStr throws x) := by
  have h0 : Level c [] := ⟨fun _ hn => absurd hn List.not_mem_nil, fun _ _ hn => by cases hn⟩
  refine ⟨?_, ?_, ?_⟩
  · intro x hx hfailed
    obtain ⟨r, hr, ht⟩ := (hrun.mem hx).2
    rw [ht]
    rcases perform_cases hr with ⟨v, _, rfl, hthrew⟩ | ⟨_, rfl⟩
    · exact setValue_threw (hthrew.symm.trans hfailed)
    · rfl
  · exact forall_agree_iff Call.notices Watched.passed _ (fun r => List.Subset.refl _)
      (fun _ _ => rfl) (fun _ _ v h => h.agree_passed_iff v) h0 hrun
  · exact forall_agree_iff Call.returned Watched.returned _ Call.returned_subset
      (fun _ _ => rfl) (fun _ _ v h => h.agree_returned_iff v) h0 hrun

end Calls

/-- A variable that holds 0 with two listeners, of which only the one numbered 1 may
throw. -/
def pair : ConfigVar Nat Nat :=
  ⟨0, SortedMap.set (SortedMap.set SortedBy.empty 1 0) 2 1⟩

/-- The conversion always throws. -/
def noConversion : String → Outcome Unit Nat := fun _ => .throw ()

/-- The listener numbered 1 never wants another value than 5. -/
def insists : Nat → Nat → Nat → Bool := fun f _ new => f = 1 && new ≠ 5

/-- Setting it to 5, which both accept. -/
theorem observers_consistent_iff_accepted :
    let t : Watched Nat Nat := ⟨pair.assign 5, pair.notices 5, pair.notices 5⟩
    Agree t.passed t.var.val := by
  intro t
  let x : Taken (Watched Nat Nat) (Update Nat × Bool) := ⟨start pair, (.setValue 5, false), t⟩
  have hrun : Run (Step noConversion insists) (start pair) [x] t :=
    Run.nil.snoc (t := start pair) ⟨⟨pair.assign 5, pair.notices 5, false⟩, rfl, rfl⟩
  refine (observers_consistent_iff hrun).2.1.mpr (fun y hy v hv hne => ?_) x
    (List.mem_singleton.mpr rfl)
  obtain rfl := List.mem_singleton.mp hy
  obtain rfl := Option.some.inj hv
  decide

/-- Setting it to 7 fails, since the second listener throws; the first one has been told
of 7, and the variable holds 0. -/
theorem observer_left_behind :
    ∃ (x : Taken (Watched Nat Nat) (Update Nat × Bool)),
      Run (Step noConversion insists) (start pair) [x] x.target ∧ x.label.2 = true ∧
        x.target.var.val = 0 ∧ x.target.returned = [⟨1, 0, 7⟩] ∧
        ¬ Agree x.target.passed x.target.var.val ∧
        ¬ Agree x.target.returned x.target.var.val := by
  refine ⟨⟨start pair, (.setValue 7, true), ⟨pair, pair.notices 7, [⟨1, 0, 7⟩]⟩⟩,
    Run.nil.snoc (t := start pair) ⟨⟨pair, pair.notices 7, true⟩, rfl, rfl⟩, rfl, rfl, rfl, ?_, ?_⟩
  · intro h
    exact absurd (h 1 ⟨1, 0, 7⟩ rfl) (by decide)
  · intro h
    exact absurd (h 1 ⟨1, 0, 7⟩ rfl) (by decide)

end Watched

/-! ### Keys -/

namespace ConfigVar

/-- `++s_fun_id`, a `uint64_t`. -/
def nextFunId (s_fun_id : Nat) : Nat := (s_fun_id + 1) % 2 ^ 64

/-- `ConfigVar::addListener`, with the counter that the variables of a type share: the key
returned, which is the new counter, and the variable. -/
def addListener (s_fun_id : Nat) (cb : β) (c : ConfigVar T β) : Nat × ConfigVar T β :=
  let s_fun_id := nextFunId s_fun_id
  (s_fun_id, { c with callbacks := c.callbacks.set s_fun_id cb })

/-- `ConfigVar::delListener`. -/
def delListener (key : Nat) (c : ConfigVar T β) : ConfigVar T β :=
  { c with callbacks := c.callbacks.erase key }

/-- `ConfigVar::getListener`. -/
def getListener (key : Nat) (c : ConfigVar T β) : Option β := c.callbacks.get? key

/-- `ConfigVar::clearListener`. -/
def clearListener (c : ConfigVar T β) : ConfigVar T β := { c with callbacks := SortedBy.empty }

end ConfigVar

/-- The variables of one type, and the counter they share. -/
structure Instances (ι T β : Type) where
  s_fun_id : Nat
  vars : ι → ConfigVar T β

/-- A call on the variable `i`, with what it returned or whom it called. -/
inductive Event (ι T β : Type)
  | addListener (i : ι) (cb : β) (key : Nat)
  | delListener (i : ι) (key : Nat)
  | getListener (i : ι) (key : Nat) (result : Option β)
  | clearListener (i : ι)
  | setValue (i : ι) (val : T) (notices : List (Notice T))

namespace Event

variable {ι : Type}

/-- The key a call has given out. -/
def added : Event ι T β → Option Nat
  | addListener _ _ key => some key
  | _ => none

/-- The keys given out by the calls, in order. -/
def keys (es : List (Event ι T β)) : List Nat := es.filterMap added

theorem keys_length_le (es es' : List (Event ι T β)) :
    (keys es).length ≤ (keys (es ++ es')).length := by
  rw [keys, keys, List.filterMap_append, List.length_append]
  exact Nat.le_add_right _ _

/-- One call, for `live`. -/
def liveStep [DecidableEq ι] (i : ι) (l : List (Nat × β)) : Event ι T β → List (Nat × β)
  | addListener j cb key => if j = i then l ++ [(key, cb)] else l
  | delListener j key => if j = i then l.filter fun f => f.1 ≠ key else l
  | clearListener j => if j = i then [] else l
  | getListener _ _ _ => l
  | setValue _ _ _ => l

/-- The listeners that the calls have added to `i` and not taken away since, in the order
in which they were added. -/
def live [DecidableEq ι] (i : ι) (es : List (Event ι T β)) : List (Nat × β) :=
  es.foldl (liveStep i) []

end Event

namespace Instances

open Event

variable {ι : Type} [DecidableEq ι]

/-- Nothing has been added to the variables. -/
def start (vals : ι → T) : Instances ι T β := ⟨0, fun i => ⟨vals i, SortedBy.empty⟩⟩

/-- One call; listeners do not throw. -/
inductive Step [BEq T] (s : Instances ι T β) : Event ι T β → Instances ι T β → Prop
  | addListener (i : ι) (cb : β) :
      Step s (.addListener i cb ((s.vars i).addListener s.s_fun_id cb).1)
        ⟨((s.vars i).addListener s.s_fun_id cb).1,
          Function.update s.vars i ((s.vars i).addListener s.s_fun_id cb).2⟩
  | delListener (i : ι) (key : Nat) :
      Step s (.delListener i key)
        { s with vars := Function.update s.vars i ((s.vars i).delListener key) }
  | getListener (i : ι) (key : Nat) :
      Step s (.getListener i key ((s.vars i).getListener key)) s
  | clearListener (i : ι) :
      Step s (.clearListener i)
        { s with vars := Function.update s.vars i (s.vars i).clearListener }
  | setValue (i : ι) (val : T) :
      Step s (.setValue i val ((s.vars i).setValue (fun _ _ _ => false) val).notices)
        { s with
          vars := Function.update s.vars i ((s.vars i).setValue (fun _ _ _ => false) val).var }

/-- What is expected of a call that was made after the calls `es`. -/
def AsExpected [BEq T] (es : List (Event ι T β))
    (x : Taken (Instances ι T β) (Event ι T β)) : Prop :=
  let c := x.source.vars
  let c' := x.target.vars
  match x.label with
  | .addListener i cb key =>
      -- the other variables, the value and the other listeners stay
      c' = Function.update c i (c' i) ∧ (c' i).val = (c i).val ∧
        (c' i).callbacks.toList = (c i).callbacks.toList ++ [(key, cb)]
  | .delListener i key =>
      c' = Function.update c i (c' i) ∧ (c' i).val = (c i).val ∧
        -- at most one listener goes, the one registered under the key
        (c i).callbacks.toList.filter (fun f => f.1 = key) =
          (((c i).getListener key).map fun cb => (key, cb)).toList ∧
        (c' i).callbacks.toList = (c i).callbacks.toList.filter fun f => f.1 ≠ key
  | .getListener i key result =>
      c' = c ∧ ∀ cb, result = some cb ↔ (key, cb) ∈ live i es
  | .clearListener i =>
      c' = Function.update c i (c' i) ∧ (c' i).val = (c i).val ∧ (c' i).callbacks.toList = []
  | .setValue i val notices =>
      if val == (c i).val then notices = [] ∧ c' = c
      else notices = (live i es).map (fun f => ⟨f.1, (c i).val, val⟩) ∧
        c' = Function.update c i ((c i).assign val)

/-- What holds after the calls `es`, as long as the counter has not come round. -/
structure Counted (es : List (Event ι T β)) (s : Instances ι T β) : Prop where
  s_fun_id : s.s_fun_id = (keys es).length
  keys_eq : keys es = List.range' 1 s.s_fun_id
  callbacks : ∀ i, (s.vars i).callbacks.toList = live i es
  bound : ∀ i, ∀ f ∈ live i es, f.1 ≤ s.s_fun_id

variable {es : List (Event ι T β)} {e : Event ι T β} {s s' : Instances ι T β}

theorem live_concat (i : ι) (es : List (Event ι T β)) (e : Event ι T β) :
    live i (es ++ [e]) = liveStep i (live i es) e := by
  rw [live, List.foldl_append]
  rfl

theorem callbacks_update (vars : ι → ConfigVar T β) (i : ι) (c : ConfigVar T β) (j : ι) :
    (Function.update vars i c j).callbacks.toList =
      if i = j then c.callbacks.toList else (vars j).callbacks.toList := by
  split_ifs with hj
  · subst hj
    rw [Function.update_self]
  · rw [Function.update_of_ne (Ne.symm hj)]

theorem counted_start (vals : ι → T) : Counted [] (start vals : Instances ι T β) where
  s_fun_id := rfl
  keys_eq := rfl
  callbacks _ := rfl
  bound _ _ hf := absurd hf List.not_mem_nil

/-- A call that gives out no key adds no listener. -/
theorem Counted.of_not_added (h : Counted es s) (he : e.added = none)
    (hid : s'.s_fun_id = s.s_fun_id)
    (hcallbacks : ∀ i, (s'.vars i).callbacks.toList = liveStep i (s.vars i).callbacks.toList e) :
    Counted (es ++ [e]) s' := by
  have hkeys : keys (es ++ [e]) = keys es := by
    rw [keys, keys, List.filterMap_append, List.filterMap_cons_none he, List.filterMap_nil,
      List.append_nil]
  have hsub : ∀ i l, liveStep i l e ⊆ l := by
    intro i l
    cases e with
    | addListener j cb key => cases he
    | delListener j key =>
        rw [liveStep]
        split_ifs
        · exact List.filter_subset_self l
        · exact List.Subset.refl l
    | getListener j key result => exact List.Subset.refl l
    | clearListener j =>
        rw [liveStep]
        split_ifs
        · exact List.nil_subset l
        · exact List.Subset.refl l
    | setValue j val notices => exact List.Subset.refl l
  refine ⟨by rw [hkeys, hid, h.s_fun_id], by rw [hkeys, hid, h.keys_eq], fun i => ?_, fun i f hf => ?_⟩
  · rw [hcallbacks, h.callbacks, live_concat]
  · rw [live_concat] at hf
    rw [hid]
    exact h.bound i f (hsub i _ hf)

/-- A key given out is the number of keys given out so far. -/
theorem Counted.addListener_fst (h : Counted es s) (hlen : (keys es).length + 1 < 2 ^ 64) (i : ι)
    (cb : β) : ((s.vars i).addListener s.s_fun_id cb).1 = s.s_fun_id + 1 :=
  Nat.mod_eq_of_lt (by rw [h.s_fun_id]; exact hlen)

/-- The new listener comes last. -/
theorem Counted.addListener_snd (h : Counted es s) (hlen : (keys es).length + 1 < 2 ^ 64) (i : ι)
    (cb : β) : ((s.vars i).addListener s.s_fun_id cb).2.callbacks.toList =
      (s.vars i).callbacks.toList ++ [(((s.vars i).addListener s.s_fun_id cb).1, cb)] := by
  apply SortedBy.toList_assign_of_forall_lt
  intro f hf
  have hbound := h.bound i f (h.callbacks i ▸ hf)
  have hfst := h.addListener_fst hlen i cb
  show f.1 < ((s.vars i).addListener s.s_fun_id cb).1
  omega

/-- **Step lemma.** -/
theorem Counted.step [BEq T] (h : Counted es s) (hs : Step s e s')
    (hlen : (keys (es ++ [e])).length < 2 ^ 64) : Counted (es ++ [e]) s' := by
  cases hs with
  | addListener i cb =>
      have hkeys : ∀ key, keys (es ++ [.addListener i cb key]) = keys es ++ [key] := by
        intro key
        rw [keys, keys, List.filterMap_append]
        rfl
      rw [hkeys, List.length_append] at hlen
      have hfst := h.addListener_fst hlen i cb
      have hsnd := h.addListener_snd hlen i cb
      refine ⟨?_, ?_, fun j => ?_, fun j f hf => ?_⟩
      · rw [hkeys, List.length_append, hfst, h.s_fun_id]
        rfl
      · rw [hkeys, hfst, h.keys_eq, List.range'_1_concat, Nat.add_comm]
      · rw [live_concat, liveStep, ← h.callbacks, callbacks_update, hsnd]
        split_ifs with hj
        · rw [hj]
        · rfl
      · rw [live_concat, liveStep] at hf
        show f.1 ≤ ((s.vars i).addListener s.s_fun_id cb).1
        rw [hfst]
        split_ifs at hf
        · rcases List.mem_append.mp hf with hf | hf
          · exact (h.bound j f hf).trans (Nat.le_succ _)
          · obtain rfl := List.mem_singleton.mp hf
            exact hfst.le
        · exact (h.bound j f hf).trans (Nat.le_succ _)
  | delListener i key =>
      refine h.of_not_added rfl rfl fun j => ?_
      rw [callbacks_update, liveStep]
      split_ifs with hj
      · rw [← hj]
        rfl
      · rfl
  | getListener i key => exact h.of_not_added rfl rfl fun _ => rfl
  | clearListener i =>
      refine h.of_not_added rfl rfl fun j => ?_
      rw [callbacks_update, liveStep]
      split_ifs
      · rfl
      · rfl
  | setValue i val =>
      refine h.of_not_added rfl rfl fun j => ?_
      rw [callbacks_update, setValue_callbacks]
      split_ifs with hj
      · rw [← hj]
        rfl
      · rfl

/-- A call made in such a state does what is expected of it. -/
theorem Counted.asExpected [BEq T] (h : Counted es s) (hs : Step s e s')
    (hlen : (keys (es ++ [e])).length < 2 ^ 64) : AsExpected es ⟨s, e, s'⟩ := by
  cases hs with
  | addListener i cb =>
      have hlen : (keys es).length + 1 < 2 ^ 64 := by
        rwa [keys, List.filterMap_append, List.length_append] at hlen
      refine ⟨?_, ?_, ?_⟩
      · dsimp only
        rw [Function.update_self]
      · dsimp only
        rw [Function.update_self]
        rfl
      · dsimp only
        rw [Function.update_self]
        exact h.addListener_snd hlen i cb
  | delListener i key =>
      refine ⟨?_, ?_, ?_, ?_⟩
      · dsimp only
        rw [Function.update_self]
      · dsimp only
        rw [Function.update_self]
        rfl
      · exact SortedMap.filter_key_eq (s.vars i).callbacks key
      · dsimp only
        rw [Function.update_self]
        rfl
  | getListener i key =>
      refine ⟨rfl, fun cb => ?_⟩
      rw [ConfigVar.getListener, SortedMap.get?_eq_some, SortedBy.mem_def, h.callbacks]
  | clearListener i =>
      refine ⟨?_, ?_, ?_⟩
      · dsimp only
        rw [Function.update_self]
      · dsimp only
        rw [Function.update_self]
        rfl
      · dsimp only
        rw [Function.update_self]
        rfl
  | setValue i val =>
      unfold AsExpected
      dsimp only
      rcases setValue_cases (fun _ _ _ => false) (s.vars i) val with
        ⟨heq, hr⟩ | ⟨heq, _, hr⟩ | ⟨_, _, _, _, _, _, hf, _⟩
      · rw [if_pos heq, hr]
        exact ⟨rfl, Function.update_eq_self i s.vars⟩
      · rw [heq, hr, ← h.callbacks]
        exact ⟨rfl, rfl⟩
      · cases hf

/-- **Listeners are called as they were registered.**  In every run of calls on any number
of variables with fewer than `2 ^ 64` additions, all keys given out are different, and
every call does what is expected of it after the calls before it: `delListener` takes away
at most the listener of that variable with that key, and `setValue` with another value
calls the listeners added to the variable and not removed since, each once and in the
order of registration, and then stores the value. -/
theorem listeners_called_in_order [BEq T] {vals : ι → T}
    {tr : List (Taken (Instances ι T β) (Event ι T β))} {t : Instances ι T β}
    (hrun : Run Step (start vals) tr t)
    (hadds : (keys (tr.map Taken.label)).length < 2 ^ 64) :
    (keys (tr.map Taken.label)).Nodup ∧
      ∀ tr₁ x tr₂, tr = tr₁ ++ x :: tr₂ → AsExpected (tr₁.map Taken.label) x := by
  have hcounted : ∀ {tr t}, Run Step (start vals) tr t →
      (keys (tr.map Taken.label)).length < 2 ^ 64 →
        Counted (tr.map Taken.label) (t : Instances ι T β) := by
    intro tr t hrun
    induction hrun with
    | nil => exact fun _ => counted_start vals
    | @snoc tr t a u _ hs ih =>
        intro hlen
        rw [List.map_append] at hlen ⊢
        exact (ih (lt_of_le_of_lt (keys_length_le _ _) hlen)).step hs hlen
  refine ⟨?_, ?_⟩
  · rw [(hcounted hrun hadds).keys_eq]
    exact List.nodup_range'
  · rintro tr₁ x tr₂ rfl
    obtain ⟨hrun₁, hs⟩ := hrun.split
    rw [List.map_append, List.map_cons, ← List.singleton_append, ← List.append_assoc] at hadds
    have hlen := lt_of_le_of_lt (keys_length_le _ _) hadds
    exact (hcounted hrun₁ (lt_of_le_of_lt (keys_length_le _ _) hlen)).asExpected hs hlen

/-- Two variables with one listener each; the first is set. -/
theorem listeners_called_in_order_two :
    ∃ (tr : List (Taken (Instances Bool Nat Unit) (Event Bool Nat Unit))) (t : _),
      Run Step (start fun _ => 0) tr t ∧
        tr.map Taken.label = [.addListener false () 1, .addListener true () 2,
          .setValue false 5 [⟨1, 0, 5⟩]] ∧
        (keys (tr.map Taken.label)).Nodup ∧
        ∀ tr₁ x tr₂, tr = tr₁ ++ x :: tr₂ → AsExpected (tr₁.map Taken.label) x := by
  have hrun : ∃ (tr : List (Taken (Instances Bool Nat Unit) (Event Bool Nat Unit))) (t : _),
      Run Step (start fun _ => 0) tr t ∧ tr.map Taken.label = [.addListener false () 1,
        .addListener true () 2, .setValue false 5 [⟨1, 0, 5⟩]] :=
    ⟨_, _, ((Run.nil.snoc (.addListener false ())).snoc (.addListener true ())).snoc
      (.setValue false 5), rfl⟩
  obtain ⟨tr, t, hrun, hlabels⟩ := hrun
  refine ⟨tr, t, hrun, hlabels, listeners_called_in_order hrun ?_⟩
  rw [hlabels]
  decide

end Instances

end Sylar
