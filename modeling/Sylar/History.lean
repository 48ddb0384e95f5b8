/-
Sylar/History.lean

What a variable holds after everything a program has done with its configuration
(config.hpp, config.cpp).

Loads, `Lookup`, `fromString` and `setValue` come in any order, listeners come and go, and
the logging module is used in between.  `writes k c e` lists what the event `e` asks for in
a variable under the key `k` whose values are of the type `c`: the texts of a document that
convert, a text that converts, a value that is set.  `value_since_registration` says that
the variable holds the last of what has been asked for since it was registered, or else the
default it was registered with.  In particular a document leaves nothing behind for
variables that are registered later, and a later `Lookup` changes neither the type nor the
value.

The listeners may end the process, but neither throw nor write configuration.  So the
results are about calls that have returned.
-/
import Sylar.Meaning
import Sylar.ConfigLocking

namespace Sylar

open Config Transition Yaml

variable {U : Types} {P : Program U} {p p' : Process U} {k : String} {env : Env} {x : Var U}

/-! ### Calls that have returned -/

/-- No listener throws, and those that return have written no configuration. -/
def Program.Harmless (P : Program U) : Prop :=
  ∀ c f old new p, (∀ e, P.callback c f old new p ≠ .throw e) ∧
    ∀ p', P.callback c f old new p = .ret p' → p'.vars = p.vars

theorem Program.Quiet.harmless (hP : P.Quiet) : P.Harmless := by
  intro c f old new p
  obtain ⟨q, hq, hvars⟩ := hP c f old new p trivial
  rw [hq]
  refine ⟨fun e => nofun, fun p' hp' => ?_⟩
  rw [← Outcome.ret.inj hp', hvars]

namespace Config

theorem setValue_ne_throw (hP : P.Harmless) {val : U.Val x.code} (e : Thrown U) :
    setValue P k x val p ≠ .throw e := by
  unfold setValue
  split_ifs
  · exact nofun
  · intro h
    cases hloop : x.var.callbacks.toList.foldlM
        (fun p f => P.callback x.code f.2 x.var.val val p) p with
    | throw e' =>
        exact Outcome.foldlM_ne_throw (fun t f _ => (hP x.code f.2 x.var.val val t).1) e' hloop
    | ret q =>
        rw [hloop] at h
        cases h
    | exit n =>
        rw [hloop] at h
        cases h
    | crash =>
        rw [hloop] at h
        cases h

theorem setValue_returned (hP : P.Harmless) (hx : p.vars k = some x) {val : U.Val x.code}
    (h : setValue P k x val p = .ret p') :
    p'.vars = Function.update p.vars k (some (x.assign val)) := by
  unfold setValue at h
  split_ifs at h with hval
  · obtain rfl := Outcome.ret.inj h
    subst hval
    exact (Function.update_eq_self_iff.mpr hx.symm).symm
  · obtain ⟨q, hq, hret⟩ := Outcome.bind_eq_ret.mp h
    have hvars : q.vars = p.vars := by
      refine Outcome.foldlM_induction (P := fun _ (q : Process U) => q.vars = p.vars) rfl ?_ hq
      intro done f rest q q' _ hq hstep
      exact ((hP x.code f.2 x.var.val val q).2 q' hstep).trans hq
    obtain rfl := Outcome.ret.inj hret
    rw [← hvars]
    exact SortedMap.get?_set q.data k (x.assign val)

/-- What a call of `fromString` that has returned did: it set the variable, or reported that
the text does not convert. -/
theorem fromString_cases (hP : P.Harmless) {s : String} {r : Process U × Bool}
    (h : fromString env P k x s p = .ret r) :
    (∃ v, U.fromStr x.code s = .ret v ∧ setValue P k x v p = .ret r.1) ∨
      (∃ e, U.fromStr x.code s = .throw e) ∧
        ∃ text, r.1 = p.sylarLog env .all env.sourceFile 294 text := by
  unfold fromString at h
  cases hconv : U.fromStr x.code s with
  | ret v =>
      simp only [hconv, Outcome.mapThrow, Outcome.ret_bind] at h
      cases hset : setValue P k x v p with
      | ret q =>
          rw [hset] at h
          obtain rfl := Outcome.ret.inj h
          exact Or.inl ⟨v, rfl, hset⟩
      | throw e => exact absurd hset (setValue_ne_throw hP e)
      | exit n =>
          rw [hset] at h
          cases h
      | crash =>
          rw [hset] at h
          cases h
  | throw e =>
      rw [hconv] at h
      obtain rfl := Outcome.ret.inj h
      exact Or.inr ⟨⟨e, rfl⟩, _, rfl⟩
  | exit n =>
      rw [hconv] at h
      cases h
  | crash =>
      rw [hconv] at h
      cases h

theorem fromString_returned (hP : P.Harmless) (hx : p.vars k = some x) {s : String}
    {r : Process U × Bool} (h : fromString env P k x s p = .ret r) :
    r.1.vars = Function.update p.vars k (some (x.settle [s])) := by
  rcases fromString_cases hP h with ⟨v, hv, hset⟩ | ⟨⟨e, he⟩, text, htext⟩
  · rw [Var.settle_of_ret hv]
    exact setValue_returned hP hx hset
  · rw [htext, Var.settle_of_none (by simp [he])]
    exact (Function.update_eq_self_iff.mpr hx.symm).symm

theorem loadMember_returned (hP : P.Harmless) {i : String × Node}
    (h : loadMember env P p i = .ret p') : p'.vars = settled env [i] p.vars := by
  have hmember : ∃ q, loadMember env P p i = .ret q ∧ q.vars = settled env [i] p.vars := by
    refine loadMember_of_fromString fun x hi hx => ?_
    have hlookup : lookupBase (tolower i.1) p = some x := hx
    rw [loadMember, if_neg hi, hlookup] at h
    obtain ⟨r, hr, -⟩ := Outcome.bind_eq_ret.mp h
    exact ⟨r, hr, fromString_returned hP hx hr⟩
  obtain ⟨q, hq, hvars⟩ := hmember
  rw [Outcome.ret.inj (h.symm.trans hq), hvars]

/-- **A load that has returned** has settled all variables. -/
theorem loadFromYaml_returned (hP : P.Harmless) {root : Node}
    (h : loadFromYaml env P root p = .ret p') : p'.vars = settled env (visited root) p.vars := by
  unfold loadFromYaml at h
  dsimp only at h
  rw [listAllMember_visited] at h
  refine Outcome.foldlM_induction (P := fun done (q : Process U) =>
    q.vars = settled env done p.vars)
    (s := { p with log := (listAllMember env "" root (p.log, [])).1 })
    (settled_nil p.vars).symm ?_ h
  intro done i rest q q' _ hq hstep
  rw [loadMember_returned hP hstep, hq, settled_append]

end Config

/-! ### Events -/

/-- The variable with other listeners. -/
def Var.listening (f : SortedMap Nat Nat → SortedMap Nat Nat) (x : Var U) : Var U :=
  { x with var := { x.var with callbacks := f x.var.callbacks } }

/-- What a program does with its configuration. -/
inductive ConfigEvent (U : Types)
  | lookup (env : Env) (name : String) (c : U.Code) (default_value : U.Val c)
  | load (env : Env) (root : Node)
  /-- `fromString` on the variable under a key. -/
  | fromString (env : Env) (name val : String)
  /-- `setValue` on the variable under a key, with a value of its type. -/
  | setValue (name : String) (v : Value U)
  /-- `addListener`, `delListener` and `clearListener`. -/
  | listen (name : String) (f : SortedMap Nat Nat → SortedMap Nat Nat)
  /-- The logging module is used. -/
  | logging (op : LogOp)

namespace ConfigEvent

/-- A call that has returned, or that has thrown out of `Lookup`. -/
inductive Step (P : Program U) (p : Process U) : ConfigEvent U → Process U → Prop
  | lookup {env : Env} {name : String} {c : U.Code} {d : U.Val c}
      {r : Process U × Option String} (h : Config.lookup env name c d p = .ret r) :
      Step P p (.lookup env name c d) r.1
  | invalid {env : Env} {name : String} {c : U.Code} {d : U.Val c} {e : Thrown U}
      (h : Config.lookup env name c d p = .throw e) : Step P p (.lookup env name c d) e.1
  | load {env : Env} {root : Node} {p' : Process U} (h : loadFromYaml env P root p = .ret p') :
      Step P p (.load env root) p'
  | fromString {env : Env} {name val : String} {x : Var U} {r : Process U × Bool}
      (hx : p.vars name = some x) (h : Config.fromString env P name x val p = .ret r) :
      Step P p (.fromString env name val) r.1
  | setValue {name : String} {x : Var U} {val : U.Val x.code} {p' : Process U}
      (hx : p.vars name = some x) (h : Config.setValue P name x val p = .ret p') :
      Step P p (.setValue name ⟨x.code, val⟩) p'
  | listen {name : String} {x : Var U} {f : SortedMap Nat Nat → SortedMap Nat Nat}
      (hx : p.vars name = some x) :
      Step P p (.listen name f) { p with data := p.data.set name (x.listening f) }
  | logging {op : LogOp} {w : LogSystem} (h : LogStep p.log op w) :
      Step P p (.logging op) { p with log := w }

/-! ### The record -/

/-- The event registers a variable under the key `k`, if there is none. -/
def Registers (k : String) : ConfigEvent U → Prop
  | lookup _ name _ _ => name = k ∧ validName k = true
  | _ => False

/-- What is asked for in a variable under the key `k`, of type `c`. -/
def writes (k : String) (c : U.Code) : ConfigEvent U → List (U.Val c)
  | load env root => (texts env k (visited root)).filterMap fun s => (U.fromStr c s).value?
  | fromString _ name s => if name = k then (U.fromStr c s).value?.toList else []
  | setValue name v => if name = k then (valueAt? v c).toList else []
  | _ => []

/-- The last value that has been asked for, or the one that was there. -/
def latest {β : Type} (b : β) (l : List β) : β := l.getLast?.getD b

theorem latest_append {β : Type} (b : β) (l l' : List β) :
    latest b (l ++ l') = latest (latest b l) l' := by
  rw [latest, List.getLast?_append, Option.getD_or]
  rfl

/-! ### One event -/

/-- `Lookup` registers its variable if there is none under the name. -/
theorem vars_of_lookup {env : Env} {name : String} {c : U.Code} {d : U.Val c}
    {r : Process U × Option String} (h : Config.lookup env name c d p = .ret r) :
    r.1.vars = p.vars ∧ p.vars name ≠ none ∨
      r.1.vars = Function.update p.vars name (some (.new name c d)) ∧ p.vars name = none ∧
        validName name = true := by
  unfold Config.lookup at h
  cases hname : p.data.get? name with
  | some x =>
      rw [hname] at h
      have hne : p.vars name ≠ none := by
        rw [show p.vars name = some x from hname]
        exact nofun
      dsimp only at h
      split_ifs at h with hc
      · obtain rfl := Outcome.ret.inj h
        exact Or.inl ⟨rfl, hne⟩
      · obtain rfl := Outcome.ret.inj h
        exact Or.inl ⟨rfl, hne⟩
  | none =>
      rw [hname] at h
      dsimp only at h
      split_ifs at h with hvalid
      obtain rfl := Outcome.ret.inj h
      exact Or.inr ⟨SortedMap.get?_set p.data name _, hname, hvalid⟩

/-- It throws where the name is invalid, and then nothing changes. -/
theorem vars_of_lookup_throw {env : Env} {name : String} {c : U.Code} {d : U.Val c}
    {e : Thrown U} (h : Config.lookup env name c d p = .throw e) :
    e.1.vars = p.vars ∧ validName name = false := by
  unfold Config.lookup at h
  cases hname : p.data.get? name with
  | some x =>
      rw [hname] at h
      dsimp only at h
      split_ifs at h
  | none =>
      rw [hname] at h
      dsimp only at h
      split_ifs at h with hvalid
      obtain rfl := Outcome.throw.inj h
      exact ⟨rfl, Bool.eq_false_iff.mpr hvalid⟩

/-- **Texts**: the variable holds what the last one that converts asks for. -/
theorem value_settle (x : Var U) (l : List String) :
    (x.settle l).value =
      ⟨x.code, latest x.var.val (l.filterMap fun s => (U.fromStr x.code s).value?)⟩ :=
  congrArg (Sigma.mk x.code) (Overwrite.settle_eq _ _ _)

/-- A variable that is there stays, and holds the last value the event asks for. -/
theorem Step.value (hP : P.Harmless) {e : ConfigEvent U} (hs : Step P p e p') {x : Var U}
    (hx : p.vars k = some x) :
    (p'.vars k).map Var.value = some ⟨x.code, latest x.var.val (writes k x.code e)⟩ := by
  have hsame : (p.vars k).map Var.value = some ⟨x.code, latest x.var.val []⟩ := by
    rw [hx]
    rfl
  cases hs with
  | @lookup env name c d r h =>
      rcases vars_of_lookup h with ⟨hvars, -⟩ | ⟨hvars, hnone, -⟩
      · rw [hvars]
        exact hsame
      · have hk : k ≠ name := by
          rintro rfl
          rw [hx] at hnone
          cases hnone
        rw [hvars, Function.update_of_ne hk]
        exact hsame
  | invalid h =>
      rw [(vars_of_lookup_throw h).1]
      exact hsame
  | @load env root p' h =>
      rw [loadFromYaml_returned hP h, settled, hx]
      exact congrArg some (value_settle x _)
  | @fromString env name val y r hy h =>
      rw [fromString_returned hP hy h, writes]
      by_cases hname : name = k
      · subst hname
        obtain rfl := Option.some.inj (hx.symm.trans hy)
        rw [Function.update_self, if_pos rfl, Option.map_some, value_settle]
        cases h : (U.fromStr x.code val).value? <;> simp [h]
      · rw [Function.update_of_ne (Ne.symm hname), if_neg hname]
        exact hsame
  | @setValue name y val p' hy h =>
      rw [setValue_returned hP hy h, writes]
      by_cases hname : name = k
      · subst hname
        obtain rfl := Option.some.inj (hx.symm.trans hy)
        rw [Function.update_self, if_pos rfl, valueAt?_self]
        rfl
      · rw [Function.update_of_ne (Ne.symm hname), if_neg hname]
        exact hsame
  | @listen name y f hy =>
      have hvars : Process.vars { p with data := p.data.set name (y.listening f) } =
          Function.update p.vars name (some (y.listening f)) := SortedMap.get?_set p.data name _
      rw [hvars]
      by_cases hname : name = k
      · subst hname
        obtain rfl := Option.some.inj (hx.symm.trans hy)
        rw [Function.update_self]
        rfl
      · rw [Function.update_of_ne (Ne.symm hname)]
        exact hsame
  | logging h => exact hsame

/-- The same, told by the value. -/
theorem Step.value_eq (hP : P.Harmless) {e : ConfigEvent U} (hs : Step P p e p') {c : U.Code}
    {b : U.Val c} (h : (p.vars k).map Var.value = some ⟨c, b⟩) :
    (p'.vars k).map Var.value = some ⟨c, latest b (writes k c e)⟩ := by
  obtain ⟨⟨c, name, ⟨val, callbacks⟩⟩, hx, ⟨⟩⟩ := Option.map_eq_some_iff.mp h
  exact hs.value hP hx

/-- A variable that is not there is registered by the first `Lookup` of it, and by nothing
else. -/
theorem Step.register (hP : P.Harmless) {e : ConfigEvent U} (hs : Step P p e p')
    (hx : p.vars k = none) :
    (¬ e.Registers k → p'.vars k = none) ∧
      ∀ env c d, e = .lookup env k c d → validName k = true →
        (p'.vars k).map Var.value = some ⟨c, d⟩ := by
  -- what is under another key does not matter
  have hother : ∀ {name : String} {y z : Var U}, p.vars name = some y →
      Function.update p.vars name (some z) k = none := by
    intro name y z hy
    have hk : k ≠ name := by
      rintro rfl
      rw [hx] at hy
      cases hy
    rw [Function.update_of_ne hk]
    exact hx
  cases hs with
  | @lookup env name c d r h =>
      rcases vars_of_lookup h with ⟨hvars, hsome⟩ | ⟨hvars, -, hvalid⟩
      · refine ⟨fun _ => by rw [hvars]; exact hx, ?_⟩
        rintro env c d ⟨⟩ -
        exact absurd hx hsome
      · constructor
        · intro hnot
          have hk : k ≠ name := by
            rintro rfl
            exact hnot ⟨rfl, hvalid⟩
          rw [hvars, Function.update_of_ne hk]
          exact hx
        · rintro env c d ⟨⟩ -
          rw [hvars, Function.update_self]
          rfl
  | invalid h =>
      obtain ⟨hvars, hinvalid⟩ := vars_of_lookup_throw h
      refine ⟨fun _ => by rw [hvars]; exact hx, ?_⟩
      rintro env c d ⟨⟩ hvalid
      rw [hvalid] at hinvalid
      cases hinvalid
  | @load env root p' h =>
      refine ⟨fun _ => ?_, fun _ _ _ h => by cases h⟩
      rw [loadFromYaml_returned hP h, settled, hx]
      rfl
  | @fromString env name val y r hy h =>
      exact ⟨fun _ => by rw [fromString_returned hP hy h, hother hy], fun _ _ _ h => by cases h⟩
  | @setValue name y val p' hy h =>
      exact ⟨fun _ => by rw [setValue_returned hP hy h, hother hy], fun _ _ _ h => by cases h⟩
  | @listen name y f hy =>
      refine ⟨fun _ => ?_, fun _ _ _ h => by cases h⟩
      have hvars : Process.vars { p with data := p.data.set name (y.listening f) } =
          Function.update p.vars name (some (y.listening f)) := SortedMap.get?_set p.data name _
      rw [hvars, hother hy]
  | logging h => exact ⟨fun _ => hx, fun _ _ _ h => by cases h⟩

/-! ### Runs -/

variable {tr : List (Taken (Process U) (ConfigEvent U))}

/-- Without a `Lookup` of it there is no variable. -/
theorem none_of_run (hP : P.Harmless) {p₀ : Process U} (h₀ : p₀.vars k = none)
    (hrun : Run (Step P) p₀ tr p) (hnone : ∀ x ∈ tr, ¬ x.label.Registers k) : p.vars k = none :=
  hrun.invariant_of (I := fun p => p.vars k = none) (C := fun x => ¬ x.label.Registers k) h₀
    (fun _ _ _ hp hs hC => (hs.register hP hp).1 hC) hnone

/-- What a variable that is there holds after a run. -/
theorem value_of_run (hP : P.Harmless) {p₀ : Process U} {c : U.Code} {b : U.Val c}
    (h₀ : (p₀.vars k).map Var.value = some ⟨c, b⟩) (hrun : Run (Step P) p₀ tr p) :
    (p.vars k).map Var.value =
      some ⟨c, latest b ((tr.map Taken.label).flatMap (writes k c))⟩ := by
  induction hrun with
  | nil => exact h₀
  | snoc _ hs ih =>
      rw [hs.value_eq hP ih, List.map_append, List.flatMap_append, latest_append]
      simp

end ConfigEvent

open ConfigEvent

/-- **What a variable holds** after any run of loads, lookups and updates: there is none
before the first `Lookup` of its name, and from then on it has the type of that call and the
last value anything has asked for since, or else the default of that call. -/
theorem value_since_registration (hP : P.Harmless) {p₀ : Process U} (h₀ : p₀.vars k = none)
    {tr : List (Taken (Process U) (ConfigEvent U))} (hrun : Run (ConfigEvent.Step P) p₀ tr p) :
    ((∀ x ∈ tr, ¬ x.label.Registers k) → p.vars k = none) ∧
      ∀ tr₁ x tr₂ env c d, tr = tr₁ ++ x :: tr₂ → x.label = .lookup env k c d →
        validName k = true → (∀ y ∈ tr₁, ¬ y.label.Registers k) →
        (p.vars k).map Var.value =
          some ⟨c, latest d ((tr₂.map Taken.label).flatMap (writes k c))⟩ := by
  refine ⟨none_of_run hP h₀ hrun, ?_⟩
  rintro tr₁ x tr₂ env c d rfl hx hvalid hfirst
  obtain ⟨hbefore, hs⟩ := hrun.split
  have hnone := none_of_run hP h₀ hbefore hfirst
  exact value_of_run hP ((hs.register hP hnone).2 env c d hx hvalid) hrun.after

/-- A document is loaded too early, somebody else asks for the variable with a default of his
own, and then a document is loaded in time. -/
theorem value_since_registration_late :
    let U := Types.ofRead some
    let env := Env.sample []
    let doc (key val : String) : Node := .map [Node.entry key val]
    let es : List (ConfigEvent U) := [.load env (doc "a" "1"), .lookup env "a" () "0",
      .lookup env "a" () "9", .load env (doc "A" "2")]
    ∃ tr p, Run (ConfigEvent.Step (Program.silent U)) (.start U) tr p ∧
      tr.map Taken.label = es ∧ (p.vars "a").map Var.value = some ⟨(), "2"⟩ := by
  intro U env doc es
  have hrun : Run (ConfigEvent.Step (Program.silent U)) (.start U) _ _ :=
    (((Run.nil.snoc (a := .load env (doc "a" "1")) (.load rfl)).snoc
      (a := .lookup env "a" () "0") (.lookup rfl)).snoc
      (a := .lookup env "a" () "9") (.lookup rfl)).snoc
      (a := .load env (doc "A" "2")) (.load rfl)
  refine ⟨_, _, hrun, rfl, ?_⟩
  refine ((value_since_registration (k := "a") (Program.quiet_silent U).harmless rfl hrun).2 [_] _ [_, _]
    env () "0" rfl rfl (by decide) fun y hy => ?_).trans (by decide)
  obtain rfl := List.mem_singleton.mp hy
  exact id

end Sylar
