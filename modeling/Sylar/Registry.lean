/-
Sylar/Registry.lean

The registry with its variables behind shared pointers (config.hpp, config.cpp).

`Lookup`, `find` and `LookupBase` hand out pointers, and `setValue` is called
through them, so that one variable may be held by many.  Here the pointers are
explicit: the registry binds names to pointers, and the variables live in an
arena.

The history of a run has an account of its own of what is registered: a name is
bound by the first `Lookup` that returns a variable for it, and its value is the
default of that call or what it was set to last.  Every call does what it should
do by this account (`typed_registry`).

Sylar.Config does without pointers: the key of a variable stands for it.
`View` relates the two, and the operations keep it (`View.lookup`,
`View.setValue`).
-/
import Sylar.Config
import Sylar.Lib.Arena
import Sylar.Listener

namespace Sylar

open Config Transition

/-! ### The registry -/

/-- The registry and the variables. -/
structure Registry (U : Types) where
  /-- `s_data`. -/
  data : SortedMap String (Ptr (Var U))
  vars : Arena (Var U)
  log : LogSystem

variable {U : Types}

/-- A value and its type. -/
abbrev Value (U : Types) := Σ c, U.Val c

/-- The value of a variable, with its type. -/
def Var.value (x : Var U) : Value U := ⟨x.code, x.var.val⟩

namespace Registry

/-- A statement of the module on the root logger. -/
def sylarLog (env : Env) (level : LogLevel) (line : Int) (text : String) (s : Registry U) :
    Registry U :=
  { s with log := s.log.sylarLog env s.log.root level env.sourceFile line text }

/-- `std::dynamic_pointer_cast<ConfigVar<T>>`. -/
def cast (c : U.Code) (p : Ptr (Var U)) (s : Registry U) : Option (Ptr (Var U)) :=
  if (s.vars.get? p).map Var.code = some c then some p else none

/-- `getTypeName` through a pointer. -/
def typeName (p : Ptr (Var U)) (s : Registry U) : String :=
  (s.vars.get? p).elim "" fun x => U.typeName x.code

/-- `Config::Lookup<T>`, and what it returns or throws. -/
def lookup (env : Env) (name : String) (c : U.Code) (default_value : U.Val c) (s : Registry U) :
    Registry U × Outcome String (Option (Ptr (Var U))) :=
  match s.data.get? name with
  | some p =>
      match s.cast c p with
      | some tmp =>
          (s.sylarLog env .info 362 ("Lookup name=" ++ name ++ " exists"), .ret (some tmp))
      | none =>
          (s.sylarLog env .error 366 (name ++ " exists but type " ++ s.typeName p ++
            " is not supported."), .ret none)
  | none =>
      if validName name then
        ({ s with
            data := s.data.set name s.vars.fresh
            vars := s.vars.alloc (.new name c default_value) }, .ret (some s.vars.fresh))
      else
        (s.sylarLog env .all 372 ("Lookup name invalid " ++ name), .throw name)

/-- `Config::find<T>`. -/
def find (env : Env) (name : String) (c : U.Code) (s : Registry U) :
    Registry U × Option (Ptr (Var U)) :=
  match s.data.get? name with
  | none => (s.sylarLog env .info 387 (name ++ " does not exist."), none)
  | some p => (s, s.cast c p)

/-- `Config::LookupBase`. -/
def lookupBase (name : String) (s : Registry U) : Option (Ptr (Var U)) := s.data.get? name

/-- `ConfigVar::setValue` through the pointer `p` to `x`; `throws` says which listener
throws on which change. -/
def setValue (throws : ∀ c, Nat → U.Val c → U.Val c → Bool) (p : Ptr (Var U)) (x : Var U)
    (val : U.Val x.code) (s : Registry U) : Registry U :=
  { s with vars := s.vars.modify p fun _ =>
      { x with var := (x.var.setValue (throws x.code) val).var } }

/-- Nothing is registered. -/
def start (log : LogSystem) : Registry U := ⟨SortedBy.empty, Arena.empty, log⟩

end Registry

/-! ### Runs and their account -/

/-- A call and what came of it. -/
inductive RegistryEvent (U : Types)
  | lookup (name : String) (c : U.Code) (default_value : U.Val c)
      (result : Outcome String (Option (Ptr (Var U))))
  | find (name : String) (c : U.Code) (result : Option (Ptr (Var U)))
  | lookupBase (name : String) (result : Option (Ptr (Var U)))
  | setValue (p : Ptr (Var U)) (val : Value U)

/-- What is registered: for each name the variable, and its type and value. -/
abbrev Account (U : Types) := String → Option (Ptr (Var U) × Value U)

namespace RegistryEvent

/-- One call, for the account. -/
def note (a : Account U) : RegistryEvent U → Account U
  | lookup name c default_value (.ret (some p)) =>
      if a name = none then Function.update a name (some (p, ⟨c, default_value⟩)) else a
  | lookup _ _ _ _ => a
  | find _ _ _ => a
  | lookupBase _ _ => a
  | setValue p val => fun name =>
      (a name).map fun (b : Ptr (Var U) × Value U) => if b.1 = p then (p, val) else b

/-- The account of a history. -/
def account (es : List (RegistryEvent U)) : Account U := es.foldl note fun _ => none

/-- Some `Lookup` has returned a variable for the name. -/
def Registered (es : List (RegistryEvent U)) (name : String) : Prop :=
  ∃ c d p, lookup name c d (.ret (some p)) ∈ es

theorem account_concat (es : List (RegistryEvent U)) (e : RegistryEvent U) :
    account (es ++ [e]) = note (account es) e := by
  rw [account, List.foldl_append]
  rfl

theorem note_ne_none_iff {a : Account U} {e : RegistryEvent U} {name : String} :
    note a e name ≠ none ↔ a name ≠ none ∨ ∃ c d p, e = lookup name c d (.ret (some p)) := by
  have hother : (note a e name ≠ none ↔ a name ≠ none) →
      (∀ c d p, e ≠ lookup name c d (.ret (some p))) →
      (note a e name ≠ none ↔ a name ≠ none ∨ ∃ c d p, e = lookup name c d (.ret (some p))) := by
    intro hsame hne
    rw [hsame]
    exact ⟨Or.inl, fun h => h.resolve_right fun ⟨c, d, p, he⟩ => hne c d p he⟩
  match e with
  | lookup name' c d (.ret (some p)) =>
      by_cases hname : name' = name
      · subst hname
        refine iff_of_true ?_ (Or.inr ⟨c, d, p, rfl⟩)
        rw [note]
        split_ifs with ha
        · rw [Function.update_self]
          exact Option.some_ne_none _
        · exact ha
      · apply hother
        · rw [note]
          split_ifs
          · rw [Function.update_of_ne (Ne.symm hname)]
          · rfl
        · rintro c d p ⟨⟩
          exact hname rfl
  | lookup _ _ _ (.ret none) => exact hother Iff.rfl fun _ _ _ h => by cases h
  | lookup _ _ _ (.throw _) => exact hother Iff.rfl fun _ _ _ h => by cases h
  | lookup _ _ _ (.exit _) => exact hother Iff.rfl fun _ _ _ h => by cases h
  | lookup _ _ _ .crash => exact hother Iff.rfl fun _ _ _ h => by cases h
  | find _ _ _ => exact hother Iff.rfl fun _ _ _ h => by cases h
  | lookupBase _ _ => exact hother Iff.rfl fun _ _ _ h => by cases h
  | setValue p val =>
      apply hother
      · rw [note, Ne, Option.map_eq_none_iff]
      · intro _ _ _ h
        cases h

/-- **A name is on the account once it is registered.** -/
theorem account_ne_none_iff {es : List (RegistryEvent U)} {name : String} :
    account es name ≠ none ↔ Registered es name := by
  induction es using List.reverseRecOn with
  | nil => exact ⟨fun h => absurd rfl h, fun ⟨_, _, _, h⟩ => absurd h List.not_mem_nil⟩
  | append_singleton es e ih =>
      rw [account_concat, note_ne_none_iff, ih]
      simp [Registered, exists_or, eq_comm]

end RegistryEvent

open RegistryEvent

namespace Registry

/-- One call.  `setValue` is called through a pointer to a variable, with a value of its
type. -/
inductive Step (s : Registry U) : RegistryEvent U → Registry U → Prop
  | lookup (env : Env) (name : String) (c : U.Code) (d : U.Val c) :
      Step s (.lookup name c d (s.lookup env name c d).2) (s.lookup env name c d).1
  | find (env : Env) (name : String) (c : U.Code) :
      Step s (.find name c (s.find env name c).2) (s.find env name c).1
  | lookupBase (name : String) : Step s (.lookupBase name (s.lookupBase name)) s
  | setValue (throws : ∀ c, Nat → U.Val c → U.Val c → Bool) {p : Ptr (Var U)} {x : Var U}
      (hx : s.vars.get? p = some x) (val : U.Val x.code) :
      Step s (.setValue p ⟨x.code, val⟩) (s.setValue throws p x val)

/-! #### What a call may do -/

/-- The registry and all values are as they were. -/
def Same (s s' : Registry U) : Prop := s'.data = s.data ∧ s'.vars = s.vars

/-- The variable `x` has been created at `p` and bound to the name. -/
structure Registers (s : Registry U) (name : String) (p : Ptr (Var U)) (x : Var U)
    (s' : Registry U) : Prop where
  unbound : s.data.get? name = none
  fresh : p ∉ s.vars
  data : s'.data.get? = Function.update s.data.get? name (some p)
  found : s'.vars.get? p = some x
  others : ∀ q ∈ s.vars, s'.vars.get? q = s.vars.get? q
  all : ∀ q y, s'.vars.get? q = some y → s.vars.get? q = some y ∨ q = p

/-- The variable at `p` has been given the value, and is the same otherwise. -/
structure Sets (s : Registry U) (p : Ptr (Var U)) (v : Value U) (s' : Registry U) : Prop where
  data : s'.data = s.data
  found : ∃ x val, v = ⟨x.code, val⟩ ∧ s.vars.get? p = some x ∧
    s'.vars.get? p = some (x.assign val)
  others : ∀ q, q ≠ p → s'.vars.get? q = s.vars.get? q

/-- What is expected of a call made after the calls `es`. -/
def AsExpected (es : List (RegistryEvent U)) (x : Taken (Registry U) (RegistryEvent U)) : Prop :=
  match x.label with
  | .lookup name c d result =>
      match account es name with
      | some b =>
          Same x.source x.target ∧ result = .ret (if b.2.1 = c then some b.1 else none)
      | none =>
          if validName name = true then
            ∃ p, result = .ret (some p) ∧ Registers x.source name p (.new name c d) x.target
          else result = .throw name ∧ Same x.source x.target
  | .find name c result =>
      Same x.source x.target ∧
        result = (account es name).bind fun b => if b.2.1 = c then some b.1 else none
  | .lookupBase name result =>
      Same x.source x.target ∧ result = (account es name).map Prod.fst ∧
        (result ≠ none ↔ Registered es name)
  | .setValue p v => Sets x.source p v x.target

/-! #### The account is right -/

/-- The account says what the registry holds; no variable has two names, or listeners. -/
structure Holds (s : Registry U) (a : Account U) : Prop where
  data : ∀ name, s.data.get? name = (a name).map Prod.fst
  value : ∀ name b, a name = some b → (s.vars.get? b.1).map Var.value = some b.2
  distinct : ∀ name name' p, s.data.get? name = some p → s.data.get? name' = some p →
    name' = name
  silent : ∀ p x, s.vars.get? p = some x → x.var.callbacks = SortedBy.empty

variable {s s' : Registry U} {a : Account U} {name : String} {b : Ptr (Var U) × Value U}
  {es : List (RegistryEvent U)} {e : RegistryEvent U}

theorem asExpected_lookup_some {c : U.Code} {d : U.Val c}
    {result : Outcome String (Option (Ptr (Var U)))}
    (hb : account es name = some b) :
    AsExpected es ⟨s, .lookup name c d result, s'⟩ ↔
      Same s s' ∧ result = .ret (if b.2.1 = c then some b.1 else none) := by
  show (match account es name with
    | some b => _
    | none => _) ↔ _
  rw [hb]

theorem asExpected_lookup_none {c : U.Code} {d : U.Val c}
    {result : Outcome String (Option (Ptr (Var U)))}
    (hb : account es name = none) :
    AsExpected es ⟨s, .lookup name c d result, s'⟩ ↔
      if validName name = true then
        ∃ p, result = .ret (some p) ∧ Registers s name p (.new name c d) s'
      else result = .throw name ∧ Same s s' := by
  show (match account es name with
    | some b => _
    | none => _) ↔ _
  rw [hb]

theorem holds_start (log : LogSystem) : Holds (start log : Registry U) fun _ => none where
  data _ := rfl
  value _ _ h := by cases h
  distinct _ _ _ h := by cases h
  silent _ _ h := by cases h

/-- The cast succeeds for the same type only. -/
theorem cast_eq {p : Ptr (Var U)} {x : Var U} (hx : s.vars.get? p = some x) (c : U.Code) :
    s.cast c p = if x.code = c then some p else none := by
  rw [cast, hx]
  simp only [Option.map_some, Option.some.injEq]

theorem Holds.cast (h : Holds s a) (hb : a name = some b) (c : U.Code) :
    s.cast c b.1 = if b.2.1 = c then some b.1 else none := by
  obtain ⟨x, hx, hvalue⟩ := Option.map_eq_some_iff.mp (h.value name b hb)
  rw [cast_eq hx, ← hvalue]
  rfl

theorem registers_alloc (h : s.data.get? name = none) (x : Var U) :
    Registers s name s.vars.fresh x
      { s with data := s.data.set name s.vars.fresh, vars := s.vars.alloc x } where
  unbound := h
  fresh := s.vars.fresh_notMem
  data := SortedMap.get?_set s.data name s.vars.fresh
  found := Arena.get?_alloc_self s.vars x
  others _ hq := Arena.get?_alloc_of_mem x hq
  all _ _ hq := (Arena.get?_alloc_eq_some hq).imp id And.left

/-- Without listeners the value is simply stored. -/
theorem setValue_eq_assign {x : Var U} (hx : x.var.callbacks = SortedBy.empty)
    (throws : Nat → U.Val x.code → U.Val x.code → Bool) (val : U.Val x.code) :
    (x.var.setValue throws val).var = x.var.assign val := by
  rcases ConfigVar.setValue_cases throws x.var val with
    ⟨heq, hr⟩ | ⟨_, _, hr⟩ | ⟨_, before, f, after, hfs, _⟩
  · rw [hr, eq_of_beq heq]
    rfl
  · rw [hr]
  · rw [hx] at hfs
    exact absurd hfs.symm (List.append_ne_nil_of_right_ne_nil _ (List.cons_ne_nil _ _))

/-- **Step lemma**, what a call does. -/
theorem Holds.asExpected (h : Holds s (account es)) (hs : Step s e s') :
    AsExpected es ⟨s, e, s'⟩ := by
  cases hs with
  | lookup env name c d =>
      have hdata := h.data name
      cases hb : account es name with
      | some b =>
          rw [hb] at hdata
          rw [asExpected_lookup_some hb, Registry.lookup, hdata]
          dsimp only [Option.map_some]
          rw [h.cast hb c]
          split_ifs
          · exact ⟨⟨rfl, rfl⟩, rfl⟩
          · exact ⟨⟨rfl, rfl⟩, rfl⟩
      | none =>
          rw [hb] at hdata
          rw [asExpected_lookup_none hb, Registry.lookup, hdata]
          dsimp only [Option.map_none]
          split_ifs
          · exact ⟨_, rfl, registers_alloc hdata _⟩
          · exact ⟨rfl, rfl, rfl⟩
  | find env name c =>
      have hdata := h.data name
      show Same _ _ ∧ _ = Option.bind (account es name) _
      cases hb : account es name with
      | some b =>
          rw [hb] at hdata
          rw [Registry.find, hdata]
          exact ⟨⟨rfl, rfl⟩, h.cast hb c⟩
      | none =>
          rw [hb] at hdata
          rw [Registry.find, hdata]
          exact ⟨⟨rfl, rfl⟩, rfl⟩
  | lookupBase name =>
      have hdata := h.data name
      refine ⟨⟨rfl, rfl⟩, hdata, ?_⟩
      rw [← account_ne_none_iff, Registry.lookupBase, hdata, Ne, Option.map_eq_none_iff]
  | setValue throws hx val =>
      refine ⟨rfl, ⟨_, val, rfl, hx, ?_⟩, fun q hq => Arena.get?_modify_of_ne _ hq⟩
      rw [Registry.setValue, Arena.get?_modify_self, hx,
        setValue_eq_assign (h.silent _ _ hx)]
      rfl

theorem Holds.same (h : Holds s a) (hs : Same s s') : Holds s' a where
  data name := by rw [hs.1, h.data]
  value name b hb := by rw [hs.2, h.value name b hb]
  distinct name name' p := hs.1 ▸ h.distinct name name' p
  silent p x hx := h.silent p x (hs.2 ▸ hx)

/-- The pointers that are bound lead to variables. -/
def Sound (s : Registry U) : Prop :=
  ∀ name p, s.data.get? name = some p → ∃ x, s.vars.get? p = some x

theorem Sound.mem (h : s.Sound) {p : Ptr (Var U)} (hp : s.data.get? name = some p) :
    p ∈ s.vars := by
  obtain ⟨x, hx⟩ := h name p hp
  exact Arena.mem_of_get? hx

theorem Holds.sound (h : Holds s a) : s.Sound := by
  intro name p hp
  rw [h.data] at hp
  obtain ⟨b, hb, rfl⟩ := Option.map_eq_some_iff.mp hp
  obtain ⟨x, hx, _⟩ := Option.map_eq_some_iff.mp (h.value name b hb)
  exact ⟨x, hx⟩

theorem Holds.mem (h : Holds s a) {p : Ptr (Var U)} (hp : s.data.get? name = some p) :
    p ∈ s.vars := h.sound.mem hp

/-- A name that is registered anew is no second one. -/
theorem Registers.distinct {p : Ptr (Var U)} {x : Var U} (hs : Registers s name p x s')
    (hsound : s.Sound)
    (h : ∀ k k' q, s.data.get? k = some q → s.data.get? k' = some q → k' = k) :
    ∀ k k' q, s'.data.get? k = some q → s'.data.get? k' = some q → k' = k := by
  intro k k' q hq hq'
  rw [hs.data] at hq hq'
  by_cases hk : k = name
  · by_cases hk' : k' = name
    · rw [hk, hk']
    · subst hk
      rw [Function.update_self] at hq
      rw [Function.update_of_ne hk', ← hq] at hq'
      exact absurd (hsound.mem hq') hs.fresh
  · rw [Function.update_of_ne hk] at hq
    by_cases hk' : k' = name
    · subst hk'
      rw [Function.update_self] at hq'
      rw [← hq'] at hq
      exact absurd (hsound.mem hq) hs.fresh
    · rw [Function.update_of_ne hk'] at hq'
      exact h k k' q hq hq'

/-- Nor does it lead nowhere. -/
theorem Registers.sound {p : Ptr (Var U)} {x : Var U} (hs : Registers s name p x s')
    (hsound : s.Sound) : s'.Sound := by
  intro k q hq
  by_cases hk : k = name
  · subst hk
    rw [hs.data, Function.update_self] at hq
    exact ⟨x, Option.some.inj hq ▸ hs.found⟩
  · rw [hs.data, Function.update_of_ne hk] at hq
    obtain ⟨y, hy⟩ := hsound k q hq
    exact ⟨y, (hs.others q (Arena.mem_of_get? hy)).trans hy⟩

theorem Holds.registers {p : Ptr (Var U)} {c : U.Code} {d : U.Val c} (h : Holds s a)
    (hs : Registers s name p (.new name c d) s') :
    Holds s' (Function.update a name (some (p, ⟨c, d⟩))) where
  data k := by
    rw [hs.data]
    by_cases hk : k = name
    · subst hk
      rw [Function.update_self, Function.update_self]
      rfl
    · rw [Function.update_of_ne hk, Function.update_of_ne hk, h.data]
  value k b hb := by
    by_cases hk : k = name
    · subst hk
      rw [Function.update_self] at hb
      obtain rfl := Option.some.inj hb
      rw [hs.found]
      rfl
    · rw [Function.update_of_ne hk] at hb
      have hp : s.data.get? k = some b.1 := by
        rw [h.data, hb]
        rfl
      rw [hs.others b.1 (h.mem hp), h.value k b hb]
  distinct := hs.distinct h.sound h.distinct
  silent q y hy := by
    rcases hs.all q y hy with hq | rfl
    · exact h.silent q y hq
    · rw [hs.found] at hy
      obtain rfl := Option.some.inj hy
      rfl

theorem Holds.sets {p : Ptr (Var U)} {v : Value U} (h : Holds s a) (hs : Sets s p v s') :
    Holds s' (note a (.setValue p v)) where
  data name := by
    rw [hs.data, h.data, note, Option.map_map]
    cases a name with
    | none => rfl
    | some b =>
        rw [Option.map_some, Option.map_some, Function.comp_apply]
        split_ifs with hp
        · rw [hp]
        · rfl
  value name b hb := by
    obtain ⟨b', hb', rfl⟩ := Option.map_eq_some_iff.mp hb
    split_ifs with hp
    · obtain ⟨x, val, rfl, _, hfound⟩ := hs.found
      rw [hfound]
      rfl
    · rw [hs.others b'.1 hp, h.value name b' hb']
  distinct name name' q := hs.data ▸ h.distinct name name' q
  silent q y hy := by
    by_cases hq : q = p
    · subst hq
      obtain ⟨x, val, _, hx, hfound⟩ := hs.found
      rw [hfound] at hy
      obtain rfl := Option.some.inj hy
      exact h.silent q x hx
    · rw [hs.others q hq] at hy
      exact h.silent q y hy

/-- **Step lemma**, the account. -/
theorem Holds.step (h : Holds s (account es)) (hx : AsExpected es ⟨s, e, s'⟩) :
    Holds s' (account (es ++ [e])) := by
  rw [account_concat]
  cases e with
  | lookup name c d result =>
      cases hb : account es name with
      | some b =>
          obtain ⟨hsame, rfl⟩ := (asExpected_lookup_some hb).mp hx
          -- the name is taken, whatever the type asked for
          have hnote : note (account es) (.lookup name c d
              (.ret (if b.2.1 = c then some b.1 else none))) = account es := by
            split_ifs
            · rw [note, if_neg (by rw [hb]; exact Option.some_ne_none b)]
            · rfl
          rw [hnote]
          exact h.same hsame
      | none =>
          have hnone := (asExpected_lookup_none hb).mp hx
          split_ifs at hnone
          · obtain ⟨p, rfl, hreg⟩ := hnone
            rw [note, if_pos hb]
            exact h.registers hreg
          · obtain ⟨rfl, hsame⟩ := hnone
            exact h.same hsame
  | find name c result => exact h.same hx.1
  | lookupBase name result => exact h.same hx.1
  | setValue p v => exact h.sets hx

/-- What is bound stays bound to the same variable of the same type. -/
def Keeps (s s' : Registry U) : Prop :=
  ∀ name p x, s.data.get? name = some p → s.vars.get? p = some x →
    s'.data.get? name = some p ∧ ∃ y, s'.vars.get? p = some y ∧ y.code = x.code

theorem Keeps.trans {t : Registry U} (h : Keeps s s') (h' : Keeps s' t) : Keeps s t := by
  intro name p x hname hx
  obtain ⟨hname', y, hy, hcode⟩ := h name p x hname hx
  obtain ⟨hname'', z, hz, hcode'⟩ := h' name p y hname' hy
  exact ⟨hname'', z, hz, hcode'.trans hcode⟩

theorem Same.keeps (h : Same s s') : Keeps s s' := by
  intro name p x hname hx
  rw [h.1, h.2]
  exact ⟨hname, x, hx, rfl⟩

theorem Holds.keeps (h : Holds s (account es)) (hx : AsExpected es ⟨s, e, s'⟩) : Keeps s s' := by
  cases e with
  | lookup name c d result =>
      cases hb : account es name with
      | some b => exact ((asExpected_lookup_some hb).mp hx).1.keeps
      | none =>
          have hnone := (asExpected_lookup_none hb).mp hx
          split_ifs at hnone
          · obtain ⟨p, _, hreg⟩ := hnone
            intro k q x hk hq
            have hne : k ≠ name := by
              rintro rfl
              rw [h.data, hb] at hk
              cases hk
            rw [hreg.data, Function.update_of_ne hne, hreg.others q (Arena.mem_of_get? hq)]
            exact ⟨hk, x, hq, rfl⟩
          · exact hnone.2.keeps
  | find name c result => exact hx.1.keeps
  | lookupBase name result => exact hx.1.keeps
  | setValue p v =>
      intro name q x hname hq
      refine ⟨hx.data ▸ hname, ?_⟩
      by_cases hqp : q = p
      · subst hqp
        obtain ⟨y, val, _, hy, hfound⟩ := hx.found
        obtain rfl := Option.some.inj (hq.symm.trans hy)
        exact ⟨_, hfound, rfl⟩
      · rw [hx.others q hqp]
        exact ⟨x, hq, rfl⟩

/-- **The account is right after every run.** -/
theorem holds_of_run {log : LogSystem} {tr : List (Taken (Registry U) (RegistryEvent U))}
    {t : Registry U} (hrun : Run Step (start log) tr t) :
    Holds t (account (tr.map Taken.label)) := by
  induction hrun with
  | nil => exact holds_start log
  | snoc _ hs ih =>
      rw [List.map_append]
      exact ih.step (ih.asExpected hs)

/-- **The typed registry.**  In every run of `Lookup`, `find`, `LookupBase` and `setValue`
over any names and types: every call does what is expected of it after the calls before
it, what is bound at any point is bound to the same variable, of the same type, at the end,
and the variables hold what the account says. -/
theorem typed_registry {log : LogSystem} {tr : List (Taken (Registry U) (RegistryEvent U))}
    {t : Registry U} (hrun : Run Step (start log) tr t) :
    (∀ tr₁ x tr₂, tr = tr₁ ++ x :: tr₂ → AsExpected (tr₁.map Taken.label) x) ∧
      (∀ x ∈ tr, Keeps x.source t) ∧ Holds t (account (tr.map Taken.label)) := by
  refine ⟨?_, ?_, holds_of_run hrun⟩
  · rintro tr₁ x tr₂ rfl
    obtain ⟨hrun₁, hs⟩ := hrun.split
    exact (holds_of_run hrun₁).asExpected hs
  · induction hrun with
    | nil => exact List.forall_mem_nil _
    | @snoc tr t a u hrun hs ih =>
        have hholds := holds_of_run hrun
        have hlast : Keeps t u := hholds.keeps (hholds.asExpected hs)
        rw [List.forall_mem_append, List.forall_mem_singleton]
        exact ⟨fun x hx => (ih x hx).trans hlast, hlast⟩

/-- A variable is registered, set, and looked up again with another default. -/
theorem typed_registry_again :
    ∃ (tr : List (Taken (Registry (Types.ofRead some)) _)) (t : _),
      Run Step (start LogSystem.init) tr t ∧
        tr.map Taken.label = [.lookup "port" () "1" (.ret (some ⟨0⟩)), .setValue ⟨0⟩ ⟨(), "2"⟩,
          .lookup "port" () "3" (.ret (some ⟨0⟩))] ∧
        account (tr.map Taken.label) "port" = some (⟨0⟩, ⟨(), "2"⟩) ∧
        Holds t (account (tr.map Taken.label)) := by
  let x : Var (Types.ofRead some) := .new "port" () "1"
  have hrun : ∃ (tr : List (Taken (Registry (Types.ofRead some)) _)) (t : _),
      Run Step (start LogSystem.init) tr t ∧
        tr.map Taken.label = [.lookup "port" () "1" (.ret (some ⟨0⟩)), .setValue ⟨0⟩ ⟨(), "2"⟩,
          .lookup "port" () "3" (.ret (some ⟨0⟩))] :=
    ⟨_, _, ((Run.nil.snoc (.lookup (Env.sample []) "port" () "1")).snoc
      (.setValue (x := x) (p := ⟨0⟩) (fun _ _ _ _ => false) rfl "2")).snoc
      (.lookup (Env.sample []) "port" () "3"), rfl⟩
  obtain ⟨tr, t, hrun, hlabels⟩ := hrun
  refine ⟨tr, t, hrun, hlabels, ?_, (typed_registry hrun).2.2⟩
  rw [hlabels]
  rfl

/-! ### The registry without pointers -/

/-- What Sylar.Config sees of the registry: under each key the variable itself. -/
structure View (s : Registry U) (p : Process U) : Prop where
  vars : ∀ k, p.vars k = (s.data.get? k).bind s.vars.get?
  log : p.log = s.log

namespace View

variable {p : Process U}

theorem lookupBase (h : View s p) (name : String) :
    Config.lookupBase name p = (s.lookupBase name).bind s.vars.get? :=
  h.vars name

/-- A variable is registered, in both. -/
theorem register (h : View s p) (hs : s.Sound) (hname : s.data.get? name = none) (x : Var U) :
    View { s with data := s.data.set name s.vars.fresh, vars := s.vars.alloc x }
      { p with data := p.data.set name x } where
  log := h.log
  vars k := by
    show (p.data.set name x).get? k = ((s.data.set name s.vars.fresh).get? k).bind _
    rw [SortedMap.get?_set, SortedMap.get?_set]
    by_cases hk : k = name
    · subst hk
      rw [Function.update_self, Function.update_self, Option.bind_some, Arena.get?_alloc_self]
    · rw [Function.update_of_ne hk, Function.update_of_ne hk]
      refine (h.vars k).trans ?_
      cases hq : s.data.get? k with
      | none => rfl
      | some q => exact (Arena.get?_alloc_of_mem x (hs.mem hq)).symm

/-- **`Lookup`**, with the name for the pointer. -/
theorem lookup (h : View s p) (hs : s.Sound) (env : Env) (name : String) (c : U.Code)
    (d : U.Val c) :
    ∃ p', View (s.lookup env name c d).1 p' ∧
      Config.lookup env name c d p =
        ((s.lookup env name c d).2.mapThrow (Prod.mk p') >>= fun r =>
          .ret (p', r.map fun _ => name)) := by
  have hvars : p.data.get? name = (s.data.get? name).bind s.vars.get? := h.vars name
  rw [Registry.lookup, Config.lookup, hvars]
  cases hq : s.data.get? name with
  | some q =>
      obtain ⟨x, hx⟩ := hs name q hq
      have hcast := cast_eq hx c
      rw [Option.bind_some, hx]
      dsimp only
      rw [hcast]
      by_cases hc : x.code = c
      · rw [if_pos hc, if_pos hc]
        refine ⟨p.sylarLog env .info env.sourceFile 362 ("Lookup name=" ++ name ++ " exists"),
          ⟨h.vars, ?_⟩, rfl⟩
        rw [Process.sylarLog, Registry.sylarLog, h.log]
      · rw [if_neg hc, if_neg hc]
        refine ⟨p.sylarLog env .error env.sourceFile 366 (name ++ " exists but type " ++
          U.typeName x.code ++ " is not supported."), ⟨h.vars, ?_⟩, rfl⟩
        rw [Process.sylarLog, Registry.sylarLog, h.log, typeName, hx]
        rfl
  | none =>
      rw [Option.bind_none]
      dsimp only
      split_ifs
      · exact ⟨_, h.register hs hq _, rfl⟩
      · refine ⟨p.sylarLog env .all env.sourceFile 372 ("Lookup name invalid " ++ name),
          ⟨h.vars, ?_⟩, rfl⟩
        rw [Process.sylarLog, Registry.sylarLog, h.log]

/-- **`setValue`**, with the name for the pointer. -/
theorem setValue (h : View s p) (hs : Holds s a) {q : Ptr (Var U)} {x : Var U}
    (hname : s.data.get? name = some q) (hx : s.vars.get? q = some x)
    (throws : ∀ c, Nat → U.Val c → U.Val c → Bool) (P : Program U) (val : U.Val x.code) :
    ∃ p', View (s.setValue throws q x val) p' ∧ Config.setValue P name x val p = .ret p' := by
  have hvars : ∀ k, Function.update p.vars name (some (x.assign val)) k =
      (s.data.get? k).bind (s.setValue throws q x val).vars.get? := by
    intro k
    by_cases hk : k = name
    · subst hk
      rw [Function.update_self, hname, Option.bind_some, Registry.setValue,
        Arena.get?_modify_self, hx, setValue_eq_assign (hs.silent q x hx)]
      rfl
    · rw [Function.update_of_ne hk, h.vars]
      cases hq : s.data.get? k with
      | none => rfl
      | some q' =>
          have hne : q' ≠ q := by
            rintro rfl
            exact hk (hs.distinct name k q' hname hq)
          exact (Arena.get?_modify_of_ne _ hne).symm
  rw [Config.setValue, hs.silent q x hx]
  split_ifs with hval
  · -- the value it has, so nothing is stored
    refine ⟨p, ⟨fun k => ?_, h.log⟩, rfl⟩
    have hsame : p.vars name = some (x.assign val) := by
      rw [h.vars, hname, Option.bind_some, hx, hval]
      rfl
    exact (congrFun (Function.update_eq_self_iff.mpr hsame.symm) k).symm.trans (hvars k)
  · refine ⟨{ p with data := p.data.set name (x.assign val) }, ⟨fun k => ?_, h.log⟩, rfl⟩
    exact (congrFun (SortedMap.get?_set p.data name (x.assign val)) k).trans (hvars k)

end View

end Registry

end Sylar
