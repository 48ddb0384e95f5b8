/-
Sylar/ConfigLocking.lean

The locks of both modules together (config.hpp, config.cpp, log.hpp, log.cpp).

`Config` has a readers–writer lock for the registry, every `ConfigVar` has one of
its own, and below both stand the spin locks of the logging module (Sylar.Locking):
`Config::Lookup` logs while it holds the registry, and `ConfigVar::setValue` calls
its listeners while it holds the variable, among them the one that sets up the
loggers.  `Shared` gives each operation as the locks it takes and what it does
between them.

They never wait in a circle: locks are taken in the order registry, variable,
manager, logger, appender, if the program's own callbacks keep to it, and the
listener of the logging module does (`ordered_onLogsChanged`).  So all calls
return, whatever the threads call and in whatever order they go on
(`calls_complete`).  What a call does when it is alone is the subject of
Sylar.Alone.
-/
import Sylar.Lib.Sections
import Sylar.Locking
import Sylar.Registry
import Sylar.Initer

namespace Sylar

open Config Locks Locks.Prog SharedLocks Transition Yaml

variable {U : Types} {α β : Type}

/-! ### The state and the locks -/

/-- Both modules at work. -/
structure Runtime (U : Types) where
  registry : Registry U
  /-- `s_fun_id` of `ConfigVar<T>::addListener`. -/
  funId : U.Code → Nat

/-- `Config::GetMutex()`, the `m_lock` of a variable, and the locks of the logging module. -/
inductive Mutex (U : Types)
  | registry
  | ofVar (p : Ptr (Var U))
  | logging (l : Lock)

/-- The order in which they may be nested. -/
def Mutex.rank : Mutex U → Fin 5
  | registry => 0
  | ofVar _ => 1
  | logging l => Fin.natAdd 2 l.rank

/-- What a thread does in the two modules. -/
abbrev Shared (U : Types) := Prog (Request (Mutex U)) (Runtime U)

namespace Runtime

/-- The logging module. -/
abbrev log (s : Runtime U) : LogSystem := s.registry.log

def setLog (w : LogSystem) (s : Runtime U) : Runtime U :=
  { s with registry := { s.registry with log := w } }

/-- The variables. -/
def modifyVar (p : Ptr (Var U)) (f : Var U → Var U) (s : Runtime U) : Runtime U :=
  { s with registry := { s.registry with vars := s.registry.vars.modify p f } }

end Runtime

/-- A value of the type `c`, if it is one. -/
def valueAt? (v : Value U) (c : U.Code) : Option (U.Val c) :=
  if h : v.1 = c then some (h ▸ v.2) else none

@[simp] theorem valueAt?_self {c : U.Code} (val : U.Val c) : valueAt? ⟨c, val⟩ c = some val :=
  dif_pos rfl

/-- A loop, up to the first iteration that does not return. -/
def forEach {L σ ε β : Type} (f : β → Prog L σ (Outcome ε Unit)) :
    List β → Prog L σ (Outcome ε Unit)
  | [] => pure (.ret ())
  | x :: xs => do
      let r ← f x
      match r with
      | .ret _ => forEach f xs
      | stopped => pure stopped

/-! ### Statements of the logging module -/

/-- `SYLAR_LOG_LEVEL(logger, level) << text`: the test of the macro, the event, and the
destructor of its wrap. -/
def Guarded.sylarLog (env : Env) (p : Ptr Logger) (level : LogLevel) (filename : String)
    (line : Int) (text : String) : Guarded Unit := do
  let w ← read
  if w.getLevel p ≤ level then do
    let e ← act (fun w => w.newLogEvent p level filename line 0 (UInt32.ofInt env.threadID)
      LogSystem.getFiberID env.now) fun w => pure w.events.fresh
    modify fun w => w.write e text
    let w ← read
    Guarded.log env (w.event e).logger (w.event e).level e
  else pure ()

/-- A statement on the root logger. -/
def Guarded.sylarLogRoot (env : Env) (level : LogLevel) (filename : String) (line : Int)
    (text : String) : Guarded Unit := do
  let w ← read
  Guarded.sylarLog env w.root level filename line text

/-! ### The listener of the logging module -/

namespace Guarded

/-- `if (!a.pattern.empty()) ap->setFormatter(a.pattern)`. -/
def givePattern (ap : Ptr LogAppender) (pattern : String) : Guarded Unit :=
  if pattern = "" then pure () else setAppenderPattern ap pattern

/-- `if (!i.pattern.empty()) logger->setFormatter(i.pattern)`. -/
def giveLoggerPattern (logger : Ptr Logger) (pattern : String) : Guarded Unit :=
  if pattern = "" then pure () else setLoggerPattern logger pattern

/-- One appender of a definition. -/
def applyAppender (env : Env) (p : Ptr Logger) (a : AppenderDefinition) :
    Guarded (Outcome Unit Unit) :=
  if a.type = 1 then
    if env.canOpen a.file then do
      let ap ← act (fun w => { w with appenders := w.appenders.alloc ⟨.file a.file, none⟩ })
        fun w => pure w.appenders.fresh
      givePattern ap a.pattern
      givePattern ap a.pattern
      addAppender p ap
      pure (.ret ())
    -- the constructor of the appender ends the process
    else pure (.exit 1)
  else if a.type = 2 then do
    let ap ← act (fun w => w.newStdoutLogAppender) fun w => pure w.appenders.fresh
    givePattern ap a.pattern
    addAppender p ap
    pure (.ret ())
  -- a null pointer is followed
  else pure .crash

/-- A definition that is new or has changed. -/
def applyDefinition (env : Env) (i : LogDefinition) : Guarded (Outcome Unit Unit) := do
  let logger ← getLogger i.name
  modify fun w => w.setLevel logger i.level
  giveLoggerPattern logger i.pattern
  clearAppender logger
  forEach (applyAppender env logger) i.appenders

/-- The loop over the old set. -/
def deleteMissing (old new : LogSet) : Guarded Unit :=
  old.toList.forM fun i =>
    if new.find? i.name = none then do
      let logger ← getLogger i.name
      modify fun w => w.setLevel logger .off
      clearAppender logger
    else pure ()

/-- One iteration of the loop over the new set. -/
def visitDefinition (env : Env) (old new : LogSet) (i : LogDefinition) :
    Guarded (Outcome Unit Unit) :=
  if old.find? i.name = some i then pure (.ret ())
  else do
    let r ← applyDefinition env i
    match r with
    | .ret _ => do
        deleteMissing old new
        pure (.ret ())
    | stopped => pure stopped

/-- The listener `LogIniter` adds to "logs". -/
def onLogsChanged (env : Env) (old new : LogSet) : Guarded (Outcome Unit Unit) := do
  sylarLogRoot env .info "src/log.cpp" 696 "on logger changed"
  forEach (visitDefinition env old new) new.toList

end Guarded

namespace Shared

/-- What is done in the logging module. -/
def logging (p : Guarded α) : Shared U α := embed Mutex.logging Runtime.log Runtime.setLog p

/-- A statement of config.hpp on the root logger. -/
def sylarLog (env : Env) (level : LogLevel) (line : Int) (text : String) : Shared U Unit :=
  logging (Guarded.sylarLogRoot env level env.sourceFile line text)

/-! ### The registry -/

/-- `Config::Lookup<T>`. -/
def lookup (env : Env) (name : String) (c : U.Code) (default_value : U.Val c) :
    Shared U (Outcome String (Option (Ptr (Var U)))) :=
  scopedLock (.write, .registry) do
    let s ← read
    match s.registry.data.get? name with
    | some p =>
        match s.registry.cast c p with
        | some tmp => do
            sylarLog env .info 362 ("Lookup name=" ++ name ++ " exists")
            pure (.ret (some tmp))
        | none => do
            sylarLog env .error 366 (name ++ " exists but type " ++ s.registry.typeName p ++
              " is not supported.")
            pure (.ret none)
    | none =>
        if validName name then do
          let v ← act (fun s => { s with registry := { s.registry with
              vars := s.registry.vars.alloc (.new name c default_value) } })
            fun s => pure s.registry.vars.fresh
          modify fun s => { s with registry := { s.registry with
            data := s.registry.data.set name v } }
          pure (.ret (some v))
        else do
          sylarLog env .all 372 ("Lookup name invalid " ++ name)
          pure (.throw name)

/-- `Config::find<T>`. -/
def find (env : Env) (name : String) (c : U.Code) : Shared U (Option (Ptr (Var U))) :=
  scopedLock (.read, .registry) do
    let s ← read
    match s.registry.data.get? name with
    | none => do
        sylarLog env .info 387 (name ++ " does not exist.")
        pure none
    | some p => pure (s.registry.cast c p)

/-- `Config::LookupBase`. -/
def lookupBase (name : String) : Shared U (Option (Ptr (Var U))) :=
  scopedLock (.read, .registry) do
    let s ← read
    pure (s.registry.data.get? name)

/-- The entry an iterator that stands at `it`, or before the first, is moved on to. -/
def next (it : Option String) (m : SortedMap String (Ptr (Var U))) :
    Option (String × Ptr (Var U)) :=
  m.toList.find? fun i => decide (∀ k ∈ it, k < i.1)

/-- The loop of `Visit` from `it`, for at most `n` entries. -/
def visitFrom (callback : Ptr (Var U) → Shared U α) : Nat → Option String → Shared U (List α)
  | 0, _ => pure []
  | n + 1, it => do
      let s ← read
      match next it s.registry.data with
      | none => pure []
      | some i => do
          let a ← callback i.2
          let as ← visitFrom callback n (some i.1)
          pure (a :: as)

/-- `Config::Visit`; what the calls of the callback give is collected. -/
def visit (callback : Ptr (Var U) → Shared U α) : Shared U (List α) :=
  scopedLock (.read, .registry) do
    let s ← read
    -- the map stays as it is while the lock is held, and so does the number of iterations
    visitFrom callback s.registry.data.toList.length none

/-! ### Variables -/

end Shared

/-- What a program brings along: how its values are printed, and what its listeners do.  A
listener returns or throws. -/
structure Client (U : Types) where
  /-- `ToStr`. -/
  toStr : ∀ c, U.Val c → Outcome String String
  listener : ∀ c, Nat → (old new : U.Val c) → Shared U (Outcome String Unit)

namespace Shared

/-- Go on with the variable at `p`.  Pointers to variables are good, so `none` is not met. -/
def withVar (p : Ptr (Var U)) (none : α) (k : Var U → Shared U α) : Shared U α := do
  let s ← read
  match s.registry.vars.get? p with
  | some x => k x
  | _ => pure none

/-- `for (auto& f : m_callbacks) f.second(m_val, val)`. -/
def notifyAll (C : Client U) {c : U.Code} (old new : U.Val c) (fs : List (Nat × Nat)) :
    Shared U (Outcome String Unit) :=
  forEach (fun f => C.listener c f.2 old new) fs

/-- `m_val = val`. -/
def assign (p : Ptr (Var U)) (v : Value U) : Shared U Unit :=
  modify fun s => s.modifyVar p fun x => ((valueAt? v x.code).map x.assign).getD x

/-- `ConfigVar<T>::setValue`; `v` is a value of the variable's type. -/
def setValue (C : Client U) (p : Ptr (Var U)) (v : Value U) : Shared U (Outcome String Unit) :=
  -- `val == m_val`, before any lock is taken
  withVar p (.ret ()) fun x =>
    if v = x.value then pure (.ret ())
    else do
      let r ← scopedLock (.write, .ofVar p) (withVar p (.ret ()) fun x =>
        match valueAt? v x.code with
        | some val => notifyAll C x.var.val val x.var.callbacks.toList
        | none => pure (.ret ()))
      match r with
      -- the assignment is under a read lock
      | .ret _ => do
          scopedLock (.read, .ofVar p) (assign p v)
          pure (.ret ())
      | stopped => pure stopped

/-- The `catch` of `fromString`. -/
def reportFromString (env : Env) (c : U.Code) (what : String) : Shared U (Outcome String Bool) := do
  sylarLog env .all 294 ("ConfigVar::fromString exception" ++ what ++ " convert string to " ++
    U.typeName c ++ ".")
  pure (.ret false)

/-- `ConfigVar<T>::fromString`. -/
def fromString (env : Env) (C : Client U) (p : Ptr (Var U)) (val : String) :
    Shared U (Outcome String Bool) :=
  withVar p (.ret false) fun x =>
    match U.fromStr x.code val with
    | .ret v => do
        let r ← setValue C p ⟨x.code, v⟩
        match r with
        | .ret _ => pure (.ret true)
        | .throw what => reportFromString env x.code what
        | .exit n => pure (.exit n)
        | .crash => pure .crash
    | .throw what => reportFromString env x.code what
    | .exit n => pure (.exit n)
    | .crash => pure .crash

/-- `ConfigVar<T>::toString`; the lock is released before the `catch`. -/
def toString (env : Env) (C : Client U) (p : Ptr (Var U)) : Shared U (Outcome String String) := do
  let r ← scopedLock (.read, .ofVar p) <| withVar p (.ret "") fun x =>
    pure (C.toStr x.code x.var.val)
  match r with
  | .throw what => do
      let s ← read
      sylarLog env .all 283 ("ConfigVar::toString exception" ++ what ++ " convert " ++
        s.registry.typeName p ++ " to string.")
      pure (.ret "")
  | r => pure r

/-- `ConfigVar<T>::getValue`. -/
def getValue (p : Ptr (Var U)) : Shared U (Option (Value U)) :=
  scopedLock (.read, .ofVar p) (withVar p none fun x => pure (some x.value))

/-- The callbacks of a variable. -/
def modifyCallbacks (p : Ptr (Var U)) (f : SortedMap Nat Nat → SortedMap Nat Nat) :
    Shared U Unit :=
  modify fun s => s.modifyVar p fun x =>
    { x with var := { x.var with callbacks := f x.var.callbacks } }

/-- `ConfigVar<T>::addListener`.  The counter belongs to the type, the lock to the variable. -/
def addListener (p : Ptr (Var U)) (cb : Nat) : Shared U Nat :=
  scopedLock (.write, .ofVar p) <| withVar p 0 fun x => do
    -- the counter is read and written without a lock of its own
    let s ← read
    modify fun s' => { s' with
      funId := Function.update s'.funId x.code (ConfigVar.nextFunId (s.funId x.code)) }
    let s ← read
    modifyCallbacks p fun m => m.set (s.funId x.code) cb
    let s ← read
    pure (s.funId x.code)

/-- `ConfigVar<T>::delListener`. -/
def delListener (p : Ptr (Var U)) (key : Nat) : Shared U Unit :=
  scopedLock (.write, .ofVar p) (modifyCallbacks p fun m => m.erase key)

/-- `ConfigVar<T>::getListener`. -/
def getListener (p : Ptr (Var U)) (key : Nat) : Shared U (Option Nat) :=
  scopedLock (.read, .ofVar p) (withVar p none fun x => pure (x.var.callbacks.get? key))

/-- `ConfigVar<T>::clearListener`. -/
def clearListener (p : Ptr (Var U)) : Shared U Unit :=
  scopedLock (.write, .ofVar p) (modifyCallbacks p fun _ => SortedBy.empty)

/-! ### Loading -/

mutual

/-- `ListAllMember`, called with what has been listed before. -/
def listAllMember (env : Env) (path : String) (node : Node) (output : List (String × Node)) :
    Shared U (List (String × Node)) :=
  if validName path then
    match node with
    | .map entries => listEntries env path entries (output ++ [(path, .map entries)])
    | node => pure (output ++ [(path, node)])
  else do
    logging (Guarded.sylarLogRoot env .error "src/config.cpp" 21
      ("Config invalid name: " ++ path ++ " : " ++ env.yaml.emit node))
    pure output
termination_by structural node

/-- Its loop over the entries of a map. -/
def listEntries (env : Env) (path : String) (entries : List (Node × Node))
    (output : List (String × Node)) : Shared U (List (String × Node)) :=
  match entries with
  | [] => pure output
  | (key, node) :: rest => do
      let output ← listAllMember env (joinPath path key.scalarText) node output
      listEntries env path rest output
termination_by structural entries

end

/-- One iteration of the loop over the members. -/
def loadMember (env : Env) (C : Client U) (i : String × Node) : Shared U (Outcome String Unit) :=
  if i.1 = "" then pure (.ret ())
  else do
    let var ← lookupBase (tolower i.1)
    match var with
    | some p => do
        let r ← fromString env C p (nodeText env i.2)
        pure (r >>= fun _ => pure ())
    | none => pure (.ret ())

/-- `Config::LoadFromYaml`. -/
def loadFromYaml (env : Env) (C : Client U) (root : Node) : Shared U (Outcome String Unit) := do
  let all_nodes ← listAllMember env "" root []
  forEach (loadMember env C) all_nodes

end Shared

/-! ### The order of the locks -/

/-- All locks in `held` are below `n`. -/
def Under (held : Set (Request (Mutex U))) (n : Fin 5) : Prop := ∀ r ∈ held, r.2.rank < n

/-- As where listeners are called: the logging module is free. -/
abbrev UnderLogging (held : Set (Request (Mutex U))) : Prop := Under held 2

/-- As where the callback of `Visit` is called: the variables are free, too. -/
abbrev UnderVars (held : Set (Request (Mutex U))) : Prop := Under held 1

theorem under_empty (n : Fin 5) : Under (∅ : Set (Request (Mutex U))) n :=
  fun _ h => absurd h (Set.notMem_empty _)

theorem Under.mono {held : Set (Request (Mutex U))} {n m : Fin 5} (h : Under held n)
    (hn : n ≤ m) : Under held m := fun r hr => (h r hr).trans_le hn

/-- What holds the registry leaves the variables free. -/
protected theorem Under.registry {held : Set (Request (Mutex U))} (h : Under held 0) (m : Mode) :
    Under (insert (m, .registry) held) 1 := by
  rintro r (rfl | hr)
  · exact (by decide : (0 : Fin 5) < 1)
  · exact h.mono (by decide) r hr

/-- What holds a variable leaves the logging module free. -/
protected theorem Under.ofVar {held : Set (Request (Mutex U))} (h : Under held 1) (m : Mode)
    (p : Ptr (Var U)) : Under (insert (m, .ofVar p) held) 2 := by
  rintro r (rfl | hr)
  · exact (by decide : (1 : Fin 5) < 2)
  · exact h.mono (by decide) r hr

/-- Locks are taken in order, above those already held, and all given back. -/
abbrev Shared.InOrder (p : Shared U α) (held : Set (Request (Mutex U))) : Prop :=
  p.Ordered (fun r => r.2.rank) held held

theorem ordered_forEach {L σ ε β R : Type} [Preorder R] {rank : L → R} {held : Set L}
    {f : β → Prog L σ (Outcome ε Unit)} {xs : List β}
    (h : ∀ x, (f x).Ordered rank held held) : (forEach f xs).Ordered rank held held := by
  induction xs with
  | nil => exact .pure _ held
  | cons x xs ih =>
      refine (h x).bind fun r => ?_
      cases r with
      | ret _ => exact ih
      | throw e => exact .pure _ held
      | exit n => exact .pure _ held
      | crash => exact .pure _ held

namespace Guarded

variable {env : Env}

theorem ordered_sylarLog (p : Ptr Logger) (level : LogLevel) (filename : String) (line : Int)
    (text : String) : (sylarLog env p level filename line text).Ordered Lock.rank ∅ ∅ := by
  refine (Ordered.read ∅).bind fun w => ?_
  split
  · exact (Ordered.act fun _ => .pure _ ∅).bind fun e => (Ordered.modify _ ∅).bind fun _ =>
      (Ordered.read ∅).bind fun w => ordered_log (below_empty 1) _ e
  · exact .pure _ ∅

theorem ordered_sylarLogRoot (level : LogLevel) (filename : String) (line : Int) (text : String) :
    (sylarLogRoot env level filename line text).Ordered Lock.rank ∅ ∅ :=
  (Ordered.read ∅).bind fun _ => ordered_sylarLog _ level filename line text

theorem ordered_givePattern (ap : Ptr LogAppender) (pattern : String) :
    (givePattern ap pattern).Ordered Lock.rank ∅ ∅ := by
  unfold givePattern
  split
  · exact .pure _ ∅
  · exact ordered_setAppenderPattern (below_empty 2) pattern

theorem ordered_giveLoggerPattern (p : Ptr Logger) (pattern : String) :
    (giveLoggerPattern p pattern).Ordered Lock.rank ∅ ∅ := by
  unfold giveLoggerPattern
  split
  · exact .pure _ ∅
  · exact ordered_setLoggerPattern (below_empty 1) pattern

theorem ordered_applyAppender (p : Ptr Logger) (a : AppenderDefinition) :
    (applyAppender env p a).Ordered Lock.rank ∅ ∅ := by
  unfold applyAppender
  split_ifs
  · exact (Ordered.act fun _ => .pure _ ∅).bind fun ap =>
      (ordered_givePattern ap a.pattern).bind fun _ =>
        (ordered_givePattern ap a.pattern).bind fun _ =>
          (ordered_addAppender (below_empty 1)).bind fun _ => .pure _ ∅
  · exact .pure _ ∅
  · exact (Ordered.act fun _ => .pure _ ∅).bind fun ap =>
      (ordered_givePattern ap a.pattern).bind fun _ =>
        (ordered_addAppender (below_empty 1)).bind fun _ => .pure _ ∅
  · exact .pure _ ∅

theorem ordered_clearAppender (p : Ptr Logger) : (clearAppender p).Ordered Lock.rank ∅ ∅ :=
  .scopedLock (below_empty 1) (.modify _ _)

theorem ordered_applyDefinition (i : LogDefinition) :
    (applyDefinition env i).Ordered Lock.rank ∅ ∅ :=
  (ordered_getLogger (below_empty 0) i.name).bind fun logger => (Ordered.modify _ ∅).bind fun _ =>
    (ordered_giveLoggerPattern logger i.pattern).bind fun _ =>
      (ordered_clearAppender logger).bind fun _ =>
        ordered_forEach fun a => ordered_applyAppender logger a

theorem ordered_deleteMissing (old new : LogSet) :
    (deleteMissing old new).Ordered Lock.rank ∅ ∅ := by
  refine .forM fun i _ => ?_
  split
  · exact (ordered_getLogger (below_empty 0) i.name).bind fun logger =>
      (Ordered.modify _ ∅).bind fun _ => ordered_clearAppender logger
  · exact .pure _ ∅

/-- **The listener of the logging module** takes its locks in order. -/
theorem ordered_onLogsChanged (old new : LogSet) :
    (onLogsChanged env old new).Ordered Lock.rank ∅ ∅ := by
  unfold onLogsChanged
  refine (ordered_sylarLogRoot _ _ _ _).bind fun _ => ordered_forEach fun i => ?_
  unfold visitDefinition
  split
  · exact .pure _ ∅
  · refine (ordered_applyDefinition i).bind fun r => ?_
    cases r with
    | ret _ => exact (ordered_deleteMissing old new).bind fun _ => .pure _ ∅
    | throw e => exact .pure _ ∅
    | exit n => exact .pure _ ∅
    | crash => exact .pure _ ∅

end Guarded

/-- The listeners of the program may be called while a variable is locked. -/
def Client.InOrder (C : Client U) : Prop :=
  ∀ c f old new held, Under held 2 → (C.listener c f old new).InOrder held

namespace Shared

variable {env : Env} {C : Client U} {held : Set (Request (Mutex U))} {p : Ptr (Var U)}

/-- The logging module may be used under a variable's lock and the registry's. -/
theorem inOrder_logging {q : Guarded α} (hq : q.Ordered Lock.rank ∅ ∅) (h : Under held 2) :
    (logging q : Shared U α).InOrder held := by
  have hlogging : (logging q : Shared U α).Ordered (fun r => r.2.rank)
      (lockSet Mutex.logging held ∅) (lockSet Mutex.logging held ∅) := by
    unfold logging
    refine ordered_embed ?_ ?_ ?_ hq
    · exact fun l l' hlt => (Fin.natAdd_lt_natAdd_iff 2).mpr hlt
    · exact fun _ _ => Mutex.logging.inj
    · exact fun r hr l => (h r hr).trans_le (Nat.le_add_right 2 _)
  rwa [lockSet_empty] at hlogging

theorem inOrder_sylarLog (h : Under held 2) (level : LogLevel) (line : Int) (text : String) :
    (sylarLog env level line text : Shared U Unit).InOrder held :=
  inOrder_logging (Guarded.ordered_sylarLogRoot _ _ _ _) h

/-! #### The registry -/

theorem inOrder_lookup (h : Under held 0) (name : String) (c : U.Code) (d : U.Val c) :
    (lookup env name c d).InOrder held := by
  have hin := (h.registry .write).mono (show (1 : Fin 5) ≤ 2 by decide)
  refine .scopedLock h ((Ordered.read _).bind fun s => ?_)
  cases s.registry.data.get? name with
  | some p =>
      dsimp only
      cases s.registry.cast c p with
      | some tmp => exact (inOrder_sylarLog hin _ _ _).bind fun _ => .pure _ _
      | none => exact (inOrder_sylarLog hin _ _ _).bind fun _ => .pure _ _
  | none =>
      dsimp only
      split
      · exact (Ordered.act fun _ => .pure _ _).bind fun v => (Ordered.modify _ _).bind fun _ =>
          .pure _ _
      · exact (inOrder_sylarLog hin _ _ _).bind fun _ => .pure _ _

theorem inOrder_find (h : Under held 0) (name : String) (c : U.Code) :
    (find env name c).InOrder held := by
  have hin := (h.registry .read).mono (show (1 : Fin 5) ≤ 2 by decide)
  refine .scopedLock h ((Ordered.read _).bind fun s => ?_)
  cases s.registry.data.get? name with
  | none => exact (inOrder_sylarLog hin _ _ _).bind fun _ => .pure _ _
  | some p => exact .pure _ _

theorem inOrder_lookupBase (h : Under held 0) (name : String) :
    (lookupBase name : Shared U _).InOrder held :=
  .scopedLock h ((Ordered.read _).bind fun _ => .pure _ _)

theorem inOrder_visitFrom {callback : Ptr (Var U) → Shared U α}
    (h : ∀ p, (callback p).InOrder held) (n : Nat) (it : Option String) :
    (visitFrom callback n it).InOrder held := by
  induction n generalizing it with
  | zero => exact .pure _ _
  | succ n ih =>
      refine (Ordered.read _).bind fun s => ?_
      cases next it s.registry.data with
      | none => exact .pure _ _
      | some i => exact (h i.2).bind fun a => (ih (some i.1)).bind fun as => .pure _ _

/-- The callback is called while the registry is locked. -/
theorem inOrder_visit {callback : Ptr (Var U) → Shared U α}
    (hcallback : ∀ p held, Under held 1 → (callback p).InOrder held) (h : Under held 0) :
    (visit callback).InOrder held :=
  .scopedLock h <| (Ordered.read _).bind fun _ =>
    inOrder_visitFrom (fun p => hcallback p _ (h.registry .read)) _ _

/-! #### Variables -/

theorem inOrder_withVar {none : α} {k : Var U → Shared U α} (h : ∀ x, (k x).InOrder held) :
    (withVar p none k).InOrder held := by
  refine (Ordered.read _).bind fun s => ?_
  cases s.registry.vars.get? p with
  | some x => exact h x
  | none => exact .pure _ _

theorem inOrder_lockVar {m : Mode} {q : Shared U α} (h : Under held 1)
    (hq : q.InOrder (insert (m, .ofVar p) held)) :
    InOrder (scopedLock (m, .ofVar p) q) held := .scopedLock h hq

theorem inOrder_setValue (hC : C.InOrder) (h : Under held 1) (v : Value U) :
    (setValue C p v).InOrder held := by
  refine inOrder_withVar fun x => ?_
  split
  · exact .pure _ _
  · refine (inOrder_lockVar h (inOrder_withVar fun x => ?_)).bind fun r => ?_
    · cases valueAt? v x.code with
      | some val => exact ordered_forEach fun f => hC x.code f.2 x.var.val val _ (h.ofVar .write p)
      | none => exact .pure _ _
    · cases r with
      | ret _ => exact (inOrder_lockVar h (.modify _ _)).bind fun _ => .pure _ _
      | throw e => exact .pure _ _
      | exit n => exact .pure _ _
      | crash => exact .pure _ _

theorem inOrder_fromString (hC : C.InOrder) (h : Under held 1) (val : String) :
    (fromString env C p val).InOrder held := by
  have hreport : ∀ c what, (reportFromString env c what : Shared U _).InOrder held :=
    fun c what => (inOrder_sylarLog (h.mono (by decide)) _ _ _).bind fun _ =>
      .pure _ _
  refine inOrder_withVar fun x => ?_
  cases U.fromStr x.code val with
  | ret v =>
      refine (inOrder_setValue hC h _).bind fun r => ?_
      cases r with
      | ret _ => exact .pure _ _
      | throw what => exact hreport x.code what
      | exit n => exact .pure _ _
      | crash => exact .pure _ _
  | throw what => exact hreport x.code what
  | exit n => exact .pure _ _
  | crash => exact .pure _ _

theorem inOrder_toString (h : Under held 1) : (toString env C p).InOrder held := by
  refine (inOrder_lockVar h (inOrder_withVar fun x => .pure _ _)).bind fun r => ?_
  cases r with
  | throw what =>
      exact (Ordered.read _).bind fun s =>
        (inOrder_sylarLog (h.mono (by decide)) _ _ _).bind fun _ => .pure _ _
  | ret t => exact .pure _ _
  | exit n => exact .pure _ _
  | crash => exact .pure _ _

theorem inOrder_addListener (h : Under held 1) (cb : Nat) : (addListener p cb).InOrder held :=
  .scopedLock h <| inOrder_withVar fun _ => (Ordered.read _).bind fun _ =>
    (Ordered.modify _ _).bind fun _ => (Ordered.read _).bind fun _ =>
      (Ordered.modify _ _).bind fun _ => (Ordered.read _).bind fun _ => .pure _ _

/-! #### Loading -/

mutual

theorem inOrder_listAllMember (node : Node) (h : Under held 2) (path : String)
    (output : List (String × Node)) :
    (listAllMember env path node output : Shared U _).InOrder held := by
  unfold listAllMember
  split
  · cases node with
    | map entries => exact inOrder_listEntries entries h path _
    | null => exact .pure _ _
    | scalar s => exact .pure _ _
    | seq items => exact .pure _ _
  · exact (inOrder_logging (Guarded.ordered_sylarLogRoot _ _ _ _) h).bind fun _ => .pure _ _
termination_by structural node

theorem inOrder_listEntries (entries : List (Node × Node)) (h : Under held 2) (path : String)
    (output : List (String × Node)) :
    (listEntries env path entries output : Shared U _).InOrder held := by
  match entries with
  | [] => exact .pure _ _
  | (key, node) :: rest =>
      unfold listEntries
      exact (inOrder_listAllMember node h _ output).bind fun output =>
        inOrder_listEntries rest h path output
termination_by structural entries

end

theorem inOrder_loadFromYaml (hC : C.InOrder) (h : Under held 0) (root : Node) :
    (loadFromYaml env C root).InOrder held := by
  refine (inOrder_listAllMember root (h.mono (by decide)) "" []).bind
    fun all_nodes => ordered_forEach fun i => ?_
  unfold loadMember
  split
  · exact .pure _ _
  · refine (inOrder_lookupBase h _).bind fun var => ?_
    cases var with
    | some p =>
        exact (inOrder_fromString hC (h.mono (by decide)) _).bind
          fun _ => .pure _ _
    | none => exact .pure _ _

end Shared

/-! ### Calls -/

/-- What a thread may call. -/
inductive ConfigCall (U : Types)
  | lookup (env : Env) (name : String) (c : U.Code) (default_value : U.Val c)
  | find (env : Env) (name : String) (c : U.Code)
  | lookupBase (name : String)
  | visit (callback : Ptr (Var U) → Shared U Unit)
  | loadFromYaml (env : Env) (root : Node)
  | setValue (p : Ptr (Var U)) (v : Value U)
  | fromString (env : Env) (p : Ptr (Var U)) (val : String)
  | toString (env : Env) (p : Ptr (Var U))
  | getValue (p : Ptr (Var U))
  | addListener (p : Ptr (Var U)) (cb : Nat)
  | delListener (p : Ptr (Var U)) (key : Nat)
  | getListener (p : Ptr (Var U)) (key : Nat)
  | clearListener (p : Ptr (Var U))
  | logging (env : Env) (o : Operation)

/-- What a call returns. -/
inductive Result (U : Types)
  | pointer (r : Outcome String (Option (Ptr (Var U))))
  | visited (ps : List (Ptr (Var U)))
  | done (r : Outcome String Unit)
  | converted (r : Outcome String Bool)
  | text (r : Outcome String String)
  | value (v : Option (Value U))
  | key (n : Nat)
  | callback (f : Option Nat)

namespace ConfigCall

/-- The program of a call.  What `Visit` returns is whom it called its callback with. -/
def code (C : Client U) : ConfigCall U → Shared U (Result U)
  | lookup env name c d => Result.pointer <$> Shared.lookup env name c d
  | find env name c => (fun p => .pointer (.ret p)) <$> Shared.find env name c
  | lookupBase name => (fun p => .pointer (.ret p)) <$> Shared.lookupBase name
  | visit callback => Result.visited <$> Shared.visit fun p => do
      callback p
      pure p
  | loadFromYaml env root => Result.done <$> Shared.loadFromYaml env C root
  | setValue p v => Result.done <$> Shared.setValue C p v
  | fromString env p val => Result.converted <$> Shared.fromString env C p val
  | toString env p => Result.text <$> Shared.toString env C p
  | getValue p => Result.value <$> Shared.getValue p
  | addListener p cb => Result.key <$> Shared.addListener p cb
  | delListener p key => (fun _ => .done (.ret ())) <$> Shared.delListener p key
  | getListener p key => Result.callback <$> Shared.getListener p key
  | clearListener p => (fun _ => .done (.ret ())) <$> Shared.clearListener p
  | logging env o => (fun _ => .done (.ret ())) <$> Shared.logging (o.program env)

/-- The call keeps to the order: the callback of `Visit` takes no registry, and nobody calls
`addLogger`, which takes the manager's lock twice. -/
def InOrder : ConfigCall U → Prop
  | visit callback => ∀ p held, Under held 1 → (callback p).InOrder held
  | logging _ o => ¬ o.AddsLogger
  | _ => True

theorem inOrder_code {C : Client U} (hC : C.InOrder) {k : ConfigCall U} (hk : k.InOrder) :
    (k.code C).InOrder ∅ := by
  have hmap : ∀ {α β : Type} {p : Shared U α} (f : α → β), p.InOrder ∅ → (f <$> p).InOrder ∅ :=
    fun f hp => hp.bind fun _ => .pure _ ∅
  have h : ∀ n, Under (∅ : Set (Request (Mutex U))) n := under_empty
  cases k with
  | lookup env name c d => exact hmap _ (Shared.inOrder_lookup (h 0) name c d)
  | find env name c => exact hmap _ (Shared.inOrder_find (h 0) name c)
  | lookupBase name => exact hmap _ (Shared.inOrder_lookupBase (h 0) name)
  | visit callback =>
      exact hmap _ (Shared.inOrder_visit (fun p held hheld => (hk p held hheld).bind fun _ =>
        .pure _ _) (h 0))
  | loadFromYaml env root => exact hmap _ (Shared.inOrder_loadFromYaml hC (h 0) root)
  | setValue p v => exact hmap _ (Shared.inOrder_setValue hC (h 1) v)
  | fromString env p val => exact hmap _ (Shared.inOrder_fromString hC (h 1) val)
  | toString env p => exact hmap _ (Shared.inOrder_toString (h 1))
  | getValue p => exact hmap _ (.scopedLock (h 1) (Shared.inOrder_withVar fun _ => .pure _ _))
  | addListener p cb => exact hmap _ (Shared.inOrder_addListener (h 1) cb)
  | delListener p key => exact hmap _ (.scopedLock (h 1) (.modify _ _))
  | getListener p key =>
      exact hmap _ (.scopedLock (h 1) (Shared.inOrder_withVar fun _ => .pure _ _))
  | clearListener p => exact hmap _ (.scopedLock (h 1) (.modify _ _))
  | logging env o =>
      exact hmap _ (Shared.inOrder_logging (Operation.ordered env hk) (h 2))

end ConfigCall

section Threads

variable {ι : Type} [DecidableEq ι]

/-- **All calls return**: whatever threads call of the two modules, and however they are
scheduled, as long as the program's listeners and the callbacks of `Visit` take locks in
order, and nobody calls `addLogger`. -/
theorem calls_complete {P : Policy ι (Mutex U) (Runtime U) (Result U)} {C : Client U}
    (hC : C.InOrder) {s₀ : Runtime U} {k : ConfigCall U} {a : Result U}
    {s : SharedLocks.Calls ι (ConfigCall U) (Mutex U) (Runtime U) (Result U)}
    {tr : List (Taken (SharedLocks.Calls ι (ConfigCall U) (Mutex U) (Runtime U) (Result U))
      (CallEvent ι (ConfigCall U)))}
    (hrun : Run (SharedLocks.Calls.Step P (ConfigCall.code C)) (SharedLocks.Calls.start s₀ k a)
      tr s)
    (hcalls : ∀ x ∈ tr, ∀ i k, x.label = .call i k → k.InOrder) : s.config.Completes P :=
  SharedLocks.Calls.completes Mutex.rank hrun fun x hx i k hk =>
    ConfigCall.inOrder_code hC (hcalls x hx i k hk)

end Threads

/-- The program has the listener of the logging module; `logs` reads a value of "logs". -/
def Client.logs (U : Types) (logs : ∀ c, U.Val c → LogSet) (env : Env) : Client U where
  toStr _ _ := .ret ""
  listener c _ old new :=
    (Outcome.mapThrow fun _ => "") <$> Shared.logging (Guarded.onLogsChanged env (logs c old)
      (logs c new))

/-- **It may set up the loggers** while its variable is locked. -/
theorem Client.inOrder_logs (logs : ∀ c, U.Val c → LogSet) (env : Env) :
    (Client.logs U logs env).InOrder := fun _ _ _ _ _ h =>
  (Shared.inOrder_logging (Guarded.ordered_onLogsChanged _ _) h).bind fun _ => .pure _ _

/-- One type of variables, that of "logs". -/
abbrev Types.logs : Types := .ofRead (fun _ => none : String → Option LogSet)

/-- Nothing is registered, and no thread has called anything. -/
def sampleStart (ι : Type) :
    SharedLocks.Calls ι (ConfigCall Types.logs) (Mutex Types.logs) (Runtime Types.logs)
      (Result Types.logs) :=
  .start ⟨Registry.start .init, fun _ => 0⟩ (.lookupBase "") (.key 0)

/-- One thread looks up "logs" while another one sets a variable. -/
theorem calls_complete_logs :
    let P := Policy.preferReaders Bool (Mutex Types.logs) (Runtime Types.logs) (Result Types.logs)
    let C := Client.logs Types.logs (fun _ v => v) (Env.sample [])
    let k : ConfigCall Types.logs := .lookup (Env.sample []) "logs" () SortedBy.empty
    let k' : ConfigCall Types.logs := .setValue ⟨0⟩ ⟨(), SortedBy.empty⟩
    ∃ s s', let tr := [⟨sampleStart Bool, .call true k, s⟩, ⟨s, .call false k', s'⟩]
      Run (SharedLocks.Calls.Step P (ConfigCall.code C)) (sampleStart Bool) tr s' ∧
        s'.config.Completes P := by
  intro P C k k'
  have hrun : Run (SharedLocks.Calls.Step P (ConfigCall.code C)) (sampleStart Bool) _ _ :=
    (Run.nil.snoc (.call (i := true) k ⟨_, rfl⟩)).snoc (.call (i := false) k' ⟨_, rfl⟩)
  refine ⟨_, _, hrun, calls_complete (Client.inOrder_logs _ _) hrun fun x hx i k hk => ?_⟩
  rcases List.mem_cons.mp hx with rfl | hx
  · cases hk
    trivial
  · obtain rfl := List.mem_singleton.mp hx
    cases hk
    trivial

end Sylar
