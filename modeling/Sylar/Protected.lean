/-
Sylar/Protected.lean

What the locks of both modules protect (config.hpp, config.cpp, log.hpp, log.cpp).

The registry's lock keeps the bindings, the manager's the map of the loggers, a
logger's its appenders and its formatter, and a variable's its listeners: what is
iterated over under a lock stays as it is (`locks_protect`).  A variable's value is
protected less: `setValue` assigns it under a read lock, so only a writer can be sure
of it.

Some data is not protected at all, and so is not spoken of here: the level of a
logger, the formatter of an appender (the overrides of `setFormatter` take no lock),
the pattern of a formatter, and the counter `s_fun_id`, which belongs to a type while the
lock belongs to a variable.
-/
import Sylar.ConfigLocking
import Sylar.Lib.Solo
import Sylar.Lib.Protection

namespace Sylar

open Config Locks Locks.Prog SharedLocks Transition Yaml

variable {U : Types} {α β : Type}

/-! ### What they protect -/

/-- What the lock of a logger protects: everything but its level. -/
def Logger.guarded (x : Logger) : String × List (Ptr LogAppender) × Option (Ptr LogFormatter) :=
  (x.logname, x.appenders, x.formatter)

/-- What only who holds the lock may change is the same. -/
def Lock.Same : Lock → LogSystem → LogSystem → Prop
  | .manager, w, w' => w'.loggerMap = w.loggerMap ∧ w'.root = w.root
  | .logger p, w, w' => Arena.Keeps Logger.guarded p w.loggers w'.loggers
  -- its stream is the subject of another model
  | .appender _, _, _ => True

/-- What only who writes may change of a variable. -/
def Var.guarded (x : Var U) : String × U.Code × SortedMap Nat Nat := (x.name, x.code, x.var.callbacks)

/-- What only who holds the lock in the mode, or for writing, may change is the same. -/
def Mutex.Same : Mode → Mutex U → Runtime U → Runtime U → Prop
  | .write, .registry, s, s' => s'.registry.data = s.registry.data
  | .read, .registry, _, _ => True
  | .write, .ofVar p, s, s' => Arena.Keeps Var.guarded p s.registry.vars s'.registry.vars
  | .read, .ofVar p, s, s' => Arena.Keeps Var.value p s.registry.vars s'.registry.vars
  | _, .logging l, s, s' => l.Same s.log s'.log

theorem Lock.same_refl (l : Lock) (w : LogSystem) : l.Same w w := by
  cases l with
  | manager => exact ⟨rfl, rfl⟩
  | logger p => exact .refl _ p _
  | appender a => trivial

theorem Lock.Same.trans {l : Lock} {w w' w'' : LogSystem} (h : l.Same w w') (h' : l.Same w' w'') :
    l.Same w w'' := by
  cases l with
  | manager => exact ⟨h'.1.trans h.1, h'.2.trans h.2⟩
  | logger p => exact Arena.Keeps.trans h h'
  | appender a => trivial

/-- The locks of both modules, and what they protect. -/
def protection (U : Types) : Protection (Mutex U) (Runtime U) where
  same := Mutex.Same
  refl m l s := by
    cases l with
    | registry => cases m <;> trivial
    | ofVar p => cases m <;> exact Arena.Keeps.refl _ p _
    | logging l => cases m <;> exact l.same_refl _
  trans m l s s' s'' h h' := by
    cases l with
    | registry =>
        cases m with
        | read => trivial
        | write => exact Eq.trans h' h
    | ofVar p => cases m <;> exact Arena.Keeps.trans h h'
    | logging l => cases m <;> exact Lock.Same.trans h h'

/-! ### The logging module -/

/-- A step in the logging module that is open to who holds these locks. -/
def LogSystem.Open (held : Set Lock) (w w' : LogSystem) : Prop := ∀ l ∉ held, l.Same w w'

namespace LogSystem

variable {held : Set Lock} {w w' : LogSystem} {p : Ptr Logger}

theorem open_refl (held : Set Lock) (w : LogSystem) : w.Open held w := fun l _ => l.same_refl w

/-- A step that keeps to the objects without a lock, or makes a logger. -/
theorem open_of_keeps (hmap : w'.loggerMap = w.loggerMap) (hroot : w'.root = w.root)
    (hloggers : ∀ p, Arena.Keeps Logger.guarded p w.loggers w'.loggers) : w.Open held w' := by
  intro l _
  cases l with
  | manager => exact ⟨hmap, hroot⟩
  | logger p => exact hloggers p
  | appender a => trivial

theorem open_of_eq (hmap : w'.loggerMap = w.loggerMap) (hroot : w'.root = w.root)
    (hloggers : w'.loggers = w.loggers) : w.Open held w' :=
  open_of_keeps hmap hroot fun p => hloggers ▸ .refl _ p _

theorem open_newLogger (name : String) : w.Open held (w.newLogger name) :=
  open_of_keeps rfl rfl fun _ => Arena.keeps_alloc _

theorem open_newAppender (x : LogAppender) :
    w.Open held { w with appenders := w.appenders.alloc x } := open_of_eq rfl rfl rfl

theorem open_write (e : Ptr LogEvent) (text : String) : w.Open held (w.write e text) :=
  open_of_eq rfl rfl rfl

theorem open_setLevel (p : Ptr Logger) (level : LogLevel) : w.Open held (w.setLevel p level) :=
  open_of_keeps rfl rfl fun _ => Arena.keeps_modify fun _ => rfl

theorem open_newLogEvent (p : Ptr Logger) (level : LogLevel) (filename : String) (line : Int)
    (threadID fiberID elapse time : UInt32) :
    w.Open held (w.newLogEvent p level filename line threadID fiberID elapse time) :=
  open_of_keeps rfl rfl fun _ => Arena.keeps_modify fun _ => rfl

/-- A logger is changed under its lock. -/
theorem open_modify (hp : .logger p ∈ held) (f : Logger → Logger) :
    w.Open held { w with loggers := w.loggers.modify p f } := by
  intro l hl
  cases l with
  | manager => exact ⟨rfl, rfl⟩
  | logger q =>
      have hne : q ≠ p := by
        rintro rfl
        exact hl hp
      exact Arena.keeps_modify_of_ne hne
  | appender a => trivial

/-- The map is changed under the manager's lock. -/
theorem open_getLogger (h : .manager ∈ held) (name : String) : w.Open held (w.getLogger name).1 := by
  unfold getLogger
  cases w.loggerMap.get? name with
  | some p => exact open_refl held w
  | none =>
      intro l hl
      cases l with
      | manager => exact absurd h hl
      | logger p => exact Arena.keeps_alloc _
      | appender a => trivial

end LogSystem

/-- The program changes what is protected only with the lock in hand. -/
abbrev Guarded.Respectful (q : Guarded α) (held : Set Lock) : Prop :=
  Respects LogSystem.Open q held held

theorem respects_forEach {L σ ε β : Type} {R : Set L → σ → σ → Prop} {held : Set L}
    {f : β → Prog L σ (Outcome ε Unit)} {xs : List β} (h : ∀ x, Respects R (f x) held held) :
    Respects R (forEach f xs) held held := by
  induction xs with
  | nil => exact .pure _
  | cons x xs ih =>
      refine (h x).bind fun r => ?_
      cases r with
      | ret _ => exact ih
      | throw e => exact .pure _
      | exit n => exact .pure _
      | crash => exact .pure _

namespace Guarded

open LogSystem

variable {held : Set Lock} {env : Env} {Y : Yaml.Cpp} {p : Ptr Logger} {a : Ptr LogAppender}

theorem respectful_read : Respectful (read : Guarded LogSystem) held := .read (open_refl held)

/-! #### Appenders -/

theorem respectful_newLogFormatter (pattern : String) :
    (newLogFormatter pattern).Respectful held :=
  .act (fun _ => open_of_eq rfl rfl rfl) fun _ => .pure _

theorem respectful_getAppenderFormatter : (getAppenderFormatter a).Respectful held :=
  .scopedLock (respectful_read.bind fun _ => .pure _)

theorem respectful_setAppenderFormatter (f : Option (Ptr LogFormatter)) :
    (setAppenderFormatter a f).Respectful held := .modify fun _ => open_of_eq rfl rfl rfl

theorem respectful_setAppenderPattern (pattern : String) :
    (setAppenderPattern a pattern).Respectful held := by
  refine .scopedLock ?_
  split
  · exact .pure _
  · exact (respectful_newLogFormatter pattern).bind fun f => respectful_setAppenderFormatter _

theorem respectful_appenderLog (e : Ptr LogEvent) : (appenderLog env p e a).Respectful held := by
  have hrecord : ∀ held : Set Lock, (record env p e a).Respectful held :=
    fun held => .modify fun _ => open_of_eq rfl rfl rfl
  refine respectful_read.bind fun w => ?_
  cases (w.appender a).kind with
  | stdout =>
      dsimp only
      split
      · exact hrecord held
      · exact .scopedLock (hrecord _)
  | file filename => exact .scopedLock (hrecord _)

theorem respectful_appenderToYamlString : (appenderToYamlString Y a).Respectful held :=
  .scopedLock (respectful_read.bind fun _ => .pure _)

/-! #### Loggers -/

/-- What is done to a logger under its lock. -/
theorem respectful_modify (f : LogSystem → Logger → Logger) :
    Respectful (scopedLock (.logger p) (modify fun w =>
      { w with loggers := w.loggers.modify p (f w) })) held :=
  .scopedLock (.modify fun w => open_modify (Set.mem_insert _ _) (f w))

theorem respectful_setLoggerPattern (pattern : String) :
    (setLoggerPattern p pattern).Respectful held := by
  unfold setLoggerPattern
  split
  · exact .pure _
  · exact (respectful_newLogFormatter pattern).bind fun f => respectful_modify _

theorem respectful_addAppender : (addAppender p a).Respectful held := by
  refine .scopedLock (Respects.bind ?_ fun _ => .modify fun w =>
    open_modify (Set.mem_insert _ _) _)
  refine respectful_getAppenderFormatter.bind fun f => respectful_read.bind fun w => ?_
  split
  · exact respectful_setAppenderFormatter _
  · exact .pure _

theorem respectful_log (level : LogLevel) (e : Ptr LogEvent) :
    (log env p level e).Respectful held := by
  refine .scopedLock (respectful_read.bind fun w => ?_)
  split
  · exact .forM fun a => respectful_appenderLog e
  · exact .pure _

theorem respectful_loadAll {β : Type} {text : β → Guarded (Outcome Unit String)} {xs : List β}
    (h : ∀ i, (text i).Respectful held) : (loadAll Y text xs).Respectful held := by
  refine .foldlM fun nodes i => ?_
  cases nodes with
  | ret nodes => exact (h i).bind fun _ => .pure _
  | throw e => exact .pure _
  | exit n => exact .pure _
  | crash => exact .pure _

theorem respectful_loggerToYamlString : (loggerToYamlString Y p).Respectful held :=
  .scopedLock <| respectful_read.bind fun _ =>
    (respectful_loadAll fun _ => respectful_appenderToYamlString).bind fun _ => .pure _

/-! #### The manager -/

theorem respectful_newLoggerManager : newLoggerManager.Respectful held :=
  (Respects.act (fun _ => open_newLogger _) fun _ => .pure _).bind fun _ =>
    (Respects.act (fun _ => open_newAppender _) fun _ => .pure _).bind fun _ =>
      respectful_addAppender

theorem respectful_getLogger (name : String) : (getLogger name).Respectful held :=
  .scopedLock (.act (fun _ => open_getLogger (Set.mem_insert _ _) name) fun _ => .pure _)

theorem respectful_toYamlString : (toYamlString Y).Respectful held :=
  .scopedLock <| respectful_read.bind fun _ =>
    (respectful_loadAll fun _ => respectful_loggerToYamlString).bind fun _ => .pure _

/-! #### Statements, and the listener -/

theorem respectful_sylarLog (p : Ptr Logger) (level : LogLevel) (filename : String) (line : Int)
    (text : String) : (sylarLog env p level filename line text).Respectful held := by
  refine respectful_read.bind fun w => ?_
  split
  · exact (Respects.act (fun _ => open_newLogEvent _ _ _ _ _ _ _ _) fun _ => .pure _).bind fun e =>
      (Respects.modify fun _ => open_write e text).bind fun _ => respectful_read.bind fun _ =>
        respectful_log _ e
  · exact .pure _

theorem respectful_sylarLogRoot (level : LogLevel) (filename : String) (line : Int)
    (text : String) : (sylarLogRoot env level filename line text).Respectful held :=
  respectful_read.bind fun _ => respectful_sylarLog _ level filename line text

theorem respectful_givePattern (pattern : String) : (givePattern a pattern).Respectful held := by
  unfold givePattern
  split
  · exact .pure _
  · exact respectful_setAppenderPattern pattern

theorem respectful_giveLoggerPattern (pattern : String) :
    (giveLoggerPattern p pattern).Respectful held := by
  unfold giveLoggerPattern
  split
  · exact .pure _
  · exact respectful_setLoggerPattern pattern

theorem respectful_applyAppender (d : AppenderDefinition) :
    (applyAppender env p d).Respectful held := by
  unfold applyAppender
  split_ifs
  · exact (Respects.act (fun _ => open_newAppender _) fun _ => .pure _).bind fun a =>
      (respectful_givePattern _).bind fun _ => (respectful_givePattern _).bind fun _ =>
        respectful_addAppender.bind fun _ => .pure _
  · exact .pure _
  · exact (Respects.act (fun _ => open_newAppender _) fun _ => .pure _).bind fun a =>
      (respectful_givePattern _).bind fun _ => respectful_addAppender.bind fun _ => .pure _
  · exact .pure _

theorem respectful_applyDefinition (i : LogDefinition) :
    (applyDefinition env i).Respectful held :=
  (respectful_getLogger _).bind fun logger =>
    (Respects.modify fun _ => open_setLevel logger _).bind fun _ =>
      (respectful_giveLoggerPattern _).bind fun _ => (respectful_modify _).bind fun _ =>
        respects_forEach fun d => respectful_applyAppender d

theorem respectful_deleteMissing (old new : LogSet) : (deleteMissing old new).Respectful held := by
  refine .forM fun i => ?_
  split
  · exact (respectful_getLogger _).bind fun logger =>
      (Respects.modify fun _ => open_setLevel logger _).bind fun _ => respectful_modify _
  · exact .pure _

/-- **The listener of the logging module** sets up the loggers with their locks. -/
theorem respectful_onLogsChanged (old new : LogSet) :
    (onLogsChanged env old new).Respectful held := by
  unfold onLogsChanged
  refine (respectful_sylarLogRoot _ _ _ _).bind fun _ => respects_forEach fun i => ?_
  unfold visitDefinition
  split
  · exact .pure _
  · refine (respectful_applyDefinition i).bind fun r => ?_
    cases r with
    | ret _ => exact (respectful_deleteMissing old new).bind fun _ => .pure _
    | throw e => exact .pure _
    | exit n => exact .pure _
    | crash => exact .pure _

end Guarded

/-- **Every operation of the logging module** changes what is protected only with the lock. -/
theorem Operation.respectful (env : Env) (o : Operation) {held : Set Lock} :
    (o.program env).Respectful held := by
  have hdrop : ∀ {α : Type} {q : Guarded α}, q.Respectful held →
      (q >>= fun _ => pure ()).Respectful held := fun hq => hq.bind fun _ => .pure _
  -- operations without a lock, which touch nothing that is protected
  have hmodify : ∀ {f : LogSystem → LogSystem}, (∀ w, LogSystem.Open held w (f w)) →
      Guarded.Respectful (modify f) held := fun hf => .modify hf
  cases o with
  | op o =>
      cases o with
      | newLogFormatter pattern => exact hmodify fun _ => LogSystem.open_of_eq rfl rfl rfl
      | setPattern f pattern => exact hmodify fun _ => LogSystem.open_of_eq rfl rfl rfl
      | newStdoutLogAppender => exact hmodify fun _ => LogSystem.open_newAppender _
      | newFileLogAppender filename =>
          refine hmodify fun w => ?_
          unfold LogSystem.newFileLogAppender
          by_cases h : env.canOpen filename = true
          · simp only [if_pos h]
            exact LogSystem.open_newAppender _
          · simp only [if_neg h]
            exact LogSystem.open_refl held w
      | setAppenderFormatter a f => exact Guarded.respectful_setAppenderFormatter f
      | setAppenderPattern a pattern => exact Guarded.respectful_setAppenderPattern pattern
      | newLogger name => exact hmodify fun _ => LogSystem.open_newLogger name
      | setLevel p level => exact hmodify fun _ => LogSystem.open_setLevel p level
      | addAppender p a => exact Guarded.respectful_addAppender
      | delAppender p a => exact Guarded.respectful_modify _
      | clearAppender p => exact Guarded.respectful_modify _
      | setLoggerFormatter p f => exact Guarded.respectful_modify _
      | setLoggerPattern p pattern => exact Guarded.respectful_setLoggerPattern pattern
      | newLogEvent p level filename line threadID fiberID elapse time =>
          exact hmodify fun _ => LogSystem.open_newLogEvent _ _ _ _ _ _ _ _
      | write e text => exact hmodify fun _ => LogSystem.open_write e text
      | log p level e => exact Guarded.respectful_log level e
      | getLogger name => exact hdrop (Guarded.respectful_getLogger name)
      | addLogger name p =>
          -- it asks for a lock it has, and does nothing more
          refine .scopedLock fun h => ?_
          exact absurd (Set.mem_insert _ _) h
  | baseSetFormatter a f => exact .scopedLock (.modify fun _ => LogSystem.open_of_eq rfl rfl rfl)
  | getAppenderFormatter a => exact hdrop Guarded.respectful_getAppenderFormatter
  | appenderLog p e a => exact Guarded.respectful_appenderLog e
  | reopen a => exact .scopedLock (.pure _)
  | appenderToYamlString a => exact hdrop Guarded.respectful_appenderToYamlString
  | getLevel p => exact hdrop Guarded.respectful_read
  | getLoggerFormatter p =>
      exact hdrop (.scopedLock (Guarded.respectful_read.bind fun _ => .pure _))
  | loggerToYamlString p => exact hdrop Guarded.respectful_loggerToYamlString
  | newLoggerManager => exact Guarded.respectful_newLoggerManager
  | getRoot => exact hdrop Guarded.respectful_read
  | init => exact .pure _
  | toYamlString => exact hdrop Guarded.respectful_toYamlString

/-! ### Both modules -/

namespace Runtime

variable {held : Set (Request (Mutex U))} {s s' : Runtime U} {p : Ptr (Var U)} {m : Mode}

/-! What is left alone is the same. -/

theorem same_registry (h : s'.registry.data = s.registry.data) : Mutex.Same m .registry s s' := by
  cases m with
  | read => trivial
  | write => exact h

theorem same_ofVar (h : s'.registry.vars = s.registry.vars) : Mutex.Same m (.ofVar p) s s' := by
  have hkeeps : ∀ {β : Type} (f : Var U → β), Arena.Keeps f p s.registry.vars s'.registry.vars :=
    fun f => h.symm ▸ .refl f p _
  cases m <;> exact hkeeps _

theorem same_logging {l : Lock} (h : s'.log = s.log) : Mutex.Same m (.logging l) s s' := by
  have hsame : l.Same s.log s'.log := h.symm ▸ l.same_refl _
  cases m <;> exact hsame

/-- A step of the logging module is open to who holds its locks. -/
theorem open_setLog {base : Set (Request (Mutex U))} {locks : Set Lock} {w : LogSystem}
    (h : s.log.Open locks w) :
    (protection U).Open (lockSet Mutex.logging base locks) s (s.setLog w) := by
  intro m l hm hw
  cases l with
  | registry => exact same_registry rfl
  | ofVar p => exact same_ofVar rfl
  | logging l =>
      have hl := h l fun hl => hw (Or.inr ⟨l, hl, rfl⟩)
      cases m <;> exact hl

/-- A new variable is nobody else's yet. -/
theorem open_alloc (x : Var U) : (protection U).Open held s
    { s with registry := { s.registry with vars := s.registry.vars.alloc x } } := by
  intro m l _ _
  cases l with
  | registry => exact same_registry rfl
  | ofVar p => cases m <;> exact Arena.keeps_alloc x
  | logging l => exact same_logging rfl

/-- The registry is written under its lock. -/
theorem open_setData (h : (.write, .registry) ∈ held) (data : SortedMap String (Ptr (Var U))) :
    (protection U).Open held s { s with registry := { s.registry with data := data } } := by
  intro m l _ hw
  cases l with
  | registry => exact absurd h hw
  | ofVar p => exact same_ofVar rfl
  | logging l => exact same_logging rfl

/-- The counter of the keys has no lock of its own. -/
theorem open_setFunId (f : U.Code → Nat) : (protection U).Open held s { s with funId := f } := by
  intro m l _ _
  cases l with
  | registry => exact same_registry rfl
  | ofVar p => exact same_ofVar rfl
  | logging l => exact same_logging rfl

/-- A variable is written under its lock; its value is, under a lock for reading. -/
theorem open_modifyVar (hp : (m, .ofVar p) ∈ held) {f : Var U → Var U}
    (hf : m = .read → ∀ x, (f x).guarded = x.guarded) :
    (protection U).Open held s (s.modifyVar p f) := by
  intro m' l hm' hw
  cases l with
  | registry => exact same_registry rfl
  | logging l => exact same_logging rfl
  | ofVar q =>
      by_cases hq : q = p
      · subst hq
        cases m with
        | write => exact absurd hp hw
        | read =>
            cases m' with
            | read => exact absurd hp hm'
            | write => exact Arena.keeps_modify (hf rfl)
      · cases m' <;> exact Arena.keeps_modify_of_ne hq

end Runtime

/-- The program changes what is protected only with the lock in hand. -/
abbrev Shared.Respectful (q : Shared U α) (held : Set (Request (Mutex U))) : Prop :=
  Respects (protection U).Open q held held

/-- The listeners of the program do, while a variable is locked. -/
def Client.Respectful (C : Client U) : Prop :=
  ∀ c f old new held, UnderLogging held → (C.listener c f old new).Respectful held

namespace Shared

variable {env : Env} {C : Client U} {held : Set (Request (Mutex U))} {p : Ptr (Var U)}

theorem respectful_read : Respectful (read : Shared U (Runtime U)) held :=
  .read ((protection U).open_refl held)

theorem respectful_logging {q : Guarded α} (hq : q.Respectful ∅) (h : Under held 2) :
    (logging q : Shared U α).Respectful held := by
  have hlogging : Respects (protection U).Open (logging q : Shared U α)
      (lockSet Mutex.logging held ∅) (lockSet Mutex.logging held ∅) := by
    refine respects_embed (fun _ _ => Mutex.logging.inj) (fun l hl => ?_)
      (fun _ _ _ => Runtime.open_setLog) hq
    exact absurd (h _ hl) (Nat.not_lt.mpr (Nat.le_add_right 2 _))
  rwa [lockSet_empty] at hlogging

theorem respectful_sylarLog (h : Under held 2) (level : LogLevel) (line : Int) (text : String) :
    (sylarLog env level line text : Shared U Unit).Respectful held :=
  respectful_logging (Guarded.respectful_sylarLogRoot _ _ _ _) h

/-! #### The registry -/

theorem respectful_lookup (h : Under held 0) (name : String) (c : U.Code) (d : U.Val c) :
    (lookup env name c d).Respectful held := by
  have hin := (h.registry .write).mono (show (1 : Fin 5) ≤ 2 by decide)
  refine .scopedLock (respectful_read.bind fun s => ?_)
  cases s.registry.data.get? name with
  | some p =>
      dsimp only
      cases s.registry.cast c p with
      | some tmp => exact (respectful_sylarLog hin _ _ _).bind fun _ => .pure _
      | none => exact (respectful_sylarLog hin _ _ _).bind fun _ => .pure _
  | none =>
      dsimp only
      split
      · exact (Respects.act (fun _ => Runtime.open_alloc _) fun _ => .pure _).bind fun v =>
          (Respects.modify fun _ => Runtime.open_setData (Set.mem_insert _ _) _).bind fun _ =>
            .pure _
      · exact (respectful_sylarLog hin _ _ _).bind fun _ => .pure _

theorem respectful_find (h : Under held 0) (name : String) (c : U.Code) :
    (find env name c).Respectful held := by
  have hin := (h.registry .read).mono (show (1 : Fin 5) ≤ 2 by decide)
  refine .scopedLock (respectful_read.bind fun s => ?_)
  cases s.registry.data.get? name with
  | none => exact (respectful_sylarLog hin _ _ _).bind fun _ => .pure _
  | some p => exact .pure _

theorem respectful_lookupBase (name : String) : (lookupBase name : Shared U _).Respectful held :=
  .scopedLock (respectful_read.bind fun _ => .pure _)

theorem respectful_visitFrom {callback : Ptr (Var U) → Shared U α}
    (h : ∀ p, (callback p).Respectful held) (n : Nat) (it : Option String) :
    (visitFrom callback n it).Respectful held := by
  induction n generalizing it with
  | zero => exact .pure _
  | succ n ih =>
      refine respectful_read.bind fun s => ?_
      cases next it s.registry.data with
      | none => exact .pure _
      | some i => exact (h i.2).bind fun a => (ih (some i.1)).bind fun as => .pure _

theorem respectful_visit {callback : Ptr (Var U) → Shared U α}
    (hcallback : ∀ p held, Under held 1 → (callback p).Respectful held) (h : Under held 0) :
    (visit callback).Respectful held :=
  .scopedLock <| respectful_read.bind fun _ =>
    respectful_visitFrom (fun p => hcallback p _ (h.registry .read)) _ _

/-! #### Variables -/

theorem respectful_withVar {none : α} {k : Var U → Shared U α}
    (h : ∀ x, (k x).Respectful held) : (withVar p none k).Respectful held := by
  refine respectful_read.bind fun s => ?_
  cases s.registry.vars.get? p with
  | some x => exact h x
  | none => exact .pure _

/-- The assignment, for which a lock for reading is enough. -/
theorem respectful_assign (v : Value U) :
    Respectful (scopedLock (.read, .ofVar p) (assign p v)) held := by
  refine .scopedLock (.modify fun s => Runtime.open_modifyVar (Set.mem_insert _ _) fun _ x => ?_)
  cases valueAt? v x.code <;> rfl

theorem respectful_setValue (hC : C.Respectful) (h : Under held 1) (v : Value U) :
    (setValue C p v).Respectful held := by
  refine respectful_withVar fun x => ?_
  split
  · exact .pure _
  · refine Respects.bind (.scopedLock (respectful_withVar fun x => ?_)) fun r => ?_
    · cases valueAt? v x.code with
      | some val => exact respects_forEach fun f => hC x.code f.2 x.var.val val _ (h.ofVar .write p)
      | none => exact .pure _
    · cases r with
      | ret _ => exact (respectful_assign v).bind fun _ => .pure _
      | throw e => exact .pure _
      | exit n => exact .pure _
      | crash => exact .pure _

theorem respectful_fromString (hC : C.Respectful) (h : Under held 1) (val : String) :
    (fromString env C p val).Respectful held := by
  have hreport : ∀ c what, (reportFromString env c what : Shared U _).Respectful held :=
    fun c what => (respectful_sylarLog (h.mono (by decide)) _ _ _).bind fun _ => .pure _
  refine respectful_withVar fun x => ?_
  cases U.fromStr x.code val with
  | ret v =>
      refine (respectful_setValue hC h _).bind fun r => ?_
      cases r with
      | ret _ => exact .pure _
      | throw what => exact hreport x.code what
      | exit n => exact .pure _
      | crash => exact .pure _
  | throw what => exact hreport x.code what
  | exit n => exact .pure _
  | crash => exact .pure _

theorem respectful_toString (h : Under held 1) : (toString env C p).Respectful held := by
  refine Respects.bind (.scopedLock (respectful_withVar fun x => .pure _)) fun r => ?_
  cases r with
  | throw what =>
      exact respectful_read.bind fun s =>
        (respectful_sylarLog (h.mono (by decide)) _ _ _).bind fun _ => .pure _
  | ret t => exact .pure _
  | exit n => exact .pure _
  | crash => exact .pure _

theorem respectful_look (f : Var U → α) (none : α) :
    Respectful (scopedLock (.read, .ofVar p) (withVar p none fun x => pure (f x))) held :=
  .scopedLock (respectful_withVar fun _ => .pure _)

theorem respectful_modifyCallbacks (hp : (.write, .ofVar p) ∈ held)
    (f : SortedMap Nat Nat → SortedMap Nat Nat) :
    (modifyCallbacks p f : Shared U Unit).Respectful held :=
  .modify fun _ => Runtime.open_modifyVar hp fun h => by cases h

theorem respectful_addListener (cb : Nat) : (addListener p cb).Respectful held :=
  .scopedLock <| respectful_withVar fun _ => respectful_read.bind fun _ =>
    (Respects.modify fun _ => Runtime.open_setFunId _).bind fun _ => respectful_read.bind fun _ =>
      (respectful_modifyCallbacks (Set.mem_insert _ _) _).bind fun _ =>
        respectful_read.bind fun _ => .pure _

/-! #### Loading -/

mutual

theorem respectful_listAllMember (node : Node) (h : Under held 2) (path : String)
    (output : List (String × Node)) :
    (listAllMember env path node output : Shared U _).Respectful held := by
  unfold listAllMember
  split
  · cases node with
    | map entries => exact respectful_listEntries entries h path _
    | null => exact .pure _
    | scalar s => exact .pure _
    | seq items => exact .pure _
  · exact (respectful_logging (Guarded.respectful_sylarLogRoot _ _ _ _) h).bind fun _ => .pure _
termination_by structural node

theorem respectful_listEntries (entries : List (Node × Node)) (h : Under held 2) (path : String)
    (output : List (String × Node)) :
    (listEntries env path entries output : Shared U _).Respectful held := by
  match entries with
  | [] => exact .pure _
  | (key, node) :: rest =>
      unfold listEntries
      exact (respectful_listAllMember node h _ output).bind fun output =>
        respectful_listEntries rest h path output
termination_by structural entries

end

theorem respectful_loadFromYaml (hC : C.Respectful) (h : Under held 0) (root : Node) :
    (loadFromYaml env C root).Respectful held := by
  refine (respectful_listAllMember root (h.mono (by decide)) "" []).bind
    fun all_nodes => respects_forEach fun i => ?_
  unfold loadMember
  split
  · exact .pure _
  · refine (respectful_lookupBase _).bind fun var => ?_
    cases var with
    | some p => exact (respectful_fromString hC (h.mono (by decide)) _).bind fun _ => .pure _
    | none => exact .pure _

end Shared

/-! ### Calls -/

namespace ConfigCall

/-- The callback of `Visit` keeps to the locks. -/
def Respectful : ConfigCall U → Prop
  | visit callback => ∀ p held, UnderVars held → (callback p).Respectful held
  | _ => True

/-- **Every call** changes what is protected only with the lock in hand. -/
theorem respectful_code {C : Client U} (hC : C.Respectful) {k : ConfigCall U} (hk : k.Respectful) :
    (k.code C).Respectful ∅ := by
  have h : ∀ n, Under (∅ : Set (Request (Mutex U))) n := under_empty
  cases k with
  | lookup env name c d => exact (Shared.respectful_lookup (h 0) name c d).map _
  | find env name c => exact (Shared.respectful_find (h 0) name c).map _
  | lookupBase name => exact (Shared.respectful_lookupBase name).map _
  | visit callback =>
      exact (Shared.respectful_visit (fun p held hheld => (hk p held hheld).bind fun _ =>
        .pure _) (h 0)).map _
  | loadFromYaml env root => exact (Shared.respectful_loadFromYaml hC (h 0) root).map _
  | setValue p v => exact (Shared.respectful_setValue hC (h 1) v).map _
  | fromString env p val => exact (Shared.respectful_fromString hC (h 1) val).map _
  | toString env p => exact (Shared.respectful_toString (h 1)).map _
  | getValue p => exact (Shared.respectful_look _ _).map _
  | addListener p cb => exact (Shared.respectful_addListener cb).map _
  | delListener p key =>
      exact (Respects.scopedLock (Shared.respectful_modifyCallbacks (Set.mem_insert _ _) _)).map _
  | getListener p key => exact (Shared.respectful_look _ _).map _
  | clearListener p =>
      exact (Respects.scopedLock (Shared.respectful_modifyCallbacks (Set.mem_insert _ _) _)).map _
  | logging env o => exact (Shared.respectful_logging (Operation.respectful env o) (h 2)).map _

end ConfigCall

/-- The listener of the logging module keeps to the locks. -/
theorem Client.respectful_logs (logs : ∀ c, U.Val c → LogSet) (env : Env) :
    (Client.logs U logs env).Respectful := fun _ _ _ _ _ h =>
  (Shared.respectful_logging (Guarded.respectful_onLogsChanged _ _) h).map _

section Threads

variable {ι : Type} [DecidableEq ι] {P : Policy ι (Mutex U) (Runtime U) (Result U)} {C : Client U}
  {k : ConfigCall U} {a : Result U}
  {s s' : SharedLocks.Calls ι (ConfigCall U) (Mutex U) (Runtime U) (Result U)}
  {tr tr' : List (Taken (SharedLocks.Calls ι (ConfigCall U) (Mutex U) (Runtime U) (Result U))
    (CallEvent ι (ConfigCall U)))}

/-- **The locks protect** what they are for: in every run of calls of the two modules, while a
thread holds a lock for reading nobody changes what only writers may change, and while it holds
it for writing nobody else changes anything of it. -/
theorem locks_protect (hC : C.InOrder) (hC' : C.Respectful) {s₀ : Runtime U}
    (hrun : Run (SharedLocks.Calls.Step P (ConfigCall.code C)) (SharedLocks.Calls.start s₀ k a)
      tr s)
    (hrun' : Run (SharedLocks.Calls.Step P (ConfigCall.code C)) s tr' s')
    (hcalls : ∀ x ∈ tr ++ tr', ∀ i k, x.label = .call i k → k.InOrder ∧ k.Respectful) (i : ι)
    (l : Mutex U) :
    ((∀ x ∈ tr', (.read, l) ∈ x.source.config.held i) →
      Mutex.Same .write l s.config.state s'.config.state) ∧
    ((∀ x ∈ tr', (.write, l) ∈ x.source.config.held i ∧ x.label ≠ .step i) →
      ∀ m, Mutex.Same m l s.config.state s'.config.state) := by
  have hlawful : ∀ x ∈ tr ++ tr',
      SharedLocks.Calls.Lawful (protection U) Mutex.rank (ConfigCall.code C) x.label :=
    fun x hx i k hk => ⟨ConfigCall.inOrder_code hC (hcalls x hx i k hk).1,
      ConfigCall.respectful_code hC' (hcalls x hx i k hk).2⟩
  have h : SharedLocks.Calls.Protected (protection U) Mutex.rank s :=
    hrun.invariant_of
      (C := fun x => SharedLocks.Calls.Lawful (protection U) Mutex.rank (ConfigCall.code C) x.label)
      (SharedLocks.Calls.protected_start s₀ k a) (fun _ _ _ h hs hx => h.step hs hx)
      fun x hx => hlawful x (List.mem_append_left _ hx)
  have hrest := fun x hx => hlawful x (List.mem_append_right _ hx)
  exact ⟨SharedLocks.Calls.kept_reading h hrun' hrest,
    SharedLocks.Calls.kept_writing h hrun' hrest⟩

end Threads

/-- A thread has entered a call that begins with the registry's lock, and meanwhile another one
makes a logger. -/
theorem sample_locked {m : Mode} {k : ConfigCall Types.logs} {p : Shared Types.logs _}
    (hk : k.code (Client.logs Types.logs (fun _ v => v) (Env.sample [])) =
      .lock (m, .registry) p) :
    let P := Policy.preferReaders Bool (Mutex Types.logs) (Runtime Types.logs) (Result Types.logs)
    let C := Client.logs Types.logs (fun _ v => v) (Env.sample [])
    let k' : ConfigCall Types.logs := .logging (Env.sample []) (.op (.newLogger "x"))
    ∃ tr s tr' s', Run (SharedLocks.Calls.Step P (ConfigCall.code C)) (sampleStart Bool) tr s ∧
      Run (SharedLocks.Calls.Step P (ConfigCall.code C)) s tr' s' ∧
      (∀ x ∈ tr ++ tr', ∀ i k'', x.label = .call i k'' → k'' = k ∨ k'' = k') ∧
      (∀ x ∈ tr', (m, .registry) ∈ x.source.config.held true ∧ x.label ≠ .step true) ∧
      s'.config.state.log = s.config.state.log.newLogger "x" := by
  intro P C k'
  let s₁ := (sampleStart Bool).called (ConfigCall.code C) true k
  have hprogram : s₁.config.program true = .lock (m, .registry) p :=
    (SharedLocks.Calls.called_program_self k).trans hk
  have hcall : Run (SharedLocks.Calls.Step P (ConfigCall.code C)) (sampleStart Bool) _ s₁ :=
    Run.nil.snoc (.call k ⟨_, rfl⟩)
  have hlock := hcall.snoc (.step (.lock hprogram fun _ =>
    ⟨Set.notMem_empty _, fun _ => Set.notMem_empty _⟩))
  let s₂ : SharedLocks.Calls Bool (ConfigCall Types.logs) (Mutex Types.logs) (Runtime Types.logs)
      (Result Types.logs) :=
    ⟨⟨s₁.config.state, Function.update s₁.config.held true (insert (m, .registry) ∅),
      Function.update s₁.config.program true p⟩, s₁.call,
      s₁.history ++ SharedLocks.Calls.returned k p⟩
  have hother : Run (SharedLocks.Calls.Step P (ConfigCall.code C)) s₂ _ _ :=
    Run.nil.snoc (.call (i := false) k' ⟨_, rfl⟩)
  have hmake := hother.snoc (.step (.act (i := false) rfl))
  refine ⟨_, _, _, _, hlock, hmake, fun x hx i k'' hk'' => ?_, fun x hx => ?_, rfl⟩
  · simp only [List.nil_append, List.cons_append, List.mem_cons, List.not_mem_nil, or_false] at hx
    rcases hx with rfl | rfl | rfl | rfl <;> cases hk''
    · exact Or.inl rfl
    · exact Or.inr rfl
  · simp only [List.nil_append, List.cons_append, List.mem_cons, List.not_mem_nil, or_false] at hx
    rcases hx with rfl | rfl
    · exact ⟨Set.mem_insert _ _, nofun⟩
    · exact ⟨Set.mem_insert _ _, by simp⟩

/-- While one thread is in `LookupBase`, and then while it is in `Lookup`. -/
theorem locks_protect_registry :
    let P := Policy.preferReaders Bool (Mutex Types.logs) (Runtime Types.logs) (Result Types.logs)
    let C := Client.logs Types.logs (fun _ v => v) (Env.sample [])
    (∃ tr s tr' s', Run (SharedLocks.Calls.Step P (ConfigCall.code C)) (sampleStart Bool) tr s ∧
      Run (SharedLocks.Calls.Step P (ConfigCall.code C)) s tr' s' ∧
      s'.config.state.log = s.config.state.log.newLogger "x" ∧
      Mutex.Same .write .registry s.config.state s'.config.state) ∧
    ∃ tr s tr' s', Run (SharedLocks.Calls.Step P (ConfigCall.code C)) (sampleStart Bool) tr s ∧
      Run (SharedLocks.Calls.Step P (ConfigCall.code C)) s tr' s' ∧
      s'.config.state.log = s.config.state.log.newLogger "x" ∧
      ∀ m, Mutex.Same m .registry s.config.state s'.config.state := by
  intro P C
  have hinOrder : C.InOrder := Client.inOrder_logs _ _
  have hrespectful : C.Respectful := Client.respectful_logs _ _
  have hmake : (ConfigCall.logging (Env.sample []) (.op (.newLogger "x")) : ConfigCall
      Types.logs).InOrder ∧ (ConfigCall.logging (Env.sample []) (.op (.newLogger "x")) : ConfigCall
      Types.logs).Respectful := ⟨fun h => h, trivial⟩
  constructor
  · obtain ⟨tr, s, tr', s', hrun, hrun', hcalls, hheld, hlog⟩ :=
      sample_locked (m := .read) (k := .lookupBase "") rfl
    refine ⟨tr, s, tr', s', hrun, hrun', hlog,
      (locks_protect hinOrder hrespectful hrun hrun' (fun x hx i k hk => ?_) true
        .registry).1 fun x hx => (hheld x hx).1⟩
    rcases hcalls x hx i k hk with rfl | rfl
    · exact ⟨trivial, trivial⟩
    · exact hmake
  · obtain ⟨tr, s, tr', s', hrun, hrun', hcalls, hheld, hlog⟩ :=
      sample_locked (m := .write) (k := .lookup (Env.sample []) "" () SortedBy.empty) rfl
    refine ⟨tr, s, tr', s', hrun, hrun', hlog,
      (locks_protect hinOrder hrespectful hrun hrun' (fun x hx i k hk => ?_) true
        .registry).2 hheld⟩
    rcases hcalls x hx i k hk with rfl | rfl
    · exact ⟨trivial, trivial⟩
    · exact hmake

end Sylar
