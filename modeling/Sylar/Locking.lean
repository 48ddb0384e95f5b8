/-
Sylar/Locking.lean

The spin locks of the logging module (log.cpp, threads.hpp).

The manager, every logger and every appender has a lock that is not recursive,
taken by a guard at the top of a method.  `Guarded` gives each public operation
as the locks it takes and what it does between them; the parts are named after
the methods, so that a method calling another one shows as a call.  Run alone,
the operation computes what the sequential model says (`alone_applies`).

Locks are always taken in the order manager, logger, appender, so nothing ever
waits in a circle (`Operation.ordered`), with one exception: `addLogger` calls
`getLogger` while it holds the manager's lock.  `locks_safe_iff` says that this
is the only one.
-/
import Sylar.Dump
import Sylar.Lib.Locks

namespace Sylar

open Locks Locks.Prog Transition Yaml

/-! ### The locks -/

/-- The `m_mutex` of the manager, of a logger and of an appender. -/
inductive Lock
  | manager
  | logger (p : Ptr Logger)
  | appender (a : Ptr LogAppender)
  deriving DecidableEq

/-- The order in which they may be nested. -/
def Lock.rank : Lock → Fin 3
  | manager => 0
  | logger _ => 1
  | appender _ => 2

/-- What a thread does in the logging module. -/
abbrev Guarded := Prog Lock LogSystem

namespace Guarded

/-! ### Appenders -/

/-- `new LogFormatter(pattern)`. -/
def newLogFormatter (pattern : String) : Guarded (Ptr LogFormatter) :=
  act (fun w => w.newLogFormatter pattern) fun w => pure w.formatters.fresh

/-- `LogAppender::getFormatter`. -/
def getAppenderFormatter (a : Ptr LogAppender) : Guarded (Option (Ptr LogFormatter)) :=
  scopedLock (.appender a) do
    let w ← read
    pure (w.appender a).formatter

/-- `StdoutLogAppender::setFormatter(LogFormatter::ptr)` and that of `FileLogAppender`: the
overrides take no lock. -/
def setAppenderFormatter (a : Ptr LogAppender) (f : Option (Ptr LogFormatter)) : Guarded Unit :=
  modify fun w => w.setAppenderFormatter a f

/-- `LogAppender::setFormatter(LogFormatter::ptr)`, called by its qualified name. -/
def baseSetFormatter (a : Ptr LogAppender) (f : Option (Ptr LogFormatter)) : Guarded Unit :=
  scopedLock (.appender a) (modify fun w => w.setAppenderFormatter a f)

/-- `StdoutLogAppender::setFormatter` and `FileLogAppender::setFormatter` with a pattern:
the call inside goes to the override. -/
def setAppenderPattern (a : Ptr LogAppender) (pattern : String) : Guarded Unit :=
  scopedLock (.appender a) <|
    if (LogFormatter.new pattern).error then pure ()
    else do
      let f ← newLogFormatter pattern
      setAppenderFormatter a (some f)

/-- What `log` prints. -/
def record (env : Env) (p : Ptr Logger) (e : Ptr LogEvent) (a : Ptr LogAppender) : Guarded Unit :=
  modify fun w => { w with records := w.records ++ [w.record env p e a] }

/-- `StdoutLogAppender::log`, which looks at its formatter before it takes the lock, and
`FileLogAppender::log`. -/
def appenderLog (env : Env) (p : Ptr Logger) (e : Ptr LogEvent) (a : Ptr LogAppender) :
    Guarded Unit := do
  let w ← read
  match (w.appender a).kind with
  | .stdout =>
      if (w.appender a).formatter = none then record env p e a
      else scopedLock (.appender a) (record env p e a)
  | .file _ => scopedLock (.appender a) (record env p e a)

/-- `FileLogAppender::reopen`; the stream is the subject of another model. -/
def reopen (a : Ptr LogAppender) : Guarded Unit := scopedLock (.appender a) (pure ())

/-- `StdoutLogAppender::toYamlString` and `FileLogAppender::toYamlString`. -/
def appenderToYamlString (Y : Yaml.Cpp) (a : Ptr LogAppender) : Guarded (Outcome Unit String) :=
  scopedLock (.appender a) do
    let w ← read
    pure (.ret (w.appenderToYamlString Y a))

/-! ### Loggers -/

/-- `Logger::getFormatter`. -/
def getLoggerFormatter (p : Ptr Logger) : Guarded (Option (Ptr LogFormatter)) :=
  scopedLock (.logger p) do
    let w ← read
    pure (w.logger p).formatter

/-- `Logger::setFormatter(LogFormatter::ptr)`. -/
def setLoggerFormatter (p : Ptr Logger) (f : Option (Ptr LogFormatter)) : Guarded Unit :=
  scopedLock (.logger p) (modify fun w => w.setLoggerFormatter p f)

/-- `Logger::setFormatter` with a pattern: the lock is taken by the overload it calls. -/
def setLoggerPattern (p : Ptr Logger) (pattern : String) : Guarded Unit :=
  if (LogFormatter.new pattern).error then pure ()
  else do
    let f ← newLogFormatter pattern
    setLoggerFormatter p (some f)

/-- `if (!appender->getFormatter()) appender->setFormatter(m_formatter)`. -/
def inheritFormatter (p : Ptr Logger) (a : Ptr LogAppender) : Guarded Unit := do
  let f ← getAppenderFormatter a
  let w ← read
  if f = none then setAppenderFormatter a (w.logger p).formatter else pure ()

/-- `Logger::addAppender`. -/
def addAppender (p : Ptr Logger) (a : Ptr LogAppender) : Guarded Unit :=
  scopedLock (.logger p) do
    inheritFormatter p a
    modify fun w => { w with
      loggers := w.loggers.modify p fun x => { x with appenders := x.appenders ++ [a] } }

/-- `Logger::delAppender`. -/
def delAppender (p : Ptr Logger) (a : Ptr LogAppender) : Guarded Unit :=
  scopedLock (.logger p) (modify fun w => w.delAppender p a)

/-- `Logger::clearAppender`. -/
def clearAppender (p : Ptr Logger) : Guarded Unit :=
  scopedLock (.logger p) (modify fun w => w.clearAppender p)

/-- `Logger::log`, and `debug`, `info`, `warn` and `error`, which call it. -/
def log (env : Env) (p : Ptr Logger) (level : LogLevel) (e : Ptr LogEvent) : Guarded Unit :=
  scopedLock (.logger p) do
    let w ← read
    if w.getLevel p ≤ level then (w.logger p).appenders.forM (appenderLog env p e) else pure ()

/-- `node.push_back(YAML::Load(text))`; after a throw the rest is skipped. -/
def pushLoaded (Y : Yaml.Cpp) (text : Guarded (Outcome Unit String)) :
    Outcome Unit (List Node) → Guarded (Outcome Unit (List Node))
  | .ret nodes => do
      let t ← text
      pure (do
        let t ← t
        let n ← Y.loadNode t
        pure (nodes ++ [n]))
  | stopped => pure stopped

/-- `for (auto& i : xs) node.push_back(YAML::Load(text(i)))`. -/
def loadAll {α : Type} (Y : Yaml.Cpp) (text : α → Guarded (Outcome Unit String)) (xs : List α) :
    Guarded (Outcome Unit (List Node)) :=
  xs.foldlM (fun nodes i => pushLoaded Y (text i) nodes) (.ret [])

/-- `Logger::toYamlString`. -/
def loggerToYamlString (Y : Yaml.Cpp) (p : Ptr Logger) : Guarded (Outcome Unit String) :=
  scopedLock (.logger p) do
    let w ← read
    let items ← loadAll Y (appenderToYamlString Y) (w.logger p).appenders
    pure (do
      let items ← items
      pure (Y.print (some (.map (Node.entry "name" (w.logger p).logname ::
        Node.entry "level" (w.getLevel p).toString ::
          (Node.pushBack items).toList.map fun n => (.scalar "appender", n))))))

/-! ### The manager -/

/-- `LoggerManager::LoggerManager`. -/
def newLoggerManager : Guarded Unit := do
  let p ← act (fun w => w.newLogger "root") fun w => pure w.loggers.fresh
  let a ← act (fun w => w.newStdoutLogAppender) fun w => pure w.appenders.fresh
  addAppender p a

/-- `LoggerManager::getLogger`. -/
def getLogger (name : String) : Guarded (Ptr Logger) :=
  scopedLock .manager (act (fun w => (w.getLogger name).1) fun w => pure (w.getLogger name).2)

/-- `LoggerManager::addLogger`: what `getLogger` returns only decides whether a notice is
printed. -/
def addLogger (name : String) (p : Ptr Logger) : Guarded Unit :=
  scopedLock .manager do
    let _ ← getLogger name
    modify fun w => { w with loggerMap := w.loggerMap.set name p }

/-- `LoggerManager::toYamlString`. -/
def toYamlString (Y : Yaml.Cpp) : Guarded (Outcome Unit String) :=
  scopedLock .manager do
    let w ← read
    let items ← loadAll Y (fun i => loggerToYamlString Y i.2) w.loggerMap.toList
    pure (do
      let items ← items
      pure (Y.print (Node.pushBack items)))

end Guarded

/-! ### The public operations -/

/-- What a thread may call: the operations of the sequential model, and those that leave
its state alone. -/
inductive Operation
  | op (o : LogOp)
  | baseSetFormatter (a : Ptr LogAppender) (f : Option (Ptr LogFormatter))
  | getAppenderFormatter (a : Ptr LogAppender)
  | appenderLog (p : Ptr Logger) (e : Ptr LogEvent) (a : Ptr LogAppender)
  | reopen (a : Ptr LogAppender)
  | appenderToYamlString (a : Ptr LogAppender)
  | getLevel (p : Ptr Logger)
  | getLoggerFormatter (p : Ptr Logger)
  | loggerToYamlString (p : Ptr Logger)
  | newLoggerManager
  | getRoot
  | init
  | toYamlString

/-- The program of an operation of the sequential model.  Those without a guard are single
actions. -/
def LogOp.program (env : Env) : LogOp → Guarded Unit
  | newLogFormatter pattern => modify fun w => w.newLogFormatter pattern
  | setPattern f pattern => modify fun w => w.setPattern f pattern
  | newStdoutLogAppender => modify fun w => w.newStdoutLogAppender
  | newFileLogAppender filename => modify fun w =>
      match w.newFileLogAppender env filename with
      | .ret w' => w'
      -- the process ends here
      | _ => w
  | setAppenderFormatter a f => Guarded.setAppenderFormatter a f
  | setAppenderPattern a pattern => Guarded.setAppenderPattern a pattern
  | newLogger name => modify fun w => w.newLogger name
  | setLevel p level => modify fun w => w.setLevel p level
  | addAppender p a => Guarded.addAppender p a
  | delAppender p a => Guarded.delAppender p a
  | clearAppender p => Guarded.clearAppender p
  | setLoggerFormatter p f => Guarded.setLoggerFormatter p f
  | setLoggerPattern p pattern => Guarded.setLoggerPattern p pattern
  | newLogEvent p level filename line threadID fiberID elapse time => modify fun w =>
      w.newLogEvent p level filename line threadID fiberID elapse time
  | write e text => modify fun w => w.write e text
  | log p level e => Guarded.log env p level e
  | getLogger name => do
      let _ ← Guarded.getLogger name
      pure ()
  | addLogger name p => Guarded.addLogger name p

/-- The program of an operation; what it returns to its caller is dropped. -/
def Operation.program (env : Env) : Operation → Guarded Unit
  | op o => o.program env
  | baseSetFormatter a f => Guarded.baseSetFormatter a f
  | getAppenderFormatter a => do
      let _ ← Guarded.getAppenderFormatter a
      pure ()
  | appenderLog p e a => Guarded.appenderLog env p e a
  | reopen a => Guarded.reopen a
  | appenderToYamlString a => do
      let _ ← Guarded.appenderToYamlString env.yaml a
      pure ()
  | getLevel _ => do
      let _ ← read
      pure ()
  | getLoggerFormatter p => do
      let _ ← Guarded.getLoggerFormatter p
      pure ()
  | loggerToYamlString p => do
      let _ ← Guarded.loggerToYamlString env.yaml p
      pure ()
  | newLoggerManager => Guarded.newLoggerManager
  | getRoot => do
      let _ ← read
      pure ()
  | init => pure ()
  | toYamlString => do
      let _ ← Guarded.toYamlString env.yaml
      pure ()

/-! ### The order of the locks -/

/-- All locks in `held` are below `n`. -/
def Below (held : Set Lock) (n : Fin 3) : Prop := ∀ h ∈ held, h.rank < n

theorem below_empty (n : Fin 3) : Below ∅ n := fun h hh => absurd hh (Set.notMem_empty h)

protected theorem Below.insert {held : Set Lock} {n m : Fin 3} {l : Lock} (h : Below held n) (hn : n ≤ m)
    (hl : l.rank < m) : Below (insert l held) m := by
  rintro l' (rfl | hl')
  · exact hl
  · exact (h l' hl').trans_le hn

/-- What a logger holds while it works leaves the appenders free. -/
protected theorem Below.logger {held : Set Lock} (h : Below held 1) (p : Ptr Logger) :
    Below (insert (Lock.logger p) held) 2 :=
  h.insert (by decide) (show (1 : Fin 3) < 2 by decide)

namespace Guarded

variable {held : Set Lock} {env : Env} {Y : Yaml.Cpp} {p : Ptr Logger} {a : Ptr LogAppender}

/-! #### Appenders -/

theorem ordered_newLogFormatter (pattern : String) :
    (newLogFormatter pattern).Ordered Lock.rank held held := .act fun _ => .pure _ held

theorem ordered_getAppenderFormatter (h : Below held 2) :
    (getAppenderFormatter a).Ordered Lock.rank held held :=
  .scopedLock h ((Ordered.read _).bind fun _ => .pure _ _)

theorem ordered_setAppenderFormatter (f : Option (Ptr LogFormatter)) :
    (setAppenderFormatter a f).Ordered Lock.rank held held := .modify _ held

theorem ordered_baseSetFormatter (h : Below held 2) (f : Option (Ptr LogFormatter)) :
    (baseSetFormatter a f).Ordered Lock.rank held held := .scopedLock h (.modify _ _)

theorem ordered_setAppenderPattern (h : Below held 2) (pattern : String) :
    (setAppenderPattern a pattern).Ordered Lock.rank held held := by
  refine .scopedLock h ?_
  split
  · exact .pure _ _
  · exact (ordered_newLogFormatter pattern).bind fun f => ordered_setAppenderFormatter (some f)

theorem ordered_appenderLog (h : Below held 2) (e : Ptr LogEvent) :
    (appenderLog env p e a).Ordered Lock.rank held held := by
  apply (Ordered.read held).bind
  intro w
  have hrecord : ∀ held : Set Lock, (record env p e a).Ordered Lock.rank held held :=
    fun held => .modify _ held
  cases (w.appender a).kind with
  | stdout =>
      dsimp only
      split
      · exact hrecord held
      · exact .scopedLock h (hrecord _)
  | file filename => exact .scopedLock h (hrecord _)

theorem ordered_appenderToYamlString (h : Below held 2) :
    (appenderToYamlString Y a).Ordered Lock.rank held held :=
  .scopedLock h ((Ordered.read _).bind fun _ => .pure _ _)

/-! #### Loggers -/

theorem ordered_setLoggerFormatter (h : Below held 1) (f : Option (Ptr LogFormatter)) :
    (setLoggerFormatter p f).Ordered Lock.rank held held := .scopedLock h (.modify _ _)

theorem ordered_setLoggerPattern (h : Below held 1) (pattern : String) :
    (setLoggerPattern p pattern).Ordered Lock.rank held held := by
  unfold setLoggerPattern
  split
  · exact .pure _ _
  · exact (ordered_newLogFormatter pattern).bind fun f => ordered_setLoggerFormatter h (some f)

theorem ordered_addAppender (h : Below held 1) : (addAppender p a).Ordered Lock.rank held held := by
  refine .scopedLock h (Ordered.bind ?_ fun _ => .modify _ _)
  refine (ordered_getAppenderFormatter (h.logger p)).bind fun f =>
    (Ordered.read _).bind fun w => ?_
  split
  · exact ordered_setAppenderFormatter _
  · exact .pure _ _

theorem ordered_log (h : Below held 1) (level : LogLevel) (e : Ptr LogEvent) :
    (log env p level e).Ordered Lock.rank held held := by
  refine .scopedLock h ((Ordered.read _).bind fun w => ?_)
  split
  · exact .forM fun a _ => ordered_appenderLog (h.logger p) e
  · exact .pure _ _

theorem ordered_loadAll {α : Type} {text : α → Guarded (Outcome Unit String)} {xs : List α}
    (h : ∀ i, (text i).Ordered Lock.rank held held) :
    (loadAll Y text xs).Ordered Lock.rank held held := by
  refine .foldlM fun nodes i _ => ?_
  cases nodes with
  | ret nodes => exact (h i).bind fun _ => .pure _ held
  | throw e => exact .pure _ held
  | exit n => exact .pure _ held
  | crash => exact .pure _ held

theorem ordered_loggerToYamlString (h : Below held 1) :
    (loggerToYamlString Y p).Ordered Lock.rank held held :=
  .scopedLock h <| (Ordered.read _).bind fun _ =>
    (ordered_loadAll fun _ => ordered_appenderToYamlString (h.logger p)).bind fun _ =>
      .pure _ _

/-! #### The manager -/

theorem ordered_newLoggerManager (h : Below held 1) :
    newLoggerManager.Ordered Lock.rank held held :=
  (Ordered.act fun _ => .pure _ held).bind fun _ =>
    (Ordered.act fun _ => .pure _ held).bind fun _ => ordered_addAppender h

theorem ordered_getLogger (h : Below held 0) (name : String) :
    (getLogger name).Ordered Lock.rank held held := .scopedLock h (.act fun _ => .pure _ _)

theorem ordered_toYamlString (h : Below held 0) :
    (toYamlString Y).Ordered Lock.rank held held :=
  .scopedLock h <| (Ordered.read _).bind fun _ =>
    (ordered_loadAll fun _ => ordered_loggerToYamlString (h.insert (by decide) (by decide))).bind
      fun _ => .pure _ _

end Guarded

/-- Is it the one that takes a lock twice? -/
def Operation.AddsLogger : Operation → Prop
  | op (.addLogger _ _) => True
  | _ => False

/-- **Every operation but `addLogger` takes its locks in the order manager, logger,
appender**, each at most once at a time, and gives all of them back. -/
theorem Operation.ordered (env : Env) {o : Operation} (ho : ¬ o.AddsLogger) :
    (o.program env).Ordered Lock.rank ∅ ∅ := by
  have h := below_empty
  -- what an operation returns is dropped
  have hdrop : ∀ {α : Type} {q : Guarded α}, q.Ordered Lock.rank ∅ ∅ →
      (q >>= fun _ => pure ()).Ordered Lock.rank ∅ ∅ := fun hq => hq.bind fun _ => .pure _ ∅
  cases o with
  | op o =>
      cases o with
      | newLogFormatter pattern => exact .modify _ ∅
      | setPattern f pattern => exact .modify _ ∅
      | newStdoutLogAppender => exact .modify _ ∅
      | newFileLogAppender filename => exact .modify _ ∅
      | setAppenderFormatter a f => exact .modify _ ∅
      | setAppenderPattern a pattern => exact Guarded.ordered_setAppenderPattern (h 2) pattern
      | newLogger name => exact .modify _ ∅
      | setLevel p level => exact .modify _ ∅
      | addAppender p a => exact Guarded.ordered_addAppender (h 1)
      | delAppender p a => exact .scopedLock (h 1) (.modify _ _)
      | clearAppender p => exact .scopedLock (h 1) (.modify _ _)
      | setLoggerFormatter p f => exact Guarded.ordered_setLoggerFormatter (h 1) f
      | setLoggerPattern p pattern => exact Guarded.ordered_setLoggerPattern (h 1) pattern
      | newLogEvent p level filename line threadID fiberID elapse time => exact .modify _ ∅
      | write e text => exact .modify _ ∅
      | log p level e => exact Guarded.ordered_log (h 1) level e
      | getLogger name => exact hdrop (Guarded.ordered_getLogger (h 0) name)
      | addLogger name p => exact absurd trivial ho
  | baseSetFormatter a f => exact Guarded.ordered_baseSetFormatter (h 2) f
  | getAppenderFormatter a => exact hdrop (Guarded.ordered_getAppenderFormatter (h 2))
  | appenderLog p e a => exact Guarded.ordered_appenderLog (h 2) e
  | reopen a => exact .scopedLock (h 2) (.pure _ _)
  | appenderToYamlString a => exact hdrop (Guarded.ordered_appenderToYamlString (h 2))
  | getLevel p => exact hdrop (.read ∅)
  | getLoggerFormatter p => exact hdrop (.scopedLock (h 1) ((Ordered.read _).bind fun _ => .pure _ _))
  | loggerToYamlString p => exact hdrop (Guarded.ordered_loggerToYamlString (h 1))
  | newLoggerManager => exact Guarded.ordered_newLoggerManager (h 1)
  | getRoot => exact hdrop (.read ∅)
  | init => exact .pure _ ∅
  | toYamlString => exact hdrop (Guarded.ordered_toYamlString (h 0))

/-! ### Alone, an operation does what the sequential model says -/

namespace Guarded

variable {env : Env} {Y : Yaml.Cpp} (w : LogSystem)

theorem eval_appenderLog (p : Ptr Logger) (e : Ptr LogEvent) (a : Ptr LogAppender) :
    (appenderLog env p e a).eval w =
      ((), { w with records := w.records ++ [w.record env p e a] }) := by
  rw [appenderLog, eval_bind_of_eq (eval_read w)]
  -- the branches differ in the lock only
  cases (w.appender a).kind with
  | stdout =>
      dsimp only
      split <;> rfl
  | file filename => rfl

theorem eval_appenderLogs (p : Ptr Logger) (e : Ptr LogEvent) (as : List (Ptr LogAppender)) :
    (as.forM (appenderLog env p e)).eval w =
      ((), { w with records := w.records ++ as.map (w.record env p e) }) := by
  induction as generalizing w with
  | nil => simp
  | cons a as ih =>
      show (appenderLog env p e a >>= fun _ => as.forM (appenderLog env p e)).eval w = _
      rw [eval_bind, eval_appenderLog, ih, List.append_assoc]
      rfl

theorem eval_log (p : Ptr Logger) (level : LogLevel) (e : Ptr LogEvent) :
    (log env p level e).eval w = ((), w.log env p level e) := by
  rw [log, eval_scopedLock, eval_bind_of_eq (eval_read w)]
  unfold LogSystem.log
  by_cases h : w.getLevel p ≤ level
  · rw [if_pos h, if_pos h]
    exact eval_appenderLogs w p e _
  · rw [if_neg h, if_neg h]
    rfl

theorem eval_addAppender (p : Ptr Logger) (a : Ptr LogAppender) :
    (addAppender p a).eval w = ((), w.addAppender p a) := by
  have hinherit : (inheritFormatter p a).eval w = ((), if (w.appender a).formatter = none then
      w.setAppenderFormatter a (w.logger p).formatter else w) := by
    have hget : (getAppenderFormatter a).eval w = ((w.appender a).formatter, w) := rfl
    rw [inheritFormatter, eval_bind_of_eq hget, eval_bind_of_eq (eval_read w)]
    split <;> rfl
  rw [addAppender, eval_scopedLock, eval_bind_of_eq hinherit]
  rfl

theorem eval_setAppenderPattern (a : Ptr LogAppender) (pattern : String) :
    (setAppenderPattern a pattern).eval w = ((), w.setAppenderPattern a pattern) := by
  rw [setAppenderPattern, eval_scopedLock, LogSystem.setAppenderPattern]
  split <;> rfl

theorem eval_setLoggerPattern (p : Ptr Logger) (pattern : String) :
    (setLoggerPattern p pattern).eval w = ((), w.setLoggerPattern p pattern) := by
  rw [setLoggerPattern, LogSystem.setLoggerPattern]
  split <;> rfl

/-- From nothing, the constructor makes the initial state. -/
theorem eval_newLoggerManager :
    newLoggerManager.eval ⟨.empty, .empty, .empty, .empty, SortedBy.empty, ⟨0⟩, []⟩ =
      ((), LogSystem.init) := by
  rw [newLoggerManager, eval_bind_of_eq rfl, eval_bind_of_eq rfl, eval_addAppender]
  rfl

theorem eval_loadAll {α : Type} {text : α → Guarded (Outcome Unit String)}
    {text' : α → Outcome Unit String} {xs : List α} (h : ∀ i, (text i).eval w = (text' i, w)) :
    (loadAll Y text xs).eval w = (Y.loadAll text' xs, w) := by
  -- from what has been collected so far, or from where it stopped
  suffices hacc : ∀ nodes : Outcome Unit (List Node),
      (xs.foldlM (fun nodes i => pushLoaded Y (text i) nodes) nodes).eval w =
        (nodes >>= fun nodes => xs.foldlM (fun nodes i => do
          let t ← text' i
          let n ← Y.loadNode t
          pure (nodes ++ [n])) nodes, w) from hacc (.ret [])
  induction xs with
  | nil => intro nodes; cases nodes <;> rfl
  | cons i xs ih =>
      intro nodes
      rw [List.foldlM_cons]
      cases nodes with
      | ret nodes =>
          have hpush : (pushLoaded Y (text i) (.ret nodes)).eval w = (do
              let t ← text' i
              let n ← Y.loadNode t
              pure (nodes ++ [n]), w) := eval_bind_of_eq (h i)
          rw [eval_bind_of_eq hpush, ih, Outcome.ret_bind, List.foldlM_cons]
      | throw e => exact ih _
      | exit n => exact ih _
      | crash => exact ih _

theorem eval_loggerToYamlString (p : Ptr Logger) :
    (loggerToYamlString Y p).eval w = (w.loggerToYamlString Y p, w) := by
  have hitems : (loadAll Y (appenderToYamlString Y) (w.logger p).appenders).eval w =
      (Y.loadAll (fun a => .ret (w.appenderToYamlString Y a)) (w.logger p).appenders, w) :=
    eval_loadAll w fun a => rfl
  rw [loggerToYamlString, eval_scopedLock, eval_bind_of_eq (eval_read w),
    eval_bind_of_eq hitems]
  rfl

theorem eval_toYamlString : (toYamlString Y).eval w = (w.toYamlString Y, w) := by
  have hitems : (loadAll Y (fun i => loggerToYamlString Y i.2) w.loggerMap.toList).eval w =
      (Y.loadAll (fun i => w.loggerToYamlString Y i.2) w.loggerMap.toList, w) :=
    eval_loadAll w fun i => eval_loggerToYamlString w i.2
  rw [toYamlString, eval_scopedLock, eval_bind_of_eq (eval_read w), eval_bind_of_eq hitems]
  rfl

end Guarded

/-- What an operation of the sequential model makes of the state. -/
theorem LogOp.eval_program {env : Env} {o : LogOp} {w w' : LogSystem}
    (h : o.apply env w = some w') : (o.program env).eval w = ((), w') := by
  cases LogOp.applied h with
  | newLogFormatter pattern => rfl
  | setPattern _ pattern => rfl
  | newStdoutLogAppender => rfl
  | newFileLogAppender hopen =>
      simp only [LogOp.program, LogSystem.newFileLogAppender, if_pos hopen]
      rfl
  | setAppenderFormatter _ _ => rfl
  | setAppenderPattern _ pattern => exact Guarded.eval_setAppenderPattern w _ pattern
  | newLogger name => rfl
  | setLevel _ level => rfl
  | addAppender _ _ => exact Guarded.eval_addAppender w _ _
  | delAppender _ a => rfl
  | clearAppender _ => rfl
  | setLoggerFormatter _ _ => rfl
  | setLoggerPattern _ pattern => exact Guarded.eval_setLoggerPattern w _ pattern
  | newLogEvent _ level filename line => rfl
  | write _ text => rfl
  | log _ _ level => exact Guarded.eval_log w _ level _
  | getLogger name => rfl

/-! ### Threads -/

section Threads

variable {ι : Type*}

/-- No thread is doing anything. -/
def quiet (w : LogSystem) : Config ι Lock LogSystem := ⟨w, fun _ => none, fun _ => .done ()⟩

theorem held_quiet (w : LogSystem) (i : ι) : (quiet w).held i = ∅ := by
  ext l
  simp [Config.held, quiet]

/-- What happens: a thread that is free calls an operation, in whatever surroundings, or a
thread goes on with its own. -/
inductive ThreadOp (ι : Type*)
  | start (i : ι) (env : Env) (o : Operation)
  | step (i : ι)

/-- A call of `addLogger`. -/
def CallsAddLogger (x : Taken (Config ι Lock LogSystem) (ThreadOp ι)) : Prop :=
  ∃ i env o, x.label = .start i env o ∧ o.AddsLogger

/-- In order, and with finitely many threads at work. -/
structure InOrder (c : Config ι Lock LogSystem) : Prop where
  disciplined : c.Disciplined Lock.rank
  finite : {i | ¬ c.Idle i}.Finite

theorem inOrder_quiet (w : LogSystem) : InOrder (quiet w : Config ι Lock LogSystem) := by
  have hnone : {i | ¬ (quiet w : Config ι Lock LogSystem).Idle i} = ∅ := by
    ext i
    simp [Config.Idle, quiet]
  exact ⟨held_quiet w, hnone ▸ Set.finite_empty⟩

variable [DecidableEq ι]

/-- One step of all threads together. -/
def ThreadStep (c : Config ι Lock LogSystem) : ThreadOp ι → Config ι Lock LogSystem → Prop
  | .start i env o, c' => c.Idle i ∧ c' = c.start i (o.program env)
  | .step i, c' => Config.Step i c c'

/-- Nobody asks for a lock he holds, locks are nested in the order manager, logger,
appender, and the operations under way all complete, however the threads are scheduled. -/
structure LocksSafe (c : Config ι Lock LogSystem) : Prop where
  no_self : ∀ i l p, c.program i = .lock l p → c.holder l ≠ some i
  nested : ∀ i l p, c.program i = .lock l p → ∀ l', c.holder l' = some i → l'.rank < l.rank
  completes : c.Completes

/-- **Alone**, an operation does what the sequential model says. -/
theorem alone_applies {env : Env} {o : LogOp} {w w' : LogSystem} (h : o.apply env w = some w')
    (i : ι) : Config.Steps ((quiet w).start i ((Operation.op o).program env)) (quiet w') := by
  have ho : ¬ (Operation.op o).AddsLogger := by
    intro ho
    cases o with
    | addLogger name p => cases h
    | _ => exact ho
  let c : Config ι Lock LogSystem := (quiet w).start i (o.program env)
  have hprog : c.program i = o.program env := Config.program_start ..
  have hord : (c.program i).Ordered Lock.rank (c.held i) ∅ := by
    rw [hprog, show c.held i = ∅ from held_quiet w i]
    exact Operation.ordered env ho
  have hsolo := Config.solo hord fun _ => Or.inl rfl
  have hidle : Function.update c.program i (.done ()) = fun _ => .done () := by
    show Function.update (Function.update _ i _) i _ = _
    rw [Function.update_idem]
    exact Function.update_eq_self i _
  rw [hprog, hidle, show (o.program env).eval c.state = ((), w') from LogOp.eval_program h] at hsolo
  exact hsolo

theorem InOrder.safe {c : Config ι Lock LogSystem} (h : InOrder c) : LocksSafe c := by
  refine ⟨fun i l p hp hl => ?_, fun i l p hp l' hl' => h.disciplined.lt hp hl', ?_⟩
  · exact lt_irrefl _ (h.disciplined.lt hp hl)
  · exact h.disciplined.completes h.finite

/-- **Step lemma.** -/
theorem InOrder.step {c c' : Config ι Lock LogSystem} {e : ThreadOp ι} (h : InOrder c)
    (hs : ThreadStep c e c') (he : ¬ CallsAddLogger ⟨c, e, c'⟩) : InOrder c' := by
  cases e with
  | start i env o =>
      obtain ⟨hidle, rfl⟩ := hs
      refine ⟨h.disciplined.start hidle (Operation.ordered env fun ho => he ⟨i, env, o, rfl, ho⟩),
        (h.finite.insert i).subset fun j hj => ?_⟩
      by_cases hji : j = i
      · exact Or.inl hji
      · refine Or.inr fun hj' => hj ?_
        exact (Function.update_of_ne hji _ _).trans hj'
  | step i =>
      exact ⟨h.disciplined.step hs, h.finite.subset fun j hj hj' => hj (Config.Step.idle hs hj')⟩

/-- A thread that calls `addLogger` never returns from it. -/
theorem not_safe_of_callsAddLogger {c c' : Config ι Lock LogSystem} {e : ThreadOp ι}
    (hs : ThreadStep c e c') (he : CallsAddLogger ⟨c, e, c'⟩) : ¬ LocksSafe c' := by
  obtain ⟨i, env, o, rfl, ho⟩ := he
  obtain ⟨_, rfl⟩ := hs
  intro hsafe
  refine Config.Twice.not_completes (l := .manager) (i := i) (Or.inl ?_) hsafe.completes
  cases o with
  | op o =>
      cases o with
      | addLogger name p => exact ⟨_, Config.program_start ..⟩
      | _ => exact ho.elim
  | _ => exact ho.elim

/-- **The locks are safe exactly as long as nobody calls `addLogger`**: for any threads,
running any operations in any interleaving from any state of the module. -/
theorem locks_safe_iff {w : LogSystem} {c : Config ι Lock LogSystem}
    {tr : List (Taken (Config ι Lock LogSystem) (ThreadOp ι))} (hrun : Run ThreadStep (quiet w) tr c) :
    (∀ x ∈ tr, LocksSafe x.target) ↔ ∀ x ∈ tr, ¬ CallsAddLogger x := by
  refine hrun.forall_iff (I := InOrder) (A := fun x => LocksSafe x.target)
    (B := fun x => ¬ CallsAddLogger x) (inOrder_quiet w) fun c e c' hc hs => ?_
  by_cases he : CallsAddLogger ⟨c, e, c'⟩
  · have hunsafe := not_safe_of_callsAddLogger hs he
    exact ⟨⟨fun h => absurd h hunsafe, fun h => absurd he h⟩, fun h => absurd h hunsafe⟩
  · have hc' := hc.step hs he
    exact ⟨⟨fun _ => he, fun _ => hc'.safe⟩, fun _ => hc'⟩

end Threads

/-- A thread has a logger to which it adds an appender, and waits for the appender, which another
thread has. -/
theorem locks_safe_iff_addAppender :
    ∃ (tr : List (Taken (Config Bool Lock LogSystem) (ThreadOp Bool)))
      (c : Config Bool Lock LogSystem), Run ThreadStep (quiet .init) tr c ∧
        c.holder (.logger ⟨0⟩) = some true ∧ c.holder (.appender ⟨0⟩) = some false ∧
        (∃ q, c.program true = .lock (.appender ⟨0⟩) q) ∧
        ((∀ x ∈ tr, LocksSafe x.target) ↔ ∀ x ∈ tr, ¬ CallsAddLogger x) := by
  let c₁ : Config Bool Lock LogSystem := (quiet .init).start true (Guarded.addAppender ⟨0⟩ ⟨0⟩)
  let o : Operation := .appenderToYamlString ⟨0⟩
  let c₂ := c₁.start false (o.program (Env.sample []))
  have h₁ : ThreadStep (quiet .init)
      (.start true (Env.sample []) (.op (.addAppender ⟨0⟩ ⟨0⟩))) c₁ := ⟨rfl, rfl⟩
  have h₂ : ThreadStep c₁ (.start false (Env.sample []) o) c₂ := ⟨rfl, rfl⟩
  -- the one has its first lock, and wants the second
  obtain ⟨c₃, h₃, hholder, hwants, hother⟩ : ∃ c₃, ThreadStep c₂ (.step true) c₃ ∧
      c₃.holder = Function.update c₂.holder (.logger ⟨0⟩) (some true) ∧
      (∃ q, c₃.program true = .lock (.appender ⟨0⟩) q) ∧ c₃.program false = o.program (Env.sample []) :=
    ⟨_, Config.Step.lock (l := .logger ⟨0⟩) rfl rfl, rfl, ⟨_, rfl⟩, rfl⟩
  have h₄ : ThreadStep c₃ (.step false) _ :=
    Config.Step.lock (l := .appender ⟨0⟩) (hother.trans rfl) (hholder ▸ rfl)
  have hrun := (((Run.nil.snoc h₁).snoc h₂).snoc h₃).snoc h₄
  refine ⟨_, _, hrun, ?_, rfl, hwants, locks_safe_iff hrun⟩
  show Function.update c₃.holder (.appender ⟨0⟩) (some false) (.logger ⟨0⟩) = some true
  rw [hholder]
  rfl

/-- A thread calls `addLogger` and goes one step: it holds the manager's lock, and the next
thing it does is to ask for it. -/
theorem addLogger_waits_for_itself : ∃ c c' : Config Unit Lock LogSystem,
    let tr := [⟨quiet .init, .start () (Env.sample []) (.op (.addLogger "system" ⟨0⟩)), c⟩,
      ⟨c, .step (), c'⟩]
    Run ThreadStep (quiet .init) tr c' ∧ c'.holder .manager = some () ∧
      (∃ q, c'.program () = .lock .manager q) ∧ ¬ ∀ x ∈ tr, LocksSafe x.target := by
  have hstart : ThreadStep (quiet .init)
      (.start () (Env.sample []) (.op (.addLogger "system" ⟨0⟩))) _ := ⟨rfl, rfl⟩
  have hprog : ((quiet LogSystem.init).start () (Guarded.addLogger "system" ⟨0⟩)).program () =
      Guarded.addLogger "system" ⟨0⟩ := Config.program_start ..
  have hstep := Config.Step.lock (l := Lock.manager) hprog rfl
  refine ⟨_, _, (Run.nil.snoc hstart).snoc hstep, rfl, ⟨_, rfl⟩, fun h => ?_⟩
  exact not_safe_of_callsAddLogger hstart ⟨(), _, _, rfl, trivial⟩
    (h _ List.mem_cons_self)

end Sylar
