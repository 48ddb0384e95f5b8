/-
Sylar/World.lean

The logging module at work (log.hpp, log.cpp): the objects that exist, the
logger manager, and every operation on them.

`LogSystem` is the whole state: an arena for each class of objects, the
manager's map `m_loggers` and its root logger, and the calls of `log` the
appenders have received so far.  An operation of the source that creates an
object stores it at the arena's `fresh` pointer and returns the new state.

Two things about levels are worth knowing before reading the operations: the
constructor of `LogEvent` writes the logger's level (`newLogEvent`), and a
record is rendered with the level the logger has at that moment
(`LogFormatter.format`).
-/
import Sylar.Parse

namespace Sylar

/-! ### Rendering -/

/-- `os << std::string` and friends for one item: what it contributes to the
record. -/
def FormatItem.format (env : Env) (level : LogLevel) (event : LogEvent) : FormatItem → String
  | .message => event.content
  | .level => level.toString
  | .elapse => toString event.elapse.toNat
  | .threadID => toString env.threadID
  | .fiberID => toString event.fiberID.toNat
  | .dateTime format =>
      -- `strftime` into 64 bytes, the last for the terminator, a `Char` being a byte: what does
      -- not fit leaves the buffer unspecified
      if (env.strftime format event.time).length < 64 then env.strftime format event.time
      else env.stackBuf
  | .fileName => event.filename
  | .lineNumber => toString event.line
  | .newLine => "\n"
  | .string str => str
  | .tab => "\t"

/-- `LogFormatter::format`; `level` is the logger's level when it is called. -/
def LogFormatter.format (env : Env) (f : LogFormatter) (level : LogLevel) (event : LogEvent) :
    String :=
  String.join (f.items.map (FormatItem.format env level event))

/-! ### The state -/

/-- Everything the logging module holds. -/
structure LogSystem where
  formatters : Arena LogFormatter
  appenders : Arena LogAppender
  loggers : Arena Logger
  events : Arena LogEvent
  /-- `m_loggers` of the manager. -/
  loggerMap : SortedMap String (Ptr Logger)
  /-- `m_root` of the manager. -/
  root : Ptr Logger
  /-- Calls of the appenders' `log`, oldest first. -/
  records : List Record
  deriving DecidableEq

namespace LogSystem

variable (w : LogSystem)

/-- The logger behind a pointer. -/
abbrev logger (p : Ptr Logger) : Logger := w.loggers.get p

/-- The appender behind a pointer. -/
abbrev appender (a : Ptr LogAppender) : LogAppender := w.appenders.get a

/-- The formatter behind a pointer. -/
abbrev formatter (f : Ptr LogFormatter) : LogFormatter := w.formatters.get f

/-- The event behind a pointer. -/
abbrev event (e : Ptr LogEvent) : LogEvent := w.events.get e

/-! ### Formatters and appenders -/

/-- `new LogFormatter(pattern)`, at `w.formatters.fresh`. -/
def newLogFormatter (pattern : String) : LogSystem :=
  { w with formatters := w.formatters.alloc (LogFormatter.new pattern) }

/-- `LogFormatter::setPattern`. -/
def setPattern (f : Ptr LogFormatter) (pattern : String) : LogSystem :=
  { w with formatters := w.formatters.modify f fun x => x.setPattern pattern }

/-- `new StdoutLogAppender`, at `w.appenders.fresh`. -/
def newStdoutLogAppender : LogSystem :=
  { w with appenders := w.appenders.alloc ⟨.stdout, none⟩ }

/-- `new FileLogAppender(filename)`, at `w.appenders.fresh`; the process ends when
the file cannot be opened. -/
def newFileLogAppender (env : Env) (filename : String) : Outcome Unit LogSystem :=
  if env.canOpen filename then
    .ret { w with appenders := w.appenders.alloc ⟨.file filename, none⟩ }
  else .exit 1

/-- `LogAppender::setFormatter(LogFormatter::ptr)`. -/
def setAppenderFormatter (a : Ptr LogAppender) (f : Option (Ptr LogFormatter)) : LogSystem :=
  { w with appenders := w.appenders.modify a fun x => { x with formatter := f } }

/-- `StdoutLogAppender::setFormatter` and `FileLogAppender::setFormatter` with a
pattern: one that does not parse is reported and changes nothing. -/
def setAppenderPattern (a : Ptr LogAppender) (pattern : String) : LogSystem :=
  if (LogFormatter.new pattern).error then w
  else (w.newLogFormatter pattern).setAppenderFormatter a (some w.formatters.fresh)

/-! ### Loggers -/

/-- `new Logger(name)`, at `w.loggers.fresh`. -/
def newLogger (name : String) : LogSystem :=
  let f := w.formatters.fresh
  let w := w.newLogFormatter ""
  { w with loggers := w.loggers.alloc ⟨name, .all, [], some f⟩ }

/-- `Logger::getLevel`. -/
def getLevel (p : Ptr Logger) : LogLevel := (w.logger p).level

/-- `Logger::setLevel`. -/
def setLevel (p : Ptr Logger) (level : LogLevel) : LogSystem :=
  { w with loggers := w.loggers.modify p fun x => { x with level := level } }

/-- `Logger::addAppender`: an appender without a formatter takes the logger's. -/
def addAppender (p : Ptr Logger) (a : Ptr LogAppender) : LogSystem :=
  let w := if (w.appender a).formatter = none then
      w.setAppenderFormatter a (w.logger p).formatter else w
  { w with loggers := w.loggers.modify p fun x => { x with appenders := x.appenders ++ [a] } }

/-- `Logger::delAppender`: the first occurrence only. -/
def delAppender (p : Ptr Logger) (a : Ptr LogAppender) : LogSystem :=
  { w with loggers := w.loggers.modify p fun x => { x with appenders := x.appenders.erase a } }

/-- `Logger::clearAppender`. -/
def clearAppender (p : Ptr Logger) : LogSystem :=
  { w with loggers := w.loggers.modify p fun x => { x with appenders := [] } }

/-- `Logger::setFormatter(LogFormatter::ptr)`. -/
def setLoggerFormatter (p : Ptr Logger) (f : Option (Ptr LogFormatter)) : LogSystem :=
  { w with loggers := w.loggers.modify p fun x => { x with formatter := f } }

/-- `Logger::setFormatter` with a pattern. -/
def setLoggerPattern (p : Ptr Logger) (pattern : String) : LogSystem :=
  if (LogFormatter.new pattern).error then w
  else (w.newLogFormatter pattern).setLoggerFormatter p (some w.formatters.fresh)

/-! ### Events -/

/-- `new LogEvent(...)`, at `w.events.fresh`.  The constructor sets the level of
the logger to that of the event. -/
def newLogEvent (p : Ptr Logger) (level : LogLevel) (filename : String) (line : Int)
    (threadID fiberID elapse time : UInt32) : LogSystem :=
  { w with events := w.events.alloc ⟨p, level, filename, line, threadID, fiberID, elapse, time, ""⟩ }
    |>.setLevel p level

/-- `event->getSS() << text`, and `LogEvent::format` with an expansion of `text`. -/
def write (e : Ptr LogEvent) (text : String) : LogSystem :=
  { w with events := w.events.modify e fun x => { x with content := x.content ++ text } }

/-- One call of `LogAppender::log` for logger `p`. -/
def record (env : Env) (p : Ptr Logger) (e : Ptr LogEvent) (a : Ptr LogAppender) : Record where
  appender := a
  event := e
  text := (w.appender a).formatter.map fun f => (w.formatter f).format env (w.getLevel p) (w.event e)

/-- `Logger::log`. -/
def log (env : Env) (p : Ptr Logger) (level : LogLevel) (e : Ptr LogEvent) : LogSystem :=
  if w.getLevel p ≤ level then
    { w with records := w.records ++ (w.logger p).appenders.map (w.record env p e) }
  else w

/-- `LogEventWrap::~LogEventWrap`, and a direct `logger->log(event->getLevel(), event)`
on the event's own logger. -/
def flush (env : Env) (e : Ptr LogEvent) : LogSystem :=
  w.log env (w.event e).logger (w.event e).level e

/-- `GetFiberID()`. -/
def getFiberID : UInt32 := 0

/-- `SYLAR_LOG_LEVEL(logger, level) << text`, at `filename:line`.  The macro passes the
thread and fiber numbers one parameter late. -/
def sylarLog (env : Env) (p : Ptr Logger) (level : LogLevel) (filename : String) (line : Int)
    (text : String) : LogSystem :=
  if w.getLevel p ≤ level then
    let e := w.events.fresh
    let w := w.newLogEvent p level filename line 0 (UInt32.ofInt env.threadID) getFiberID env.now
    (w.write e text).flush env e
  else w

/-! ### The manager -/

/-- `LoggerManager::getLogger`: the state after the call and the logger returned. -/
def getLogger (name : String) : LogSystem × Ptr Logger :=
  match w.loggerMap.get? name with
  | some p => (w, p)
  | none =>
      ({ w.newLogger name with loggerMap := w.loggerMap.set name w.loggers.fresh },
        w.loggers.fresh)

/-- `LoggerManager::getLogger` when the manager's spin lock may already be held by
the calling thread: it then never returns. -/
def getLoggerLocked (held : Bool) (name : String) : Option (LogSystem × Ptr Logger) :=
  if held then none else some (w.getLogger name)

/-- `LoggerManager::addLogger`, which calls `getLogger` while it holds the lock. -/
def addLogger (name : String) (p : Ptr Logger) : Option LogSystem :=
  (w.getLoggerLocked true name).map fun r =>
    { r.1 with loggerMap := r.1.loggerMap.set name p }

/-- `LoggerManager::LoggerManager`. -/
def init : LogSystem :=
  let w : LogSystem :=
    ⟨Arena.empty, Arena.empty, Arena.empty, Arena.empty, SortedBy.empty, ⟨0⟩, []⟩
  let p := w.loggers.fresh
  let w := { w.newLogger "root" with root := p }
  let a := w.appenders.fresh
  w.newStdoutLogAppender.addAppender p a

/-- The manager's lock is not recursive: `addLogger` never returns. -/
theorem addLogger_eq_none (name : String) (p : Ptr Logger) : w.addLogger name p = none := rfl

/-! ### Levels and events after an operation -/

/-- Streaming into an event changes its content only. -/
theorem event_write_logger (e e' : Ptr LogEvent) (text : String) :
    ((w.write e text).event e').logger = (w.event e').logger :=
  Arena.get_modify_proj w.events e' e (fun x => { x with content := x.content ++ text })
    LogEvent.logger fun _ => rfl

theorem event_write_level (e e' : Ptr LogEvent) (text : String) :
    ((w.write e text).event e').level = (w.event e').level :=
  Arena.get_modify_proj w.events e' e (fun x => { x with content := x.content ++ text })
    LogEvent.level fun _ => rfl

variable {w}

/-- A file appender is created exactly when its file opens. -/
theorem newFileLogAppender_eq_ret {env : Env} {filename : String} {w' : LogSystem} :
    w.newFileLogAppender env filename = .ret w' ↔ env.canOpen filename = true ∧
      w' = { w with appenders := w.appenders.alloc ⟨.file filename, none⟩ } := by
  unfold newFileLogAppender
  split_ifs with hopen
  · simp [hopen, eq_comm]
  · simp [hopen]

theorem getLevel_setLevel {p : Ptr Logger} (hp : p ∈ w.loggers) (level : LogLevel) :
    (w.setLevel p level).getLevel p = level :=
  congrArg Logger.level (Arena.get_modify_self _ hp)

/-- Creating an event moves the logger to the level of the event. -/
theorem getLevel_newLogEvent {p : Ptr Logger} (hp : p ∈ w.loggers) (level : LogLevel)
    (filename : String) (line : Int) (threadID fiberID elapse time : UInt32) :
    (w.newLogEvent p level filename line threadID fiberID elapse time).getLevel p = level :=
  getLevel_setLevel (w := { w with events := w.events.alloc _ }) hp level

@[simp] theorem loggers_log (env : Env) (p : Ptr Logger) (level : LogLevel) (e : Ptr LogEvent) :
    (w.log env p level e).loggers = w.loggers := by
  unfold log
  split <;> rfl

theorem appenders_setLevel (p q : Ptr Logger) (level : LogLevel) :
    ((w.setLevel p level).logger q).appenders = (w.logger q).appenders :=
  Arena.get_modify_proj w.loggers q p _ Logger.appenders fun _ => rfl

@[simp] theorem mem_loggers_newLogEvent {p q : Ptr Logger} {level : LogLevel} {filename : String}
    {line : Int} {threadID fiberID elapse time : UInt32} :
    q ∈ (w.newLogEvent p level filename line threadID fiberID elapse time).loggers ↔
      q ∈ w.loggers := Arena.mem_modify

theorem event_newLogEvent_of_mem {p : Ptr Logger} {level : LogLevel} {filename : String} {line : Int}
    {threadID fiberID elapse time : UInt32} {e : Ptr LogEvent} (he : e ∈ w.events) :
    (w.newLogEvent p level filename line threadID fiberID elapse time).event e = w.event e :=
  Arena.get_alloc_of_mem _ he

theorem event_newLogEvent_fresh (p : Ptr Logger) (level : LogLevel) (filename : String) (line : Int)
    (threadID fiberID elapse time : UInt32) :
    (w.newLogEvent p level filename line threadID fiberID elapse time).event w.events.fresh =
      ⟨p, level, filename, line, threadID, fiberID, elapse, time, ""⟩ :=
  Arena.get_alloc_self _ _

end LogSystem

end Sylar
