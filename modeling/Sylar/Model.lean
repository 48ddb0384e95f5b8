/-
Sylar/Model.lean

The data of the logging module (log.hpp, log.cpp): levels, format items,
formatters, appenders, loggers and events.

Objects the source holds through `std::shared_ptr` are held through `Ptr`
here, so that two holders of one object are told apart from holders of two
equal ones.  A pointer that may be null is an `Option`.

`Env` collects what the module reads from outside itself: the clock, the
calling thread, `strftime`, the file system and yaml-cpp.
-/
import Mathlib.Data.String.Basic
import Mathlib.Order.Basic
import Sylar.Lib.Arena
import Sylar.Lib.Outcome
import Sylar.Lib.SortedBy
import Sylar.Lib.Yaml

namespace Sylar

/-! ### Levels -/

/-- `LogLevel::Level`. -/
inductive LogLevel
  | all | debug | info | warn | error | fatal | off
  deriving DecidableEq, Repr, Inhabited

namespace LogLevel

/-- The enumerator's value. -/
def toNat : LogLevel → Nat
  | all => 0
  | debug => 1
  | info => 2
  | warn => 3
  | error => 4
  | fatal => 5
  | off => 6

theorem toNat_injective : Function.Injective toNat := by
  intro a b h
  cases a <;> cases b <;> first | rfl | cases h

instance : LinearOrder LogLevel := LinearOrder.lift' toNat toNat_injective

/-- `LogLevel::ToString`. -/
def toString : LogLevel → String
  | all => "ALL"
  | debug => "DEBUG"
  | info => "INFO"
  | warn => "WARN"
  | error => "ERROR"
  | fatal => "FATAL"
  | off => "OFF"

/-- `LogLevel::FromString`; "ERROR" is not among the names it knows. -/
def fromString (str : String) : LogLevel :=
  if str = "ALL" then all
  else if str = "DEBUG" then debug
  else if str = "INFO" then info
  else if str = "WARN" then warn
  else if str = "FATAL" then fatal
  else off

/-- A level survives being written and read back, except `error`, which comes
back as `off`. -/
theorem fromString_toString (l : LogLevel) :
    fromString l.toString = if l = error then off else l := by
  cases l <;> decide

theorem fromString_toString_eq_iff (l : LogLevel) :
    fromString l.toString = l ↔ l ≠ error := by
  rw [fromString_toString]
  by_cases h : l = error
  · simp [h]
  · simp [h]

end LogLevel

/-! ### Formatters -/

/-- The classes derived from `LogFormatter::FormatItem`, with the data they keep. -/
inductive FormatItem
  | message | level | elapse | threadID | fiberID
  | dateTime (format : String)
  | fileName | lineNumber | newLine
  | string (str : String)
  | tab
  deriving DecidableEq, Repr, Inhabited

/-- `LogFormatter`. -/
structure LogFormatter where
  pattern : String
  items : List FormatItem
  error : Bool
  deriving DecidableEq, Repr, Inhabited

/-! ### Appenders, loggers, events -/

/-- Which derived class an appender is, with the file name of a
`FileLogAppender`. -/
inductive AppenderKind
  | stdout
  | file (filename : String)
  deriving DecidableEq, Repr, Inhabited

/-- `LogAppender`. -/
structure LogAppender where
  kind : AppenderKind
  formatter : Option (Ptr LogFormatter)
  deriving DecidableEq, Repr, Inhabited

/-- `Logger`. -/
structure Logger where
  logname : String
  level : LogLevel
  appenders : List (Ptr LogAppender)
  formatter : Option (Ptr LogFormatter)
  deriving DecidableEq, Repr, Inhabited

/-- `LogEvent`; `content` is what has been written to its string stream. -/
structure LogEvent where
  logger : Ptr Logger
  level : LogLevel
  filename : String
  line : Int
  threadID : UInt32
  fiberID : UInt32
  elapse : UInt32
  time : UInt32
  content : String
  deriving DecidableEq, Repr

instance : Inhabited LogEvent := ⟨⟨⟨0⟩, .all, "", 0, 0, 0, 0, 0, ""⟩⟩

/-- One call of an appender's `log`: which appender, which event, and the text it
printed.  There is no text when the appender holds no formatter (a stdout
appender prints a notice; a file appender follows the null pointer). -/
structure Record where
  appender : Ptr LogAppender
  event : Ptr LogEvent
  text : Option String
  deriving DecidableEq, Repr

/-- What the logging module reads from outside itself. -/
structure Env where
  yaml : Yaml.Cpp
  /-- Does opening this file for reading and writing succeed? -/
  canOpen : String → Bool
  /-- `GetThreadID()`: the thread that is running. -/
  threadID : Int
  /-- `time(0)`. -/
  now : UInt32
  /-- `__FILE__` in the code of config.hpp.  The build sets the macro to the path of the
  source being compiled (cmake/utils.cmake), so in a header it is that of whoever includes it. -/
  sourceFile : String
  /-- The expansion `strftime` makes of a format at a local time.  As everywhere, a `Char`
  stands for one byte of the `std::string`, so the length of a text is its length in bytes. -/
  strftime : String → UInt32 → String
  /-- What an uninitialised 64-byte buffer on the stack reads as. -/
  stackBuf : String

/-- A surrounding in which every file opens, the clock stands at 0, dates are formats
without conversions, and the YAML texts are those of `rows`. -/
noncomputable def Env.sample (rows : List (Yaml.Node × String)) : Env where
  yaml := Yaml.sample rows
  canOpen _ := true
  threadID := 1
  now := 0
  sourceFile := "src/log.cpp"
  strftime format _ := format
  stackBuf := ""

theorem Env.sample_faithful {rows : List (Yaml.Node × String)} (h : Yaml.Unambiguous rows) :
    (Env.sample rows).yaml.Faithful := Yaml.sample_faithful h

end Sylar
