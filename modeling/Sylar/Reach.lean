/-
Sylar/Reach.lean

The states the logging module can be in.

`LogOp` lists the public operations, `apply` runs one of them, and a state is
`Reachable` when a run of operations leads to it from the freshly constructed
manager.  `addLogger` is in the list although no state follows it: it asks for
the manager's lock a second time.

`WF` is the invariant of all reachable states (`Reachable.wf`): no pointer
dangles, a logger in the manager's map carries the name it is stored under
(so no logger is stored twice), and the root logger is not in the map.
-/
import Sylar.Lib.Transition
import Sylar.World

namespace Sylar

open Transition

namespace LogSystem

/-! ### The invariant -/

/-- What holds of the objects in every reachable state. -/
structure WF (w : LogSystem) : Prop where
  root_mem : w.root ∈ w.loggers
  map_mem : ∀ {n p}, w.loggerMap.get? n = some p → p ∈ w.loggers
  map_name : ∀ {n p}, w.loggerMap.get? n = some p → (w.logger p).logname = n
  map_ne_root : ∀ {n p}, w.loggerMap.get? n = some p → p ≠ w.root
  appender_mem : ∀ p, ∀ a ∈ (w.logger p).appenders, a ∈ w.appenders
  formatter_mem : ∀ p, ∀ f ∈ (w.logger p).formatter, f ∈ w.formatters
  appender_formatter_mem : ∀ a, ∀ f ∈ (w.appender a).formatter, f ∈ w.formatters

variable {w : LogSystem}

/-- No logger is stored under two names. -/
theorem WF.map_injective (h : w.WF) {n m : String} {p : Ptr Logger}
    (hn : w.loggerMap.get? n = some p) (hm : w.loggerMap.get? m = some p) : n = m :=
  (h.map_name hn).symm.trans (h.map_name hm)

/-! ### Elementary changes keep the invariant -/

theorem WF.modifyLogger (h : w.WF) (p : Ptr Logger) (g : Logger → Logger)
    (hname : ∀ x, (g x).logname = x.logname)
    (happ : ∀ a ∈ (g (w.logger p)).appenders, a ∈ w.appenders)
    (hfmt : ∀ f ∈ (g (w.logger p)).formatter, f ∈ w.formatters) :
    WF { w with loggers := w.loggers.modify p g } := by
  -- a logger reads as before, or it is `p` and has gone through `g`
  have hget : ∀ q, (w.loggers.modify p g).get q = w.logger q ∨
      (q = p ∧ (w.loggers.modify p g).get q = g (w.logger p)) := by
    intro q
    by_cases hqp : q = p
    · subst hqp
      by_cases hq : q ∈ w.loggers
      · exact Or.inr ⟨rfl, Arena.get_modify_self g hq⟩
      · apply Or.inl
        rw [logger, Arena.get_of_notMem hq,
          Arena.get_of_notMem fun hm => hq (Arena.mem_modify.mp hm)]
    · exact Or.inl (Arena.get_modify_of_ne g hqp)
  refine ⟨Arena.mem_modify.mpr h.root_mem, fun hm => Arena.mem_modify.mpr (h.map_mem hm), ?_,
    h.map_ne_root, ?_, ?_, h.appender_formatter_mem⟩
  · intro n q hq
    exact (Arena.get_modify_proj w.loggers q p g Logger.logname hname).trans (h.map_name hq)
  · intro q a ha
    rcases hget q with e | ⟨_, e⟩
    · exact h.appender_mem q a (e ▸ ha)
    · exact happ a (e ▸ ha)
  · intro q f hf
    rcases hget q with e | ⟨_, e⟩
    · exact h.formatter_mem q f (e ▸ hf)
    · exact hfmt f (e ▸ hf)

theorem WF.allocLogger (h : w.WF) (x : Logger) (happ : ∀ a ∈ x.appenders, a ∈ w.appenders)
    (hfmt : ∀ f ∈ x.formatter, f ∈ w.formatters) :
    WF { w with loggers := w.loggers.alloc x } := by
  have hget : ∀ q, (w.loggers.alloc x).get q = w.logger q ∨ (w.loggers.alloc x).get q = x := by
    intro q
    by_cases hq : q = w.loggers.fresh
    · exact Or.inr (hq ▸ Arena.get_alloc_self _ _)
    · exact Or.inl (Arena.get_alloc_of_ne x hq)
  refine ⟨Arena.mem_alloc_of_mem x h.root_mem, fun hm => Arena.mem_alloc_of_mem x (h.map_mem hm),
    ?_, h.map_ne_root, ?_, ?_, h.appender_formatter_mem⟩
  · intro n q hq
    exact (congrArg _ (Arena.get_alloc_of_mem x (h.map_mem hq))).trans (h.map_name hq)
  · intro q a ha
    rcases hget q with e | e
    · exact h.appender_mem q a (e ▸ ha)
    · exact happ a (e ▸ ha)
  · intro q f hf
    rcases hget q with e | e
    · exact h.formatter_mem q f (e ▸ hf)
    · exact hfmt f (e ▸ hf)

theorem WF.modifyAppender (h : w.WF) (a : Ptr LogAppender) (g : LogAppender → LogAppender)
    (hfmt : ∀ f ∈ (g (w.appender a)).formatter, f ∈ w.formatters) :
    WF { w with appenders := w.appenders.modify a g } := by
  refine ⟨h.root_mem, h.map_mem, h.map_name, h.map_ne_root,
    fun p b hb => Arena.mem_modify.mpr (h.appender_mem p b hb), h.formatter_mem, ?_⟩
  intro b f hf
  by_cases hba : b = a
  · subst hba
    by_cases hb : b ∈ w.appenders
    · exact hfmt f (Arena.get_modify_self g hb ▸ hf)
    · -- nobody's pointer: what is read there is the default appender, without a formatter
      simp only [appender, Arena.get_of_notMem fun hm => hb (Arena.mem_modify.mp hm)] at hf
      cases hf
  · have hget : (w.appenders.modify a g).get b = w.appender b := Arena.get_modify_of_ne g hba
    exact h.appender_formatter_mem b f (hget ▸ hf)

theorem WF.allocAppender (h : w.WF) (x : LogAppender)
    (hfmt : ∀ f ∈ x.formatter, f ∈ w.formatters) :
    WF { w with appenders := w.appenders.alloc x } := by
  refine ⟨h.root_mem, h.map_mem, h.map_name, h.map_ne_root,
    fun p b hb => Arena.mem_alloc_of_mem x (h.appender_mem p b hb), h.formatter_mem, ?_⟩
  intro b f hf
  by_cases hb : b = w.appenders.fresh
  · subst hb
    exact hfmt f (Arena.get_alloc_self w.appenders x ▸ hf)
  · have hget : (w.appenders.alloc x).get b = w.appender b := Arena.get_alloc_of_ne x hb
    exact h.appender_formatter_mem b f (hget ▸ hf)

/-- Formatters may be created and changed freely: the invariant only asks which of
them exist. -/
theorem WF.setFormatters (h : w.WF) (fs : Arena LogFormatter)
    (hfs : ∀ f ∈ w.formatters, f ∈ fs) : WF { w with formatters := fs } :=
  ⟨h.root_mem, h.map_mem, h.map_name, h.map_ne_root, h.appender_mem,
    fun p f hf => hfs f (h.formatter_mem p f hf),
    fun a f hf => hfs f (h.appender_formatter_mem a f hf)⟩

/-- Events and records are not part of the invariant. -/
theorem WF.setEvents (h : w.WF) (es : Arena LogEvent) (rs : List Record) :
    WF { w with events := es, records := rs } :=
  ⟨h.root_mem, h.map_mem, h.map_name, h.map_ne_root, h.appender_mem, h.formatter_mem,
    h.appender_formatter_mem⟩

theorem WF.setMap (h : w.WF) {n : String} {p : Ptr Logger} (hp : p ∈ w.loggers)
    (hname : (w.logger p).logname = n) (hroot : p ≠ w.root) :
    WF { w with loggerMap := w.loggerMap.set n p } := by
  -- an entry of the new map is the one just stored, or an old one
  have hget : ∀ {m q}, (w.loggerMap.set n p).get? m = some q →
      (m = n ∧ q = p) ∨ w.loggerMap.get? m = some q := by
    intro m q hq
    by_cases hnm : n = m
    · subst hnm
      rw [SortedMap.get?_set_self] at hq
      exact Or.inl ⟨rfl, (Option.some.inj hq).symm⟩
    · rw [SortedMap.get?_set_of_ne _ _ hnm] at hq
      exact Or.inr hq
  refine ⟨h.root_mem, ?_, ?_, ?_, h.appender_mem, h.formatter_mem, h.appender_formatter_mem⟩
  · intro m q hq
    rcases hget hq with ⟨rfl, rfl⟩ | hq
    · exact hp
    · exact h.map_mem hq
  · intro m q hq
    rcases hget hq with ⟨rfl, rfl⟩ | hq
    · exact hname
    · exact h.map_name hq
  · intro m q hq
    rcases hget hq with ⟨rfl, rfl⟩ | hq
    · exact hroot
    · exact h.map_ne_root hq

/-! ### The operations keep it -/

theorem WF.newLogFormatter (h : w.WF) (pattern : String) : (w.newLogFormatter pattern).WF :=
  h.setFormatters _ fun _ hf => Arena.mem_alloc_of_mem _ hf

theorem WF.setPattern (h : w.WF) (f : Ptr LogFormatter) (pattern : String) :
    (w.setPattern f pattern).WF :=
  h.setFormatters _ fun _ hf => Arena.mem_modify.mpr hf

/-- A new appender has no formatter. -/
theorem WF.newAppender (h : w.WF) (kind : AppenderKind) :
    WF { w with appenders := w.appenders.alloc ⟨kind, none⟩ } :=
  h.allocAppender _ (by simp)

theorem WF.setAppenderFormatter (h : w.WF) (a : Ptr LogAppender) {f : Option (Ptr LogFormatter)}
    (hf : ∀ x ∈ f, x ∈ w.formatters) : (w.setAppenderFormatter a f).WF :=
  h.modifyAppender a _ hf

theorem WF.setAppenderPattern (h : w.WF) (a : Ptr LogAppender) (pattern : String) :
    (w.setAppenderPattern a pattern).WF := by
  unfold LogSystem.setAppenderPattern
  split
  · exact h
  · apply (h.newLogFormatter pattern).setAppenderFormatter a
    rintro x hx
    obtain rfl := Option.some.inj hx
    exact Arena.fresh_mem_alloc _ _

theorem WF.newLogger (h : w.WF) (name : String) : (w.newLogger name).WF := by
  -- the constructor makes a formatter of its own first
  refine (h.newLogFormatter "").allocLogger ⟨name, .all, [], some w.formatters.fresh⟩ (by simp) ?_
  rintro f hf
  obtain rfl := Option.some.inj hf
  exact Arena.fresh_mem_alloc _ _

theorem WF.setLevel (h : w.WF) (p : Ptr Logger) (level : LogLevel) : (w.setLevel p level).WF :=
  h.modifyLogger p _ (fun _ => rfl) (h.appender_mem p) (h.formatter_mem p)

theorem WF.addAppender (h : w.WF) (p : Ptr Logger) {a : Ptr LogAppender} (ha : a ∈ w.appenders) :
    (w.addAppender p a).WF := by
  -- the `push_back`, in whatever state the appender was left with a formatter
  have push : ∀ {v : LogSystem}, v.WF → a ∈ v.appenders →
      WF { v with loggers := v.loggers.modify p fun x =>
        { x with appenders := x.appenders ++ [a] } } := by
    intro v hv hav
    refine hv.modifyLogger p _ (fun _ => rfl) ?_ (hv.formatter_mem p)
    intro b hb
    rcases List.mem_append.mp hb with hb | hb
    · exact hv.appender_mem p b hb
    · exact List.mem_singleton.mp hb ▸ hav
  unfold LogSystem.addAppender
  split
  · exact push (h.setAppenderFormatter a (h.formatter_mem p)) (Arena.mem_modify.mpr ha)
  · exact push h ha

theorem WF.delAppender (h : w.WF) (p : Ptr Logger) (a : Ptr LogAppender) :
    (w.delAppender p a).WF :=
  h.modifyLogger p _ (fun _ => rfl) (fun b hb => h.appender_mem p b (List.mem_of_mem_erase hb))
    (h.formatter_mem p)

theorem WF.clearAppender (h : w.WF) (p : Ptr Logger) : (w.clearAppender p).WF :=
  h.modifyLogger p _ (fun _ => rfl) (fun _ hb => absurd hb List.not_mem_nil) (h.formatter_mem p)

theorem WF.setLoggerFormatter (h : w.WF) (p : Ptr Logger) {f : Option (Ptr LogFormatter)}
    (hf : ∀ x ∈ f, x ∈ w.formatters) : (w.setLoggerFormatter p f).WF :=
  h.modifyLogger p _ (fun _ => rfl) (h.appender_mem p) hf

theorem WF.setLoggerPattern (h : w.WF) (p : Ptr Logger) (pattern : String) :
    (w.setLoggerPattern p pattern).WF := by
  unfold LogSystem.setLoggerPattern
  split
  · exact h
  · apply (h.newLogFormatter pattern).setLoggerFormatter p
    rintro x hx
    obtain rfl := Option.some.inj hx
    exact Arena.fresh_mem_alloc _ _

theorem WF.newLogEvent (h : w.WF) (p : Ptr Logger) (level : LogLevel) (filename : String)
    (line : Int) (threadID fiberID elapse time : UInt32) :
    (w.newLogEvent p level filename line threadID fiberID elapse time).WF :=
  (h.setEvents _ w.records).setLevel p level

theorem WF.write (h : w.WF) (e : Ptr LogEvent) (text : String) : (w.write e text).WF :=
  h.setEvents _ w.records

theorem WF.log (h : w.WF) (env : Env) (p : Ptr Logger) (level : LogLevel) (e : Ptr LogEvent) :
    (w.log env p level e).WF := by
  unfold LogSystem.log
  split
  · exact h.setEvents w.events _
  · exact h

theorem WF.getLogger (h : w.WF) (name : String) : (w.getLogger name).1.WF := by
  unfold LogSystem.getLogger
  split
  · exact h
  · refine (h.newLogger name).setMap (Arena.fresh_mem_alloc _ _) ?_ ?_
    · exact congrArg Logger.logname (Arena.get_alloc_self w.loggers _)
    · exact (Arena.ne_fresh h.root_mem).symm

theorem wf_init : init.WF := by
  -- the manager before its root logger is given an appender
  have hroot : WF ⟨⟨[LogFormatter.new ""]⟩, ⟨[]⟩, ⟨[⟨"root", .all, [], some ⟨0⟩⟩]⟩, ⟨[]⟩,
      SortedBy.empty, ⟨0⟩, []⟩ := by
    refine ⟨Nat.zero_lt_one, nofun, nofun, nofun, ?_, ?_, ?_⟩
    · rintro ⟨_ | _⟩ a ha <;> cases ha
    · rintro ⟨_ | _⟩ f hf <;> cases hf
      exact Nat.zero_lt_one
    · rintro ⟨_⟩ f hf
      cases hf
  exact (hroot.newAppender .stdout).addAppender ⟨0⟩ (Arena.fresh_mem_alloc _ _)

end LogSystem

/-! ### Runs of operations -/

/-- The public operations of the logging module. -/
inductive LogOp
  | newLogFormatter (pattern : String)
  | setPattern (f : Ptr LogFormatter) (pattern : String)
  | newStdoutLogAppender
  | newFileLogAppender (filename : String)
  | setAppenderFormatter (a : Ptr LogAppender) (f : Option (Ptr LogFormatter))
  | setAppenderPattern (a : Ptr LogAppender) (pattern : String)
  | newLogger (name : String)
  | setLevel (p : Ptr Logger) (level : LogLevel)
  | addAppender (p : Ptr Logger) (a : Ptr LogAppender)
  | delAppender (p : Ptr Logger) (a : Ptr LogAppender)
  | clearAppender (p : Ptr Logger)
  | setLoggerFormatter (p : Ptr Logger) (f : Option (Ptr LogFormatter))
  | setLoggerPattern (p : Ptr Logger) (pattern : String)
  | newLogEvent (p : Ptr Logger) (level : LogLevel) (filename : String) (line : Int)
      (threadID fiberID elapse time : UInt32)
  | write (e : Ptr LogEvent) (text : String)
  | log (p : Ptr Logger) (level : LogLevel) (e : Ptr LogEvent)
  | getLogger (name : String)
  | addLogger (name : String) (p : Ptr Logger)

/-- Does it leave the formatters where they are, except for one it makes from a pattern,
or that an appender takes over from its logger? -/
def LogOp.ByPattern : LogOp → Prop
  | setPattern _ _ => False
  | setAppenderFormatter _ _ => False
  | setLoggerFormatter _ _ => False
  | _ => True

/-- Run one operation.  There is no state after it when it does not return, and when
it is handed a pointer nobody has. -/
def LogOp.apply (env : Env) (w : LogSystem) : LogOp → Option LogSystem
  | newLogFormatter pattern => some (w.newLogFormatter pattern)
  | setPattern f pattern => if f ∈ w.formatters then some (w.setPattern f pattern) else none
  | newStdoutLogAppender => some w.newStdoutLogAppender
  | newFileLogAppender filename =>
      match w.newFileLogAppender env filename with
      | .ret w' => some w'
      | _ => none
  | setAppenderFormatter a f =>
      if a ∈ w.appenders ∧ ∀ x ∈ f, x ∈ w.formatters then some (w.setAppenderFormatter a f)
      else none
  | setAppenderPattern a pattern =>
      if a ∈ w.appenders then some (w.setAppenderPattern a pattern) else none
  | newLogger name => some (w.newLogger name)
  | setLevel p level => if p ∈ w.loggers then some (w.setLevel p level) else none
  | addAppender p a =>
      if p ∈ w.loggers ∧ a ∈ w.appenders then some (w.addAppender p a) else none
  | delAppender p a => if p ∈ w.loggers then some (w.delAppender p a) else none
  | clearAppender p => if p ∈ w.loggers then some (w.clearAppender p) else none
  | setLoggerFormatter p f =>
      if p ∈ w.loggers ∧ ∀ x ∈ f, x ∈ w.formatters then some (w.setLoggerFormatter p f) else none
  | setLoggerPattern p pattern =>
      if p ∈ w.loggers then some (w.setLoggerPattern p pattern) else none
  | newLogEvent p level filename line threadID fiberID elapse time =>
      if p ∈ w.loggers then
        some (w.newLogEvent p level filename line threadID fiberID elapse time)
      else none
  | write e text => if e ∈ w.events then some (w.write e text) else none
  | log p level e =>
      if p ∈ w.loggers ∧ e ∈ w.events then some (w.log env p level e) else none
  | getLogger name => some (w.getLogger name).1
  -- there never is a state after it (`addLogger_eq_none`)
  | addLogger name p => w.addLogger name p

/-- An operation, run under whatever the outside world offers at that moment. -/
def LogStep (w : LogSystem) (op : LogOp) (w' : LogSystem) : Prop :=
  ∃ env, op.apply env w = some w'

/-- The states a run of operations can lead to. -/
def LogSystem.Reachable (w : LogSystem) : Prop := ∃ tr, Run LogStep LogSystem.init tr w

/-- An operation that `apply` runs: the pointers it has found good, and the state it leads
to. -/
inductive LogOp.Applied (env : Env) (w : LogSystem) : LogOp → LogSystem → Prop
  | newLogFormatter (pattern : String) :
      Applied env w (.newLogFormatter pattern) (w.newLogFormatter pattern)
  | setPattern {f : Ptr LogFormatter} (hf : f ∈ w.formatters) (pattern : String) :
      Applied env w (.setPattern f pattern) (w.setPattern f pattern)
  | newStdoutLogAppender : Applied env w .newStdoutLogAppender w.newStdoutLogAppender
  | newFileLogAppender {filename : String} (hopen : env.canOpen filename = true) :
      Applied env w (.newFileLogAppender filename)
        { w with appenders := w.appenders.alloc ⟨.file filename, none⟩ }
  | setAppenderFormatter {a : Ptr LogAppender} {f : Option (Ptr LogFormatter)}
      (ha : a ∈ w.appenders) (hf : ∀ x ∈ f, x ∈ w.formatters) :
      Applied env w (.setAppenderFormatter a f) (w.setAppenderFormatter a f)
  | setAppenderPattern {a : Ptr LogAppender} (ha : a ∈ w.appenders) (pattern : String) :
      Applied env w (.setAppenderPattern a pattern) (w.setAppenderPattern a pattern)
  | newLogger (name : String) : Applied env w (.newLogger name) (w.newLogger name)
  | setLevel {p : Ptr Logger} (hp : p ∈ w.loggers) (level : LogLevel) :
      Applied env w (.setLevel p level) (w.setLevel p level)
  | addAppender {p : Ptr Logger} {a : Ptr LogAppender} (hp : p ∈ w.loggers)
      (ha : a ∈ w.appenders) : Applied env w (.addAppender p a) (w.addAppender p a)
  | delAppender {p : Ptr Logger} (hp : p ∈ w.loggers) (a : Ptr LogAppender) :
      Applied env w (.delAppender p a) (w.delAppender p a)
  | clearAppender {p : Ptr Logger} (hp : p ∈ w.loggers) :
      Applied env w (.clearAppender p) (w.clearAppender p)
  | setLoggerFormatter {p : Ptr Logger} {f : Option (Ptr LogFormatter)} (hp : p ∈ w.loggers)
      (hf : ∀ x ∈ f, x ∈ w.formatters) :
      Applied env w (.setLoggerFormatter p f) (w.setLoggerFormatter p f)
  | setLoggerPattern {p : Ptr Logger} (hp : p ∈ w.loggers) (pattern : String) :
      Applied env w (.setLoggerPattern p pattern) (w.setLoggerPattern p pattern)
  | newLogEvent {p : Ptr Logger} (hp : p ∈ w.loggers) (level : LogLevel) (filename : String)
      (line : Int) (threadID fiberID elapse time : UInt32) :
      Applied env w (.newLogEvent p level filename line threadID fiberID elapse time)
        (w.newLogEvent p level filename line threadID fiberID elapse time)
  | write {e : Ptr LogEvent} (he : e ∈ w.events) (text : String) :
      Applied env w (.write e text) (w.write e text)
  | log {p : Ptr Logger} {e : Ptr LogEvent} (hp : p ∈ w.loggers) (he : e ∈ w.events)
      (level : LogLevel) : Applied env w (.log p level e) (w.log env p level e)
  | getLogger (name : String) : Applied env w (.getLogger name) (w.getLogger name).1

/-- **Inversion**: what a proof about all operations splits on. -/
theorem LogOp.applied {env : Env} {w w' : LogSystem} {op : LogOp} (h : op.apply env w = some w') :
    op.Applied env w w' := by
  cases op with
  | newLogFormatter pattern => exact Option.some.inj h ▸ .newLogFormatter pattern
  | newStdoutLogAppender => exact Option.some.inj h ▸ .newStdoutLogAppender
  | newLogger name => exact Option.some.inj h ▸ .newLogger name
  | getLogger name => exact Option.some.inj h ▸ .getLogger name
  | addLogger name p => cases h
  | newFileLogAppender filename =>
      simp only [LogOp.apply] at h
      split at h
      · next hw =>
          obtain ⟨hopen, rfl⟩ := LogSystem.newFileLogAppender_eq_ret.mp hw
          exact Option.some.inj h ▸ .newFileLogAppender hopen
      · cases h
  | setPattern f pattern =>
      -- from here on the pointers are tested first
      obtain ⟨hf, h⟩ := Option.ite_none_right_eq_some.mp h
      exact Option.some.inj h ▸ .setPattern hf pattern
  | setAppenderFormatter a f =>
      obtain ⟨hf, h⟩ := Option.ite_none_right_eq_some.mp h
      exact Option.some.inj h ▸ .setAppenderFormatter hf.1 hf.2
  | setAppenderPattern a pattern =>
      obtain ⟨ha, h⟩ := Option.ite_none_right_eq_some.mp h
      exact Option.some.inj h ▸ .setAppenderPattern ha pattern
  | setLevel p level =>
      obtain ⟨hp, h⟩ := Option.ite_none_right_eq_some.mp h
      exact Option.some.inj h ▸ .setLevel hp level
  | addAppender p a =>
      obtain ⟨ha, h⟩ := Option.ite_none_right_eq_some.mp h
      exact Option.some.inj h ▸ .addAppender ha.1 ha.2
  | delAppender p a =>
      obtain ⟨hp, h⟩ := Option.ite_none_right_eq_some.mp h
      exact Option.some.inj h ▸ .delAppender hp a
  | clearAppender p =>
      obtain ⟨hp, h⟩ := Option.ite_none_right_eq_some.mp h
      exact Option.some.inj h ▸ .clearAppender hp
  | setLoggerFormatter p f =>
      obtain ⟨hf, h⟩ := Option.ite_none_right_eq_some.mp h
      exact Option.some.inj h ▸ .setLoggerFormatter hf.1 hf.2
  | setLoggerPattern p pattern =>
      obtain ⟨hp, h⟩ := Option.ite_none_right_eq_some.mp h
      exact Option.some.inj h ▸ .setLoggerPattern hp pattern
  | newLogEvent p level filename line threadID fiberID elapse time =>
      obtain ⟨hp, h⟩ := Option.ite_none_right_eq_some.mp h
      exact Option.some.inj h ▸ .newLogEvent hp level filename line _ _ _ _
  | write e text =>
      obtain ⟨he, h⟩ := Option.ite_none_right_eq_some.mp h
      exact Option.some.inj h ▸ .write he text
  | log p level e =>
      obtain ⟨he, h⟩ := Option.ite_none_right_eq_some.mp h
      exact Option.some.inj h ▸ .log he.1 he.2 level

theorem LogStep.wf {w w' : LogSystem} {op : LogOp} (h : w.WF) (hs : LogStep w op w') : w'.WF := by
  obtain ⟨env, hs⟩ := hs
  cases LogOp.applied hs with
  | newLogFormatter pattern => exact h.newLogFormatter pattern
  | setPattern _ pattern => exact h.setPattern _ pattern
  | newStdoutLogAppender => exact h.newAppender .stdout
  | newFileLogAppender _ => exact h.newAppender _
  | setAppenderFormatter _ hf => exact h.setAppenderFormatter _ hf
  | setAppenderPattern _ pattern => exact h.setAppenderPattern _ pattern
  | newLogger name => exact h.newLogger name
  | setLevel _ level => exact h.setLevel _ level
  | addAppender _ ha => exact h.addAppender _ ha
  | delAppender _ a => exact h.delAppender _ a
  | clearAppender _ => exact h.clearAppender _
  | setLoggerFormatter _ hf => exact h.setLoggerFormatter _ hf
  | setLoggerPattern _ pattern => exact h.setLoggerPattern _ pattern
  | newLogEvent _ level filename line => exact h.newLogEvent _ level filename line _ _ _ _
  | write _ text => exact h.write _ text
  | log _ _ level => exact h.log env _ level _
  | getLogger name => exact h.getLogger name

/-- **The invariant of all reachable states.** -/
theorem LogSystem.Reachable.wf {w : LogSystem} (h : w.Reachable) : w.WF := by
  obtain ⟨tr, hr⟩ := h
  exact hr.invariant LogSystem.wf_init fun _ _ _ hw hs => hs.wf hw

/-! ### Formatters -/

/-- What a step does to the formatters: nothing, a new one, or a new pattern for an old
one. -/
theorem LogStep.formatters_cases {w w' : LogSystem} {op : LogOp} (hs : LogStep w op w') :
    w'.formatters = w.formatters ∨
      (∃ pattern, w'.formatters = w.formatters.alloc (LogFormatter.new pattern)) ∨
      ∃ f pattern, op = .setPattern f pattern ∧
        w'.formatters = w.formatters.modify f fun x => x.setPattern pattern := by
  obtain ⟨env, hs⟩ := hs
  cases LogOp.applied hs with
  | newLogFormatter pattern => exact Or.inr (Or.inl ⟨pattern, rfl⟩)
  | @setPattern f _ pattern => exact Or.inr (Or.inr ⟨f, pattern, rfl, rfl⟩)
  | newStdoutLogAppender => exact Or.inl rfl
  | newFileLogAppender _ => exact Or.inl rfl
  | setAppenderFormatter _ _ => exact Or.inl rfl
  | setAppenderPattern _ pattern =>
      unfold LogSystem.setAppenderPattern
      split
      · exact Or.inl rfl
      · exact Or.inr (Or.inl ⟨pattern, rfl⟩)
  | newLogger name => exact Or.inr (Or.inl ⟨"", rfl⟩)
  | setLevel _ level => exact Or.inl rfl
  | addAppender _ _ =>
      unfold LogSystem.addAppender
      split
      · exact Or.inl rfl
      · exact Or.inl rfl
  | delAppender _ a => exact Or.inl rfl
  | clearAppender _ => exact Or.inl rfl
  | setLoggerFormatter _ _ => exact Or.inl rfl
  | setLoggerPattern _ pattern =>
      unfold LogSystem.setLoggerPattern
      split
      · exact Or.inl rfl
      · exact Or.inr (Or.inl ⟨pattern, rfl⟩)
  | newLogEvent _ level filename line => exact Or.inl rfl
  | write _ text => exact Or.inl rfl
  | log _ _ level =>
      unfold LogSystem.log
      split
      · exact Or.inl rfl
      · exact Or.inl rfl
  | getLogger name =>
      unfold LogSystem.getLogger
      split
      · exact Or.inl rfl
      · exact Or.inr (Or.inl ⟨"", rfl⟩)

namespace LogSystem

/-- Every formatter satisfies `P`. -/
def AllFormatters (P : LogFormatter → Prop) (w : LogSystem) : Prop :=
  ∀ f ∈ w.formatters, P (w.formatter f)

theorem AllFormatters.alloc {P : LogFormatter → Prop} {w w' : LogSystem} (h : w.AllFormatters P)
    {x : LogFormatter} (hx : P x) (hw' : w'.formatters = w.formatters.alloc x) :
    w'.AllFormatters P := by
  intro f hf
  rw [formatter, hw']
  rw [hw'] at hf
  rcases Arena.mem_alloc.mp hf with hf | rfl
  · rw [Arena.get_alloc_of_mem x hf]
    exact h f hf
  · rwa [Arena.get_alloc_self]

/-- A formatter that has reported no error has a pattern that parses. -/
theorem Reachable.parses {w : LogSystem} (h : w.Reachable) :
    w.AllFormatters fun x => x.error = false → parseFails x.pattern = false := by
  have hnew : ∀ pattern : String, (LogFormatter.new pattern).error = false →
      parseFails (LogFormatter.new pattern).pattern = false := by
    intro pattern herr
    simpa only [LogFormatter.new, LogFormatter.parse_error, LogFormatter.parse_pattern,
      Bool.false_or] using herr
  obtain ⟨tr, hr⟩ := h
  refine hr.invariant ?_ fun w op w' hw hs => ?_
  · intro f hf
    obtain rfl : f = ⟨0⟩ := Ptr.ext (Nat.lt_one_iff.mp hf)
    exact hnew ""
  · rcases hs.formatters_cases with heq | ⟨pattern, heq⟩ | ⟨f, pattern, _, heq⟩
    · intro x hx
      rw [formatter, heq]
      exact hw x (heq ▸ hx)
    · exact hw.alloc (hnew pattern) heq
    · intro x hx herr
      have hxw : x ∈ w.formatters := Arena.mem_modify.mp (heq ▸ hx)
      rw [formatter, heq] at herr ⊢
      -- an error once reported stays: without one, the new pattern has parsed as well
      by_cases hxf : x = f
      · rw [hxf] at hxw herr ⊢
        rw [Arena.get_modify_self _ hxw] at herr ⊢
        exact (Bool.or_eq_false_iff.mp herr).2
      · rw [Arena.get_modify_of_ne _ hxf] at herr ⊢
        exact hw x hxw herr

/-! ### Runs that rewrite no formatter -/

/-- `w'` is reached from `w` by operations none of which gives an old formatter a new
pattern. -/
def Steps (w w' : LogSystem) : Prop :=
  ∃ tr, Run LogStep w tr w' ∧ ∀ x ∈ tr, ∀ f pattern, x.label ≠ .setPattern f pattern

/-- The same without operations that install a formatter by its pointer, either: all
formatters come from a pattern, or are taken over in `addAppender`. -/
def PatternSteps (w w' : LogSystem) : Prop :=
  ∃ tr, Run LogStep w tr w' ∧ ∀ x ∈ tr, x.label.ByPattern

theorem PatternSteps.refl (w : LogSystem) : PatternSteps w w :=
  ⟨[], .nil, fun _ hx => absurd hx List.not_mem_nil⟩

theorem PatternSteps.trans {w w' w'' : LogSystem} (h : PatternSteps w w')
    (h' : PatternSteps w' w'') : PatternSteps w w'' := by
  obtain ⟨tr, hr, htr⟩ := h
  obtain ⟨tr', hr', htr'⟩ := h'
  refine ⟨tr ++ tr', hr.append hr', fun x hx => ?_⟩
  rcases List.mem_append.mp hx with hx | hx
  · exact htr x hx
  · exact htr' x hx

theorem PatternSteps.of_step {w w' : LogSystem} (op : LogOp) (h : LogStep w op w')
    (hop : op.ByPattern) : PatternSteps w w' := by
  refine ⟨_, Run.nil.snoc h, fun x hx => ?_⟩
  obtain rfl := List.mem_singleton.mp hx
  exact hop

theorem PatternSteps.steps {w w' : LogSystem} (h : PatternSteps w w') : Steps w w' := by
  obtain ⟨tr, hr, htr⟩ := h
  refine ⟨tr, hr, fun x hx f pattern hlabel => ?_⟩
  have hop := htr x hx
  rw [hlabel] at hop
  exact hop

theorem Steps.wf {w w' : LogSystem} (h : Steps w w') (hw : w.WF) : w'.WF := by
  obtain ⟨tr, hr, _⟩ := h
  exact hr.invariant hw fun _ _ _ hw hs => hs.wf hw

theorem PatternSteps.wf {w w' : LogSystem} (h : PatternSteps w w') (hw : w.WF) : w'.WF :=
  h.steps.wf hw

/-- What holds of every newly made formatter and of all old ones holds of all. -/
theorem Steps.allFormatters {w w' : LogSystem} {P : LogFormatter → Prop} (h : Steps w w')
    (hw : w.AllFormatters P) (hnew : ∀ pattern, P (LogFormatter.new pattern)) :
    w'.AllFormatters P := by
  obtain ⟨tr, hr, htr⟩ := h
  -- `setPattern` is the only step that touches an old formatter
  refine hr.invariant_of (C := fun x => ∀ f pattern, x.label ≠ .setPattern f pattern) hw
    (fun v op v' hv hs hop => ?_) htr
  rcases hs.formatters_cases with heq | ⟨pattern, heq⟩ | ⟨f, pattern, rfl, _⟩
  · intro x hx
    rw [formatter, heq]
    exact hv x (heq ▸ hx)
  · exact hv.alloc (hnew pattern) heq
  · exact absurd rfl (hop f pattern)

end LogSystem

end Sylar
