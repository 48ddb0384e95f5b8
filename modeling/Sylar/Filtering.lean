/-
Sylar/Filtering.lean

Does a logger deliver exactly the events at or above its threshold?

A `Session` is a logger in use: log statements and directly constructed events,
in any order and nested in any way.  A `SYLAR_LOG_*` statement takes three
steps, between which anything else may happen: the test of the level in the
macro, the construction of the event, and the destruction of its wrap, which
hands it to `Logger::log`.  A direct event takes the last two.

The answer is that the threshold is the first thing to go: the constructor of
`LogEvent` overwrites it.  A session filters by its threshold if and only if
every event it creates has exactly that level (`filters_iff`).
-/
import Sylar.Reach

namespace Sylar

open Transition

/-! ### Sessions -/

/-- A logger in use. -/
structure Session where
  world : LogSystem
  /-- Statements let through by the macro's test whose event is yet to be created. -/
  passed : List LogLevel
  /-- Events that exist and have not been handed to `Logger::log`. -/
  live : List (Ptr LogEvent)
  /-- Events that have been. -/
  done : List (Ptr LogEvent)

/-- What can happen next on the logger. -/
inductive Action
  /-- The `if` of a log macro. -/
  | test (level : LogLevel)
  /-- The `new LogEvent` of a log macro. -/
  | create (level : LogLevel) (filename : String) (line : Int)
  /-- A `new LogEvent` written by hand. -/
  | construct (level : LogLevel) (filename : String) (line : Int)
      (threadID fiberID elapse time : UInt32)
  /-- Content streamed or formatted into an event. -/
  | write (e : Ptr LogEvent) (text : String)
  /-- The destructor of `LogEventWrap`, or `logger->log(event->getLevel(), event)`. -/
  | flush (e : Ptr LogEvent)

/-- The level of the event an action creates. -/
def Action.creates : Action → Option LogLevel
  | create level _ _ => some level
  | construct level _ _ _ _ _ _ => some level
  | _ => none

namespace Session

/-- Nothing has been logged yet. -/
def start (w : LogSystem) : Session := ⟨w, [], [], []⟩

/-- An event `e` has just been created, leaving the module in state `w`. -/
def born (s : Session) (w : LogSystem) : Session :=
  { s with world := w, live := s.world.events.fresh :: s.live }

/-- One action on the logger `p`. -/
def act (env : Env) (p : Ptr Logger) (s : Session) : Action → Option Session
  | .test level =>
      some (if s.world.getLevel p ≤ level then { s with passed := level :: s.passed } else s)
  | .create level filename line =>
      -- only for a statement whose test has let it through
      if level ∈ s.passed then
        some (born { s with passed := s.passed.erase level }
          (s.world.newLogEvent p level filename line 0 (UInt32.ofInt env.threadID)
            LogSystem.getFiberID env.now))
      else none
  | .construct level filename line threadID fiberID elapse time =>
      some (s.born (s.world.newLogEvent p level filename line threadID fiberID elapse time))
  | .write e text => if e ∈ s.live then some { s with world := s.world.write e text } else none
  | .flush e =>
      if e ∈ s.live then
        some { s with world := s.world.flush env e, live := s.live.erase e, done := e :: s.done }
      else none

/-- One action, in whatever environment. -/
def Step (p : Ptr Logger) (s : Session) (a : Action) (s' : Session) : Prop :=
  ∃ env, act env p s a = some s'

/-- How often `e` has been handed to `a`. -/
def deliveries (rs : List Record) (e : Ptr LogEvent) (a : Ptr LogAppender) : Nat :=
  rs.countP fun r => r.event = e ∧ r.appender = a

/-- What the threshold `L` promises in a state of a session on `p` that began in
`w`: the threshold still stands, and the events at or above it, and no others,
have been delivered, once per attached appender. -/
structure Filters (w : LogSystem) (p : Ptr Logger) (L : LogLevel) (s : Session) : Prop where
  level : s.world.getLevel p = L
  delivered : ∀ e ∈ s.live ++ s.done, ∀ a,
    deliveries (s.world.records.drop w.records.length) e a =
      if e ∈ s.done ∧ L ≤ (s.world.event e).level then (w.logger p).appenders.count a else 0

/-- What it promises of a step: the macro's test lets through exactly the levels at
or above it. -/
def TestsBy (L : LogLevel) (x : Taken Session Action) : Prop :=
  ∀ level, x.label = .test level →
    x.target.passed = if L ≤ level then level :: x.source.passed else x.source.passed

/-! ### Counting deliveries -/

theorem deliveries_append (rs rs' : List Record) (e : Ptr LogEvent) (a : Ptr LogAppender) :
    deliveries (rs ++ rs') e a = deliveries rs e a + deliveries rs' e a :=
  List.countP_append

/-- One call of `Logger::log` hands its event to each attached appender, as often
as it is attached, and hands over nothing else. -/
theorem deliveries_map_record (w : LogSystem) (env : Env) (p : Ptr Logger)
    (e e' : Ptr LogEvent) (as : List (Ptr LogAppender)) (a : Ptr LogAppender) :
    deliveries (as.map (w.record env p e')) e a = if e' = e then as.count a else 0 := by
  unfold deliveries
  rw [List.countP_map]
  split_ifs with h
  · subst h
    rw [List.count]
    apply List.countP_congr
    intro b _
    simp only [Function.comp_apply, LogSystem.record, true_and, beq_iff_eq, decide_eq_true_eq]
  · rw [List.countP_eq_zero]
    intro b _
    simp [LogSystem.record, h]

/-! ### The invariant of a session all of whose events have the threshold's level -/

/-- Everything the steps of such a session preserve. -/
structure Steady (w : LogSystem) (p : Ptr Logger) (L : LogLevel) (s : Session) : Prop where
  mem : p ∈ s.world.loggers
  level : s.world.getLevel p = L
  appenders : (s.world.logger p).appenders = (w.logger p).appenders
  nodup : (s.live ++ s.done).Nodup
  event_mem : ∀ e ∈ s.live ++ s.done, e ∈ s.world.events
  event_level : ∀ e ∈ s.live ++ s.done, (s.world.event e).logger = p ∧ (s.world.event e).level = L
  records : ∃ new, s.world.records = w.records ++ new ∧
    (∀ e a, deliveries new e a = if e ∈ s.done then (w.logger p).appenders.count a else 0)

variable {w : LogSystem} {p : Ptr Logger} {L : LogLevel} {s s' : Session}

theorem steady_start (hp : p ∈ w.loggers) (hL : w.getLevel p = L) :
    Steady w p L (start w) where
  mem := hp
  level := hL
  appenders := rfl
  nodup := List.nodup_nil
  event_mem := nofun
  event_level := nofun
  records := ⟨[], by simp [start], by simp [start, deliveries]⟩

theorem Steady.filters (h : Steady w p L s) : Filters w p L s where
  level := h.level
  delivered := by
    intro e he a
    obtain ⟨new, hnew, hcount⟩ := h.records
    rw [hnew, List.drop_left, hcount, (h.event_level e he).2]
    simp

/-- Creating an event of the threshold's level disturbs nothing. -/
theorem Steady.born (h : Steady w p L s) (filename : String) (line : Int)
    (threadID fiberID elapse time : UInt32) (passed : List LogLevel) :
    Steady w p L (Session.born { s with passed := passed }
      (s.world.newLogEvent p L filename line threadID fiberID elapse time)) := by
  have hfresh : s.world.events.fresh ∉ s.live ++ s.done := fun hm =>
    Arena.fresh_notMem _ (h.event_mem _ hm)
  refine ⟨Arena.mem_modify.mpr h.mem, LogSystem.getLevel_newLogEvent h.mem .., ?_, ?_, ?_, ?_,
    h.records⟩
  · exact (LogSystem.appenders_setLevel p p L).trans h.appenders
  · exact List.nodup_cons.mpr ⟨hfresh, h.nodup⟩
  · intro e he
    rcases List.mem_cons.mp he with rfl | he
    · exact Arena.fresh_mem_alloc _ _
    · exact Arena.mem_alloc_of_mem _ (h.event_mem e he)
  · intro e he
    rcases List.mem_cons.mp he with rfl | he
    · rw [Session.born, LogSystem.event_newLogEvent_fresh]
      exact ⟨rfl, rfl⟩
    · rw [Session.born, LogSystem.event_newLogEvent_of_mem (h.event_mem e he)]
      exact h.event_level e he

theorem Steady.write (h : Steady w p L s) (e : Ptr LogEvent) (text : String) :
    Steady w p L { s with world := s.world.write e text } where
  mem := h.mem
  level := h.level
  appenders := h.appenders
  nodup := h.nodup
  event_mem := fun e' he' => Arena.mem_modify.mpr (h.event_mem e' he')
  event_level := by
    intro e' he'
    obtain ⟨hl, hv⟩ := h.event_level e' he'
    exact ⟨(LogSystem.event_write_logger s.world e e' text).trans hl,
      (LogSystem.event_write_level s.world e e' text).trans hv⟩
  records := h.records

/-- An event of the threshold's level is let through by `Logger::log`. -/
theorem Steady.flush (h : Steady w p L s) (env : Env) {e : Ptr LogEvent} (he : e ∈ s.live) :
    Steady w p L
      { s with world := s.world.flush env e, live := s.live.erase e, done := e :: s.done } := by
  have hmem : e ∈ s.live ++ s.done := List.mem_append_left _ he
  obtain ⟨hl, hv⟩ := h.event_level e hmem
  have hworld : s.world.flush env e = { s.world with
      records := s.world.records ++ (s.world.logger p).appenders.map (s.world.record env p e) } := by
    rw [LogSystem.flush, hl, hv, LogSystem.log, if_pos h.level.le]
  have hnd : e ∉ s.done := fun hd => (List.disjoint_of_nodup_append h.nodup) he hd
  -- the event moves from `live` to `done`
  have hperm : (s.live.erase e ++ e :: s.done).Perm (s.live ++ s.done) :=
    List.perm_middle.trans ((List.perm_cons_erase he).symm.append_right s.done)
  rw [hworld]
  refine ⟨h.mem, h.level, h.appenders, hperm.nodup_iff.mpr h.nodup,
    fun e' he' => h.event_mem e' (hperm.mem_iff.mp he'),
    fun e' he' => h.event_level e' (hperm.mem_iff.mp he'), ?_⟩
  obtain ⟨new, hnew, hcount⟩ := h.records
  refine ⟨new ++ (s.world.logger p).appenders.map (s.world.record env p e),
    by rw [hnew, List.append_assoc], ?_⟩
  intro e' a
  rw [deliveries_append, hcount, deliveries_map_record, h.appenders]
  -- before, `e` itself had been handed to nobody
  by_cases hee : e = e'
  · subst hee
    simp [hnd]
  · simp [hee, Ne.symm hee]

/-- **Step lemma**: a step that creates no event of another level keeps a session
steady. -/
theorem Steady.step (h : Steady w p L s) {a : Action} (hs : Step p s a s')
    (hcond : ∀ l, a.creates = some l → l = L) : Steady w p L s' := by
  obtain ⟨env, hs⟩ := hs
  cases a with
  | test level =>
      obtain rfl := Option.some.inj hs
      split
      · exact ⟨h.mem, h.level, h.appenders, h.nodup, h.event_mem, h.event_level, h.records⟩
      · exact h
  | create level filename line =>
      obtain ⟨_, hs⟩ := Option.ite_none_right_eq_some.mp hs
      obtain rfl := Option.some.inj hs
      obtain rfl := hcond level rfl
      exact h.born ..
  | construct level filename line threadID fiberID elapse time =>
      obtain rfl := Option.some.inj hs
      obtain rfl := hcond level rfl
      exact h.born _ _ _ _ _ _ s.passed
  | write e text =>
      obtain ⟨_, hs⟩ := Option.ite_none_right_eq_some.mp hs
      exact Option.some.inj hs ▸ h.write e text
  | flush e =>
      obtain ⟨he, hs⟩ := Option.ite_none_right_eq_some.mp hs
      exact Option.some.inj hs ▸ h.flush env he

/-- The macro's test is right as long as the logger's level is the threshold. -/
theorem testsBy_of_level (hL : s.world.getLevel p = L) {a : Action} (hs : Step p s a s') :
    TestsBy L ⟨s, a, s'⟩ := by
  rintro level rfl
  obtain ⟨env, hs⟩ := hs
  obtain rfl := Option.some.inj hs
  rw [hL]
  split_ifs <;> rfl

/-- The logger does not disappear. -/
theorem mem_loggers_step {a : Action} (hp : p ∈ s.world.loggers) (hs : Step p s a s') :
    p ∈ s'.world.loggers := by
  obtain ⟨env, hs⟩ := hs
  cases a with
  | test level =>
      obtain rfl := Option.some.inj hs
      split
      · exact hp
      · exact hp
  | create level filename line =>
      obtain ⟨_, hs⟩ := Option.ite_none_right_eq_some.mp hs
      obtain rfl := Option.some.inj hs
      exact LogSystem.mem_loggers_newLogEvent.mpr hp
  | construct level filename line threadID fiberID elapse time =>
      obtain rfl := Option.some.inj hs
      exact LogSystem.mem_loggers_newLogEvent.mpr hp
  | write e text =>
      obtain ⟨_, hs⟩ := Option.ite_none_right_eq_some.mp hs
      exact Option.some.inj hs ▸ hp
  | flush e =>
      obtain ⟨_, hs⟩ := Option.ite_none_right_eq_some.mp hs
      obtain rfl := Option.some.inj hs
      rw [LogSystem.flush, LogSystem.loggers_log]
      exact hp

/-- Whatever creates an event leaves the logger at the level of that event. -/
theorem getLevel_of_creates {a : Action} {level : LogLevel} (hp : p ∈ s.world.loggers)
    (hs : Step p s a s') (ha : a.creates = some level) : s'.world.getLevel p = level := by
  obtain ⟨env, hs⟩ := hs
  cases a with
  | test _ => cases ha
  | create level' filename line =>
      obtain rfl := Option.some.inj ha
      obtain ⟨_, hs⟩ := Option.ite_none_right_eq_some.mp hs
      obtain rfl := Option.some.inj hs
      exact LogSystem.getLevel_newLogEvent hp ..
  | construct level' filename line threadID fiberID elapse time =>
      obtain rfl := Option.some.inj ha
      obtain rfl := Option.some.inj hs
      exact LogSystem.getLevel_newLogEvent hp ..
  | write e text => cases ha
  | flush e => cases ha

/-! ### The main result -/

/-- **A run filters by its threshold exactly when no event of another level is
created in it.**  The logger stands at `L` when the run begins, and nobody calls
`setLevel` afterwards. -/
theorem filters_iff {tr : List (Taken Session Action)} (hp : p ∈ w.loggers)
    (hL : w.getLevel p = L) (hrun : Run (Step p) (start w) tr s) :
    (∀ x ∈ tr, Filters w p L x.target ∧ TestsBy L x) ↔
      ∀ x ∈ tr, ∀ level, x.label.creates = some level → level = L := by
  constructor
  · -- an event of level `level` leaves the logger there, and it should be at `L`
    intro hall x hx level hlevel
    obtain ⟨⟨tr', _, hr⟩, hs⟩ := hrun.mem hx
    have hmem : p ∈ x.source.world.loggers :=
      hr.invariant (I := fun s => p ∈ s.world.loggers) hp fun _ _ _ => mem_loggers_step
    exact (getLevel_of_creates hmem hs hlevel).symm.trans (hall x hx).1.level
  · -- up to `x` the session has been steady, and `x` keeps it so
    intro hcond x hx
    obtain ⟨⟨tr', hpre, hr⟩, hs⟩ := hrun.mem hx
    have hsource : Steady w p L x.source :=
      hr.invariant_of (C := fun y => ∀ l, y.label.creates = some l → l = L)
        (steady_start hp hL) (fun _ _ _ ht hst hC => ht.step hst hC)
        fun y hy => hcond y (hpre.subset hy)
    exact ⟨(hsource.step hs (hcond x hx)).filters, testsBy_of_level hsource.level hs⟩

/-- The root logger stands at `ALL`; an `ALL` event is created by hand, written to and flushed, and
the root's appender prints it. -/
theorem filters_iff_all_event :
    let root := LogSystem.init.root
    let e := LogSystem.init.events.fresh
    ∃ tr s, Run (Step root) (start LogSystem.init) tr s ∧
      tr.map Taken.label =
        [.construct .all "main.cpp" 1 0 0 0 0, .write e "starting", .flush e] ∧
      deliveries s.world.records e ⟨0⟩ = 1 ∧
      ((∀ x ∈ tr, Filters LogSystem.init root .all x.target ∧ TestsBy .all x) ↔
        ∀ x ∈ tr, ∀ level, x.label.creates = some level → level = LogLevel.all) := by
  intro root e
  have hrun : Run (Step root) (start LogSystem.init) _ _ :=
    ((Run.nil.snoc (a := .construct .all "main.cpp" 1 0 0 0 0) ⟨Env.sample [], rfl⟩).snoc
      (a := .write e "starting") ⟨Env.sample [], rfl⟩).snoc (a := .flush e) ⟨Env.sample [], rfl⟩
  exact ⟨_, _, hrun, rfl, rfl, filters_iff (by decide) rfl hrun⟩

/-- A root logger at `ALL` on which an `ERROR` event is created stands at `ERROR`, and
the next `DEBUG` statement is not let through. -/
theorem threshold_lost :
    let e := (start LogSystem.init).born
      (LogSystem.init.newLogEvent LogSystem.init.root .error "main.cpp" 1 0 0 0 0)
    let tr := [⟨start LogSystem.init, .construct .error "main.cpp" 1 0 0 0 0, e⟩,
      ⟨e, .test .debug, e⟩]
    LogSystem.init.getLevel LogSystem.init.root = .all ∧
      Run (Step LogSystem.init.root) (start LogSystem.init) tr e ∧
      ¬ Filters LogSystem.init LogSystem.init.root .all e ∧ ¬ TestsBy .all ⟨e, .test .debug, e⟩ := by
  refine ⟨rfl, (Run.nil.snoc ⟨Env.sample [], rfl⟩).snoc ⟨Env.sample [], rfl⟩, ?_, ?_⟩
  · intro h
    exact absurd h.level (by decide)
  · intro h
    exact absurd (h .debug rfl) (by decide)

end Session

end Sylar
