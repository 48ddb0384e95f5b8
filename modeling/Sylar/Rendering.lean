/-
Sylar/Rendering.lean

What a rendered record depends on.

Between the creation of an event and its rendering other events may be created
on the same logger, its level may be set, and the rendering itself may happen
in any thread.  A formatter is *settled* on an event when none of that shows in
the text.  Of the format items, `%p` reads the logger's level and `%t` the
running thread instead of the event's own fields, and a `%d` whose expansion
does not fit the 64-byte buffer prints whatever the stack held; the formatters
without such items are exactly the settled ones (`settled_iff`).

Two texts are told apart by their lengths: each of the three disturbances can be
chosen so that no item gets shorter and the item that reads it gets longer
(`format_ne_of_longer`).
-/
import Mathlib.Algebra.Order.BigOperators.Group.List
import Sylar.World

namespace Sylar

/-! ### Disturbances -/

/-- What may happen on a logger between the creation of an event and its
rendering. -/
inductive Disturbance
  | setLevel (level : LogLevel)
  | newLogEvent (level : LogLevel) (filename : String) (line : Int)
      (threadID fiberID elapse time : UInt32)
  deriving DecidableEq

namespace Disturbance

/-- The disturbance happens on the logger `p`. -/
def apply (p : Ptr Logger) (w : LogSystem) : Disturbance → LogSystem
  | setLevel level => w.setLevel p level
  | newLogEvent level filename line threadID fiberID elapse time =>
      w.newLogEvent p level filename line threadID fiberID elapse time

/-- Events that exist already are left alone. -/
theorem apply_event {w : LogSystem} {e : Ptr LogEvent} (he : e ∈ w.events) (p : Ptr Logger)
    (d : Disturbance) : (d.apply p w).event e = w.event e ∧ e ∈ (d.apply p w).events := by
  cases d with
  | setLevel level => exact ⟨rfl, he⟩
  | newLogEvent level filename line threadID fiberID elapse time =>
      exact ⟨LogSystem.event_newLogEvent_of_mem he, Arena.mem_alloc_of_mem _ he⟩

theorem foldl_apply_event {w : LogSystem} {e : Ptr LogEvent} (he : e ∈ w.events) (p : Ptr Logger)
    (ds : List Disturbance) : (ds.foldl (apply p) w).event e = w.event e := by
  induction ds generalizing w with
  | nil => rfl
  | cons d ds ih =>
      obtain ⟨heq, hmem⟩ := apply_event he p d
      rw [List.foldl_cons, ih hmem, heq]

end Disturbance

/-- The same surroundings, seen from another thread with another stack. -/
def Env.elsewhere (env : Env) (threadID : Int) (stackBuf : String) : Env :=
  { env with threadID := threadID, stackBuf := stackBuf }

/-- `formatter->format(event->getLogger(), event)`, in some thread, after the
disturbances `ds`. -/
def LogSystem.formatAfter (w : LogSystem) (env : Env) (f : LogFormatter) (e : Ptr LogEvent)
    (ds : List Disturbance) : String :=
  let p := (w.event e).logger
  let w := ds.foldl (Disturbance.apply p) w
  f.format env (w.getLevel p) (w.event e)

/-- The text depends on the formatter and the event only; in particular `%p` prints the
event's level and `%t` the event's thread. -/
structure Settled (w : LogSystem) (env : Env) (f : LogFormatter) (e : Ptr LogEvent) : Prop where
  same : ∀ (ds ds' : List Disturbance) (threadID threadID' : Int) (stackBuf stackBuf' : String),
    w.formatAfter (env.elsewhere threadID stackBuf) f e ds =
      w.formatAfter (env.elsewhere threadID' stackBuf') f e ds'
  level : .level ∈ f.items → ∀ (ds : List Disturbance) (threadID : Int) (stackBuf : String),
    w.formatAfter (env.elsewhere threadID stackBuf) { f with items := [.level] } e ds =
      (w.event e).level.toString
  threadID : .threadID ∈ f.items →
    ∀ (ds : List Disturbance) (threadID : Int) (stackBuf : String),
      w.formatAfter (env.elsewhere threadID stackBuf) { f with items := [.threadID] } e ds =
        toString (w.event e).threadID.toNat

/-- No item looks beyond the event: there is no `%p`, no `%t`, and every `%d` expands
to less than the 64 bytes there is room for. -/
structure LogFormatter.OwnData (f : LogFormatter) (env : Env) (event : LogEvent) : Prop where
  level : .level ∉ f.items
  threadID : .threadID ∉ f.items
  dateTime : ∀ format, .dateTime format ∈ f.items →
    (env.strftime format event.time).length < 64

/-! ### Formatters that look at the event only -/

theorem FormatItem.format_dateTime_short (env : Env) {level : LogLevel} {event : LogEvent}
    {format : String} (h : (env.strftime format event.time).length < 64) :
    (dateTime format).format env level event = env.strftime format event.time :=
  if_pos h

theorem FormatItem.format_dateTime_long (env : Env) {level : LogLevel} {event : LogEvent}
    {format : String} (h : ¬ (env.strftime format event.time).length < 64) :
    (dateTime format).format env level event = env.stackBuf :=
  if_neg h

theorem FormatItem.format_eq {env : Env} {i : FormatItem} {event : LogEvent}
    (hlevel : i ≠ .level) (hthread : i ≠ .threadID)
    (hdate : ∀ format, i = .dateTime format → (env.strftime format event.time).length < 64)
    (level level' : LogLevel) (threadID threadID' : Int) (stackBuf stackBuf' : String) :
    i.format (env.elsewhere threadID stackBuf) level event =
      i.format (env.elsewhere threadID' stackBuf') level' event := by
  cases i with
  | level => exact absurd rfl hlevel
  | threadID => exact absurd rfl hthread
  | dateTime format =>
      have h := hdate format rfl
      rw [format_dateTime_short (env.elsewhere threadID stackBuf) h,
        format_dateTime_short (env.elsewhere threadID' stackBuf') h]
      rfl
  | _ => rfl

theorem LogFormatter.OwnData.format_eq {env : Env} {f : LogFormatter} {event : LogEvent}
    (h : f.OwnData env event) (level level' : LogLevel) (threadID threadID' : Int)
    (stackBuf stackBuf' : String) :
    f.format (env.elsewhere threadID stackBuf) level event =
      f.format (env.elsewhere threadID' stackBuf') level' event := by
  unfold LogFormatter.format
  refine congrArg String.join (List.map_congr_left fun i hi => ?_)
  refine FormatItem.format_eq ?_ ?_ ?_ level level' threadID threadID' stackBuf stackBuf'
  · rintro rfl
    exact h.level hi
  · rintro rfl
    exact h.threadID hi
  · rintro format rfl
    exact h.dateTime format hi

/-! ### Telling two texts apart -/

/-- If one surrounding makes no item shorter and some item longer, the texts
differ. -/
theorem LogFormatter.format_ne_of_longer {env env' : Env} {f : LogFormatter}
    {level level' : LogLevel} {event : LogEvent}
    (hle : ∀ i : FormatItem,
      (i.format env level event).length ≤ (i.format env' level' event).length)
    (hlt : ∃ i ∈ f.items,
      (i.format env level event).length < (i.format env' level' event).length) :
    f.format env level event ≠ f.format env' level' event := by
  intro heq
  have hlen := congrArg String.length heq
  simp only [LogFormatter.format, String.length_join, List.map_map] at hlen
  -- the lengths of the items add up, to less on the left
  exact absurd hlen (List.sum_lt_sum _ _ (fun i _ => hle i) hlt).ne

/-- A `DEBUG` logger instead of an `ALL` one. -/
theorem format_ne_of_level {env : Env} {f : LogFormatter} {event : LogEvent}
    (h : .level ∈ f.items) : f.format env .all event ≠ f.format env .debug event := by
  refine LogFormatter.format_ne_of_longer ?_ ⟨.level, h, ?_⟩
  · intro i
    cases i with
    | level => simp only [FormatItem.format]; decide
    | _ => exact le_rfl
  · simp only [FormatItem.format]
    decide

/-- Thread 10 instead of thread 1. -/
theorem format_ne_of_threadID {env : Env} {f : LogFormatter} {level : LogLevel} {event : LogEvent}
    (h : .threadID ∈ f.items) :
    f.format (env.elsewhere 1 "") level event ≠ f.format (env.elsewhere 10 "") level event := by
  have hlt : (toString (1 : Int)).length < (toString (10 : Int)).length := by decide
  refine LogFormatter.format_ne_of_longer ?_ ⟨.threadID, h, hlt⟩
  intro i
  cases i with
  | threadID => exact hlt.le
  | _ => exact le_rfl

/-- A byte on the stack instead of none. -/
theorem format_ne_of_dateTime {env : Env} {f : LogFormatter} {level : LogLevel} {event : LogEvent}
    {format : String} (h : .dateTime format ∈ f.items)
    (hlong : ¬ (env.strftime format event.time).length < 64) :
    f.format (env.elsewhere 1 "") level event ≠ f.format (env.elsewhere 1 "x") level event := by
  have hlt : ("" : String).length < ("x" : String).length := by decide
  have hbuf : ∀ {format'}, ¬ (env.strftime format' event.time).length < 64 →
      ((FormatItem.dateTime format').format (env.elsewhere 1 "") level event).length <
        ((FormatItem.dateTime format').format (env.elsewhere 1 "x") level event).length := by
    intro format' hl
    rw [FormatItem.format_dateTime_long (env.elsewhere 1 "") hl,
      FormatItem.format_dateTime_long (env.elsewhere 1 "x") hl]
    exact hlt
  refine LogFormatter.format_ne_of_longer ?_ ⟨.dateTime format, h, hbuf hlong⟩
  intro i
  cases i with
  | dateTime format' =>
      by_cases hl : (env.strftime format' event.time).length < 64
      · rw [FormatItem.format_dateTime_short (env.elsewhere 1 "") hl,
          FormatItem.format_dateTime_short (env.elsewhere 1 "x") hl]
        exact le_rfl
      · exact (hbuf hl).le
  | _ => exact le_rfl

/-! ### The main result -/

variable {w : LogSystem} {env : Env} {f : LogFormatter} {e : Ptr LogEvent}

theorem formatAfter_eq (he : e ∈ w.events) (ds : List Disturbance) :
    w.formatAfter env f e ds =
      f.format env ((ds.foldl (Disturbance.apply (w.event e).logger) w).getLevel
        (w.event e).logger) (w.event e) := by
  simp only [LogSystem.formatAfter, Disturbance.foldl_apply_event he]

theorem formatAfter_setLevel (he : e ∈ w.events) (hp : (w.event e).logger ∈ w.loggers)
    (level : LogLevel) :
    w.formatAfter env f e [.setLevel level] = f.format env level (w.event e) := by
  rw [formatAfter_eq he]
  exact congrArg (f.format env · (w.event e)) (LogSystem.getLevel_setLevel hp level)

/-- **The text of a record depends on formatter and event alone exactly when no item
reads the logger, the thread or an overflowed buffer.** -/
theorem settled_iff (he : e ∈ w.events) (hp : (w.event e).logger ∈ w.loggers) :
    Settled w env f e ↔ f.OwnData env (w.event e) := by
  constructor
  · intro h
    -- an item that looks elsewhere shows up under the disturbance made for it
    refine ⟨?_, ?_, ?_⟩
    · intro hi
      have heq := h.same [.setLevel .all] [.setLevel .debug] 1 1 "" ""
      rw [formatAfter_setLevel he hp, formatAfter_setLevel he hp] at heq
      exact format_ne_of_level hi heq
    · intro hi
      have heq := h.same [] [] 1 10 "" ""
      rw [formatAfter_eq he, formatAfter_eq he] at heq
      exact format_ne_of_threadID hi heq
    · intro format hi
      by_contra hlong
      have heq := h.same [] [] 1 1 "" "x"
      rw [formatAfter_eq he, formatAfter_eq he] at heq
      exact format_ne_of_dateTime hi hlong heq
  · intro h
    refine ⟨?_, fun hi => absurd hi h.level, fun hi => absurd hi h.threadID⟩
    intro ds ds' threadID threadID' stackBuf stackBuf'
    rw [formatAfter_eq he, formatAfter_eq he]
    exact h.format_eq _ _ _ _ _ _

/-- The pattern `%m at %f:%l`, and an `INFO` event of the root logger. -/
theorem settled_iff_message :
    let w := LogSystem.init.newLogEvent LogSystem.init.root .info "main.cpp" 3 7 0 0 0
    Settled w (Env.sample []) (LogFormatter.new "%m at %f:%l") ⟨0⟩ ↔
      (LogFormatter.new "%m at %f:%l").OwnData (Env.sample []) (w.event ⟨0⟩) :=
  settled_iff (by decide) (by decide)

/-- The error-free pattern `%p %t`, and an `INFO` event made by thread 7: the text
changes with the level the logger is set to and with the thread that renders it, and
is right about neither. -/
theorem rendering_disturbed :
    let w := LogSystem.init.newLogEvent LogSystem.init.root .info "main.cpp" 3 7 0 0 0
    let f := LogFormatter.new "%p %t"
    let env := Env.sample []
    f.error = false ∧
      w.formatAfter (env.elsewhere 8 "") f ⟨0⟩ [] = "INFO 8" ∧
      w.formatAfter (env.elsewhere 9 "") f ⟨0⟩ [.setLevel .debug] = "DEBUG 9" ∧
      ¬ Settled w env f ⟨0⟩ := by
  intro w f env
  have h : w.formatAfter (env.elsewhere 8 "") f ⟨0⟩ [] = "INFO 8" := by decide
  have h' : w.formatAfter (env.elsewhere 9 "") f ⟨0⟩ [.setLevel .debug] = "DEBUG 9" := by decide
  refine ⟨by decide, h, h', fun hs => ?_⟩
  have heq := hs.same [] [.setLevel .debug] 8 9 "" ""
  rw [h, h'] at heq
  exact absurd heq (by decide)

end Sylar
