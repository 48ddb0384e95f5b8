/-
Sylar/Frame.lean

What an operation leaves alone.

`Touches p w w'` says that between `w` and `w'` at most the logger `p` has been
written to: appenders and formatters may have been created, none that existed
has changed, and neither has any other logger or the manager's map.

`SameAt n w w'` is the observer's side of it: whoever holds the logger stored
under the name `n` sees no difference, neither in the logger nor in the
appenders and formatters it leads to.  In a well-formed state an operation that
touches another logger is not seen at `n` (`Touches.sameAt`).
-/
import Sylar.Reach

namespace Sylar

namespace LogSystem

/-! ### One logger at most -/

/-- At most the logger `p` differs. -/
structure Touches (p : Ptr Logger) (w w' : LogSystem) : Prop where
  appenders : w.appenders.Grows w'.appenders
  formatters : w.formatters.Grows w'.formatters
  mem_loggers : ∀ q, q ∈ w'.loggers ↔ q ∈ w.loggers
  logger : ∀ q, q ≠ p → w'.logger q = w.logger q
  loggerMap : w'.loggerMap = w.loggerMap
  root : w'.root = w.root

variable {p : Ptr Logger} {w w' w'' : LogSystem}

theorem Touches.refl (p : Ptr Logger) (w : LogSystem) : Touches p w w :=
  ⟨Arena.Grows.refl _, Arena.Grows.refl _, fun _ => Iff.rfl, fun _ _ => rfl, rfl, rfl⟩

theorem Touches.trans (h : Touches p w w') (h' : Touches p w' w'') : Touches p w w'' where
  appenders := h.appenders.trans h'.appenders
  formatters := h.formatters.trans h'.formatters
  mem_loggers q := (h'.mem_loggers q).trans (h.mem_loggers q)
  logger q hq := (h'.logger q hq).trans (h.logger q hq)
  loggerMap := h'.loggerMap.trans h.loggerMap
  root := h'.root.trans h.root

theorem Touches.modifyLogger (p : Ptr Logger) (w : LogSystem) (g : Logger → Logger) :
    Touches p w { w with loggers := w.loggers.modify p g } :=
  ⟨Arena.Grows.refl _, Arena.Grows.refl _, fun _ => Arena.mem_modify,
    fun _ hq => Arena.get_modify_of_ne g hq, rfl, rfl⟩

theorem Touches.setLevel (p : Ptr Logger) (w : LogSystem) (level : LogLevel) :
    Touches p w (w.setLevel p level) :=
  .modifyLogger p w _

theorem Touches.clearAppender (p : Ptr Logger) (w : LogSystem) : Touches p w (w.clearAppender p) :=
  .modifyLogger p w _

theorem Touches.newLogFormatter (p : Ptr Logger) (w : LogSystem) (pattern : String) :
    Touches p w (w.newLogFormatter pattern) :=
  ⟨Arena.Grows.refl _, Arena.grows_alloc _ _, fun _ => Iff.rfl, fun _ _ => rfl, rfl, rfl⟩

theorem Touches.setLoggerPattern (p : Ptr Logger) (w : LogSystem) (pattern : String) :
    Touches p w (w.setLoggerPattern p pattern) := by
  unfold LogSystem.setLoggerPattern
  split
  · exact .refl p w
  · exact (Touches.newLogFormatter p w pattern).trans (.modifyLogger p _ _)

/-- Events and records are seen by nobody here. -/
theorem Touches.setEvents (p : Ptr Logger) (w : LogSystem) (es : Arena LogEvent)
    (rs : List Record) : Touches p w { w with events := es, records := rs } :=
  ⟨Arena.Grows.refl _, Arena.Grows.refl _, fun _ => Iff.rfl, fun _ _ => rfl, rfl, rfl⟩

/-- A log statement writes to its logger's level, and to no other logger. -/
theorem Touches.sylarLog (p : Ptr Logger) (w : LogSystem) (env : Env) (level : LogLevel)
    (filename : String) (line : Int) (text : String) :
    Touches p w (w.sylarLog env p level filename line text) := by
  have hlog : ∀ (v : LogSystem) (q : Ptr Logger) (l : LogLevel) (e : Ptr LogEvent),
      Touches p v (v.log env q l e) := by
    intro v q l e
    unfold LogSystem.log
    split
    · exact .setEvents p v v.events _
    · exact .refl p v
  unfold LogSystem.sylarLog
  split
  · -- the event is allocated, the level set, the text written, the record made
    exact (((Touches.setEvents p w _ w.records).trans (.modifyLogger p _ _)).trans
      (.setEvents p _ _ _)).trans (hlog _ _ _ _)
  · exact .refl p w

/-! ### What is seen under a name -/

/-- The logger stored under `n`, its appenders and its formatters have not changed. -/
structure SameAt (n : String) (w w' : LogSystem) : Prop where
  map : w'.loggerMap.get? n = w.loggerMap.get? n
  logger : ∀ p, w.loggerMap.get? n = some p → w'.logger p = w.logger p
  appender : ∀ p, w.loggerMap.get? n = some p → ∀ a ∈ (w.logger p).appenders,
    w'.appender a = w.appender a ∧
      ∀ f ∈ (w.appender a).formatter, w'.formatter f = w.formatter f
  formatter : ∀ p, w.loggerMap.get? n = some p → ∀ f ∈ (w.logger p).formatter,
    w'.formatter f = w.formatter f

variable {n : String}

theorem SameAt.refl (n : String) (w : LogSystem) : SameAt n w w :=
  ⟨rfl, fun _ _ => rfl, fun _ _ _ _ => ⟨rfl, fun _ _ => rfl⟩, fun _ _ _ _ => rfl⟩

theorem SameAt.trans (h : SameAt n w w') (h' : SameAt n w' w'') : SameAt n w w'' := by
  refine ⟨h'.map.trans h.map, ?_, ?_, ?_⟩
  · intro p hp
    exact (h'.logger p (h.map.trans hp)).trans (h.logger p hp)
  · intro p hp a ha
    obtain ⟨happ, hfmt⟩ := h.appender p hp a ha
    -- the second half speaks of the appenders the logger has in the middle state
    have ha' : a ∈ (w'.logger p).appenders := by rwa [h.logger p hp]
    obtain ⟨happ', hfmt'⟩ := h'.appender p (h.map.trans hp) a ha'
    refine ⟨happ'.trans happ, fun f hf => ?_⟩
    exact (hfmt' f (by rwa [happ])).trans (hfmt f hf)
  · intro p hp f hf
    have hf' : f ∈ (w'.logger p).formatter := by rwa [h.logger p hp]
    exact (h'.formatter p (h.map.trans hp) f hf').trans (h.formatter p hp f hf)

/-- Objects that exist do not change unseen: it is enough to look at the map and at
the logger itself. -/
theorem WF.sameAt (hw : w.WF) (happ : w.appenders.Grows w'.appenders)
    (hfmt : w.formatters.Grows w'.formatters)
    (hmap : w'.loggerMap.get? n = w.loggerMap.get? n)
    (hlogger : ∀ p, w.loggerMap.get? n = some p → w'.logger p = w.logger p) : SameAt n w w' := by
  refine ⟨hmap, hlogger, ?_, ?_⟩
  · intro p _ a ha
    refine ⟨(happ a (hw.appender_mem p a ha)).2, fun f hf => ?_⟩
    exact (hfmt f (hw.appender_formatter_mem a f hf)).2
  · intro p _ f hf
    exact (hfmt f (hw.formatter_mem p f hf)).2

/-- Whoever looks at another name sees nothing of it. -/
theorem Touches.sameAt (h : Touches p w w') (hw : w.WF) (hp : w.loggerMap.get? n ≠ some p) :
    SameAt n w w' := by
  refine hw.sameAt h.appenders h.formatters (by rw [h.loggerMap]) fun q hq => h.logger q ?_
  rintro rfl
  exact hp hq

/-- The root logger is stored under no name. -/
theorem WF.map_ne_some_root (hw : w.WF) (n : String) : w.loggerMap.get? n ≠ some w.root :=
  fun h => hw.map_ne_root h rfl

/-! ### Looking up a logger -/

theorem getLogger_map (w : LogSystem) (n : String) :
    (w.getLogger n).1.loggerMap.get? n = some (w.getLogger n).2 := by
  unfold LogSystem.getLogger
  split
  · assumption
  · exact SortedMap.get?_set_self _ _ _

/-- Looking up a name creates a logger at most under that name. -/
theorem WF.sameAt_getLogger (hw : w.WF) {m : String} (hm : m ≠ n) :
    SameAt m w (w.getLogger n).1 := by
  unfold LogSystem.getLogger
  split
  · exact .refl m w
  · refine hw.sameAt (Arena.Grows.refl _) (Arena.grows_alloc _ _) ?_ ?_
    · exact SortedMap.get?_set_of_ne _ _ hm.symm
    · -- the new logger is at a fresh pointer, and `p` is an old one
      intro p hp
      exact Arena.get_alloc_of_mem _ (hw.map_mem hp)

theorem WF.getLogger_ne (hw : w.WF) {m : String} (hm : m ≠ n) :
    (w.getLogger n).1.loggerMap.get? m ≠ some (w.getLogger n).2 := by
  intro h
  exact hm ((hw.getLogger n).map_injective h (getLogger_map w n))

end LogSystem

end Sylar
