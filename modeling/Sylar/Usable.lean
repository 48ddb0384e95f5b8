/-
Sylar/Usable.lean

Formatters of attached appenders.

`FileLogAppender::log` follows its formatter without a test.  It may, as long as
formatters are installed by pattern or taken over in `addAppender`: a pattern
that does not parse changes nothing, the default pattern parses, so every logger
has a formatter without error to pass on, and an appender without one takes it
when it is added (`attached_usable`).  `Equipped` is the invariant.
-/
import Sylar.Configured

namespace Sylar

open Transition

namespace LogSystem

variable {w w' : LogSystem}

/-! ### The invariant -/

/-- The formatter exists and has parsed its pattern without error. -/
def Sound (w : LogSystem) (f : Ptr LogFormatter) : Prop :=
  f ∈ w.formatters ∧ (w.formatter f).error = false

/-- Formatters are sound; every logger has one, and so has every attached appender. -/
structure Equipped (w : LogSystem) : Prop where
  appender : ∀ a, ∀ f ∈ (w.appender a).formatter, w.Sound f
  logger : ∀ p ∈ w.loggers, ∃ f ∈ (w.logger p).formatter, w.Sound f
  attached : ∀ p, ∀ a ∈ (w.logger p).appenders, ∃ f, f ∈ (w.appender a).formatter

/-- The default pattern parses. -/
theorem error_new_empty : (LogFormatter.new "").error = false := by decide +kernel

/-! ### Elementary changes -/

theorem Equipped.setFormatters (h : w.Equipped) {fs : Arena LogFormatter}
    (hfs : w.formatters.Grows fs) : Equipped { w with formatters := fs } := by
  have hsound : ∀ {f}, w.Sound f → Sound { w with formatters := fs } f := by
    rintro f ⟨hmem, herr⟩
    obtain ⟨hmem', hget⟩ := hfs f hmem
    refine ⟨hmem', ?_⟩
    show (fs.get f).error = false
    rw [hget]
    exact herr
  refine ⟨fun a f hf => hsound (h.appender a f hf), fun p hp => ?_, h.attached⟩
  obtain ⟨f, hf, hs⟩ := h.logger p hp
  exact ⟨f, hf, hsound hs⟩

theorem Equipped.setEvents (h : w.Equipped) (es : Arena LogEvent) (rs : List Record) :
    Equipped { w with events := es, records := rs } :=
  ⟨h.appender, h.logger, h.attached⟩

theorem Equipped.modifyLogger (h : w.Equipped) (p : Ptr Logger) (g : Logger → Logger)
    (hfmt : ∃ f ∈ (g (w.logger p)).formatter, w.Sound f)
    (happ : ∀ a ∈ (g (w.logger p)).appenders, ∃ f, f ∈ (w.appender a).formatter) :
    Equipped { w with loggers := w.loggers.modify p g } := by
  refine ⟨h.appender, fun q hq => ?_, fun q a ha => ?_⟩
  · by_cases hqp : q = p
    · subst hqp
      rw [LogSystem.logger, Arena.get_modify_self g (Arena.mem_modify.mp hq)]
      exact hfmt
    · rw [LogSystem.logger, Arena.get_modify_of_ne g hqp]
      exact h.logger q (Arena.mem_modify.mp hq)
  · by_cases hqp : q = p
    · subst hqp
      by_cases hq : q ∈ w.loggers
      · rw [LogSystem.logger, Arena.get_modify_self g hq] at ha
        exact happ a ha
      · -- nobody's pointer: the default logger has no appenders
        rw [LogSystem.logger, Arena.get_of_notMem fun hm => hq (Arena.mem_modify.mp hm)] at ha
        cases ha
    · rw [LogSystem.logger, Arena.get_modify_of_ne g hqp] at ha
      exact h.attached q a ha

theorem Equipped.allocLogger (h : w.Equipped) {x : Logger} (hfmt : ∃ f ∈ x.formatter, w.Sound f)
    (happ : x.appenders = []) : Equipped { w with loggers := w.loggers.alloc x } := by
  refine ⟨h.appender, fun q hq => ?_, fun q a ha => ?_⟩
  · by_cases hqf : q = w.loggers.fresh
    · rw [LogSystem.logger, hqf, Arena.get_alloc_self]
      exact hfmt
    · rw [LogSystem.logger, Arena.get_alloc_of_ne x hqf]
      exact h.logger q ((Arena.mem_alloc.mp hq).resolve_right hqf)
  · by_cases hqf : q = w.loggers.fresh
    · rw [LogSystem.logger, hqf, Arena.get_alloc_self, happ] at ha
      cases ha
    · rw [LogSystem.logger, Arena.get_alloc_of_ne x hqf] at ha
      exact h.attached q a ha

/-- An appender is given a sound formatter. -/
theorem Equipped.setAppenderFormatter (h : w.Equipped) (a : Ptr LogAppender)
    {f : Ptr LogFormatter} (hf : w.Sound f) : (w.setAppenderFormatter a (some f)).Equipped := by
  -- an appender reads as before, or it is `a` with the formatter `f`
  have hget : ∀ b, ((w.setAppenderFormatter a (some f)).appender b).formatter =
      (w.appender b).formatter ∨
        ((w.setAppenderFormatter a (some f)).appender b).formatter = some f := by
    intro b
    by_cases hba : b = a
    · subst hba
      by_cases hb : b ∈ w.appenders
      · exact Or.inr (congrArg LogAppender.formatter (Arena.get_modify_self _ hb))
      · left
        show ((w.appenders.modify b _).get b).formatter = (w.appenders.get b).formatter
        rw [Arena.get_of_notMem fun hm => hb (Arena.mem_modify.mp hm), Arena.get_of_notMem hb]
    · exact Or.inl (congrArg LogAppender.formatter (Arena.get_modify_of_ne _ hba))
  refine ⟨fun b x hx => ?_, h.logger, fun p b hb => ?_⟩
  · rcases hget b with heq | heq
    · exact h.appender b x (heq ▸ hx)
    · rw [heq] at hx
      obtain rfl := Option.some.inj hx
      exact hf
  · rcases hget b with heq | heq
    · rw [heq]
      exact h.attached p b hb
    · exact ⟨f, heq⟩

/-- A new appender has no formatter. -/
theorem Equipped.allocAppender (h : w.Equipped)
    (hmem : ∀ p, ∀ b ∈ (w.logger p).appenders, b ∈ w.appenders) (kind : AppenderKind) :
    Equipped { w with appenders := w.appenders.alloc ⟨kind, none⟩ } := by
  refine ⟨fun b f hf => ?_, h.logger, fun p b hb => ?_⟩
  · by_cases hbf : b = w.appenders.fresh
    · rw [LogSystem.appender, hbf, Arena.get_alloc_self] at hf
      cases hf
    · rw [LogSystem.appender, Arena.get_alloc_of_ne _ hbf] at hf
      exact h.appender b f hf
  · rw [LogSystem.appender, Arena.get_alloc_of_mem _ (hmem p b hb)]
    exact h.attached p b hb

/-! ### The operations -/

/-- A formatter for a pattern that parses. -/
theorem sound_newLogFormatter {pattern : String} (h : (LogFormatter.new pattern).error = false) :
    (w.newLogFormatter pattern).Sound w.formatters.fresh := by
  refine ⟨Arena.fresh_mem_alloc _ _, ?_⟩
  show ((w.formatters.alloc _).get w.formatters.fresh).error = false
  rw [Arena.get_alloc_self]
  exact h

theorem Equipped.newLogFormatter (h : w.Equipped) (pattern : String) :
    (w.newLogFormatter pattern).Equipped := h.setFormatters (Arena.grows_alloc _ _)

theorem Equipped.setAppenderPattern (h : w.Equipped) (a : Ptr LogAppender) (pattern : String) :
    (w.setAppenderPattern a pattern).Equipped := by
  unfold LogSystem.setAppenderPattern
  split_ifs with herr
  · exact h
  · exact (h.newLogFormatter pattern).setAppenderFormatter a
      (sound_newLogFormatter (Bool.eq_false_iff.mpr herr))

theorem Equipped.setLoggerPattern (h : w.Equipped) (p : Ptr Logger) (pattern : String) :
    (w.setLoggerPattern p pattern).Equipped := by
  unfold LogSystem.setLoggerPattern
  split_ifs with herr
  · exact h
  · exact (h.newLogFormatter pattern).modifyLogger p _
      ⟨_, rfl, sound_newLogFormatter (Bool.eq_false_iff.mpr herr)⟩ (h.attached p)

theorem Equipped.newLogger (h : w.Equipped) (name : String) : (w.newLogger name).Equipped :=
  (h.newLogFormatter "").allocLogger ⟨_, rfl, sound_newLogFormatter error_new_empty⟩ rfl

theorem Equipped.getLogger (h : w.Equipped) (name : String) : (w.getLogger name).1.Equipped := by
  unfold LogSystem.getLogger
  split
  · exact h
  · have hnew := h.newLogger name
    exact ⟨hnew.appender, hnew.logger, hnew.attached⟩

/-- A logger that keeps its formatter and gains no appender. -/
theorem Equipped.modifyLogger_of_subset (h : w.Equipped) {p : Ptr Logger} (hp : p ∈ w.loggers)
    (g : Logger → Logger) (hfmt : (g (w.logger p)).formatter = (w.logger p).formatter)
    (happ : (g (w.logger p)).appenders ⊆ (w.logger p).appenders) :
    Equipped { w with loggers := w.loggers.modify p g } :=
  h.modifyLogger p g (hfmt ▸ h.logger p hp) fun a ha => h.attached p a (happ ha)

theorem Equipped.setLevel (h : w.Equipped) {p : Ptr Logger} (hp : p ∈ w.loggers)
    (level : LogLevel) : (w.setLevel p level).Equipped :=
  h.modifyLogger_of_subset hp _ rfl (List.Subset.refl _)

/-- **Inheritance**: an appender without a formatter takes the logger's. -/
theorem Equipped.addAppender (h : w.Equipped) {p : Ptr Logger} (hp : p ∈ w.loggers)
    {a : Ptr LogAppender} (ha : a ∈ w.appenders) : (w.addAppender p a).Equipped := by
  -- the `push_back`, once the appender has a formatter
  have push : ∀ {v : LogSystem}, v.Equipped → p ∈ v.loggers →
      (∃ f, f ∈ (v.appender a).formatter) →
      Equipped { v with loggers := v.loggers.modify p fun x =>
        { x with appenders := x.appenders ++ [a] } } := by
    intro v hv hpv haf
    apply hv.modifyLogger p _ (hv.logger p hpv)
    intro b hb
    rcases List.mem_append.mp hb with hb | hb
    · exact hv.attached p b hb
    · obtain rfl := List.mem_singleton.mp hb
      exact haf
  unfold LogSystem.addAppender
  split_ifs with hnone
  · obtain ⟨f, hf, hs⟩ := h.logger p hp
    obtain hf : (w.logger p).formatter = some f := hf
    rw [hf]
    exact push (h.setAppenderFormatter a hs) hp
      ⟨f, congrArg LogAppender.formatter (Arena.get_modify_self _ ha)⟩
  · exact push h hp (Option.ne_none_iff_exists'.mp hnone)

theorem Equipped.log (h : w.Equipped) (env : Env) (p : Ptr Logger) (level : LogLevel)
    (e : Ptr LogEvent) : (w.log env p level e).Equipped := by
  unfold LogSystem.log
  split
  · exact h.setEvents w.events _
  · exact h

theorem equipped_init : init.Equipped := by
  -- the manager before its root logger is given an appender
  have hroot : Equipped ⟨⟨[LogFormatter.new ""]⟩, ⟨[]⟩, ⟨[⟨"root", .all, [], some ⟨0⟩⟩]⟩, ⟨[]⟩,
      SortedBy.empty, ⟨0⟩, []⟩ := by
    refine ⟨?_, ?_, ?_⟩
    · rintro ⟨_⟩ f hf
      cases hf
    · rintro ⟨_ | n⟩ hp
      · exact ⟨⟨0⟩, rfl, Nat.zero_lt_one, error_new_empty⟩
      · exact absurd hp (by simp [Arena.mem_iff])
    · rintro ⟨_ | _⟩ a ha <;> cases ha
  refine Equipped.addAppender (w := newStdoutLogAppender _) (hroot.allocAppender ?_ .stdout)
    (p := ⟨0⟩) Nat.zero_lt_one (Arena.fresh_mem_alloc _ _)
  rintro ⟨_ | _⟩ a ha <;> cases ha

end LogSystem

open LogSystem

theorem LogStep.equipped {w w' : LogSystem} {op : LogOp} (hw : w.WF) (h : w.Equipped)
    (hop : op.ByPattern) (hs : LogStep w op w') : w'.Equipped := by
  obtain ⟨env, hs⟩ := hs
  cases LogOp.applied hs with
  | setPattern _ pattern => exact hop.elim
  | setAppenderFormatter _ _ => exact hop.elim
  | setLoggerFormatter _ _ => exact hop.elim
  | newLogFormatter pattern => exact h.newLogFormatter pattern
  | newStdoutLogAppender => exact h.allocAppender hw.appender_mem .stdout
  | newFileLogAppender _ => exact h.allocAppender hw.appender_mem _
  | setAppenderPattern _ pattern => exact h.setAppenderPattern _ pattern
  | newLogger name => exact h.newLogger name
  | setLevel hp level => exact h.setLevel hp level
  | addAppender hp ha => exact h.addAppender hp ha
  | delAppender hp a => exact h.modifyLogger_of_subset hp _ rfl List.erase_subset
  | clearAppender hp => exact h.modifyLogger_of_subset hp _ rfl (List.nil_subset _)
  | setLoggerPattern _ pattern => exact h.setLoggerPattern _ pattern
  | newLogEvent hp level filename line =>
      -- the constructor of the event sets the logger's level
      exact (h.setEvents (w.events.alloc _) w.records).setLevel hp level
  | write _ text => exact h.setEvents _ w.records
  | log _ _ level => exact h.log env _ level _
  | getLogger name => exact h.getLogger name

theorem LogSystem.PatternSteps.equipped {w w' : LogSystem} (hsteps : PatternSteps w w')
    (hw : w.WF) (h : w.Equipped) : w'.Equipped := by
  obtain ⟨tr, hr, htr⟩ := hsteps
  exact (hr.invariant_of (I := fun w => w.WF ∧ w.Equipped) (C := fun x => x.label.ByPattern)
    ⟨hw, h⟩ (fun _ _ _ h hs hop => ⟨hs.wf h.1, hs.equipped h.1 h.2 hop⟩) htr).2

/-! ### Runs -/

/-- The steps allowed: the variable is set, or an operation that installs formatters by
pattern. -/
def LogsOp.ByPattern : LogsOp → Prop
  | setValue _ _ => True
  | other op => op.ByPattern

theorem LogsStep.equipped {s s' : LogsState} {op : LogsOp} (hw : s.world.WF)
    (h : s.world.Equipped) (hop : op.ByPattern) (hs : LogsStep s op s') : s'.world.Equipped := by
  cases op with
  | setValue env new => exact (LogsState.setValue_patternSteps hw hs).equipped hw h
  | other op => exact hs.2.equipped hw h hop

/-- **Attached appenders have a usable formatter.**  In every state that a run of
operations reaches, if formatters are installed by pattern or taken over in `addAppender`
only, every appender in a logger's list holds a formatter without error, and so whatever
it is given is rendered. -/
theorem attached_usable {tr : List (Taken LogsState LogsOp)} {t : LogsState}
    (hrun : Run LogsStep .initial tr t) (hops : ∀ x ∈ tr, x.label.ByPattern) :
    ∀ p, ∀ a ∈ (t.world.logger p).appenders,
      (∃ f, (t.world.appender a).formatter = some f ∧ f ∈ t.world.formatters ∧
        (t.world.formatter f).error = false) ∧
      ∀ env q e, (t.world.record env q e a).text.isSome := by
  have hinv := hrun.invariant_of (I := fun s => s.world.WF ∧ s.world.Equipped)
    (C := fun x => x.label.ByPattern) ⟨wf_init, equipped_init⟩
    (fun _ _ _ h hs hop => ⟨hs.wf h.1, hs.equipped h.1 h.2 hop⟩) hops
  intro p a ha
  obtain ⟨f, hf⟩ := hinv.2.attached p a ha
  refine ⟨⟨f, hf, hinv.2.appender a f hf⟩, fun env q e => ?_⟩
  rw [record, Option.isSome_map, show (t.world.appender a).formatter = some f from hf]
  rfl

/-- A logger gets an appender by configuration, and is then given a pattern that does not
parse. -/
theorem attached_usable_system : ∃ t u p,
    LogsStep .initial (.setValue (Env.sample systemRows) systemSet) t ∧
      LogsStep t (.other (.setLoggerPattern p "%")) u ∧
      ∀ p, ∀ a ∈ (u.world.logger p).appenders,
        (∃ f, (u.world.appender a).formatter = some f ∧ f ∈ u.world.formatters ∧
          (u.world.formatter f).error = false) ∧
        ∀ env q e, (u.world.record env q e a).text.isSome := by
  obtain ⟨t, ht⟩ := systemSet_step
  have hroot : t.world.root ∈ t.world.loggers := (ht.wf wf_init).root_mem
  have hstep : LogsStep t (.other (.setLoggerPattern t.world.root "%"))
      ⟨t.value, t.world.setLoggerPattern t.world.root "%"⟩ :=
    ⟨rfl, Env.sample [], if_pos hroot⟩
  refine ⟨t, _, _, ht, hstep, attached_usable ((Run.nil.snoc ht).snoc hstep) ?_⟩
  intro x hx
  rcases List.mem_append.mp hx with hx | hx
  · obtain rfl := List.mem_singleton.mp hx
    trivial
  · obtain rfl := List.mem_singleton.mp hx
    trivial

end Sylar
