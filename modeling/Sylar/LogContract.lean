/-
Sylar/LogContract.lean

What threads that log promise each other (log.cpp, threads.hpp).

`logging` is the contract: the manager's lock protects the map, an appender's lock its
stream, and nobody takes anything back that others have been told.  Most operations of the
module touch none of this (`Calm`), so that everybody may go on with them at any time
(`Calm.allows`), whatever they lock for.
-/
import Sylar.Lib.Rely
import Sylar.Streams

namespace Sylar

open Locks Locks.Prog SharedLocks Transition

variable {α β : Type}

/-! ### The contract -/

/-- What no operation changes: the entries of the map, the names of the loggers, the kinds of
the appenders; and appenders that have a file are made in one way only. -/
structure Calm (w w' : LogSystem) : Prop where
  map : w'.loggerMap = w.loggerMap
  logger : ∀ p ∈ w.loggers, p ∈ w'.loggers ∧ (w'.logger p).logname = (w.logger p).logname
  appender : ∀ a ∈ w.appenders, a ∈ w'.appenders ∧ (w'.appender a).kind = (w.appender a).kind
  fresh : ∀ a ∈ w'.appenders, a ∉ w.appenders → (w'.appender a).kind = .stdout
  attached : ∀ p, ∀ a ∈ (w'.logger p).appenders, a ∈ (w.logger p).appenders ∨ a ∈ w'.appenders

/-- What holds at all times. -/
structure SharedLog.WF (s : SharedLog) : Prop where
  named : ∀ {n p}, s.log.loggerMap.get? n = some p →
    p ∈ s.log.loggers ∧ (s.log.logger p).logname = n
  attached : ∀ p, ∀ a ∈ (s.log.logger p).appenders, a ∈ s.log.appenders
  file : ∀ a, s.files a ≠ none ↔ a ∈ s.log.appenders ∧ (s.log.appender a).kind ≠ .stdout
  kind : ∀ {a x}, s.files a = some x → (s.log.appender a).kind = .file x.name
  owned : ∀ name, ∀ b ∈ s.written name, b.1 ∈ s.log.appenders

/-- What a step may do. -/
structure SharedLog.Grows (s s' : SharedLog) : Prop where
  map : ∀ {n p}, s.log.loggerMap.get? n = some p → s'.log.loggerMap.get? n = some p
  logger : ∀ p ∈ s.log.loggers,
    p ∈ s'.log.loggers ∧ (s'.log.logger p).logname = (s.log.logger p).logname
  appender : ∀ a ∈ s.log.appenders, a ∈ s'.log.appenders ∧ (s.files a = none → s'.files a = none)
  file : ∀ {a x}, s.files a = some x →
    ∃ x', s'.files a = some x' ∧ x'.name = x.name ∧ x.done <+: x'.done
  fresh : ∀ {a x}, s.files a = none → s'.files a = some x →
    x.stream = .opened ∧ x.done = [] ∧ s'.gone a x.name = []

/-- The stream follows what has been done to it. -/
def LogFile.Whole (x : LogFile) (gone : List (Char × Nat)) : Prop :=
  x.stream.Follows (StreamOp.replay x.done) gone

/-- The two states agree on what the lock protects. -/
def SharedLog.Same : Lock → SharedLog → SharedLog → Prop
  | .manager, s, s' => s'.log.loggerMap = s.log.loggerMap
  | .logger _, _, _ => True
  | .appender a, s, s' => ∀ x, s.files a = some x →
      s'.files a = some x ∧ s'.gone a x.name = s.gone a x.name

/-- What holds of it while nobody is at work there. -/
def SharedLog.Inv : Lock → SharedLog → Prop
  | .appender a, s => ∀ x, s.files a = some x → x.Whole (s.gone a x.name)
  | _, _ => True

/-- **The contract** of the threads that log. -/
def logging : Contract Lock SharedLog where
  always := SharedLog.WF
  guar := SharedLog.Grows
  same := SharedLog.Same
  inv := SharedLog.Inv
  guar_refl s := ⟨id, fun _ hp => ⟨hp, rfl⟩, fun _ ha => ⟨ha, id⟩,
    fun h => ⟨_, h, rfl, List.prefix_refl _⟩, fun hnone h => by cases hnone.symm.trans h⟩
  same_refl l s := by
    cases l with
    | manager => rfl
    | logger p => trivial
    | appender a => exact fun _ h => ⟨h, rfl⟩
  inv_stable l s s' _ _ hg hsame hi := by
    cases l with
    | manager => trivial
    | logger p => trivial
    | appender a =>
        intro x hx
        cases hfile : s.files a with
        | none =>
            obtain ⟨hstream, hdone, hgone⟩ := hg.fresh hfile hx
            rw [LogFile.Whole, hstream, hdone, hgone]
            exact OutStream.follows_opened
        | some y =>
            obtain ⟨hy, hgone⟩ := hsame y hfile
            obtain rfl := Option.some.inj (hy.symm.trans hx)
            exact hgone ▸ hi y hfile

variable {s s' : SharedLog} {held : Set (Request Lock)} {a : Ptr LogAppender} {p : Ptr Logger}

/-- A calm step is open to everybody. -/
theorem Calm.allows (hs : s.WF) {w : LogSystem} (h : Calm s.log w) :
    logging.Allows ∅ s { s with log := w } := by
  refine ⟨⟨fun {n p} hn => ?_, fun p a ha => ?_, fun a => ?_, fun {a x} hx => ?_,
      fun name b hb => (h.appender b.1 (hs.owned name b hb)).1⟩,
    ⟨fun hn => ?_, h.logger, ?_, ?_, ?_⟩, fun l _ => ?_⟩
  · rw [h.map] at hn
    obtain ⟨hp, hname⟩ := hs.named hn
    exact ⟨(h.logger p hp).1, (h.logger p hp).2.trans hname⟩
  · rcases h.attached p a ha with ha | ha
    · exact (h.appender a (hs.attached p a ha)).1
    · exact ha
  · show s.files a ≠ none ↔ a ∈ w.appenders ∧ (w.appender a).kind ≠ .stdout
    rw [hs.file]
    constructor
    · rintro ⟨ha, hkind⟩
      exact ⟨(h.appender a ha).1, (h.appender a ha).2 ▸ hkind⟩
    · rintro ⟨ha, hkind⟩
      by_cases hold : a ∈ s.log.appenders
      · exact ⟨hold, (h.appender a hold).2 ▸ hkind⟩
      · exact absurd (h.fresh a ha hold) hkind
  · have ha : a ∈ s.log.appenders := ((hs.file a).mp fun hnone => by cases hnone.symm.trans hx).1
    exact (h.appender a ha).2.trans (hs.kind hx)
  · exact h.map ▸ hn
  · exact fun a ha => ⟨(h.appender a ha).1, id⟩
  · exact fun hx => ⟨_, hx, rfl, List.prefix_refl _⟩
  · exact fun hnone hx => by cases hnone.symm.trans hx
  · cases l with
    | manager => exact h.map
    | logger p => trivial
    | appender a => exact fun _ hx => ⟨hx, rfl⟩

/-! ### Calm operations -/

namespace Calm

variable {w w' w'' : LogSystem}

theorem of_eq (hmap : w'.loggerMap = w.loggerMap) (hloggers : w'.loggers = w.loggers)
    (happenders : w'.appenders = w.appenders) : Calm w w' := by
  refine ⟨hmap, fun p hp => ⟨hloggers ▸ hp, ?_⟩, fun a ha => ⟨happenders ▸ ha, ?_⟩,
    fun a ha hold => absurd (happenders ▸ ha) hold, fun p a ha => Or.inl ?_⟩
  · rw [LogSystem.logger, hloggers]
  · rw [LogSystem.appender, happenders]
  · rwa [LogSystem.logger, hloggers] at ha

theorem refl (w : LogSystem) : Calm w w := of_eq rfl rfl rfl

theorem trans (h : Calm w w') (h' : Calm w' w'') : Calm w w'' where
  map := h'.map.trans h.map
  logger p hp := ⟨(h'.logger p (h.logger p hp).1).1,
    (h'.logger p (h.logger p hp).1).2.trans (h.logger p hp).2⟩
  appender a ha := ⟨(h'.appender a (h.appender a ha).1).1,
    (h'.appender a (h.appender a ha).1).2.trans (h.appender a ha).2⟩
  fresh a ha hold := by
    by_cases ha' : a ∈ w'.appenders
    · exact (h'.appender a ha').2.trans (h.fresh a ha' hold)
    · exact h'.fresh a ha ha'
  attached p a ha := by
    rcases h'.attached p a ha with ha | ha
    · exact (h.attached p a ha).imp id fun ha => (h'.appender a ha).1
    · exact Or.inr ha

theorem modifyLogger (w : LogSystem) (p : Ptr Logger) (g : Logger → Logger)
    (hname : ∀ x, (g x).logname = x.logname)
    (hattached : ∀ x, ∀ a ∈ (g x).appenders, a ∈ x.appenders ∨ a ∈ w.appenders) :
    Calm w { w with loggers := w.loggers.modify p g } where
  map := rfl
  logger q hq := ⟨Arena.mem_modify.mpr hq,
    Arena.get_modify_proj w.loggers q p g Logger.logname hname⟩
  appender a ha := ⟨ha, rfl⟩
  fresh a ha hold := absurd ha hold
  attached q a ha := by
    change a ∈ ((w.loggers.modify p g).get q).appenders at ha
    by_cases hq : q = p ∧ p ∈ w.loggers
    · obtain ⟨rfl, hq⟩ := hq
      rw [Arena.get_modify_self g hq] at ha
      exact hattached _ a ha
    · refine Or.inl ?_
      by_cases hqp : q = p
      · -- there is no such logger
        subst hqp
        have hnone : q ∉ w.loggers := fun h => hq ⟨rfl, h⟩
        rw [Arena.get_of_notMem fun h => hnone (Arena.mem_modify.mp h)] at ha
        cases ha
      · rwa [Arena.get_modify_of_ne g hqp] at ha

theorem newLogger (w : LogSystem) (name : String) : Calm w (w.newLogger name) where
  map := rfl
  logger p hp :=
    ⟨Arena.mem_alloc_of_mem _ hp, congrArg Logger.logname (Arena.get_alloc_of_mem _ hp)⟩
  appender a ha := ⟨ha, rfl⟩
  fresh a ha hold := absurd ha hold
  attached p a ha := by
    change a ∈ ((w.loggers.alloc ⟨name, .all, [], some w.formatters.fresh⟩).get p).appenders at ha
    by_cases hp : p = w.loggers.fresh
    · subst hp
      rw [Arena.get_alloc_self] at ha
      cases ha
    · rw [Arena.get_alloc_of_ne _ hp] at ha
      exact Or.inl ha

theorem newStdoutLogAppender (w : LogSystem) : Calm w w.newStdoutLogAppender where
  map := rfl
  logger p hp := ⟨hp, rfl⟩
  appender a ha :=
    ⟨Arena.mem_alloc_of_mem _ ha, congrArg LogAppender.kind (Arena.get_alloc_of_mem _ ha)⟩
  fresh a ha hold := by
    obtain rfl := (Arena.mem_alloc.mp ha).resolve_left hold
    exact congrArg LogAppender.kind (Arena.get_alloc_self _ _)
  attached p a ha := Or.inl ha

theorem setAppenderFormatter (w : LogSystem) (a : Ptr LogAppender) (f : Option (Ptr LogFormatter)) :
    Calm w (w.setAppenderFormatter a f) where
  map := rfl
  logger _ hp := ⟨hp, rfl⟩
  appender b hb := ⟨Arena.mem_modify.mpr hb,
    Arena.get_modify_proj w.appenders b a (fun x => { x with formatter := f }) LogAppender.kind
      fun _ => rfl⟩
  fresh _ hb hold := absurd (Arena.mem_modify.mp hb) hold
  attached _ _ hb := Or.inl hb

theorem setLevel (w : LogSystem) (p : Ptr Logger) (level : LogLevel) : Calm w (w.setLevel p level) :=
  modifyLogger w p _ (fun _ => rfl) fun _ _ ha => Or.inl ha

theorem newLogEvent (w : LogSystem) (p : Ptr Logger) (level : LogLevel) (filename : String)
    (line : Int) (threadID fiberID elapse time : UInt32) :
    Calm w (w.newLogEvent p level filename line threadID fiberID elapse time) := by
  let e : LogEvent := ⟨p, level, filename, line, threadID, fiberID, elapse, time, ""⟩
  have hevent : Calm w { w with events := w.events.alloc e } := of_eq rfl rfl rfl
  exact hevent.trans (setLevel _ p level)

theorem addAppender (w : LogSystem) (p : Ptr Logger) (ha : a ∈ w.appenders) :
    Calm w (w.addAppender p a) := by
  have hinherit : Calm w (if (w.appender a).formatter = none then
      w.setAppenderFormatter a (w.logger p).formatter else w) := by
    split
    · exact setAppenderFormatter w a _
    · exact refl w
  refine hinherit.trans (modifyLogger _ p _ (fun _ => rfl) fun x b hb => ?_)
  refine (List.mem_append.mp hb).imp id fun hb => ?_
  exact List.mem_singleton.mp hb ▸ (hinherit.appender a ha).1

end Calm

namespace Guarded

variable {env : Env} {Y : Yaml.Cpp} {f : Option (Ptr LogFormatter)} {pattern : String}

theorem within_newLogFormatter : Within Calm (newLogFormatter pattern) :=
  .act (fun _ => .of_eq rfl rfl rfl) fun _ => .pure _

theorem within_read : Within Calm (read : Guarded LogSystem) := .read Calm.refl

theorem within_getAppenderFormatter : Within Calm (getAppenderFormatter a) :=
  .scopedLock (within_read.bind fun _ => .pure _)

theorem within_setAppenderFormatter : Within Calm (setAppenderFormatter a f) :=
  .modify fun w => .setAppenderFormatter w a f

theorem within_setAppenderPattern : Within Calm (setAppenderPattern a pattern) := by
  refine .scopedLock ?_
  split
  · exact .pure _
  · exact within_newLogFormatter.bind fun _ => within_setAppenderFormatter

theorem within_appenderLog (e : Ptr LogEvent) : Within Calm (appenderLog env p e a) := by
  have hrecord : Within Calm (record env p e a) := .modify fun _ => .of_eq rfl rfl rfl
  refine within_read.bind fun w => ?_
  cases (w.appender a).kind with
  | stdout =>
      dsimp only
      split
      · exact hrecord
      · exact .scopedLock hrecord
  | file filename => exact .scopedLock hrecord

theorem within_appenderToYamlString : Within Calm (appenderToYamlString Y a) :=
  .scopedLock (within_read.bind fun _ => .pure _)

theorem within_setLoggerFormatter : Within Calm (setLoggerFormatter p f) :=
  .scopedLock (.modify fun w => .modifyLogger w p _ (fun _ => rfl) fun _ _ ha => Or.inl ha)

theorem within_setLoggerPattern : Within Calm (setLoggerPattern p pattern) := by
  unfold setLoggerPattern
  split
  · exact .pure _
  · exact within_newLogFormatter.bind fun _ => within_setLoggerFormatter

/-- If the appender exists, it may be added. -/
theorem within_addAppender :
    Within (fun w w' => a ∈ w.appenders → Calm w w') (addAppender p a) := by
  have hread : Within (fun w w' => a ∈ w.appenders → Calm w w') (read : Guarded LogSystem) :=
    .read fun w _ => .refl w
  refine .scopedLock (.bind (.bind (.scopedLock (hread.bind fun _ => .pure _)) fun f =>
    hread.bind fun w => ?_) fun _ => .modify fun w ha => .modifyLogger w p _ (fun _ => rfl) ?_)
  · split
    · exact .modify fun w _ => .setAppenderFormatter w a _
    · exact .pure _
  · intro x b hb
    rcases List.mem_append.mp hb with hb | hb
    · exact Or.inl hb
    · exact Or.inr (List.mem_singleton.mp hb ▸ ha)

theorem within_loadAll {γ : Type} {text : γ → Guarded (Outcome Unit String)} {xs : List γ}
    (h : ∀ x, Within Calm (text x)) : Within Calm (loadAll Y text xs) := by
  have hpush : ∀ x nodes, Within Calm (pushLoaded Y (text x) nodes) := by
    intro x nodes
    cases nodes with
    | ret nodes => exact (h x).bind fun _ => .pure _
    | _ => exact .pure _
  suffices hall : ∀ nodes, Within Calm (xs.foldlM (fun nodes i => pushLoaded Y (text i) nodes) nodes)
    from hall (.ret [])
  induction xs with
  | nil => exact fun nodes => .pure nodes
  | cons x xs ih => exact fun nodes => (hpush x nodes).bind ih

theorem within_loggerToYamlString : Within Calm (loggerToYamlString Y p) :=
  .scopedLock (within_read.bind fun _ =>
    (within_loadAll fun _ => within_appenderToYamlString).bind fun _ => .pure _)

theorem within_toYamlString : Within Calm (toYamlString Y) :=
  .scopedLock (within_read.bind fun _ =>
    (within_loadAll fun _ => within_loggerToYamlString).bind fun _ => .pure _)

end Guarded

end Sylar
