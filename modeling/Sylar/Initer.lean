/-
Sylar/Initer.lean

`LogIniter` (log.cpp): the listener that carries a change of the "logs"
variable over to the loggers.

The listener walks the new set.  A definition that the old set holds unchanged
is skipped; for any other the logger is brought in line with it, and then,
still inside the walk, the loggers of the definitions that have disappeared are
switched off.

`Mirrors w d` says that a logger is what its definition says, `Silenced w n`
that it is switched off.  This file gives each part of the listener its
specification; what they add up to over a sequence of values is the subject of
`Sylar.Configured`.
-/
import Mathlib.Data.List.Forall2
import Sylar.Definition
import Sylar.Frame

namespace Sylar

/-! ### The listener -/

namespace LogSystem

/-- `if (!a.pattern.empty()) ap->setFormatter(a.pattern)`. -/
def givePattern (w : LogSystem) (ap : Ptr LogAppender) (pattern : String) : LogSystem :=
  if pattern = "" then w else w.setAppenderPattern ap pattern

/-- One appender of a definition is created and added to the logger `p`.  The pattern of
a file appender is set twice; an unknown type leaves a null pointer to be followed. -/
def applyAppender (env : Env) (p : Ptr Logger) (w : LogSystem) (a : AppenderDefinition) :
    Outcome Unit LogSystem :=
  let ap := w.appenders.fresh
  if a.type = 1 then do
    let w ← w.newFileLogAppender env a.file
    let w := w.givePattern ap a.pattern
    -- the test of the pattern stands here and again after the branch for the type
    let w := w.givePattern ap a.pattern
    pure (w.addAppender p ap)
  else if a.type = 2 then
    let w := w.newStdoutLogAppender
    let w := w.givePattern ap a.pattern
    pure (w.addAppender p ap)
  else .crash

/-- A definition that is new or has changed. -/
def applyDefinition (env : Env) (w : LogSystem) (i : LogDefinition) : Outcome Unit LogSystem :=
  let r := w.getLogger i.name
  let w := r.1.setLevel r.2 i.level
  let w := if i.pattern = "" then w else w.setLoggerPattern r.2 i.pattern
  let w := w.clearAppender r.2
  i.appenders.foldlM (applyAppender env r.2) w

/-- The loop over the old set. -/
def deleteMissing (old new : LogSet) (w : LogSystem) : LogSystem :=
  old.toList.foldl (fun w i =>
    if new.find? i.name = none then
      let r := w.getLogger i.name
      (r.1.setLevel r.2 .off).clearAppender r.2
    else w) w

/-- One iteration of the loop over the new set. -/
def visitDefinition (env : Env) (old new : LogSet) (w : LogSystem) (i : LogDefinition) :
    Outcome Unit LogSystem :=
  if old.find? i.name = some i then pure w
  else do
    let w ← w.applyDefinition env i
    -- the loop over the old set is inside this iteration, after the `continue` above
    pure (w.deleteMissing old new)

/-- The listener `LogIniter` adds to "logs". -/
def onLogsChanged (env : Env) (old new : LogSet) (w : LogSystem) : Outcome Unit LogSystem :=
  let w := w.sylarLog env w.root .info "src/log.cpp" 696 "on logger changed"
  new.toList.foldlM (visitDefinition env old new) w

end LogSystem

/-! ### What the loggers should look like -/

/-- The appender a definition asks for. -/
def AppenderDefinition.kind? (a : AppenderDefinition) : Option AppenderKind :=
  if a.type = 1 then some (.file a.file)
  else if a.type = 2 then some .stdout
  else none

namespace LogSystem

/-- The formatter an appender of the logger `p` should hold: one with the defined
pattern, or the logger's own when there is none or it does not parse. -/
def FormatterOf (w : LogSystem) (p : Ptr Logger) (pattern : String)
    (f : Option (Ptr LogFormatter)) : Prop :=
  if pattern ≠ "" ∧ (LogFormatter.new pattern).error = false then
    ∃ x, f = some x ∧ x ∈ w.formatters ∧ (w.formatter x).pattern = pattern ∧
      (w.formatter x).error = false
  else f = (w.logger p).formatter

/-- The appender `ap` of the logger `p` is what `a` says. -/
structure AppenderMatches (w : LogSystem) (p : Ptr Logger) (a : AppenderDefinition)
    (ap : Ptr LogAppender) : Prop where
  mem : ap ∈ w.appenders
  kind : a.kind? = some (w.appender ap).kind
  formatter : w.FormatterOf p a.pattern (w.appender ap).formatter

/-- The logger `p` is what `d` says. -/
structure LoggerMatches (w : LogSystem) (p : Ptr Logger) (d : LogDefinition) : Prop where
  level : w.getLevel p = d.level
  appenders : List.Forall₂ (w.AppenderMatches p) d.appenders (w.logger p).appenders

/-- The logger of the definition `d` is there, and is what `d` says. -/
def Mirrors (w : LogSystem) (d : LogDefinition) : Prop :=
  ∃ p, w.loggerMap.get? d.name = some p ∧ w.LoggerMatches p d

/-- The logger stored under `n`, if there is one, is off and has no appenders. -/
def Silenced (w : LogSystem) (n : String) : Prop :=
  ∀ p, w.loggerMap.get? n = some p → w.getLevel p = .off ∧ (w.logger p).appenders = []

variable {w w' : LogSystem} {p : Ptr Logger} {env : Env}

/-! ### One appender -/

/-- What holds of an appender just created, between its constructor and
`addAppender`: it has the definition's pattern or no formatter yet, and nothing else
has happened. -/
structure Newborn (w v : LogSystem) (kind : AppenderKind) (f : Option (Ptr LogFormatter)) :
    Prop where
  appenders : v.appenders = w.appenders.alloc ⟨kind, f⟩
  formatters : w.formatters.Grows v.formatters
  loggers : v.loggers = w.loggers
  loggerMap : v.loggerMap = w.loggerMap
  root : v.root = w.root

/-- The formatter a newborn has been given for `pattern`. -/
def GivenFormatter (v : LogSystem) (pattern : String) (f : Option (Ptr LogFormatter)) : Prop :=
  if pattern ≠ "" ∧ (LogFormatter.new pattern).error = false then
    ∃ x, f = some x ∧ x ∈ v.formatters ∧ (v.formatter x).pattern = pattern ∧
      (v.formatter x).error = false
  else f = none

variable {v : LogSystem} {kind : AppenderKind} {f : Option (Ptr LogFormatter)} {pattern : String}

theorem Newborn.givePattern (h : Newborn w v kind f) (pattern : String)
    (hf : f = none ∨ GivenFormatter v pattern f) :
    ∃ f', Newborn w (v.givePattern w.appenders.fresh pattern) kind f' ∧
      GivenFormatter (v.givePattern w.appenders.fresh pattern) pattern f' := by
  unfold LogSystem.givePattern LogSystem.setAppenderPattern
  by_cases hpat : pattern = ""
  · -- no pattern: nothing happens, and nothing was to happen
    have hno : ¬ (pattern ≠ "" ∧ (LogFormatter.new pattern).error = false) := fun hc => hc.1 hpat
    refine ⟨f, by rwa [if_pos hpat], ?_⟩
    rw [if_pos hpat]
    rcases hf with rfl | hf
    · rw [GivenFormatter, if_neg hno]
    · exact hf
  rw [if_neg hpat]
  cases herr : (LogFormatter.new pattern).error with
  | true =>
      -- a pattern that does not parse: reported, and nothing happens
      have hno : ¬ (pattern ≠ "" ∧ (LogFormatter.new pattern).error = false) := fun hc => by
        rw [herr] at hc
        exact absurd hc.2 (by decide)
      refine ⟨f, h, ?_⟩
      rcases hf with rfl | hf
      · simp only [GivenFormatter, if_neg hno]
      · exact hf
  | false =>
      -- a pattern that parses: the newborn now holds the formatter made for it
      refine ⟨some v.formatters.fresh, ⟨?_, ?_, h.loggers, h.loggerMap, h.root⟩, ?_⟩
      · simp only [Bool.false_eq_true, if_false, LogSystem.setAppenderFormatter, newLogFormatter,
          h.appenders, Arena.modify_alloc_self]
      · exact h.formatters.trans (Arena.grows_alloc _ _)
      · rw [GivenFormatter, if_pos ⟨hpat, herr⟩]
        refine ⟨_, rfl, Arena.fresh_mem_alloc _ _, ?_, ?_⟩
        · exact (congrArg LogFormatter.pattern (Arena.get_alloc_self _ _)).trans
            (LogFormatter.new_pattern hpat)
        · exact (congrArg LogFormatter.error (Arena.get_alloc_self _ _)).trans herr

/-- Adding the newborn to the logger `p` completes it. -/
theorem Newborn.addAppender (h : Newborn w v kind f) (hp : p ∈ w.loggers)
    {a : AppenderDefinition} (hkind : a.kind? = some kind) (hf : GivenFormatter v a.pattern f) :
    let w' := v.addAppender p w.appenders.fresh
    Touches p w w' ∧
      w'.logger p = { w.logger p with
        appenders := (w.logger p).appenders ++ [w.appenders.fresh] } ∧
      w'.AppenderMatches p a w.appenders.fresh := by
  obtain ⟨v_formatters, v_appenders, v_loggers, v_events, v_map, v_root, v_records⟩ := v
  obtain ⟨happ, hfmt, hlog, hmap, hroot⟩ := h
  dsimp only at happ hfmt hlog hmap hroot
  subst happ hlog hmap hroot
  -- the appender as `addAppender` leaves it
  have hw' : LogSystem.addAppender
      ⟨v_formatters, w.appenders.alloc ⟨kind, f⟩, w.loggers, v_events, w.loggerMap, w.root,
        v_records⟩ p w.appenders.fresh =
      ⟨v_formatters, w.appenders.alloc ⟨kind, f.or (w.logger p).formatter⟩,
        w.loggers.modify p fun x => { x with appenders := x.appenders ++ [w.appenders.fresh] },
        v_events, w.loggerMap, w.root, v_records⟩ := by
    cases f with
    | none => simp [LogSystem.addAppender, LogSystem.setAppenderFormatter, appender, logger]
    | some x => simp [LogSystem.addAppender, appender]
  have hget : (w.appenders.alloc ⟨kind, f.or (w.logger p).formatter⟩).get w.appenders.fresh =
      ⟨kind, f.or (w.logger p).formatter⟩ := Arena.get_alloc_self _ _
  have hp' : (w.loggers.modify p fun x =>
      { x with appenders := x.appenders ++ [w.appenders.fresh] }).get p =
      { w.logger p with appenders := (w.logger p).appenders ++ [w.appenders.fresh] } :=
    Arena.get_modify_self _ hp
  intro w'
  simp only [w', hw']
  refine ⟨⟨Arena.grows_alloc _ _, hfmt, fun _ => Arena.mem_modify,
    fun _ hq => Arena.get_modify_of_ne _ hq, rfl, rfl⟩, hp', ?_⟩
  refine ⟨Arena.fresh_mem_alloc _ _, ?_, ?_⟩
  · rw [appender, hget, hkind]
  · rw [appender, hget, FormatterOf]
    rw [GivenFormatter] at hf
    -- its own formatter if it was given one, and the logger's otherwise
    split_ifs at hf with hc
    · rw [if_pos hc]
      obtain ⟨x, rfl, hx⟩ := hf
      exact ⟨x, rfl, hx⟩
    · rw [if_neg hc, hf, Option.none_or]
      exact (congrArg Logger.formatter hp').symm

/-- The types `LogIniter` knows. -/
theorem AppenderDefinition.kind?_eq_some {a : AppenderDefinition} {kind : AppenderKind} :
    a.kind? = some kind ↔
      (a.type = 1 ∧ kind = .file a.file) ∨ (a.type = 2 ∧ kind = .stdout) := by
  unfold AppenderDefinition.kind?
  split_ifs with h₁ h₂
  · simp [h₁, eq_comm]
  · simp [h₂, eq_comm]
  · simp [h₁, h₂]

theorem PatternSteps.givePattern (h : PatternSteps w v) (hv : Newborn w v kind f) (pattern : String) :
    PatternSteps w (v.givePattern w.appenders.fresh pattern) := by
  have hmem : w.appenders.fresh ∈ v.appenders := by
    rw [hv.appenders]
    exact Arena.fresh_mem_alloc _ _
  unfold LogSystem.givePattern
  split
  · exact h
  · exact h.trans (.of_step (.setAppenderPattern _ pattern) ⟨Env.sample [], if_pos hmem⟩ trivial)

/-- What `applyAppender` has done when it returns: created the appender, given it its
formatter, and added it. -/
theorem applyAppender_inv {a : AppenderDefinition} (h : w.applyAppender env p a = .ret w') :
    ∃ v kind f, w' = v.addAppender p w.appenders.fresh ∧ Newborn w v kind f ∧
      GivenFormatter v a.pattern f ∧ a.kind? = some kind ∧ PatternSteps w v := by
  unfold LogSystem.applyAppender at h
  split_ifs at h with h₁ h₂
  · obtain ⟨v, hv, h⟩ := Outcome.bind_eq_ret.mp h
    obtain rfl := Outcome.ret.inj h
    have hsteps : PatternSteps w v :=
      .of_step (.newFileLogAppender a.file) ⟨env, by rw [LogOp.apply, hv]⟩ trivial
    obtain ⟨_, rfl⟩ := newFileLogAppender_eq_ret.mp hv
    have hnew : Newborn w { w with appenders := w.appenders.alloc ⟨.file a.file, none⟩ }
        (.file a.file) none := ⟨rfl, Arena.Grows.refl _, rfl, rfl, rfl⟩
    obtain ⟨f, hf, hgiven⟩ := hnew.givePattern a.pattern (Or.inl rfl)
    -- the second `setFormatter`
    obtain ⟨f', hf', hgiven'⟩ := hf.givePattern a.pattern (Or.inr hgiven)
    exact ⟨_, _, f', rfl, hf', hgiven', AppenderDefinition.kind?_eq_some.mpr (Or.inl ⟨h₁, rfl⟩),
      (hsteps.givePattern hnew a.pattern).givePattern hf a.pattern⟩
  · obtain rfl := Outcome.ret.inj h
    have hnew : Newborn w w.newStdoutLogAppender .stdout none :=
      ⟨rfl, Arena.Grows.refl _, rfl, rfl, rfl⟩
    obtain ⟨f, hf, hgiven⟩ := hnew.givePattern a.pattern (Or.inl rfl)
    have hsteps : PatternSteps w w.newStdoutLogAppender :=
      .of_step .newStdoutLogAppender ⟨env, rfl⟩ trivial
    exact ⟨_, _, f, rfl, hf, hgiven, AppenderDefinition.kind?_eq_some.mpr (Or.inr ⟨h₂, rfl⟩),
      hsteps.givePattern hnew a.pattern⟩

/-- **One appender**: when `applyAppender` returns, the logger has one more appender,
the one defined, and nothing else has changed. -/
theorem applyAppender_spec (hp : p ∈ w.loggers) {a : AppenderDefinition}
    (h : w.applyAppender env p a = .ret w') :
    PatternSteps w w' ∧ Touches p w w' ∧
      w'.logger p = { w.logger p with
        appenders := (w.logger p).appenders ++ [w.appenders.fresh] } ∧
      w'.AppenderMatches p a w.appenders.fresh := by
  obtain ⟨v, kind, f, rfl, hv, hgiven, hkind, hsteps⟩ := applyAppender_inv h
  refine ⟨hsteps.trans (.of_step (.addAppender p w.appenders.fresh) ⟨env, if_pos ?_⟩ trivial),
    hv.addAppender hp hkind hgiven⟩
  rw [hv.loggers, hv.appenders]
  exact ⟨hp, Arena.fresh_mem_alloc _ _⟩

/-- It returns exactly when the type is a known one and the file, if any, opens. -/
theorem applyAppender_returns_iff (env : Env) (p : Ptr Logger) (w : LogSystem) (a : AppenderDefinition) :
    (∃ w', w.applyAppender env p a = .ret w') ↔
      (a.type = 1 ∨ a.type = 2) ∧ (a.type = 1 → env.canOpen a.file = true) := by
  constructor
  · rintro ⟨w', h⟩
    unfold LogSystem.applyAppender at h
    split_ifs at h with h₁ h₂
    · obtain ⟨v, hv, _⟩ := Outcome.bind_eq_ret.mp h
      exact ⟨Or.inl h₁, fun _ => (newFileLogAppender_eq_ret.mp hv).1⟩
    · exact ⟨Or.inr h₂, fun h => absurd h h₁⟩
  · rintro ⟨h | h, hopen⟩
    · unfold LogSystem.applyAppender
      rw [if_pos h, newFileLogAppender_eq_ret.mpr ⟨hopen h, rfl⟩]
      exact ⟨_, rfl⟩
    · unfold LogSystem.applyAppender
      rw [if_neg (by omega), if_pos h]
      exact ⟨_, rfl⟩

/-! ### One definition -/

/-- An appender that matches goes on matching while it, its formatter and the
formatter of its logger stay what they are. -/
theorem AppenderMatches.congr {a : AppenderDefinition} {ap : Ptr LogAppender}
    (h : w.AppenderMatches p a ap) (hmem : ap ∈ w'.appenders)
    (happ : w'.appender ap = w.appender ap)
    (hp : (w'.logger p).formatter = (w.logger p).formatter)
    (hfmt : ∀ f ∈ (w.appender ap).formatter, f ∈ w.formatters →
      f ∈ w'.formatters ∧ w'.formatter f = w.formatter f) :
    w'.AppenderMatches p a ap := by
  refine ⟨hmem, by rw [happ]; exact h.kind, ?_⟩
  have hf := h.formatter
  rw [happ, FormatterOf]
  rw [FormatterOf] at hf
  split_ifs at hf ⊢ with hc
  · obtain ⟨x, hx, hxm, hpat, herr⟩ := hf
    obtain ⟨hxm', hxget⟩ := hfmt x hx hxm
    exact ⟨x, hx, hxm', by rw [hxget]; exact hpat, by rw [hxget]; exact herr⟩
  · rw [hf, hp]

/-- The loop over the appenders of a definition. -/
theorem applyAppenders_spec (hp : p ∈ w.loggers)
    (hempty : (w.logger p).appenders = []) {as : List AppenderDefinition}
    (h : as.foldlM (applyAppender env p) w = .ret w') :
    PatternSteps w w' ∧ Touches p w w' ∧ w'.getLevel p = w.getLevel p ∧
      List.Forall₂ (w'.AppenderMatches p) as (w'.logger p).appenders := by
  -- the appenders added so far match, and the formatter they may share is still the logger's
  refine (Outcome.foldlM_induction (P := fun done v => (PatternSteps w v ∧ Touches p w v ∧
    v.getLevel p = w.getLevel p ∧ List.Forall₂ (v.AppenderMatches p) done
      (v.logger p).appenders) ∧ (v.logger p).formatter = (w.logger p).formatter) ?_ ?_ h).1
  · exact ⟨⟨.refl w, .refl p w, rfl, by rw [hempty]; exact .nil⟩, rfl⟩
  · rintro done a rest v v' - ⟨⟨hsteps, ht, hlevel, hall⟩, hfmt⟩ hstep
    have hpv : p ∈ v.loggers := (ht.mem_loggers p).mpr hp
    obtain ⟨hsteps', ht', hlogger, hmatch⟩ := applyAppender_spec hpv hstep
    have hfmt' : (v'.logger p).formatter = (v.logger p).formatter := by rw [hlogger]
    refine ⟨⟨hsteps.trans hsteps', ht.trans ht', ?_, ?_⟩, hfmt'.trans hfmt⟩
    · rw [← hlevel, LogSystem.getLevel, hlogger]
      rfl
    · rw [hlogger]
      -- those already there were only joined by another one
      refine List.rel_append (hall.imp fun _ _ hm => ?_) (.cons hmatch .nil)
      obtain ⟨hmem, hget⟩ := ht'.appenders _ hm.mem
      exact hm.congr hmem hget hfmt' fun f _ hf => ht'.formatters f hf

theorem getLevel_setLoggerPattern (w : LogSystem) (p : Ptr Logger) (pattern : String) :
    (w.setLoggerPattern p pattern).getLevel p = w.getLevel p := by
  unfold setLoggerPattern
  split
  · rfl
  · exact Arena.get_modify_proj w.loggers p p _ Logger.level fun _ => rfl

/-- The logger of a definition, emptied and ready for its appenders. -/
theorem prepared_spec (hp : p ∈ w.loggers) (level : LogLevel) (pattern : String) :
    let v := w.setLevel p level
    let v' := (if pattern = "" then v else v.setLoggerPattern p pattern).clearAppender p
    PatternSteps w v' ∧ Touches p w v' ∧ v'.getLevel p = level ∧ (v'.logger p).appenders = [] := by
  intro v v'
  have hv : PatternSteps w v := .of_step (.setLevel p level) ⟨Env.sample [], if_pos hp⟩ trivial
  have htv : Touches p w v := .setLevel p w level
  have hlv : v.getLevel p = level := getLevel_setLevel hp level
  have hpv : p ∈ v.loggers := (htv.mem_loggers p).mpr hp
  -- the logger's own pattern, if there is one
  have hu : ∃ u, u = (if pattern = "" then v else v.setLoggerPattern p pattern) ∧
      PatternSteps w u ∧ Touches p w u ∧ u.getLevel p = level := by
    refine ⟨_, rfl, ?_⟩
    split
    · exact ⟨hv, htv, hlv⟩
    · exact ⟨hv.trans (.of_step (.setLoggerPattern p pattern) ⟨Env.sample [], if_pos hpv⟩ trivial),
        htv.trans (.setLoggerPattern p v pattern),
        (getLevel_setLoggerPattern v p pattern).trans hlv⟩
  obtain ⟨u, hu, hsu, htu, hlu⟩ := hu
  have hv' : v' = u.clearAppender p := by rw [hu]
  have hpu : p ∈ u.loggers := (htu.mem_loggers p).mpr hp
  rw [hv']
  refine ⟨hsu.trans (.of_step (.clearAppender p) ⟨Env.sample [], if_pos hpu⟩ trivial),
    htu.trans (.clearAppender p u), ?_, ?_⟩
  · rw [← hlu]
    exact Arena.get_modify_proj u.loggers p p _ Logger.level fun _ => rfl
  · exact congrArg Logger.appenders (Arena.get_modify_self _ hpu)

theorem steps_getLogger (w : LogSystem) (n : String) : PatternSteps w (w.getLogger n).1 :=
  .of_step (.getLogger n) ⟨Env.sample [], rfl⟩ trivial

/-- **One definition**: when `applyDefinition` returns, the logger of that name is what
the definition says, and nobody who looks at another name notices. -/
theorem applyDefinition_spec (hw : w.WF) {d : LogDefinition}
    (h : w.applyDefinition env d = .ret w') :
    PatternSteps w w' ∧ (∀ m, m ≠ d.name → SameAt m w w') ∧ w'.Mirrors d := by
  unfold LogSystem.applyDefinition at h
  have hw₁ : (w.getLogger d.name).1.WF := hw.getLogger d.name
  have hmap := getLogger_map w d.name
  have hp := hw₁.map_mem hmap
  obtain ⟨hs₂, ht₂, hlevel, hempty⟩ := prepared_spec hp d.level d.pattern
  have hp₂ := (ht₂.mem_loggers _).mpr hp
  obtain ⟨hs', ht', hlevel', hall⟩ := applyAppenders_spec hp₂ hempty h
  have ht : Touches (w.getLogger d.name).2 (w.getLogger d.name).1 w' := ht₂.trans ht'
  refine ⟨((steps_getLogger w d.name).trans hs₂).trans hs', ?_, (w.getLogger d.name).2, ?_,
    hlevel'.trans hlevel, hall⟩
  · intro m hm
    exact (hw.sameAt_getLogger hm).trans (ht.sameAt hw₁ (hw.getLogger_ne hm))
  · rw [ht.loggerMap]
    exact hmap

/-- Every appender of the definition has a known type, and its file opens. -/
def Deployable (env : Env) (d : LogDefinition) : Prop :=
  ∀ a ∈ d.appenders, (a.type = 1 ∨ a.type = 2) ∧ (a.type = 1 → env.canOpen a.file = true)

theorem applyDefinition_returns_iff (w : LogSystem) (d : LogDefinition) :
    (∃ w', w.applyDefinition env d = .ret w') ↔ Deployable env d := by
  unfold applyDefinition
  constructor
  · rintro ⟨w', h⟩
    refine Outcome.foldlM_induction (P := fun done _ => ∀ a ∈ done,
      (a.type = 1 ∨ a.type = 2) ∧ (a.type = 1 → env.canOpen a.file = true)) nofun ?_ h
    intro done a rest v v' _ hdone hstep b hb
    rcases List.mem_append.mp hb with hb | hb
    · exact hdone b hb
    · rw [List.mem_singleton.mp hb]
      exact (applyAppender_returns_iff _ _ _ _).mp ⟨v', hstep⟩
  · intro hd
    obtain ⟨w', hw', -⟩ := Outcome.foldlM_total (P := fun _ _ => True) (l := d.appenders)
      (f := applyAppender env (w.getLogger d.name).2) (s := _) trivial
      (by
        rintro done a rest v has -
        obtain ⟨v', hv'⟩ := (applyAppender_returns_iff env (w.getLogger d.name).2 v a).mpr
          (hd a (by simp [has]))
        exact ⟨v', hv', trivial⟩)
    exact ⟨w', hw'⟩

/-! ### The definitions that disappear -/

/-- `m` is the name of a definition of `old`, and of none of `new`. -/
def Removed (old new : LogSet) (m : String) : Prop :=
  (∃ d ∈ old, d.name = m) ∧ new.find? m = none

theorem not_removed_of_mem {old new : LogSet} {d : LogDefinition} (hd : d ∈ new) :
    ¬ Removed old new d.name := fun h => SortedBy.find?_eq_none.mp h.2 d hd rfl

/-- Being switched off is all in the map and the logger. -/
theorem SameAt.silenced_iff {n : String} (h : SameAt n w w') :
    w'.Silenced n ↔ w.Silenced n := by
  unfold Silenced getLevel
  constructor
  · intro hs p hp
    rw [← h.logger p hp]
    exact hs p (h.map.trans hp)
  · intro hs p hp
    have hp' : w.loggerMap.get? n = some p := h.map.symm.trans hp
    rw [h.logger p hp']
    exact hs p hp'

theorem silence_spec (hw : w.WF) (n : String) :
    let w' := ((w.getLogger n).1.setLevel (w.getLogger n).2 .off).clearAppender (w.getLogger n).2
    PatternSteps w w' ∧ (∀ m, m ≠ n → SameAt m w w') ∧ w'.Silenced n := by
  intro w'
  have hw₁ : (w.getLogger n).1.WF := hw.getLogger n
  have hmap := getLogger_map w n
  obtain ⟨hs, ht, hlevel, hempty⟩ := prepared_spec (hw₁.map_mem hmap) .off ""
  simp only [if_true] at hs ht hlevel hempty
  refine ⟨(steps_getLogger w n).trans hs, ?_, ?_⟩
  · intro m hm
    exact (hw.sameAt_getLogger hm).trans (ht.sameAt hw₁ (hw.getLogger_ne hm))
  · intro p hp
    rw [ht.loggerMap, hmap] at hp
    obtain rfl := Option.some.inj hp
    exact ⟨hlevel, hempty⟩

/-- **The deletion loop** switches off the loggers of all definitions that disappear,
and no other. -/
theorem deleteMissing_spec (hw : w.WF) (old new : LogSet) :
    PatternSteps w (w.deleteMissing old new) ∧
      (∀ m, ¬ Removed old new m → SameAt m w (w.deleteMissing old new)) ∧
      ∀ m, Removed old new m → (w.deleteMissing old new).Silenced m := by
  -- induction on the definitions still to be visited, from any state
  have aux : ∀ (l : List LogDefinition) (w : LogSystem), w.WF →
      let w' := l.foldl (fun w i =>
        if new.find? i.name = none then
          ((w.getLogger i.name).1.setLevel (w.getLogger i.name).2 .off).clearAppender
            (w.getLogger i.name).2
        else w) w
      PatternSteps w w' ∧
        (∀ m, ¬ ((∃ d ∈ l, d.name = m) ∧ new.find? m = none) → SameAt m w w') ∧
        ∀ m, (∃ d ∈ l, d.name = m) ∧ new.find? m = none → w'.Silenced m := by
    intro l
    induction l with
    | nil => exact fun w _ => ⟨.refl w, fun m _ => .refl m w, fun m hm => by simp at hm⟩
    | cons i l ih =>
        intro w hw
        by_cases hi : new.find? i.name = none
        · obtain ⟨hs₁, hsame₁, hsil₁⟩ := silence_spec hw i.name
          obtain ⟨hs', hsame, hsil⟩ := ih _ (hs₁.wf hw)
          simp only [List.foldl_cons, if_pos hi]
          refine ⟨hs₁.trans hs', ?_, ?_⟩
          · intro m hm
            have hmi : m ≠ i.name := fun e =>
              hm ⟨⟨i, List.mem_cons_self, e.symm⟩, e ▸ hi⟩
            refine (hsame₁ m hmi).trans (hsame m fun hml => hm ⟨?_, hml.2⟩)
            obtain ⟨d, hd, hdm⟩ := hml.1
            exact ⟨d, List.mem_cons_of_mem i hd, hdm⟩
          · intro m hm
            by_cases hml : ∃ d ∈ l, d.name = m
            · exact hsil m ⟨hml, hm.2⟩
            · -- `m` is this definition only: the rest of the loop leaves it off
              obtain ⟨d, hd, rfl⟩ := hm.1
              rcases List.mem_cons.mp hd with rfl | hd
              · exact (hsame _ fun h => hml h.1).silenced_iff.mpr hsil₁
              · exact absurd ⟨d, hd, rfl⟩ hml
        · obtain ⟨hs', hsame, hsil⟩ := ih w hw
          -- the definition is still there, so its logger is left alone
          simp only [List.foldl_cons, if_neg hi]
          refine ⟨hs', ?_, ?_⟩
          · intro m hm
            refine hsame m fun hml => hm ⟨?_, hml.2⟩
            obtain ⟨d, hd, hdm⟩ := hml.1
            exact ⟨d, List.mem_cons_of_mem i hd, hdm⟩
          · rintro m ⟨⟨d, hd, rfl⟩, hm⟩
            rcases List.mem_cons.mp hd with rfl | hd
            · exact absurd hm hi
            · exact hsil _ ⟨⟨d, hd, rfl⟩, hm⟩
  exact aux old.toList w hw

/-! ### The whole listener -/

/-- A logger that is as defined stays so while nobody sees it change. -/
theorem Mirrors.of_sameAt {d : LogDefinition} (h : w.Mirrors d) (hw' : w'.WF)
    (hs : SameAt d.name w w') : w'.Mirrors d := by
  obtain ⟨p, hp, hlevel, hall⟩ := h
  have hlogger := hs.logger p hp
  refine ⟨p, hs.map.trans hp, ?_, ?_⟩
  · rw [← hlevel]
    exact congrArg Logger.level hlogger
  · rw [hlogger]
    -- appender by appender, with the formatter each of them holds
    refine List.forall₂_iff_get.mpr ⟨hall.length_eq, fun i h₁ h₂ => ?_⟩
    have hmem : (w.logger p).appenders.get ⟨i, h₂⟩ ∈ (w.logger p).appenders := List.get_mem _ _
    have hmem' : (w.logger p).appenders.get ⟨i, h₂⟩ ∈ (w'.logger p).appenders := by rwa [hlogger]
    obtain ⟨happ, hfmt⟩ := hs.appender p hp _ hmem
    refine (hall.get h₁ h₂).congr (hw'.appender_mem p _ hmem') happ (by rw [hlogger])
      fun f hf _ => ?_
    exact ⟨hw'.appender_formatter_mem _ f (by rwa [happ]), hfmt f hf⟩

variable {old new : LogSet}

/-- What the listener has done when it returns. -/
structure Carried (old new : LogSet) (w w' : LogSystem) : Prop where
  steps : Steps w w'
  same : ∀ m, (∀ d ∈ new, d.name = m → old.find? m = some d) → ¬ Removed old new m → SameAt m w w'
  mirrors : ∀ d ∈ new, old.find? d.name ≠ some d → w'.Mirrors d
  silenced : (∃ d ∈ new, old.find? d.name ≠ some d) → ∀ m, Removed old new m → w'.Silenced m
  skipped : (∀ d ∈ new, old.find? d.name = some d) → ∀ m, SameAt m w w'

/-- One iteration. -/
theorem visitDefinition_spec (hw : w.WF) {i : LogDefinition} (hi : i ∈ new)
    (h : visitDefinition env old new w i = .ret w') :
    (old.find? i.name = some i → w' = w) ∧
      (old.find? i.name ≠ some i → PatternSteps w w' ∧ w'.Mirrors i ∧
        (∀ m, m ≠ i.name → ¬ Removed old new m → SameAt m w w') ∧
        ∀ m, Removed old new m → w'.Silenced m) := by
  unfold visitDefinition at h
  constructor
  · intro hold
    rw [if_pos hold] at h
    exact (Outcome.ret.inj h).symm
  · intro hold
    rw [if_neg hold] at h
    obtain ⟨v, hv, h⟩ := Outcome.bind_eq_ret.mp h
    obtain rfl := Outcome.ret.inj h
    obtain ⟨hs, hsame, hmirrors⟩ := applyDefinition_spec hw hv
    obtain ⟨hs', hsame', hsil⟩ := deleteMissing_spec (hs.wf hw) old new
    -- `i` is in the new set, so the loop over the old one does not switch its logger off
    refine ⟨hs.trans hs', hmirrors.of_sameAt ((hs.trans hs').wf hw)
      (hsame' _ (not_removed_of_mem hi)), ?_, hsil⟩
    intro m hm hr
    exact (hsame m hm).trans (hsame' m hr)

/-- A statement on the root logger. -/
theorem WF.steps_sylarLog_root (hw : w.WF) (env : Env) (level : LogLevel) (filename : String)
    (line : Int) (text : String) : PatternSteps w (w.sylarLog env w.root level filename line text) := by
  unfold LogSystem.sylarLog
  split
  · -- the macro as three operations: the event is created, written to and logged
    have hnew := PatternSteps.of_step (.newLogEvent w.root level filename line 0
      (UInt32.ofInt env.threadID) getFiberID env.now) ⟨env, if_pos hw.root_mem⟩ trivial
    generalize hv : w.newLogEvent w.root level filename line 0 (UInt32.ofInt env.threadID)
      getFiberID env.now = v at hnew ⊢
    have he : w.events.fresh ∈ v.events := hv ▸ Arena.fresh_mem_alloc _ _
    have hp : (v.event w.events.fresh).logger = w.root := by
      rw [← hv, event_newLogEvent_fresh]
    have hroot : w.root ∈ v.loggers := hv ▸ Arena.mem_modify.mpr hw.root_mem
    refine (hnew.trans (.of_step (.write w.events.fresh text) ⟨env, if_pos he⟩ trivial)).trans ?_
    refine .of_step (.log _ _ w.events.fresh) ⟨env, if_pos ⟨?_, Arena.mem_modify.mpr he⟩⟩ trivial
    rw [event_write_logger, hp]
    exact hroot
  · exact .refl w

/-- **The listener.** -/
theorem onLogsChanged_spec (hw : w.WF) (h : onLogsChanged env old new w = .ret w') :
    PatternSteps w w' ∧ Carried old new w w' := by
  unfold onLogsChanged at h
  -- the statement on the root logger is seen under no name
  have hst₀ := hw.steps_sylarLog_root env .info "src/log.cpp" 696 "on logger changed"
  have hs₀ : ∀ m, SameAt m w (w.sylarLog env w.root .info "src/log.cpp" 696 "on logger changed") :=
    fun m => (Touches.sylarLog w.root w env _ _ _ _).sameAt hw (hw.map_ne_some_root m)
  generalize w.sylarLog env w.root .info "src/log.cpp" 696 "on logger changed" = v₀ at h hst₀ hs₀
  -- what `Carried` says, of the definitions visited so far
  let P : List LogDefinition → LogSystem → Prop := fun done v => PatternSteps w v ∧
    (∀ m, (∀ d ∈ done, d.name = m → old.find? m = some d) → ¬ Removed old new m →
      SameAt m v₀ v) ∧
    (∀ d ∈ done, old.find? d.name ≠ some d → v.Mirrors d) ∧
    ((∃ d ∈ done, old.find? d.name ≠ some d) → ∀ m, Removed old new m → v.Silenced m) ∧
    ((∀ d ∈ done, old.find? d.name = some d) → v = v₀)
  have hP : P new.toList w' := by
    refine Outcome.foldlM_induction (P := P) ?_ ?_ h
    · exact ⟨hst₀, fun m _ _ => .refl m v₀, nofun, by simp, fun _ => rfl⟩
    · rintro done i rest v v' hnew ⟨hst, hsame, hmirrors, hsil, hskip⟩ hstep
      have hi : i ∈ new := by
        rw [SortedBy.mem_def, hnew]
        simp
      have hdone : ∀ d ∈ done, d ∈ new := by
        intro d hd
        rw [SortedBy.mem_def, hnew]
        exact List.mem_append_left _ hd
      obtain ⟨hpos, hneg⟩ := visitDefinition_spec (hst.wf hw) hi hstep
      by_cases hold : old.find? i.name = some i
      · -- skipped
        obtain rfl := hpos hold
        refine ⟨hst, ?_, ?_, ?_, ?_⟩
        · intro m hm hr
          exact hsame m (fun d hd => hm d (List.mem_append_left _ hd)) hr
        · intro d hd hne
          rcases List.mem_append.mp hd with hd | hd
          · exact hmirrors d hd hne
          · exact absurd (List.mem_singleton.mp hd ▸ hold) hne
        · rintro ⟨d, hd, hne⟩
          rcases List.mem_append.mp hd with hd | hd
          · exact hsil ⟨d, hd, hne⟩
          · exact absurd (List.mem_singleton.mp hd ▸ hold) hne
        · intro hall
          exact hskip fun d hd => hall d (List.mem_append_left _ hd)
      · -- applied, and the deletion loop has run
        obtain ⟨hst', hmirror, hsame', hsil'⟩ := hneg hold
        refine ⟨hst.trans hst', ?_, ?_, fun _ => hsil', ?_⟩
        · intro m hm hr
          have hmi : m ≠ i.name := by
            rintro rfl
            exact hold (hm i (by simp) rfl)
          exact (hsame m (fun d hd => hm d (List.mem_append_left _ hd)) hr).trans
            (hsame' m hmi hr)
        · intro d hd hne
          rcases List.mem_append.mp hd with hd | hd
          · -- an earlier definition with this name would be `i` itself
            by_cases hname : d.name = i.name
            · rw [SortedBy.eq_of_key_eq (hdone d hd) hi hname]
              exact hmirror
            · exact (hmirrors d hd hne).of_sameAt ((hst.trans hst').wf hw)
                (hsame' _ hname (not_removed_of_mem (hdone d hd)))
          · exact List.mem_singleton.mp hd ▸ hmirror
        · intro hall
          exact absurd (hall i (by simp)) hold
  obtain ⟨hst, hsame, hmirrors, hsil, hskip⟩ := hP
  refine ⟨hst, hst.steps, fun m hm hr => (hs₀ m).trans (hsame m hm hr), hmirrors, hsil, ?_⟩
  intro hall m
  rw [hskip hall]
  exact hs₀ m

/-- It returns exactly when every new or modified definition can be deployed. -/
theorem onLogsChanged_returns_iff (old new : LogSet) (w : LogSystem) :
    (∃ w', onLogsChanged env old new w = .ret w') ↔
      ∀ d ∈ new, old.find? d.name ≠ some d → Deployable env d := by
  unfold onLogsChanged
  constructor
  · rintro ⟨w', h⟩ d hd
    rw [SortedBy.mem_def] at hd
    refine Outcome.foldlM_induction (P := fun done _ => ∀ d ∈ done,
      old.find? d.name ≠ some d → Deployable env d) nofun ?_ h d hd
    intro done i rest v v' _ hdone hstep d hd hne
    rcases List.mem_append.mp hd with hd | hd
    · exact hdone d hd hne
    · -- an unchanged definition was skipped, any other was applied
      rw [List.mem_singleton.mp hd] at hne ⊢
      unfold visitDefinition at hstep
      rw [if_neg hne] at hstep
      obtain ⟨u, hu, _⟩ := Outcome.bind_eq_ret.mp hstep
      exact (applyDefinition_returns_iff v i).mp ⟨u, hu⟩
  · intro hnew
    obtain ⟨w', hw', -⟩ := Outcome.foldlM_total (P := fun _ _ => True) (l := new.toList)
      (f := visitDefinition env old new) (s := _) trivial
      (by
        rintro done i rest v hl -
        have hi : i ∈ new := by
          rw [SortedBy.mem_def, hl]
          simp
        unfold visitDefinition
        split
        · exact ⟨v, rfl, trivial⟩
        · next hne =>
            obtain ⟨v', hv'⟩ := (applyDefinition_returns_iff v i).mpr (hnew i hi hne)
            exact ⟨_, by rw [hv']; rfl, trivial⟩)
    exact ⟨w', hw'⟩

end LogSystem

end Sylar
