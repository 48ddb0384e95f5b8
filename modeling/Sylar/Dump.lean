/-
Sylar/Dump.lean

`toYamlString` (log.cpp): the manager writes its loggers as a list of
definitions, which the decoder of "logs" reads back.

The three dumpers agree with the decoder on every key and type tag.  What gets
lost is the level `ERROR`, which the decoder does not know, and, when the
definitions are applied to a fresh manager, a formatter whose pattern has been
set to the empty text: an empty pattern reads as "no pattern".
`dumpReloads_iff` is the exact condition.
-/
import Sylar.Configured

namespace Sylar

open Yaml Transition

namespace LogSystem

/-! ### The dumpers -/

section Dumpers

variable (Y : Yaml.Cpp) (w : LogSystem)

/-- The pattern of the formatter an appender holds, if it holds one. -/
def patternOf (a : Ptr LogAppender) : Option String :=
  (w.appender a).formatter.map fun f => (w.formatter f).pattern

/-- The node `StdoutLogAppender::toYamlString` and `FileLogAppender::toYamlString`
print. -/
def appenderNode (a : Ptr LogAppender) : Node :=
  let patternEntries := (w.patternOf a).toList.map (Node.entry "pattern")
  match (w.appender a).kind with
  | .stdout => .map (Node.entry "type" "StdoutLogAppender" :: patternEntries)
  | .file filename =>
      .map (Node.entry "type" "FileLogAppender" :: Node.entry "file" filename :: patternEntries)

/-- `LogAppender::toYamlString`. -/
def appenderToYamlString (a : Ptr LogAppender) : String := Y.print (some (w.appenderNode a))

/-- `Logger::toYamlString`. -/
def loggerToYamlString (p : Ptr Logger) : Outcome Unit String := do
  let items ← Y.loadAll (fun a => .ret (w.appenderToYamlString Y a)) (w.logger p).appenders
  pure (Y.print (some (.map (Node.entry "name" (w.logger p).logname ::
    Node.entry "level" (w.getLevel p).toString ::
      (Node.pushBack items).toList.map fun n => (.scalar "appender", n)))))

/-- `LoggerManager::toYamlString`. -/
def toYamlString : Outcome Unit String := do
  let items ← Y.loadAll (fun i => w.loggerToYamlString Y i.2) w.loggerMap.toList
  pure (Y.print (Node.pushBack items))

end Dumpers

/-! ### What a logger is, as a definition -/

/-- The definition of an appender: its kind, file and pattern. -/
def appenderDefinitionOf (w : LogSystem) (a : Ptr LogAppender) : AppenderDefinition :=
  match (w.appender a).kind with
  | .stdout => { type := 2, pattern := (w.patternOf a).getD "" }
  | .file filename => { type := 1, pattern := (w.patternOf a).getD "", file := filename }

/-- The definition of a logger: its name, level and appenders. -/
def definitionOf (w : LogSystem) (p : Ptr Logger) : LogDefinition where
  name := (w.logger p).logname
  level := w.getLevel p
  appenders := (w.logger p).appenders.map w.appenderDefinitionOf

/-- The definition of a logger as it is read back. -/
def dumpedDefinition (w : LogSystem) (p : Ptr Logger) : LogDefinition :=
  { w.definitionOf p with level := .fromString (w.getLevel p).toString }

variable {Y : Yaml.Cpp} {w : LogSystem}

theorem kind?_appenderDefinitionOf (w : LogSystem) (a : Ptr LogAppender) :
    (w.appenderDefinitionOf a).kind? = some (w.appender a).kind := by
  unfold appenderDefinitionOf
  cases (w.appender a).kind <;> rfl

theorem pattern_appenderDefinitionOf (w : LogSystem) (a : Ptr LogAppender) :
    (w.appenderDefinitionOf a).pattern = (w.patternOf a).getD "" := by
  unfold appenderDefinitionOf
  cases (w.appender a).kind <;> rfl

/-! ### Decoding a dump -/

theorem decodeAppender_appenderNode (w : LogSystem) (a : Ptr LogAppender) :
    decodeAppender Y (some (w.appenderNode a)) = .ret (some (w.appenderDefinitionOf a)) := by
  unfold appenderNode appenderDefinitionOf
  cases w.patternOf a with
  | none => cases (w.appender a).kind <;> rfl
  | some pattern => cases (w.appender a).kind <;> rfl

theorem decodeAppenders_map (w : LogSystem) (as : List (Ptr LogAppender)) :
    decodeAppenders Y ((as.map w.appenderNode).map some) =
      .ret (as.map w.appenderDefinitionOf) := by
  unfold decodeAppenders
  rw [List.foldlM_map, List.foldlM_map]
  obtain ⟨r, hr, hlist⟩ := Outcome.foldlM_total
    (f := fun appenders a => do
      let apDefine ← decodeAppender Y (some (w.appenderNode a))
      pure (appenders ++ apDefine.toList))
    (P := fun done r => r = done.map w.appenderDefinitionOf) (l := as)
    (s := ([] : List AppenderDefinition)) rfl
    (by
      rintro done a rest _ - rfl
      refine ⟨_, ?_, List.map_append.symm⟩
      rw [decodeAppender_appenderNode]
      rfl)
  rw [hr, hlist]

/-- The node `Logger::toYamlString` prints. -/
def loggerNode (w : LogSystem) (p : Ptr Logger) : Node :=
  .map (Node.entry "name" (w.logger p).logname :: Node.entry "level" (w.getLevel p).toString ::
    (Node.pushBack ((w.logger p).appenders.map w.appenderNode)).toList.map
      fun n => (.scalar "appender", n))

theorem loggerToYamlString_eq (hY : Y.Faithful) (w : LogSystem) (p : Ptr Logger) :
    w.loggerToYamlString Y p = .ret (Y.print (some (w.loggerNode p))) := by
  have hload : Y.loadAll (fun a => .ret (w.appenderToYamlString Y a)) (w.logger p).appenders =
      .ret ((w.logger p).appenders.map w.appenderNode) := hY.loadAll_eq _ fun _ _ => rfl
  rw [loggerToYamlString, hload]
  rfl

theorem decodeNode_loggerNode (w : LogSystem) (p : Ptr Logger) :
    decodeNode Y (w.loggerNode p) = .ret (w.dumpedDefinition p) := by
  have hname : (w.loggerNode p).sub "name" = .ret (some (.scalar (w.logger p).logname)) := rfl
  have hlevel : decodeLevel Y (w.loggerNode p) =
      .ret (.fromString (w.getLevel p).toString) := rfl
  have happender : (w.loggerNode p).sub "appender" =
      .ret (Node.pushBack ((w.logger p).appenders.map w.appenderNode)) := by
    unfold loggerNode
    cases Node.pushBack ((w.logger p).appenders.map w.appenderNode) <;> rfl
  simp only [decodeNode, hname, hlevel, happender, Outcome.ret_bind, Cpp.asString]
  unfold dumpedDefinition definitionOf Node.pushBack
  split_ifs with hempty
  · rw [List.map_eq_nil_iff.mp hempty]
    rfl
  · simp only [Cpp.items_seq, decodeAppenders_map, Outcome.ret_bind, Outcome.pure_eq]

/-- **What a dump decodes to**: one definition per logger, in the order of the map. -/
theorem decodeSet_toYamlString (hY : Y.Faithful) (hw : w.WF) :
    ∃ s : LogSet, (w.toYamlString Y >>= decodeSet Y) = .ret s ∧
      s.toList = w.loggerMap.toList.map fun i => w.dumpedDefinition i.2 := by
  have hsorted : (w.loggerMap.toList.map fun i => w.dumpedDefinition i.2).Pairwise
      fun a b => a.name < b.name := by
    rw [List.pairwise_map]
    apply w.loggerMap.sorted.imp_of_mem
    rintro ⟨n, p⟩ ⟨m, q⟩ hp hq hlt
    have hn : (w.logger p).logname = n := hw.map_name (SortedMap.get?_eq_some.mpr hp)
    have hm : (w.logger q).logname = m := hw.map_name (SortedMap.get?_eq_some.mpr hq)
    calc (w.logger p).logname = n := hn
      _ < m := hlt
      _ = (w.logger q).logname := hm.symm
  refine ⟨⟨_, hsorted⟩, ?_, rfl⟩
  rw [toYamlString, hY.loadAll_eq (fun i => w.loggerNode i.2)
    fun i _ => loggerToYamlString_eq hY w i.2]
  exact decodeSet_pushBack hY _ _ _ (fun i _ => decodeNode_loggerNode w i.2) hsorted

/-! ### Recreating the loggers -/

/-- Every appender of every logger of the manager holds a formatter without error. -/
def Formatted (w : LogSystem) : Prop :=
  ∀ n p, w.loggerMap.get? n = some p → ∀ a ∈ (w.logger p).appenders,
    ∃ f, (w.appender a).formatter = some f ∧ (w.formatter f).error = false

/-- `b` in `w'` is an appender like `a` in `w`. -/
structure SameAppender (w w' : LogSystem) (a b : Ptr LogAppender) : Prop where
  kind : (w'.appender b).kind = (w.appender a).kind
  pattern : w'.patternOf b = w.patternOf a

/-- The manager in `w'` has loggers of the same names as the one in `w`, with the same
levels and the same appenders in the same order. -/
structure Recreates (w w' : LogSystem) : Prop where
  names : ∀ n, (w'.loggerMap.get? n).isSome = (w.loggerMap.get? n).isSome
  logger : ∀ n p, w.loggerMap.get? n = some p → ∃ q, w'.loggerMap.get? n = some q ∧
    w'.getLevel q = w.getLevel p ∧
    List.Forall₂ (SameAppender w w') (w.logger p).appenders (w'.logger q).appenders

/-- The dump decodes to the definitions of the loggers, and setting "logs" to these on a
fresh manager recreates the loggers. -/
def DumpReloads (env : Env) (w : LogSystem) : Prop :=
  ∃ (s : LogSet) (t : LogsState), (w.toYamlString env.yaml >>= decodeSet env.yaml) = .ret s ∧
    s.toList = (w.loggerMap.toList.map fun i => w.definitionOf i.2) ∧
    LogsState.initial.setValue env s = .ret t ∧ Recreates w t.world

/-- No logger is at `ERROR`, no appender has an empty pattern, and the files can be
opened. -/
structure Dumpable (env : Env) (w : LogSystem) : Prop where
  level : ∀ n p, w.loggerMap.get? n = some p → w.getLevel p ≠ .error
  pattern : ∀ n p, w.loggerMap.get? n = some p → ∀ a ∈ (w.logger p).appenders,
    w.patternOf a ≠ some ""
  opens : ∀ n p, w.loggerMap.get? n = some p → ∀ a ∈ (w.logger p).appenders,
    ∀ filename, (w.appender a).kind = .file filename → env.canOpen filename = true

variable {env : Env} {s : LogSet} {t : LogsState}

theorem dumpedDefinition_eq_iff (w : LogSystem) (p : Ptr Logger) :
    w.dumpedDefinition p = w.definitionOf p ↔ w.getLevel p ≠ .error := by
  rw [← LogLevel.fromString_toString_eq_iff]
  unfold dumpedDefinition
  constructor
  · intro h
    exact congrArg LogDefinition.level h
  · intro h
    rw [h]
    rfl

theorem deployable_definitionOf_iff (env : Env) (w : LogSystem) (p : Ptr Logger) :
    Deployable env (w.definitionOf p) ↔ ∀ a ∈ (w.logger p).appenders,
      ∀ filename, (w.appender a).kind = .file filename → env.canOpen filename = true := by
  unfold Deployable definitionOf
  rw [List.forall_mem_map]
  apply forall₂_congr
  intro a _
  unfold appenderDefinitionOf
  cases (w.appender a).kind with
  | stdout => simp
  | file filename => simp

/-- No formatter of a manager that was set up by the listener has an empty pattern. -/
theorem patternOf_ne_empty (h : LogsState.initial.setValue env s = .ret t) (b : Ptr LogAppender) :
    t.world.patternOf b ≠ some "" := by
  have hsteps : Steps LogSystem.init t.world := (LogsState.setValue_patternSteps wf_init h).steps
  have hall : t.world.AllFormatters fun x => x.pattern ≠ "" := by
    refine hsteps.allFormatters ?_ ?_
    · intro f hf
      obtain rfl : f = ⟨0⟩ := Ptr.ext (Nat.lt_one_iff.mp hf)
      decide
    · intro pattern
      by_cases hp : pattern = ""
      · rw [hp, LogFormatter.new_empty_pattern]
        decide
      · rwa [LogFormatter.new_pattern hp]
  intro hb
  obtain ⟨f, hf, hpat⟩ := Option.map_eq_some_iff.mp hb
  exact hall f ((hsteps.wf wf_init).appender_formatter_mem b f hf) hpat

/-- An appender made from the definition of `a` is like `a`, unless the pattern of `a`
is empty. -/
theorem AppenderMatches.sameAppender {w' : LogSystem} {q : Ptr Logger} {a b : Ptr LogAppender}
    (h : w'.AppenderMatches q (w.appenderDefinitionOf a) b) {f : Ptr LogFormatter}
    (hf : (w.appender a).formatter = some f) (herr : parseFails (w.formatter f).pattern = false)
    (hne : w.patternOf a ≠ some "") : SameAppender w w' a b := by
  have hpat : w.patternOf a = some (w.formatter f).pattern := by rw [patternOf, hf]; rfl
  have hne' : (w.formatter f).pattern ≠ "" := fun h => hne (by rw [hpat, h])
  have hkind := h.kind
  rw [kind?_appenderDefinitionOf] at hkind
  refine ⟨(Option.some.inj hkind).symm, ?_⟩
  have hfmt := h.formatter
  rw [pattern_appenderDefinitionOf, hpat, Option.getD_some, FormatterOf,
    if_pos ⟨hne', (LogFormatter.new_error hne').trans herr⟩] at hfmt
  obtain ⟨x, hx, _, hxpat, _⟩ := hfmt
  rw [patternOf, hx, hpat, ← hxpat]
  rfl

theorem mem_definitions (hlist : s.toList = w.loggerMap.toList.map fun i => w.definitionOf i.2)
    {n : String} {p : Ptr Logger} (hp : w.loggerMap.get? n = some p) : w.definitionOf p ∈ s := by
  rw [SortedBy.mem_def, hlist]
  exact List.mem_map.mpr ⟨(n, p), SortedMap.get?_eq_some.mp hp, rfl⟩

/-- **The listener recreates the loggers** from their definitions. -/
theorem recreates_of_setValue (hreach : w.Reachable) (hfmt : w.Formatted) (hd : Dumpable env w)
    (hlist : s.toList = w.loggerMap.toList.map fun i => w.definitionOf i.2)
    (h : LogsState.initial.setValue env s = .ret t) : Recreates w t.world := by
  have hw : w.WF := hreach.wf
  have hval : t.value = s := (LogsState.setValue_spec wf_init h).1
  have hconf := LogsState.setValue_configured wf_init configured_initial h
  have hmirrors : ∀ n p, w.loggerMap.get? n = some p → t.world.Mirrors (w.definitionOf p) := by
    intro n p hp
    exact hconf _ (hval ▸ mem_definitions hlist hp)
  constructor
  · intro n
    cases hn : w.loggerMap.get? n with
    | some p =>
        obtain ⟨q, hq, _⟩ := hmirrors n p hn
        have hq' : t.world.loggerMap.get? n = some q := by
          rw [← hw.map_name hn]
          exact hq
        rw [hq']
        rfl
    | none =>
        -- a logger of this name would have to come from a definition
        have hnew : s.find? n = none := by
          rw [SortedBy.find?_eq_none]
          intro d hd hname
          rw [SortedBy.mem_def, hlist] at hd
          obtain ⟨⟨m, p⟩, hm, rfl⟩ := List.mem_map.mp hd
          have hp : w.loggerMap.get? m = some p := SortedMap.get?_eq_some.mpr hm
          obtain rfl : m = n := (hw.map_name hp).symm.trans hname
          rw [hp] at hn
          cases hn
        rw [(LogsState.setValue_unnamed wf_init h rfl hnew).map]
        rfl
  · intro n p hp
    obtain ⟨q, hq, hlevel, hall⟩ := hmirrors n p hp
    refine ⟨q, (hw.map_name hp) ▸ hq, hlevel, ?_⟩
    have hall' := List.forall₂_map_left_iff.mp hall
    refine List.forall₂_iff_get.mpr ⟨hall'.length_eq, fun i h₁ h₂ => ?_⟩
    have hmem : (w.logger p).appenders.get ⟨i, h₁⟩ ∈ (w.logger p).appenders := List.get_mem _ _
    obtain ⟨f, hf, herr⟩ := hfmt n p hp _ hmem
    have hfm : f ∈ w.formatters := hw.appender_formatter_mem _ f hf
    exact (hall'.get h₁ h₂).sameAppender hf (hreach.parses f hfm herr) (hd.pattern n p hp _ hmem)

/-- **A dump can be reloaded exactly when no logger is at `ERROR`, no appender has an
empty pattern, and the files open.** -/
theorem dumpReloads_iff (hY : env.yaml.Faithful) (hreach : w.Reachable) (hfmt : w.Formatted) :
    DumpReloads env w ↔ Dumpable env w := by
  obtain ⟨s₀, hdecode, hlist₀⟩ := decodeSet_toYamlString hY hreach.wf
  constructor
  · rintro ⟨s, t, hs, hlist, ht, hrec⟩
    rw [hdecode] at hs
    obtain rfl := Outcome.ret.inj hs
    -- the two lists are the same, so no logger comes back different
    have hdef : ∀ n p, w.loggerMap.get? n = some p → w.dumpedDefinition p = w.definitionOf p := by
      intro n p hp
      exact List.map_inj_left.mp (hlist₀.symm.trans hlist) (n, p) (SortedMap.get?_eq_some.mp hp)
    refine ⟨fun n p hp => (dumpedDefinition_eq_iff w p).mp (hdef n p hp), ?_, ?_⟩
    · intro n p hp a ha hempty
      obtain ⟨q, _, _, hall⟩ := hrec.logger n p hp
      -- the counterpart of `a` would have an empty pattern, which the listener never gives
      obtain ⟨i, hi⟩ := List.get_of_mem ha
      have hb := (hall.get i.isLt (hall.length_eq ▸ i.isLt)).pattern
      rw [hi, hempty] at hb
      exact patternOf_ne_empty ht _ hb
    · intro n p hp
      rw [← deployable_definitionOf_iff]
      have hmem := mem_definitions hlist hp
      unfold LogsState.setValue at ht
      split_ifs at ht with hnew
      · rw [hnew] at hmem
        exact absurd hmem (SortedBy.not_mem_empty _)
      · obtain ⟨w', hw', _⟩ := Outcome.bind_eq_ret.mp ht
        exact (onLogsChanged_returns_iff _ _ _).mp ⟨w', hw'⟩ _ hmem nofun
  · intro hd
    -- with no logger at `ERROR` the levels come back too
    have hlist : s₀.toList = w.loggerMap.toList.map fun i => w.definitionOf i.2 := by
      rw [hlist₀]
      apply List.map_congr_left
      rintro ⟨n, p⟩ hp
      exact (dumpedDefinition_eq_iff w p).mpr (hd.level n p (SortedMap.get?_eq_some.mpr hp))
    have hdeploy : ∀ d ∈ s₀, Deployable env d := by
      intro d hds
      rw [SortedBy.mem_def, hlist] at hds
      obtain ⟨⟨n, p⟩, hp, rfl⟩ := List.mem_map.mp hds
      exact (deployable_definitionOf_iff env w p).mpr
        (hd.opens n p (SortedMap.get?_eq_some.mpr hp))
    obtain ⟨t, ht⟩ := LogsStep.setValue_total env s₀ .initial hdeploy
    exact ⟨s₀, t, hdecode, hlist, ht, recreates_of_setValue hreach hfmt hd hlist ht⟩

/-- A manager with one logger, which writes to stdout with a pattern of its own. -/
def systemWorld (level : LogLevel) : LogSystem :=
  ((((init.getLogger "system").1.newStdoutLogAppender).setAppenderPattern ⟨1⟩ "msg %m").addAppender
    ⟨1⟩ ⟨1⟩).setLevel ⟨1⟩ level

theorem systemWorld_reachable (level : LogLevel) : (systemWorld level).Reachable := by
  let w₁ := (init.getLogger "system").1
  let w₂ := w₁.newStdoutLogAppender
  let w₃ := w₂.setAppenderPattern ⟨1⟩ "msg %m"
  let w₄ := w₃.addAppender ⟨1⟩ ⟨1⟩
  have h₁ : LogStep init (.getLogger "system") w₁ := ⟨Env.sample [], rfl⟩
  have h₂ : LogStep w₁ .newStdoutLogAppender w₂ := ⟨Env.sample [], rfl⟩
  have h₃ : LogStep w₂ (.setAppenderPattern ⟨1⟩ "msg %m") w₃ := ⟨Env.sample [], rfl⟩
  have h₄ : LogStep w₃ (.addAppender ⟨1⟩ ⟨1⟩) w₄ := ⟨Env.sample [], rfl⟩
  have h₅ : LogStep w₄ (.setLevel ⟨1⟩ level) (systemWorld level) := ⟨Env.sample [], rfl⟩
  exact ⟨_, ((((Run.nil.snoc h₁).snoc h₂).snoc h₃).snoc h₄).snoc h₅⟩

theorem systemWorld_formatted (level : LogLevel) : (systemWorld level).Formatted := by
  intro n p hp a ha
  obtain ⟨rfl, rfl⟩ := Prod.mk.inj (List.mem_singleton.mp (SortedMap.get?_eq_some.mp hp))
  obtain rfl := List.mem_singleton.mp ha
  have herr : (LogFormatter.new "msg %m").error = false := by decide
  exact ⟨⟨2⟩, rfl, herr⟩

/-- The texts that are printed on the way. -/
def dumpRows : List (Node × String) :=
  [((systemWorld .all).appenderNode ⟨1⟩, "type: StdoutLogAppender\npattern: msg %m"),
    ((systemWorld .all).loggerNode ⟨1⟩,
      "name: system\nlevel: ALL\nappender:\n  - type: StdoutLogAppender\n    pattern: msg %m"),
    (.seq [(systemWorld .all).loggerNode ⟨1⟩],
      "- name: system\n  level: ALL\n  appender:\n    - type: StdoutLogAppender\n      pattern: msg %m")]

theorem dumpReloads_iff_system :
    DumpReloads (Env.sample dumpRows) (systemWorld .all) ↔
      Dumpable (Env.sample dumpRows) (systemWorld .all) :=
  dumpReloads_iff (Env.sample_faithful ⟨by decide, by decide⟩) (systemWorld_reachable .all)
    (systemWorld_formatted .all)

/-- The same logger at `ERROR` is read back switched off. -/
theorem dump_loses_error :
    let env := Env.sample []
    let w := systemWorld .error
    env.yaml.Faithful ∧ w.Reachable ∧ w.Formatted ∧
      (∃ s : LogSet, (w.toYamlString env.yaml >>= decodeSet env.yaml) = .ret s ∧
        s.toList = [⟨"system", .off, "", [⟨2, "msg %m", ""⟩]⟩]) ∧
      ¬ DumpReloads env w := by
  intro env w
  have hY : env.yaml.Faithful := Env.sample_faithful unambiguous_nil
  have hreach : w.Reachable := systemWorld_reachable .error
  obtain ⟨s, hs, hlist⟩ := decodeSet_toYamlString hY hreach.wf
  have hdumped : w.loggerMap.toList.map (fun i => w.dumpedDefinition i.2) =
      [⟨"system", .off, "", [⟨2, "msg %m", ""⟩]⟩] := by decide
  refine ⟨hY, hreach, systemWorld_formatted .error, ⟨s, hs, hlist.trans hdumped⟩, ?_⟩
  rintro ⟨s', t, hs', hlist', _⟩
  rw [hs] at hs'
  obtain rfl := Outcome.ret.inj hs'
  rw [hlist, hdumped] at hlist'
  exact absurd hlist' (by decide)

end LogSystem

end Sylar
