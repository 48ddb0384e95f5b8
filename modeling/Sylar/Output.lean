/-
Sylar/Output.lean

From the configuration to what is printed (log.cpp).

The definitions in "logs" say which appenders a logger has, with which patterns.
`configured_output` follows them to the end: however the variable has been set
over the run, what statements then print for a logger that is defined is there once
for each appender of its definition, in their order, formatted by the pattern the
definition gives, or by the formatter of the logger where it gives none.
-/
import Sylar.Configured
import Sylar.Statements

namespace Sylar

open Transition

namespace LogFormatter

/-- A formatter that nobody has given another pattern. -/
def Pristine (f : LogFormatter) : Prop := f = new f.pattern

theorem pristine_new (pattern : String) : (new pattern).Pristine := by
  by_cases h : pattern = ""
  · subst h
    show new "" = new defaultPattern
    rw [new, new, if_pos rfl, if_neg (by decide : defaultPattern ≠ "")]
  · rw [Pristine, new_pattern h]

end LogFormatter

variable {s s' t : LogsState} {tr : List (Taken LogsState LogsOp)} {p : Ptr Logger}

/-- Formatters stay as they were made as long as nobody calls `setPattern`. -/
theorem LogsStep.pristine {op : LogsOp} (hw : s.world.WF)
    (h : s.world.AllFormatters LogFormatter.Pristine) (hs : LogsStep s op s')
    (hop : ∀ f pattern, op ≠ .other (.setPattern f pattern)) :
    s'.world.AllFormatters LogFormatter.Pristine := by
  cases op with
  | setValue env new =>
      exact (LogsState.setValue_patternSteps hw hs).steps.allFormatters h LogFormatter.pristine_new
  | other op =>
      have hsteps : LogSystem.Steps s.world s'.world := by
        refine ⟨_, Run.nil.snoc hs.2, fun x hx f pattern hlabel => ?_⟩
        obtain rfl := List.mem_singleton.mp hx
        exact hop f pattern (congrArg LogsOp.other hlabel)
      exact hsteps.allFormatters h LogFormatter.pristine_new

namespace LogSystem

/-- The record `r` is what the appender definition `a` of the logger `p` asks for. -/
def Prints (w : LogSystem) (p : Ptr Logger) (x : Env × LogEvent) (a : AppenderDefinition)
    (r : Ptr LogAppender × Option String) : Prop :=
  a.kind? = some (w.appender r.1).kind ∧
    if a.pattern ≠ "" ∧ (LogFormatter.new a.pattern).error = false then
      r.2 = some ((LogFormatter.new a.pattern).format x.1 x.2.level x.2)
    else r.2 = (w.logger p).formatter.map fun f => (w.formatter f).format x.1 x.2.level x.2

theorem AppenderMatches.prints {w : LogSystem} (h : w.AllFormatters LogFormatter.Pristine)
    {a : AppenderDefinition} {ap : Ptr LogAppender} (ha : w.AppenderMatches p a ap)
    (x : Env × LogEvent) :
    w.Prints p x a (ap, (w.appender ap).formatter.map fun f =>
      (w.formatter f).format x.1 x.2.level x.2) := by
  refine ⟨ha.kind, ?_⟩
  have hf := ha.formatter
  unfold FormatterOf at hf
  split_ifs at hf ⊢
  · -- the formatter has the pattern, and is what parsing it gives
    obtain ⟨f, hsome, hmem, hpattern, _⟩ := hf
    have hnew : w.formatter f = LogFormatter.new a.pattern := hpattern ▸ h f hmem
    rw [hsome, Option.map_some, hnew]
  · rw [hf]

/-- What a logger prints is what its definition says, appender by appender. -/
theorem LoggerMatches.prints {w : LogSystem} (h : w.AllFormatters LogFormatter.Pristine)
    {d : LogDefinition} (hd : w.LoggerMatches p d) {x : Env × LogEvent} (hx : x.2.logger = p) :
    List.Forall₂ (w.Prints p x) d.appenders (Statements.printed w x) := by
  subst hx
  refine List.forall₂_map_right_iff.mpr (hd.appenders.imp fun a ap ha => ?_)
  exact ha.prints h x

/-- Where the loggers are what the definitions in `v` say, statements print what those say. -/
theorem printed_of_mirrors {w : LogSystem} (h : w.AllFormatters LogFormatter.Pristine)
    {v : LogSet} (hv : ∀ d ∈ v, w.Mirrors d) {ss : Statements} (hss : ss.Over w) :
    (∃ new, (ss.exec none w).records = w.records ++ new ∧
      new.map (fun r => (r.appender, r.text)) =
        (ss.heard w.getLevel).flatMap (Statements.printed w)) ∧
    ∀ d ∈ v, ∃ p, w.loggerMap.get? d.name = some p ∧
      ∀ x ∈ ss.heard w.getLevel, x.2.logger = p →
        d.level ≤ x.2.level ∧ List.Forall₂ (w.Prints p x) d.appenders (Statements.printed w x) := by
  have hran := Statements.exec_spec ss none hss fun e he => by cases he
  refine ⟨hran.records, fun d hd => ?_⟩
  obtain ⟨p, hp, hmatches⟩ := hv d hd
  refine ⟨p, hp, fun x hx hlogger => ⟨?_, hmatches.prints h hlogger⟩⟩
  rw [← hmatches.level, ← hlogger]
  exact (Statements.heard_bounds ss _ hx).1

end LogSystem

/-- **From the configuration to the records**: after any run of values of "logs" in which nothing
else changes the loggers that are named, statements print, for each event that is heard on a
logger that is defined, one record for each appender of the definition, in their order and of
their kind, formatted as the definition says. -/
theorem configured_output (hrun : Run LogsStep .initial tr t) (hop : ∀ x ∈ tr, LeavesAlone x)
    (hpattern : ∀ x ∈ tr, ∀ f pattern, x.label ≠ .other (.setPattern f pattern))
    {ss : Statements} (hss : ss.Over t.world) :
    (∃ new, (ss.exec none t.world).records = t.world.records ++ new ∧
      new.map (fun r => (r.appender, r.text)) =
        (ss.heard t.world.getLevel).flatMap (Statements.printed t.world)) ∧
    ∀ d ∈ t.value, ∃ p, t.world.loggerMap.get? d.name = some p ∧
      ∀ x ∈ ss.heard t.world.getLevel, x.2.logger = p →
        d.level ≤ x.2.level ∧ List.Forall₂ (t.world.Prints p x) d.appenders
          (Statements.printed t.world x) := by
  -- the loggers are as defined, and their formatters as made
  have hI : t.world.WF ∧ Configured t ∧ t.world.AllFormatters LogFormatter.Pristine := by
    refine hrun.invariant_of
      (I := fun s => s.world.WF ∧ Configured s ∧ s.world.AllFormatters LogFormatter.Pristine)
      (C := fun x => LeavesAlone x ∧ ∀ f pattern, x.label ≠ .other (.setPattern f pattern))
      ⟨LogSystem.wf_init, configured_initial, fun f hf => ?_⟩ ?_ fun x hx => ⟨hop x hx, hpattern x hx⟩
    · obtain rfl : f = ⟨0⟩ := Ptr.ext (Nat.lt_one_iff.mp hf)
      exact LogFormatter.pristine_new ""
    · rintro s op s' ⟨hw, hconf, hpristine⟩ hs ⟨halone, hno⟩
      exact ⟨hs.wf hw, hs.configured hw hconf halone, hs.pristine hw hpristine hno⟩
  obtain ⟨_, hconf, hpristine⟩ := hI
  exact LogSystem.printed_of_mirrors hpristine hconf hss

/-- "logs" is set to one definition, and a statement is executed on the logger it defines: one
record is printed. -/
theorem configured_output_systemSet : ∃ t p x,
    LogsStep .initial (.setValue (Env.sample systemRows) systemSet) t ∧
      t.world.loggerMap.get? "system" = some p ∧ x.2.logger = p ∧ x.2.level = .info ∧
      List.Forall₂ (t.world.Prints p x) [⟨2, "", ""⟩] (Statements.printed t.world x) := by
  obtain ⟨t, ht⟩ := systemSet_step
  have hw : t.world.WF := LogsStep.wf (s := .initial) LogSystem.wf_init ht
  obtain ⟨hval, ⟨hnew, _⟩ | ⟨_, hc⟩⟩ := LogsState.setValue_spec (s := .initial) LogSystem.wf_init ht
  · exact absurd hnew (by decide)
  obtain ⟨p, hp, hmatches⟩ := hc.mirrors systemDefinition (List.mem_singleton.mpr rfl) (by decide)
  let env := Env.sample []
  let x := Statements.newEvent env p .info "main.cpp" 1 "x"
  let ss : Statements := .log env p .info "main.cpp" 1 (.text "x" .nil) .nil
  have hss : ss.Over t.world := ⟨hw.map_mem hp, trivial, trivial⟩
  have hlevel : t.world.getLevel p = .info := hmatches.level
  have hx : (env, x) ∈ ss.heard t.world.getLevel :=
    Statements.newEvent_mem_heard hlevel.le env "main.cpp" 1 "x"
  have hrun := configured_output (Run.nil.snoc ht)
    (fun y hy op h => by
      rw [List.mem_singleton.mp hy] at h
      cases h)
    (fun y hy f pattern h => by
      rw [List.mem_singleton.mp hy] at h
      cases h) hss
  obtain ⟨q, hq, hall⟩ := hrun.2 systemDefinition (hval ▸ List.mem_singleton.mpr rfl)
  obtain rfl := Option.some.inj (hp.symm.trans hq)
  exact ⟨t, p, (env, x), ht, hp, rfl, rfl, (hall _ hx rfl).2⟩

end Sylar
