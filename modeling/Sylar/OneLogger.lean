/-
Sylar/OneLogger.lean

One logger per name.

The manager keeps the root logger outside its map, under no name, although the
logger itself carries the name "root"; `getLogger`, and with it the listener on
"logs", only looks into the map.  Names in the map are unique in every reachable
state.  So two loggers with one name are handed out in one case only: somebody
asks for "root" by name, with `getLogger` or through a definition
(`one_logger_per_name_iff`).

`Stable` says what no operation ever changes: the root pointer, the entries of
the map, and the name a logger carries.
-/
import Sylar.Configured

namespace Sylar

open Transition

namespace LogSystem

variable {w w' w'' : LogSystem}

/-! ### What never changes -/

/-- The root, the entries of the map and the names of the loggers are still what they
were. -/
structure Stable (w w' : LogSystem) : Prop where
  root : w'.root = w.root
  map : ∀ {n p}, w.loggerMap.get? n = some p → w'.loggerMap.get? n = some p
  logger : ∀ p ∈ w.loggers, p ∈ w'.loggers ∧ (w'.logger p).logname = (w.logger p).logname

theorem Stable.refl (w : LogSystem) : Stable w w :=
  ⟨rfl, fun h => h, fun _ hp => ⟨hp, rfl⟩⟩

theorem Stable.trans (h : Stable w w') (h' : Stable w' w'') : Stable w w'' := by
  refine ⟨h'.root.trans h.root, fun hn => h'.map (h.map hn), fun p hp => ?_⟩
  obtain ⟨hp', hname⟩ := h.logger p hp
  obtain ⟨hp'', hname'⟩ := h'.logger p hp'
  exact ⟨hp'', hname'.trans hname⟩

/-- Other objects come and go. -/
theorem Stable.of_eq (hroot : w'.root = w.root) (hmap : w'.loggerMap = w.loggerMap)
    (hloggers : w'.loggers = w.loggers) : Stable w w' := by
  refine ⟨hroot, fun hn => hmap ▸ hn, fun p hp => ⟨hloggers ▸ hp, ?_⟩⟩
  rw [LogSystem.logger, hloggers]

theorem Stable.modifyLogger (w : LogSystem) (p : Ptr Logger) (g : Logger → Logger)
    (hg : ∀ x, (g x).logname = x.logname) :
    Stable w { w with loggers := w.loggers.modify p g } :=
  ⟨rfl, fun h => h, fun q hq =>
    ⟨Arena.mem_modify.mpr hq, Arena.get_modify_proj w.loggers q p g Logger.logname hg⟩⟩

theorem Stable.newLogger (w : LogSystem) (name : String) : Stable w (w.newLogger name) :=
  ⟨rfl, fun h => h, fun _ hp =>
    ⟨Arena.mem_alloc_of_mem _ hp, congrArg Logger.logname (Arena.get_alloc_of_mem _ hp)⟩⟩

/-- A logger that is found is returned; only a missing one is made. -/
theorem Stable.getLogger (w : LogSystem) (name : String) : Stable w (w.getLogger name).1 := by
  unfold LogSystem.getLogger
  split
  · exact .refl w
  · next hnone =>
      obtain ⟨hroot, _, hlogger⟩ := Stable.newLogger w name
      refine ⟨hroot, fun {n p} hn => ?_, hlogger⟩
      -- the new entry replaces none
      have hne : name ≠ n := by
        rintro rfl
        rw [hnone] at hn
        cases hn
      exact (SortedMap.get?_set_of_ne _ _ hne).trans hn

end LogSystem

open LogSystem

theorem LogStep.stable {w w' : LogSystem} {op : LogOp} (hs : LogStep w op w') : Stable w w' := by
  obtain ⟨env, hs⟩ := hs
  cases LogOp.applied hs with
  | newLogFormatter pattern => exact .of_eq rfl rfl rfl
  | setPattern _ pattern => exact .of_eq rfl rfl rfl
  | newStdoutLogAppender => exact .of_eq rfl rfl rfl
  | newFileLogAppender _ => exact .of_eq rfl rfl rfl
  | setAppenderFormatter _ _ => exact .of_eq rfl rfl rfl
  | setAppenderPattern _ pattern =>
      unfold LogSystem.setAppenderPattern
      split
      · exact .refl w
      · exact .of_eq rfl rfl rfl
  | newLogger name => exact .newLogger w name
  | @setLevel p _ level => exact .modifyLogger w p _ fun _ => rfl
  | @addAppender p a _ _ =>
      -- the formatter is handed over first
      have hfmt : Stable w (if (w.appender a).formatter = none then
          w.setAppenderFormatter a (w.logger p).formatter else w) := by
        split
        · exact .of_eq rfl rfl rfl
        · exact .refl w
      exact hfmt.trans (.modifyLogger _ p _ fun _ => rfl)
  | @delAppender p _ a => exact .modifyLogger w p _ fun _ => rfl
  | @clearAppender p _ => exact .modifyLogger w p _ fun _ => rfl
  | @setLoggerFormatter p f _ _ => exact .modifyLogger w p _ fun _ => rfl
  | @setLoggerPattern p _ pattern =>
      unfold LogSystem.setLoggerPattern
      split
      · exact .refl w
      · have hnew : Stable w (w.newLogFormatter pattern) := .of_eq rfl rfl rfl
        exact hnew.trans (.modifyLogger _ p
          (fun x => { x with formatter := some w.formatters.fresh }) fun _ => rfl)
  | @newLogEvent p _ level filename line =>
      -- the constructor of the event sets the logger's level
      have hlevel : Stable w (w.setLevel p level) := .modifyLogger w p _ fun _ => rfl
      exact hlevel.trans (.of_eq rfl rfl rfl)
  | write _ text => exact .of_eq rfl rfl rfl
  | log _ _ level =>
      unfold LogSystem.log
      split
      · exact .of_eq rfl rfl rfl
      · exact .refl w
  | getLogger name => exact .getLogger w name

theorem LogSystem.PatternSteps.stable {w w' : LogSystem} (h : PatternSteps w w') :
    Stable w w' := by
  obtain ⟨tr, hr, _⟩ := h
  exact hr.invariant (I := fun v => Stable w v) (.refl w) fun _ _ _ hv hs => hv.trans hs.stable

/-! ### Runs of the manager -/

/-- What happens to the manager: its root is asked for, or something happens to "logs" or
to the loggers; `getLogger` is one of those operations. -/
inductive ManagerOp
  | getRoot
  | logs (op : LogsOp)

/-- One step. -/
def ManagerStep (s : LogsState) : ManagerOp → LogsState → Prop
  | .getRoot, s' => s' = s
  | .logs op, s' => LogsStep s op s'

/-- The names the listener asks the manager for: those of the definitions it applies, and,
if there are any, those of the definitions that have gone. -/
def Visited (old new : LogSet) (n : String) : Prop :=
  (∃ d ∈ new, d.name = n ∧ old.find? d.name ≠ some d) ∨
    ((∃ d ∈ new, old.find? d.name ≠ some d) ∧ Removed old new n)

/-- Does the step ask `getLogger` for the name `n`? -/
def AsksFor (x : Taken LogsState ManagerOp) (n : String) : Prop :=
  match x.label with
  | .logs (.other (.getLogger name)) => n = name
  | .logs (.setValue _ new) => Visited x.source.value new n
  | _ => False

/-- The logger `p` is handed out in this step: returned by `getRoot` or `getLogger`, or
obtained by the listener, which logs to the root logger before it asks for names.  What the
listener got for a name is what the map holds under it afterwards (`Stable`). -/
def HandsOut (x : Taken LogsState ManagerOp) (p : Ptr Logger) : Prop :=
  match x.label with
  | .getRoot => p = x.source.world.root
  | .logs (.other (.getLogger name)) => p = (x.source.world.getLogger name).2
  | .logs (.setValue _ new) => new ≠ x.source.value ∧ (p = x.source.world.root ∨
      ∃ n, Visited x.source.value new n ∧ x.target.world.loggerMap.get? n = some p)
  | _ => False

/-- A definition named "root" that the step applies ends up on the root logger. -/
def ConfiguresRoot (x : Taken LogsState ManagerOp) : Prop :=
  ∀ env new, x.label = .logs (.setValue env new) →
    ∀ d ∈ new, d.name = "root" → x.source.value.find? d.name ≠ some d →
      x.target.world.LoggerMatches x.target.world.root d

/-- One logger per name, the root included, in a run that ends in `t`. -/
structure OneLoggerPerName (tr : List (Taken LogsState ManagerOp)) (t : LogsState) : Prop where
  unique : ∀ x ∈ tr, ∀ y ∈ tr, ∀ p q, HandsOut x p → HandsOut y q →
    (t.world.logger p).logname = (t.world.logger q).logname → p = q
  named_root : ∀ x ∈ tr, x.label = .logs (.other (.getLogger "root")) →
    (x.source.world.getLogger "root").2 = x.source.world.root
  configures_root : ∀ x ∈ tr, ConfiguresRoot x

variable {s s' t : LogsState} {op : ManagerOp} {tr : List (Taken LogsState ManagerOp)}

/-! ### The invariant -/

/-- The root logger is called "root", and every definition has a logger in the map. -/
structure Known (s : LogsState) : Prop where
  wf : s.world.WF
  root_name : (s.world.logger s.world.root).logname = "root"
  defined : ∀ d ∈ s.value, ∃ p, s.world.loggerMap.get? d.name = some p

theorem known_initial : Known .initial :=
  ⟨wf_init, by decide, fun d hd => absurd hd (SortedBy.not_mem_empty d)⟩

theorem ManagerStep.stable (hw : s.world.WF) (h : ManagerStep s op s') :
    Stable s.world s'.world := by
  cases op with
  | getRoot => exact h ▸ .refl _
  | logs op =>
      cases op with
      | setValue env new => exact (LogsState.setValue_patternSteps hw h).stable
      | other op => exact h.2.stable

/-- Every definition of the new value has a logger: it had one, or it has been given one. -/
theorem Known.defined_setValue {env : Env} {new : LogSet} (hs : Known s)
    (h : s.setValue env new = .ret s') :
    ∀ d ∈ s'.value, ∃ p, s'.world.loggerMap.get? d.name = some p := by
  have hstable := (LogsState.setValue_patternSteps hs.wf h).stable
  obtain ⟨hval, ⟨_, rfl⟩ | ⟨_, hc⟩⟩ := LogsState.setValue_spec hs.wf h
  · exact hs.defined
  · rw [hval]
    intro d hd
    by_cases hfind : s.value.find? d.name = some d
    · obtain ⟨p, hp⟩ := hs.defined d (SortedBy.find?_eq_some.mp hfind).1
      exact ⟨p, hstable.map hp⟩
    · obtain ⟨p, hp, _⟩ := hc.mirrors d hd hfind
      exact ⟨p, hp⟩

theorem Known.step (hs : Known s) (h : ManagerStep s op s') : Known s' := by
  have hstable := h.stable hs.wf
  have hroot : (s'.world.logger s'.world.root).logname = "root" := by
    rw [hstable.root, (hstable.logger _ hs.wf.root_mem).2]
    exact hs.root_name
  cases op with
  | getRoot => exact h ▸ hs
  | logs op =>
      refine ⟨LogsStep.wf hs.wf h, hroot, ?_⟩
      cases op with
      | setValue env new => exact hs.defined_setValue h
      | other op =>
          intro d hd
          obtain ⟨p, hp⟩ := hs.defined d (h.1 ▸ hd)
          exact ⟨p, hstable.map hp⟩

/-! ### What has been handed out -/

/-- The logger `p` is the root, or stored under a name the step asks for. -/
def Held (w : LogSystem) (x : Taken LogsState ManagerOp) (p : Ptr Logger) : Prop :=
  p = w.root ∨ ∃ n, AsksFor x n ∧ w.loggerMap.get? n = some p

/-- **Step lemma**: what a step hands out is held after it, and for every name it asks for
the logger stored under the name is handed out. -/
theorem ManagerStep.hands (hs : Known s) (h : ManagerStep s op s') :
    (∀ p, HandsOut ⟨s, op, s'⟩ p → Held s'.world ⟨s, op, s'⟩ p) ∧
      ∀ n, AsksFor ⟨s, op, s'⟩ n →
        ∃ p, s'.world.loggerMap.get? n = some p ∧ HandsOut ⟨s, op, s'⟩ p := by
  have hstable := h.stable hs.wf
  cases op with
  | getRoot =>
      refine ⟨?_, fun n hn => hn.elim⟩
      rintro p rfl
      exact Or.inl hstable.root.symm
  | logs op =>
      cases op with
      | setValue env new =>
          constructor
          · rintro p ⟨_, rfl | hp⟩
            · exact Or.inl hstable.root.symm
            · exact Or.inr hp
          · intro n hn
            obtain ⟨hval, ⟨hnew, rfl⟩ | ⟨hnew, hc⟩⟩ := LogsState.setValue_spec hs.wf h
            · -- the value was this one already: no definition is applied
              have hsame : ¬ ∃ d ∈ new, s'.value.find? d.name ≠ some d := by
                rintro ⟨d, hd, hne⟩
                exact hne (SortedBy.find?_eq_some.mpr ⟨hnew ▸ hd, rfl⟩)
              rcases hn with ⟨d, hd, _, hne⟩ | hn
              · exact absurd ⟨d, hd, hne⟩ hsame
              · exact absurd hn.1 hsame
            · have hmap : ∃ p, s'.world.loggerMap.get? n = some p := by
                rcases hn with ⟨d, hd, rfl, hne⟩ | ⟨_, ⟨d, hd, rfl⟩, _⟩
                · obtain ⟨p, hp, _⟩ := hc.mirrors d hd hne
                  exact ⟨p, hp⟩
                · obtain ⟨p, hp⟩ := hs.defined d hd
                  exact ⟨p, hstable.map hp⟩
              obtain ⟨p, hp⟩ := hmap
              exact ⟨p, hp, hnew, Or.inr ⟨n, hn, hp⟩⟩
      | other op =>
          obtain ⟨_, env, hop⟩ := h
          cases op with
          | getLogger name =>
              have hmap : s'.world.loggerMap.get? name = some (s.world.getLogger name).2 := by
                rw [← Option.some.inj hop]
                exact getLogger_map s.world name
              constructor
              · rintro p rfl
                exact Or.inr ⟨name, rfl, hmap⟩
              · rintro n rfl
                exact ⟨_, hmap, rfl⟩
          | _ => exact ⟨fun p hp => hp.elim, fun n hn => hn.elim⟩

theorem Held.mono {w w' : LogSystem} {x : Taken LogsState ManagerOp} {p : Ptr Logger}
    (h : Held w x p) (hs : Stable w w') : Held w' x p := by
  rcases h with rfl | ⟨n, hn, hp⟩
  · exact Or.inl hs.root.symm
  · exact Or.inr ⟨n, hn, hs.map hp⟩

/-- **Run lemma.** -/
theorem ManagerRun.hands (hrun : Run ManagerStep .initial tr t) :
    Known t ∧ ∀ x ∈ tr, Known x.source ∧ x.source.world.root = t.world.root ∧
      (∀ p, HandsOut x p → Held t.world x p) ∧
      ∀ n, AsksFor x n → ∃ p, t.world.loggerMap.get? n = some p ∧ HandsOut x p := by
  induction hrun with
  | nil => exact ⟨known_initial, fun x hx => absurd hx List.not_mem_nil⟩
  | @snoc tr t op u hr hstep ih =>
      obtain ⟨ht, hall⟩ := ih
      have hstable := hstep.stable ht.wf
      refine ⟨ht.step hstep, fun x hx => ?_⟩
      rcases List.mem_append.mp hx with hx | hx
      · -- an earlier step: what was handed out is still where it was
        obtain ⟨hx, hroot, hheld, hasked⟩ := hall x hx
        refine ⟨hx, hroot.trans hstable.root.symm, fun p hp => (hheld p hp).mono hstable, ?_⟩
        intro n hn
        obtain ⟨p, hp, hout⟩ := hasked n hn
        exact ⟨p, hstable.map hp, hout⟩
      · obtain rfl := List.mem_singleton.mp hx
        exact ⟨ht, hstable.root.symm, ManagerStep.hands ht hstep⟩

/-! ### One logger per name -/

/-- **One logger per name, exactly when nobody asks for "root" by name.** -/
theorem one_logger_per_name_iff (hrun : Run ManagerStep .initial tr t) :
    OneLoggerPerName tr t ↔ ∀ x ∈ tr, ¬ AsksFor x "root" := by
  obtain ⟨ht, hall⟩ := ManagerRun.hands hrun
  constructor
  · rintro ⟨hunique, hnamed, _⟩ x hx hask
    obtain ⟨hknown, hroot, _, hasked⟩ := hall x hx
    obtain ⟨p, hp, hout⟩ := hasked "root" hask
    -- the logger stored under "root" is called "root", and is not the root logger
    have hne : p ≠ t.world.root := ht.wf.map_ne_root hp
    have hstep := (hrun.mem hx).2
    obtain ⟨u, op, u'⟩ := x
    cases op with
    | getRoot => exact hask
    | logs op =>
        cases op with
        | setValue env new =>
            have hout_root : HandsOut ⟨u, .logs (.setValue env new), u'⟩ u.world.root :=
              ⟨hout.1, Or.inl rfl⟩
            refine hne ((hunique _ hx _ hx p _ hout hout_root ?_).trans hroot)
            rw [ht.wf.map_name hp, show u.world.root = t.world.root from hroot, ht.root_name]
        | other op =>
            cases op with
            | getLogger name =>
                obtain rfl : "root" = name := hask
                obtain rfl : p = _ := hout
                exact hne ((hnamed _ hx rfl).trans hroot)
            | _ => exact hask
  · intro hno
    refine ⟨?_, ?_, ?_⟩
    · -- under a name other than "root", or as the root itself, there is one logger
      have hname : ∀ x ∈ tr, ∀ p, HandsOut x p → p ≠ t.world.root →
          t.world.loggerMap.get? (t.world.logger p).logname = some p ∧
            (t.world.logger p).logname ≠ "root" := by
        intro x hx p hp hne
        obtain ⟨n, hn, hget⟩ := ((hall x hx).2.2.1 p hp).resolve_left hne
        rw [ht.wf.map_name hget]
        exact ⟨hget, fun e => hno x hx (e ▸ hn)⟩
      intro x hx y hy p q hp hq heq
      by_cases hpr : p = t.world.root
      · by_contra hne
        apply (hname y hy q hq fun e => hne (hpr.trans e.symm)).2
        rw [← heq, hpr]
        exact ht.root_name
      · obtain ⟨hget, hpname⟩ := hname x hx p hp hpr
        by_cases hqr : q = t.world.root
        · exact absurd (heq.trans (hqr ▸ ht.root_name)) hpname
        · rw [heq] at hget
          exact Option.some.inj (hget.symm.trans (hname y hy q hq hqr).1)
    · intro x hx hlabel
      refine absurd ?_ (hno x hx)
      rw [AsksFor, hlabel]
    · intro x hx env new hlabel d hd hroot hne
      refine absurd ?_ (hno x hx)
      rw [AsksFor, hlabel]
      exact Or.inl ⟨d, hd, hroot, hne⟩

theorem one_logger_per_name_iff_system : ∃ t,
    let tr := [⟨.initial, .getRoot, .initial⟩,
      ⟨.initial, .logs (.other (.getLogger "system")), t⟩]
    Run ManagerStep .initial tr t ∧ (OneLoggerPerName tr t ↔ ∀ x ∈ tr, ¬ AsksFor x "root") := by
  have hstep : ManagerStep .initial (.logs (.other (.getLogger "system")))
      ⟨SortedBy.empty, (LogSystem.init.getLogger "system").1⟩ := ⟨rfl, Env.sample [], rfl⟩
  have hrun := (Run.nil.snoc (show ManagerStep .initial .getRoot .initial from rfl)).snoc hstep
  exact ⟨_, hrun, one_logger_per_name_iff hrun⟩

/-- The definition "root" of the configuration file that comes with the code. -/
def rootDefinition : LogDefinition :=
  ⟨"root", .info, "", [⟨1, "%d%T%m%n", "../data/log.txt"⟩, ⟨2, "%d%T%m%n", ""⟩]⟩

/-- The set with this definition. -/
def rootSet : LogSet := ⟨[rootDefinition], List.pairwise_singleton _ _⟩

/-- "logs" is set to it: the logger that is as defined is called "root", like the root
logger, but is another one. -/
theorem root_twice : ∃ t p,
    let tr := [⟨.initial, .logs (.setValue (Env.sample []) rootSet), t⟩]
    Run ManagerStep .initial tr t ∧ t.world.LoggerMatches p rootDefinition ∧
      (t.world.logger p).logname = (t.world.logger t.world.root).logname ∧
      p ≠ t.world.root ∧ ¬ OneLoggerPerName tr t := by
  obtain ⟨t, ht⟩ := LogsStep.setValue_total (Env.sample []) rootSet .initial <| by
    intro d hd a ha
    obtain rfl := List.mem_singleton.mp hd
    refine ⟨?_, fun _ => rfl⟩
    revert a
    decide
  have hstep : ManagerStep .initial (.logs (.setValue (Env.sample []) rootSet)) t := ht
  have hknown : Known t := known_initial.step hstep
  have hroot : t.world.root = LogSystem.init.root := (hstep.stable wf_init).root
  obtain ⟨_, ⟨hnew, _⟩ | ⟨hnew, hc⟩⟩ := LogsState.setValue_spec (s := .initial) wf_init ht
  · exact absurd hnew (by decide)
  have happlied : SortedBy.find? LogsState.initial.value rootDefinition.name ≠ some rootDefinition :=
    by decide
  obtain ⟨p, hp, hmatches⟩ := hc.mirrors rootDefinition (List.mem_singleton.mpr rfl) happlied
  have hname : (t.world.logger p).logname = (t.world.logger t.world.root).logname :=
    (hknown.wf.map_name hp).trans hknown.root_name.symm
  have hne : p ≠ t.world.root := hknown.wf.map_ne_root hp
  refine ⟨t, p, Run.nil.snoc hstep, hmatches, hname, hne, fun h => ?_⟩
  -- the listener has asked for both
  refine hne (h.unique _ List.mem_cons_self _ List.mem_cons_self p t.world.root
    ⟨hnew, Or.inr ⟨"root", Or.inl ⟨rootDefinition, ?_, rfl, happlied⟩, hp⟩⟩
    ⟨hnew, Or.inl hroot⟩ hname)
  exact List.mem_singleton.mpr rfl

end Sylar
