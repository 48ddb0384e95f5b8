/-
Sylar/Deployment.lean

From documents to what is printed (config.cpp, config.hpp, log.cpp, log.hpp).

The program loads documents, registers and changes variables, and uses the logging
module, in any order; the listener of `LogIniter` sits on "logs".  `Deployed` says that
the loggers are what the value of "logs" says, and every operation of the two modules
keeps it (`Deployed.step`).  With the history of the variable (Sylar.History) and the run
of statements (Sylar.Statements) this gives `documents_output`: at any point of a run,
statements print as the last list under `logs` demands that could be read.
-/
import Sylar.History
import Sylar.Output
import Sylar.Reload

namespace Sylar

open Config LogSystem Transition Yaml

/-! ### Apart from the loggers that are named -/

/-- The logging module has been used, but no logger that is stored under a name was touched,
and no formatter was given another pattern. -/
structure Aside (w w' : LogSystem) : Prop where
  steps : Steps w w'
  same : ∀ n, SameAt n w w'

namespace Aside

variable {w w' w'' : LogSystem}

theorem refl (w : LogSystem) : Aside w w := ⟨(PatternSteps.refl w).steps, fun n => .refl n w⟩

theorem trans (h : Aside w w') (h' : Aside w' w'') : Aside w w'' := by
  refine ⟨?_, fun n => (h.same n).trans (h'.same n)⟩
  obtain ⟨tr, hr, htr⟩ := h.steps
  obtain ⟨tr', hr', htr'⟩ := h'.steps
  refine ⟨tr ++ tr', hr.append hr', fun x hx => ?_⟩
  rcases List.mem_append.mp hx with hx | hx
  · exact htr x hx
  · exact htr' x hx

/-- Messages of the modules go to the root logger. -/
theorem sylarLog (hw : w.WF) (env : Env) (level : LogLevel) (filename : String) (line : Int)
    (text : String) : Aside w (w.sylarLog env w.root level filename line text) where
  steps := (hw.steps_sylarLog_root env level filename line text).steps
  same n := (Touches.sylarLog w.root w env _ _ _ _).sameAt hw (hw.map_ne_some_root n)

mutual

/-- So does `ListAllMember`, about invalid names. -/
theorem listAllMember (env : Env) (node : Node) (path : String)
    (out : LogSystem × List (String × Node)) (hw : out.1.WF) :
    Aside out.1 (Config.listAllMember env path node out).1 := by
  by_cases h : validName path = true
  · cases node with
    | map entries =>
        rw [Config.listAllMember, if_pos h]
        exact listEntries env entries path (out.1, out.2 ++ [(path, .map entries)]) hw
    | null => simpa [Config.listAllMember, h] using refl out.1
    | scalar s => simpa [Config.listAllMember, h] using refl out.1
    | seq items => simpa [Config.listAllMember, h] using refl out.1
  · have hreport := sylarLog hw env .error "src/config.cpp" 21
      ("Config invalid name: " ++ path ++ " : " ++ env.yaml.emit node)
    cases node <;> simpa [Config.listAllMember, h] using hreport
termination_by structural node

theorem listEntries (env : Env) (entries : List (Node × Node)) (path : String)
    (out : LogSystem × List (String × Node)) (hw : out.1.WF) :
    Aside out.1 (Config.listEntries env path entries out).1 := by
  match entries with
  | [] => exact refl out.1
  | (key, node) :: rest =>
      rw [Config.listEntries]
      have hnode := listAllMember env node (joinPath path key.scalarText) out hw
      exact hnode.trans (listEntries env rest path _ (hnode.steps.wf hw))
termination_by structural entries

end

end Aside

/-! ### Listeners -/

/-- A file that does not open ends the process, and so does an unknown type. -/
theorem applyAppender_ne_throw (env : Env) (p : Ptr Logger) (w : LogSystem)
    (a : AppenderDefinition) (e : Unit) : w.applyAppender env p a ≠ .throw e := by
  unfold applyAppender newFileLogAppender
  dsimp only
  split_ifs
  · exact nofun
  · exact nofun
  · exact nofun
  · exact nofun

/-- The listener of `LogIniter` throws nothing. -/
theorem onLogsChanged_ne_throw (env : Env) (old new : LogSet) (w : LogSystem) (e : Unit) :
    onLogsChanged env old new w ≠ .throw e := by
  refine Outcome.foldlM_ne_throw (fun t i _ e h => ?_) e
  unfold visitDefinition at h
  split_ifs at h
  cases hi : t.applyDefinition env i with
  | throw e' =>
      exact Outcome.foldlM_ne_throw (fun t a _ => applyAppender_ne_throw env _ t a) e' hi
  | ret w' =>
      rw [hi] at h
      cases h
  | exit n =>
      rw [hi] at h
      cases h
  | crash =>
      rw [hi] at h
      cases h

variable {env : Env} {what : String → String} {U : Types}

theorem Program.Harmless.withLogIniter {P : Program (U.withLogs env what)} (hP : P.Harmless) :
    P.withLogIniter.Harmless := by
  intro c f old new p
  match c, f with
  | none, 0 =>
      constructor
      · intro e h
        cases hw : onLogsChanged env old new p.log with
        | throw e' => exact onLogsChanged_ne_throw env old new p.log e' hw
        | ret w =>
            simp only [Program.withLogIniter, logIniter, hw] at h
            cases h
        | exit n =>
            simp only [Program.withLogIniter, logIniter, hw] at h
            cases h
        | crash =>
            simp only [Program.withLogIniter, logIniter, hw] at h
            cases h
      · intro p' h
        obtain ⟨w, -, hret⟩ := Outcome.bind_eq_ret.mp h
        obtain rfl := Outcome.ret.inj hret
        rfl
  | none, f + 1 => exact hP none (f + 1) old new p
  | some c, f => exact hP (some c) f old new p

/-- Listeners may log on the root logger, and prepare loggers that have no name. -/
def Program.KeepsLoggers (P : Program U) : Prop :=
  ∀ c f old new p p', p.log.WF → P.callback c f old new p = .ret p' → Aside p.log p'.log

/-! ### The loggers are as defined -/

/-- "logs" is registered with its listener, and the loggers are what its value says. -/
structure Deployed (p : Process (U.withLogs env what)) : Prop where
  wf : p.log.WF
  pristine : p.log.AllFormatters LogFormatter.Pristine
  logs : ∃ v : LogSet, p.vars "logs" = some ((logsVar env what U).assign v) ∧
    ∀ d ∈ v, p.log.Mirrors d
  /-- Nothing else is registered with its type. -/
  others : ∀ k x, p.vars k = some x → x.code = none → k = "logs"

variable {P : Program (U.withLogs env what)} {p p' : Process (U.withLogs env what)} {k : String}
  {x : Var (U.withLogs env what)} {env' : Env}

theorem Deployed.aside (h : Deployed p) (hvars : p'.vars = p.vars) (hlog : Aside p.log p'.log) :
    Deployed p' := by
  have hw := hlog.steps.wf h.wf
  refine ⟨hw, hlog.steps.allFormatters h.pristine LogFormatter.pristine_new, ?_, ?_⟩
  · obtain ⟨v, hv, hmirrors⟩ := h.logs
    exact ⟨v, hvars ▸ hv, fun d hd => (hmirrors d hd).of_sameAt hw (hlog.same d.name)⟩
  · rw [hvars]
    exact h.others

/-- A variable of another type may change. -/
theorem Deployed.update (h : Deployed p) {y : Var (U.withLogs env what)} (hk : k ≠ "logs")
    (hy : y.code ≠ none) (hvars : p'.vars = Function.update p.vars k (some y))
    (hlog : Aside p.log p'.log) : Deployed p' := by
  have hw := hlog.steps.wf h.wf
  refine ⟨hw, hlog.steps.allFormatters h.pristine LogFormatter.pristine_new, ?_, ?_⟩
  · obtain ⟨v, hv, hmirrors⟩ := h.logs
    refine ⟨v, ?_, fun d hd => (hmirrors d hd).of_sameAt hw (hlog.same d.name)⟩
    rw [hvars, Function.update_of_ne (Ne.symm hk)]
    exact hv
  · intro k' x hx hcode
    rw [hvars] at hx
    by_cases hk' : k' = k
    · subst hk'
      rw [Function.update_self] at hx
      exact absurd (Option.some.inj hx ▸ hcode) hy
    · rw [Function.update_of_ne hk'] at hx
      exact h.others k' x hx hcode

theorem assign_logsVar_inj {v v' : LogSet}
    (h : (logsVar env what U).assign v = (logsVar env what U).assign v') : v = v' :=
  eq_of_heq (Sigma.mk.inj (congrArg Var.value h)).2

/-- `setValue` on "logs" carries the loggers along. -/
theorem Deployed.setLogs (h : Deployed p) {v val : LogSet}
    (hx : p.vars "logs" = some ((logsVar env what U).assign v))
    (hs : Config.setValue P.withLogIniter "logs" ((logsVar env what U).assign v) val p = .ret p') :
    Deployed p' := by
  obtain ⟨v', hv', hmirrors⟩ := h.logs
  obtain rfl := assign_logsVar_inj (Option.some.inj (hx.symm.trans hv'))
  unfold Config.setValue at hs
  split_ifs at hs with hval
  · obtain rfl := Outcome.ret.inj hs
    exact h
  · obtain ⟨q, hq, hret⟩ := Outcome.bind_eq_ret.mp hs
    -- there is one listener, and it sets up the loggers
    replace hq : (logIniter env v val p >>= pure) = .ret q := hq
    rw [bind_pure] at hq
    obtain ⟨w, hw, hret'⟩ := Outcome.bind_eq_ret.mp hq
    have hchanged : onLogsChanged env v val p.log = .ret w := Outcome.mapThrow_eq_ret.mp hw
    obtain rfl := Outcome.ret.inj hret'
    obtain rfl := Outcome.ret.inj hret
    have hstep : LogsStep ⟨v, p.log⟩ (.setValue env val) ⟨val, w⟩ := by
      have hne : val ≠ v := hval
      show LogsState.setValue env val ⟨v, p.log⟩ = .ret ⟨val, w⟩
      rw [LogsState.setValue, if_neg hne, hchanged]
      rfl
    have hvars : Process.vars ⟨p.data.set "logs" ((logsVar env what U).assign val), w⟩ =
        Function.update p.vars "logs" (some ((logsVar env what U).assign val)) :=
      SortedMap.get?_set p.data "logs" _
    have hconfigured : Configured ⟨val, w⟩ :=
      LogsState.setValue_configured (s := ⟨v, p.log⟩) h.wf hmirrors hstep
    refine ⟨hstep.wf h.wf, hstep.pristine h.wf h.pristine (fun _ _ h => by cases h), ⟨val, ?_, hconfigured⟩,
      ?_⟩
    · show Process.vars ⟨p.data.set "logs" ((logsVar env what U).assign val), w⟩ "logs" = _
      rw [hvars, Function.update_self]
    · intro k y hy hcode
      by_contra hk
      replace hy : Process.vars ⟨p.data.set "logs" ((logsVar env what U).assign val), w⟩ k =
        some y := hy
      rw [hvars, Function.update_of_ne hk] at hy
      exact hk (h.others k y hy hcode)

/-- The listeners of other variables are the program's own. -/
theorem callback_of_ne_none {c : (U.withLogs env what).Code} (hc : c ≠ none) (f : Nat)
    (old new : (U.withLogs env what).Val c) (q : Process (U.withLogs env what)) :
    P.withLogIniter.callback c f old new q = P.callback c f old new q := by
  cases c with
  | none => exact absurd rfl hc
  | some c => rfl

/-- **Step lemma for an update.** -/
theorem Deployed.setValue (h : Deployed p) (hP : P.Harmless) (hkeeps : P.KeepsLoggers)
    (hx : p.vars k = some x) {val : (U.withLogs env what).Val x.code}
    (hs : Config.setValue P.withLogIniter k x val p = .ret p') : Deployed p' := by
  by_cases hk : k = "logs"
  · subst hk
    obtain ⟨v, hv, -⟩ := h.logs
    obtain rfl := Option.some.inj (hv.symm.trans hx)
    exact h.setLogs hx hs
  · have hcode : x.code ≠ none := fun hcode => hk (h.others k x hx hcode)
    refine h.update (y := x.assign val) hk hcode (setValue_returned hP.withLogIniter hx hs) ?_
    unfold Config.setValue at hs
    split_ifs at hs with hval
    · obtain rfl := Outcome.ret.inj hs
      exact .refl p.log
    · obtain ⟨q, hq, hret⟩ := Outcome.bind_eq_ret.mp hs
      have hloop : Aside p.log q.log := by
        refine Outcome.foldlM_induction (P := fun _ (q : Process (U.withLogs env what)) =>
          Aside p.log q.log) (.refl p.log) ?_ hq
        intro done f rest t t' _ ht hstep
        rw [callback_of_ne_none hcode] at hstep
        exact ht.trans (hkeeps _ _ _ _ t t' (ht.steps.wf h.wf) hstep)
      obtain rfl := Outcome.ret.inj hret
      exact hloop

theorem Deployed.sylarLog (h : Deployed p) (env' : Env) (level : LogLevel) (filename : String)
    (line : Int) (text : String) : Deployed (p.sylarLog env' level filename line text) :=
  h.aside rfl (.sylarLog h.wf env' level filename line text)

theorem Deployed.fromString (h : Deployed p) (hP : P.Harmless) (hkeeps : P.KeepsLoggers)
    (hx : p.vars k = some x) {s : String} {r : Process (U.withLogs env what) × Bool}
    (hs : Config.fromString env' P.withLogIniter k x s p = .ret r) : Deployed r.1 := by
  rcases fromString_cases hP.withLogIniter hs with ⟨v, -, hset⟩ | ⟨-, text, htext⟩
  · exact h.setValue hP hkeeps hx hset
  · rw [htext]
    exact h.sylarLog env' _ _ _ _

theorem Deployed.loadMember (h : Deployed p) (hP : P.Harmless) (hkeeps : P.KeepsLoggers)
    {i : String × Node} (hs : Config.loadMember env' P.withLogIniter p i = .ret p') :
    Deployed p' := by
  unfold Config.loadMember at hs
  split_ifs at hs with hi
  · obtain rfl := Outcome.ret.inj hs
    exact h
  · cases hx : lookupBase (tolower i.1) p with
    | none =>
        rw [hx] at hs
        obtain rfl := Outcome.ret.inj hs
        exact h
    | some x =>
        rw [hx] at hs
        obtain ⟨r, hr, hret⟩ := Outcome.bind_eq_ret.mp hs
        obtain rfl := Outcome.ret.inj hret
        exact h.fromString hP hkeeps hx hr

/-- **Step lemma for a load.** -/
theorem Deployed.loadFromYaml (h : Deployed p) (hP : P.Harmless) (hkeeps : P.KeepsLoggers)
    {root : Node} (hs : Config.loadFromYaml env' P.withLogIniter root p = .ret p') :
    Deployed p' := by
  have hlist := Aside.listAllMember env' root "" (p.log, []) h.wf
  have hstart : Deployed { p with log := (listAllMember env' "" root (p.log, [])).1 } :=
    h.aside rfl hlist
  exact Outcome.foldlM_induction (P := fun _ (q : Process (U.withLogs env what)) => Deployed q)
    hstart (fun _ _ _ _ _ _ hq hstep => hq.loadMember hP hkeeps hstep) hs

theorem Deployed.lookup (h : Deployed p) {name : String} {c : (U.withLogs env what).Code}
    {d : (U.withLogs env what).Val c} {r : Process (U.withLogs env what) × Option String}
    (hc : c = none → name = "logs") (hs : Config.lookup env' name c d p = .ret r) :
    Deployed r.1 := by
  unfold Config.lookup at hs
  cases hname : p.data.get? name with
  | some x =>
      rw [hname] at hs
      dsimp only at hs
      split_ifs at hs
      · obtain rfl := Outcome.ret.inj hs
        exact h.sylarLog env' _ _ _ _
      · obtain rfl := Outcome.ret.inj hs
        exact h.sylarLog env' _ _ _ _
  | none =>
      rw [hname] at hs
      dsimp only at hs
      split_ifs at hs
      -- "logs" is there already
      have hne : name ≠ "logs" := by
        rintro rfl
        obtain ⟨v, hv, -⟩ := h.logs
        cases hv.symm.trans hname
      obtain rfl := Outcome.ret.inj hs
      exact h.update hne (fun hcode => hne (hc hcode)) (SortedMap.get?_set p.data name _)
        (.refl p.log)

theorem Deployed.lookup_throw (h : Deployed p) {name : String} {c : (U.withLogs env what).Code}
    {d : (U.withLogs env what).Val c} {e : Thrown (U.withLogs env what)}
    (hs : Config.lookup env' name c d p = .throw e) : Deployed e.1 := by
  unfold Config.lookup at hs
  cases hname : p.data.get? name with
  | some x =>
      rw [hname] at hs
      dsimp only at hs
      split_ifs at hs
  | none =>
      rw [hname] at hs
      dsimp only at hs
      split_ifs at hs
      obtain rfl := Outcome.throw.inj hs
      exact h.sylarLog env' _ _ _ _

/-- Nobody else has a variable of definitions, the listener of "logs" stays, and what else
happens to the logging module leaves the loggers that are defined, and formatters, alone. -/
def Undisturbing (x : Taken (Process (U.withLogs env what)) (ConfigEvent (U.withLogs env what))) :
    Prop :=
  match x.label with
  | .lookup _ name c _ => c = none → name = "logs"
  | .listen name _ => name ≠ "logs"
  | .logging op => (∀ f pattern, op ≠ .setPattern f pattern) ∧
      ∀ v : LogSet, x.source.vars "logs" = some ((logsVar env what U).assign v) →
        ∀ d ∈ v, SameAt d.name x.source.log x.target.log
  | _ => True

/-- **Step lemma.** -/
theorem Deployed.step (h : Deployed p) (hP : P.Harmless) (hkeeps : P.KeepsLoggers)
    {e : ConfigEvent (U.withLogs env what)} (hs : ConfigEvent.Step P.withLogIniter p e p')
    (he : Undisturbing ⟨p, e, p'⟩) : Deployed p' := by
  cases hs with
  | lookup hs => exact h.lookup he hs
  | invalid hs => exact h.lookup_throw hs
  | load hs => exact h.loadFromYaml hP hkeeps hs
  | fromString hx hs => exact h.fromString hP hkeeps hx hs
  | setValue hx hs => exact h.setValue hP hkeeps hx hs
  | @listen name x f hx =>
      have hne : name ≠ "logs" := he
      have hcode : x.code ≠ none := fun hcode => hne (h.others name x hx hcode)
      exact h.update (y := x.listening f) hne hcode (SortedMap.get?_set p.data name _)
        (.refl p.log)
  | @logging op w hs =>
      obtain ⟨hop, hsame⟩ := he
      have hw : w.WF := hs.wf h.wf
      have hsteps : Steps p.log w := by
        refine ⟨_, Run.nil.snoc hs, fun x hx f pattern => ?_⟩
        obtain rfl := List.mem_singleton.mp hx
        exact hop f pattern
      obtain ⟨v, hv, hmirrors⟩ := h.logs
      refine ⟨hw, hsteps.allFormatters h.pristine LogFormatter.pristine_new, ⟨v, hv, ?_⟩, h.others⟩
      exact fun d hd => (hmirrors d hd).of_sameAt hw (hsame v hv d hd)

theorem deployed_start : Deployed (.only "logs" (logsVar env what U)) := by
  refine ⟨LogSystem.wf_init, fun f hf => ?_, ⟨SortedBy.empty, ?_, ?_⟩, ?_⟩
  · obtain rfl : f = ⟨0⟩ := Ptr.ext (Nat.lt_one_iff.mp hf)
    exact LogFormatter.pristine_new ""
  · rw [Process.vars_only, Function.update_self]
    rfl
  · exact fun d hd => absurd hd (SortedBy.not_mem_empty d)
  · intro k x hx _
    rw [Process.vars_only] at hx
    by_contra hk
    rw [Function.update_of_ne hk] at hx
    cases hx

open ConfigEvent in
/-- **From documents to records**: after any undisturbing run, "logs" has the last list that
could be read since the beginning, and statements print, for each event that is heard on a
logger of that list, one record for each appender of its entry, in their order and of their
kind, formatted as the entry says. -/
theorem documents_output (hP : P.Harmless) (hkeeps : P.KeepsLoggers)
    {tr : List (Taken (Process (U.withLogs env what)) (ConfigEvent (U.withLogs env what)))}
    (hrun : Run (ConfigEvent.Step P.withLogIniter) (.only "logs" (logsVar env what U)) tr p)
    (hop : ∀ x ∈ tr, Undisturbing x) :
    ∃ v : LogSet, p.vars "logs" = some ((logsVar env what U).assign v) ∧
      v = latest SortedBy.empty
        ((tr.map Taken.label).flatMap (writes (U := U.withLogs env what) "logs" none)) ∧
      ∀ ss : Statements, ss.Over p.log →
        (∃ new, (ss.exec none p.log).records = p.log.records ++ new ∧
          new.map (fun r => (r.appender, r.text)) =
            (ss.heard p.log.getLevel).flatMap (Statements.printed p.log)) ∧
        ∀ d ∈ v, ∃ q, p.log.loggerMap.get? d.name = some q ∧
          ∀ x ∈ ss.heard p.log.getLevel, x.2.logger = q →
            d.level ≤ x.2.level ∧
              List.Forall₂ (p.log.Prints q x) d.appenders (Statements.printed p.log x) := by
  have hdeployed : Deployed p := hrun.invariant_of (I := Deployed) (C := Undisturbing)
    deployed_start (fun _ _ _ h hs he => h.step hP hkeeps hs he) hop
  obtain ⟨v, hv, hmirrors⟩ := hdeployed.logs
  have hvalue : (p.vars "logs").map Var.value = some ⟨none, v⟩ := by
    rw [hv]
    rfl
  have hstart : ((Process.only "logs" (logsVar env what U)).vars "logs").map Var.value =
      some ⟨none, SortedBy.empty⟩ := by
    rw [Process.vars_only, Function.update_self]
    rfl
  have hlatest := hvalue.symm.trans (value_of_run hP.withLogIniter hstart hrun)
  refine ⟨v, hv, ?_, fun ss hss => printed_of_mirrors hdeployed.pristine hmirrors hss⟩
  exact eq_of_heq (Sigma.mk.inj (Option.some.inj hlatest)).2

/-- A document with one entry asks for one definition. -/
theorem writes_systemNode (what : String → String) (U : Types) :
    let env := Env.sample systemRows
    ConfigEvent.writes (U := U.withLogs env what) "logs" none
      (.load env (logsDocument [systemNode])) = [systemSet] := by
  intro env
  have hY : env.yaml.Faithful := Yaml.sample_faithful ⟨by decide, by decide⟩
  have hdecode : decodeNode env.yaml systemNode = .ret systemDefinition := rfl
  have hset : decodeSet env.yaml (env.yaml.emit (.seq [systemNode])) = .ret systemSet := by
    rw [decodeSet_single hY, hdecode]
    rfl
  rw [ConfigEvent.writes, texts_logsDocument, List.filterMap_cons]
  simp only [hset]
  rfl

/-- A document with one entry is loaded, and a statement is executed on the logger it defines:
one record is printed. -/
theorem documents_output_system :
    let env := Env.sample systemRows
    let what := fun _ : String => ""
    let U := Types.ofRead some
    ∃ p q x, loadFromYaml env (Program.silent _).withLogIniter (logsDocument [systemNode])
        (.only "logs" (logsVar env what U)) = .ret p ∧
      p.log.loggerMap.get? "system" = some q ∧ x.2.logger = q ∧ x.2.level = .info ∧
      List.Forall₂ (p.log.Prints q x) [⟨2, "", ""⟩] (Statements.printed p.log x) := by
  intro env what U
  have hY : env.yaml.Faithful := Yaml.sample_faithful ⟨by decide, by decide⟩
  have hnamed : Named systemNode := fun h => by cases h
  have hgood := goodTexts_logsDocument what U hY hnamed fun _ _ _ _ _ _ _ => rfl
  have hquiet := Program.quiet_silent (U.withLogs env what)
  obtain ⟨p, hload, -⟩ := loadFromYaml_spec env hquiet.withLogIniter _ (converts_of_goodTexts hgood)
  have hrun : Run (ConfigEvent.Step (Program.silent (U.withLogs env what)).withLogIniter) _ _ p :=
    Run.nil.snoc (.load hload)
  have hkeeps : (Program.silent (U.withLogs env what)).KeepsLoggers := by
    intro c f old new p p' _ h
    obtain rfl := Outcome.ret.inj h
    exact .refl p.log
  obtain ⟨v, hv, hvalue, hout⟩ := documents_output hquiet.harmless hkeeps hrun fun x hx => by
    obtain rfl := List.mem_singleton.mp hx
    trivial
  have hv : v = systemSet := by
    rw [hvalue]
    show ConfigEvent.latest SortedBy.empty
      (List.flatMap _ [ConfigEvent.load env (logsDocument [systemNode])]) = systemSet
    rw [List.flatMap_singleton, writes_systemNode]
    rfl
  subst hv
  have hdeployed : Deployed p := deployed_start.loadFromYaml hquiet.harmless hkeeps hload
  obtain ⟨v', hv', hmirrors⟩ := hdeployed.logs
  obtain rfl := assign_logsVar_inj (Option.some.inj (hv.symm.trans hv'))
  obtain ⟨q, hq, hmatches⟩ := hmirrors systemDefinition (List.mem_singleton.mpr rfl)
  have hlevel : p.log.getLevel q = .info := hmatches.level
  let x := Statements.newEvent env q .info "main.cpp" 1 "x"
  let ss : Statements := .log env q .info "main.cpp" 1 (.text "x" .nil) .nil
  have hss : ss.Over p.log := ⟨hdeployed.wf.map_mem hq, trivial, trivial⟩
  have hx : (env, x) ∈ ss.heard p.log.getLevel :=
    Statements.newEvent_mem_heard hlevel.le env "main.cpp" 1 "x"
  obtain ⟨q', hq', hall⟩ := (hout ss hss).2 systemDefinition (List.mem_singleton.mpr rfl)
  obtain rfl := Option.some.inj (hq.symm.trans hq')
  exact ⟨p, q, (env, x), hload, hq, rfl, rfl, (hall _ hx rfl).2⟩

end Sylar
