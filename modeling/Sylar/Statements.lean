/-
Sylar/Statements.lean

Log statements, one after the other and one inside the other (log.hpp, log.cpp).

What is streamed into a statement may call functions that log themselves, on the
same logger or on others.  `Statements` are such texts and statements as a tree,
and `exec` runs them: the test of the macro, the event, what is streamed, and
the destructor of the wrap.

Creating an event moves the level of its logger, so a statement decides about
those after it, and the ones inside it decide about itself.  `heard` says which
events are printed, in terms of the levels alone, and `exec_spec` that the module
does this.  It follows that levels only rise (`levels_only_rise`): on each logger,
no record is followed by one of a lower level.

The event is made before what is streamed into it is evaluated.  C++11 leaves the order of the
operands of `<<` open: a compiler may have calls that log themselves made first.
-/
import Sylar.World

namespace Sylar

/-! ### Statements -/

/-- What is done one after the other while a message is put together, or outside of any. -/
inductive Statements
  | nil
  /-- `<< text` -/
  | text (text : String) (rest : Statements)
  /-- `SYLAR_LOG_LEVEL(logger, level) << args`; with one text it is `SYLAR_LOG_FMT_LEVEL`. -/
  | log (env : Env) (p : Ptr Logger) (level : LogLevel) (filename : String) (line : Int)
      (args rest : Statements)

namespace Statements

/-- The event a statement creates. -/
def newEvent (env : Env) (p : Ptr Logger) (level : LogLevel) (filename : String) (line : Int)
    (content : String) : LogEvent :=
  ⟨p, level, filename, line, 0, UInt32.ofInt env.threadID, LogSystem.getFiberID, env.now, content⟩

/-- Run the statements; texts go into the event `e`. -/
def exec (e : Option (Ptr LogEvent)) : Statements → LogSystem → LogSystem
  | nil, w => w
  | text t rest, w =>
      exec e rest (match e with
        | some e => w.write e t
        | none => w)
  | log env p level filename line args rest, w =>
      if w.getLevel p ≤ level then
        let w' := w.newLogEvent p level filename line 0 (UInt32.ofInt env.threadID)
          LogSystem.getFiberID env.now
        exec e rest ((exec (some w.events.fresh) args w').flush env w.events.fresh)
      else exec e rest w

/-- The loggers exist. -/
def Over (w : LogSystem) : Statements → Prop
  | nil => True
  | text _ rest => Over w rest
  | log _ p _ _ _ args rest => p ∈ w.loggers ∧ Over w args ∧ Over w rest

/-- What is streamed into the event. -/
def said : Statements → String
  | nil => ""
  | text t rest => t ++ said rest
  | log _ _ _ _ _ _ rest => said rest

/-- The statements, each as its logger and its level. -/
def used : Statements → List (Ptr Logger × LogLevel)
  | nil => []
  | text _ rest => used rest
  | log _ p level _ _ args rest => (p, level) :: (used args ++ used rest)

/-! ### The levels -/

/-- Where the statements leave the levels of the loggers. -/
def thresholds (θ : Ptr Logger → LogLevel) : Statements → Ptr Logger → LogLevel
  | nil => θ
  | text _ rest => thresholds θ rest
  | log _ p level _ _ args rest =>
      if θ p ≤ level then thresholds (thresholds (Function.update θ p level) args) rest
      else thresholds θ rest

/-- The events that are printed, in this order: those that pass the test of the macro, and
that nothing inside of them has raised the level over. -/
def heard (θ : Ptr Logger → LogLevel) : Statements → List (Env × LogEvent)
  | nil => []
  | text _ rest => heard θ rest
  | log env p level filename line args rest =>
      if θ p ≤ level then
        let θ' := thresholds (Function.update θ p level) args
        heard (Function.update θ p level) args ++
          ((if θ' p ≤ level then [(env, newEvent env p level filename line (said args))] else []) ++
            heard θ' rest)
      else heard θ rest

variable {θ : Ptr Logger → LogLevel} {p q : Ptr Logger} {level : LogLevel}

theorem le_update (h : θ p ≤ level) : θ ≤ Function.update θ p level := by
  intro q
  by_cases hq : q = p
  · rw [hq, Function.update_self]
    exact h
  · rw [Function.update_of_ne hq]

/-- Levels only rise. -/
theorem le_thresholds (ss : Statements) (θ : Ptr Logger → LogLevel) : θ ≤ ss.thresholds θ := by
  induction ss generalizing θ with
  | nil => exact le_refl θ
  | text t rest ih => exact ih θ
  | log env p level filename line args rest ihargs ih =>
      rw [thresholds]
      split_ifs with h
      · exact (le_update h).trans ((ihargs _).trans (ih _))
      · exact ih θ

/-- A level stays where it is, or goes where a statement puts it. -/
theorem thresholds_eq_or_mem (ss : Statements) (θ : Ptr Logger → LogLevel) (q : Ptr Logger) :
    ss.thresholds θ q = θ q ∨ (q, ss.thresholds θ q) ∈ ss.used := by
  induction ss generalizing θ with
  | nil => exact Or.inl rfl
  | text t rest ih => exact ih θ
  | log env p level filename line args rest ihargs ih =>
      rw [thresholds]
      split_ifs with h
      · let θ' := args.thresholds (Function.update θ p level)
        -- the statements after it, what is streamed into it, or it itself
        rcases ih θ' with hrest | hrest
        · rw [hrest]
          rcases ihargs (Function.update θ p level) with hargs | hargs
          · by_cases hq : q = p
            · subst hq
              have hself : θ' q = level := hargs.trans (Function.update_self ..)
              exact Or.inr (List.mem_cons.mpr (Or.inl (Prod.ext rfl hself)))
            · exact Or.inl (hargs.trans (Function.update_of_ne hq ..))
          · exact Or.inr (List.mem_cons_of_mem _ (List.mem_append_left _ hargs))
        · exact Or.inr (List.mem_cons_of_mem _ (List.mem_append_right _ hrest))
      · exact (ih θ).imp id fun hrest => List.mem_cons_of_mem _ (List.mem_append_right _ hrest)

theorem level_le_thresholds (args : Statements) (θ : Ptr Logger → LogLevel) (p : Ptr Logger)
    (level : LogLevel) : level ≤ args.thresholds (Function.update θ p level) p :=
  calc level = Function.update θ p level p := (Function.update_self p level θ).symm
    _ ≤ args.thresholds (Function.update θ p level) p := le_thresholds args _ p

/-- What is printed is between the levels at the beginning and at the end. -/
theorem heard_bounds (ss : Statements) (θ : Ptr Logger → LogLevel) {x : Env × LogEvent}
    (hx : x ∈ ss.heard θ) :
    θ x.2.logger ≤ x.2.level ∧ x.2.level ≤ ss.thresholds θ x.2.logger := by
  induction ss generalizing θ with
  | nil => cases hx
  | text t rest ih => exact ih θ hx
  | log env p level filename line args rest ihargs ih =>
      rw [heard] at hx
      rw [thresholds]
      split_ifs at hx ⊢ with h
      · let θ' := args.thresholds (Function.update θ p level)
        have hargs := le_thresholds args (Function.update θ p level)
        have hrest := le_thresholds rest θ'
        rcases List.mem_append.mp hx with hx | hx
        · obtain ⟨hlow, hhigh⟩ := ihargs _ hx
          exact ⟨(le_update h _).trans hlow, hhigh.trans (hrest _)⟩
        · rcases List.mem_append.mp hx with hx | hx
          · split_ifs at hx with hself
            · obtain rfl := List.mem_singleton.mp hx
              exact ⟨h, (level_le_thresholds args θ p level).trans (hrest p)⟩
            · cases hx
          · obtain ⟨hlow, hhigh⟩ := ih _ hx
            exact ⟨((le_update h _).trans (hargs _)).trans hlow, hhigh⟩
      · exact ih θ hx

/-- On one logger, nothing is followed by something of a lower level. -/
theorem heard_pairwise (ss : Statements) (θ : Ptr Logger → LogLevel) :
    (ss.heard θ).Pairwise fun x y => x.2.logger = y.2.logger → x.2.level ≤ y.2.level := by
  induction ss generalizing θ with
  | nil => exact .nil
  | text t rest ih => exact ih θ
  | log env p level filename line args rest ihargs ih =>
      rw [heard]
      split_ifs with h
      · let θ' := args.thresholds (Function.update θ p level)
        have hlast : ∀ y ∈ rest.heard θ', ∀ l, l ≤ θ' y.2.logger → l ≤ y.2.level :=
          fun y hy l hl => hl.trans (heard_bounds rest θ' hy).1
        refine List.pairwise_append.mpr ⟨ihargs _, List.pairwise_append.mpr ⟨?_, ih θ', ?_⟩, ?_⟩
        · split_ifs
          · exact List.pairwise_singleton _ _
          · exact .nil
        · intro x hx y hy heq
          split_ifs at hx with hself
          · obtain rfl := List.mem_singleton.mp hx
            exact hlast y hy level (heq ▸ level_le_thresholds args θ p level)
          · cases hx
        · intro x hx y hy heq
          have hhigh := (heard_bounds args _ hx).2
          rcases List.mem_append.mp hy with hy | hy
          · split_ifs at hy with hself
            · obtain rfl := List.mem_singleton.mp hy
              exact hhigh.trans (heq ▸ hself)
            · cases hy
          · exact hlast y hy x.2.level (heq ▸ hhigh)
      · exact ih θ

/-! ### What the module does -/

/-- The records of an event: one for each appender of its logger, with the event's own
level. -/
def printed (w : LogSystem) (x : Env × LogEvent) : List (Ptr LogAppender × Option String) :=
  (w.logger x.2.logger).appenders.map fun a =>
    (a, (w.appender a).formatter.map fun f => (w.formatter f).format x.1 x.2.level x.2)

/-- What statements run inside the event `e` have made of `w`. -/
structure Ran (e : Option (Ptr LogEvent)) (ss : Statements) (w w' : LogSystem) : Prop where
  formatters : w'.formatters = w.formatters
  appenders : w'.appenders = w.appenders
  loggers : ∀ q, q ∈ w'.loggers ↔ q ∈ w.loggers
  attached : ∀ q, (w'.logger q).appenders = (w.logger q).appenders
  level : w'.getLevel = ss.thresholds w.getLevel
  event : ∀ e' ∈ w.events, e' ∈ w'.events ∧ w'.event e' =
    if e = some e' then { w.event e' with content := (w.event e').content ++ ss.said }
    else w.event e'
  records : ∃ new, w'.records = w.records ++ new ∧
    new.map (fun r => (r.appender, r.text)) = (ss.heard w.getLevel).flatMap (printed w)

variable {w w' : LogSystem} {env : Env}

/-- The loggers stay. -/
theorem Over.of_iff (h : ∀ q, q ∈ w'.loggers ↔ q ∈ w.loggers) (ss : Statements)
    (hss : ss.Over w) : ss.Over w' := by
  induction ss with
  | nil => trivial
  | text t rest ih => exact ih hss
  | log env p level filename line args rest ihargs ih =>
      exact ⟨(h p).mpr hss.1, ihargs hss.2.1, ih hss.2.2⟩

theorem printed_congr {e : Option (Ptr LogEvent)} {ss : Statements} (h : Ran e ss w w')
    (x : Env × LogEvent) : printed w' x = printed w x := by
  simp only [printed, h.attached, LogSystem.appender, LogSystem.formatter, h.appenders,
    h.formatters]

/-- Creating an event sets the level of its logger, and no other. -/
theorem getLevel_newLogEvent (hp : p ∈ w.loggers) (filename : String) (line : Int)
    (threadID fiberID elapse time : UInt32) :
    (w.newLogEvent p level filename line threadID fiberID elapse time).getLevel =
      Function.update w.getLevel p level := by
  funext q
  by_cases hq : q = p
  · rw [hq, Function.update_self]
    exact LogSystem.getLevel_newLogEvent hp ..
  · rw [Function.update_of_ne hq]
    exact congrArg Logger.level (Arena.get_modify_of_ne _ hq)

/-- What `Logger::log` prints of an event that has the level of its logger. -/
theorem map_record (hlevel : w.getLevel p = level) {e : Ptr LogEvent} {x : LogEvent}
    (he : w.event e = x) (hp : x.logger = p) (hx : x.level = level) :
    ((w.logger p).appenders.map (w.record env p e)).map (fun r => (r.appender, r.text)) =
      printed w (env, x) := by
  subst he hp hx
  rw [List.map_map, printed]
  refine List.map_congr_left fun a _ => ?_
  simp only [Function.comp_apply, LogSystem.record, hlevel]

theorem ran_nil (e : Option (Ptr LogEvent)) (w : LogSystem) : Ran e nil w w := by
  refine ⟨rfl, rfl, fun _ => Iff.rfl, fun _ => rfl, rfl, fun e' he' => ⟨he', ?_⟩, [],
    (List.append_nil _).symm, rfl⟩
  split
  · rw [said, String.append_empty]
  · rfl

/-- A text goes into the event, if there is one. -/
theorem Ran.text {e : Option (Ptr LogEvent)} {t : String} {rest : Statements} {v : LogSystem}
    (hv : v = match e with
      | some e => w.write e t
      | none => w)
    (h : Ran e rest v w') : Ran e (text t rest) w w' := by
  cases e with
  | none =>
      subst hv
      exact ⟨h.formatters, h.appenders, h.loggers, h.attached, h.level, fun e' he' => h.event e' he',
        h.records⟩
  | some e =>
      subst hv
      refine ⟨h.formatters, h.appenders, h.loggers, h.attached, h.level, fun e' he' => ?_,
        h.records⟩
      obtain ⟨hmem, hevent⟩ := h.event e' (Arena.mem_modify.mpr he')
      refine ⟨hmem, hevent.trans ?_⟩
      by_cases heq : e = e'
      · subst heq
        have hwrite : (w.write e t).event e =
            { w.event e with content := (w.event e).content ++ t } :=
          Arena.get_modify_self _ he'
        rw [if_pos rfl, if_pos rfl, hwrite, said, String.append_assoc]
      · have hwrite : (w.write e t).event e' = w.event e' :=
          Arena.get_modify_of_ne _ (Ne.symm heq)
        rw [if_neg (by simpa using heq), if_neg (by simpa using heq), hwrite]

/-- A statement that passes the test creates its event `e₁`, runs what is streamed into it, and
hands it to the logger. -/
theorem Ran.log {e : Option (Ptr LogEvent)} {filename : String} {line : Int}
    {args rest : Statements} {v : LogSystem} (hp : p ∈ w.loggers) (hlevel : w.getLevel p ≤ level)
    (hargs : Ran (some w.events.fresh) args (w.newLogEvent p level filename line 0
      (UInt32.ofInt env.threadID) LogSystem.getFiberID env.now) v)
    (hrest : Ran e rest (v.flush env w.events.fresh) w') :
    Ran e (log env p level filename line args rest) w w' := by
  let e₁ := w.events.fresh
  let w₁ := w.newLogEvent p level filename line 0 (UInt32.ofInt env.threadID)
    LogSystem.getFiberID env.now
  let x := newEvent env p level filename line args.said
  let θ := Function.update w.getLevel p level
  have hθ : w₁.getLevel = θ := getLevel_newLogEvent hp ..
  have hx : v.event e₁ = x := by
    have hfresh : w₁.event e₁ = newEvent env p level filename line "" :=
      LogSystem.event_newLogEvent_fresh ..
    rw [(hargs.event e₁ (Arena.fresh_mem_alloc _ _)).2, if_pos rfl, hfresh]
    simp only [newEvent, String.empty_append]
    rfl
  have hattached : ∀ q, (w₁.logger q).appenders = (w.logger q).appenders :=
    fun q => LogSystem.appenders_setLevel ..
  have hprinted : ∀ y, printed v y = printed w y := by
    intro y
    have hcreated : printed w₁ y = printed w y := by
      rw [printed, hattached]
      rfl
    exact (printed_congr hargs y).trans hcreated
  -- the level of the logger is that of the event, or has been raised over it
  let θ' := args.thresholds θ
  let own : List (Env × LogEvent) := if θ' p ≤ level then [(env, x)] else []
  have hv : v.getLevel = θ' := hargs.level.trans (congrArg args.thresholds hθ)
  obtain ⟨mine, hflush, hmine⟩ : ∃ mine, v.flush env e₁ = { v with records := v.records ++ mine } ∧
      mine.map (fun r => (r.appender, r.text)) = own.flatMap (printed w) := by
    have hlog : v.flush env e₁ = v.log env p level e₁ := by
      rw [LogSystem.flush, hx]
      rfl
    rw [hlog, LogSystem.log, hv]
    by_cases h : θ' p ≤ level
    · have heq : v.getLevel p = level :=
        (congrFun hv p).trans (le_antisymm h (level_le_thresholds args _ p level))
      refine ⟨_, if_pos h, ?_⟩
      rw [map_record heq hx rfl rfl, hprinted]
      simp only [own, if_pos h, List.flatMap_cons, List.flatMap_nil, List.append_nil]
    · refine ⟨[], (if_neg h).trans (by rw [List.append_nil]), ?_⟩
      simp only [own, if_neg h, List.flatMap_nil, List.map_nil]
  change Ran e rest (v.flush env e₁) w' at hrest
  rw [hflush] at hrest
  obtain ⟨new₁, hrecords₁, hnew₁⟩ := hargs.records
  obtain ⟨new₂, hrecords₂, hnew₂⟩ := hrest.records
  refine ⟨hrest.formatters.trans hargs.formatters, hrest.appenders.trans hargs.appenders,
    fun q => (hrest.loggers q).trans ((hargs.loggers q).trans LogSystem.mem_loggers_newLogEvent),
    fun q => (hrest.attached q).trans ((hargs.attached q).trans (hattached q)), ?_,
    fun e' he' => ?_, new₁ ++ (mine ++ new₂), ?_, ?_⟩
  · rw [thresholds, if_pos hlevel]
    exact hrest.level.trans (congrArg rest.thresholds hv)
  · obtain ⟨hmem, hevent⟩ := hargs.event e' (Arena.mem_alloc_of_mem _ he')
    have hne : some e₁ ≠ some e' := fun h => Arena.ne_fresh he' (Option.some.inj h).symm
    have hold : v.event e' = w.event e' :=
      (hevent.trans (if_neg hne)).trans (LogSystem.event_newLogEvent_of_mem he')
    obtain ⟨hmem', hevent'⟩ := hrest.event e' hmem
    refine ⟨hmem', hevent'.trans ?_⟩
    show (if e = some e' then { v.event e' with content := (v.event e').content ++ rest.said }
      else v.event e') = _
    rw [hold]
    rfl
  · rw [hrecords₂, hrecords₁]
    simp only [List.append_assoc]
    rfl
  · have hinside : (args.heard w₁.getLevel).flatMap (printed w₁) =
        (args.heard θ).flatMap (printed w) := by
      rw [hθ]
      exact List.flatMap_congr fun y _ => (printed_congr hargs y).symm.trans (hprinted y)
    have hafter : (rest.heard v.getLevel).flatMap (printed v) =
        (rest.heard θ').flatMap (printed w) := by
      rw [hv]
      exact List.flatMap_congr fun y _ => hprinted y
    rw [List.map_append, List.map_append, heard, if_pos hlevel, List.flatMap_append,
      List.flatMap_append]
    exact congrArg₂ (· ++ ·) (hnew₁.trans hinside) (congrArg₂ (· ++ ·) hmine (hnew₂.trans hafter))

/-- A statement that does not pass the test does nothing. -/
theorem Ran.skip {e : Option (Ptr LogEvent)} {filename : String} {line : Int}
    {args rest : Statements} (hlevel : ¬ w.getLevel p ≤ level) (hrest : Ran e rest w w') :
    Ran e (Statements.log env p level filename line args rest) w w' := by
  refine ⟨hrest.formatters, hrest.appenders, hrest.loggers, hrest.attached, ?_, hrest.event, ?_⟩
  · rw [thresholds, if_neg hlevel]
    exact hrest.level
  · rw [heard, if_neg hlevel]
    exact hrest.records

/-- **Running statements** prints what is heard of them, and moves the levels as they say. -/
theorem exec_spec (ss : Statements) (e : Option (Ptr LogEvent)) (hss : ss.Over w)
    (he : ∀ e', e = some e' → e' ∈ w.events) : Ran e ss w (ss.exec e w) := by
  induction ss generalizing w e with
  | nil => exact ran_nil e w
  | text t rest ih =>
      have hrest : rest.Over w := hss
      cases e with
      | none => exact .text rfl (ih _ hrest he)
      | some e =>
          have hloggers : ∀ q, q ∈ (w.write e t).loggers ↔ q ∈ w.loggers := fun _ => Iff.rfl
          exact .text rfl (ih _ (Over.of_iff hloggers rest hrest) fun e' he' => Arena.mem_modify.mpr (he e' he'))
  | log env p level filename line args rest ihargs ih =>
      obtain ⟨hp, hargs, hrest⟩ := hss
      rw [exec]
      split_ifs with h
      · let w₁ := w.newLogEvent p level filename line 0 (UInt32.ofInt env.threadID)
          LogSystem.getFiberID env.now
        have hiff : ∀ q, q ∈ w₁.loggers ↔ q ∈ w.loggers := fun q => LogSystem.mem_loggers_newLogEvent
        let v := args.exec (some w.events.fresh) w₁
        have hran : Ran _ args w₁ v := ihargs (some w.events.fresh) (Over.of_iff hiff args hargs) fun e' he' =>
          Option.some.inj he' ▸ Arena.fresh_mem_alloc w.events _
        have hloggers : ∀ q, q ∈ (v.flush env w.events.fresh).loggers ↔ q ∈ w.loggers := fun q => by
          rw [LogSystem.flush, LogSystem.loggers_log]
          exact (hran.loggers q).trans (hiff q)
        have hevents : (v.flush env w.events.fresh).events = v.events := by
          unfold LogSystem.flush LogSystem.log
          split <;> rfl
        refine .log hp h hran (ih e (Over.of_iff hloggers rest hrest) fun e' he' => ?_)
        exact hevents ▸ (hran.event e' (Arena.mem_alloc_of_mem _ (he e' he'))).1
      · exact .skip h (ih e hrest he)

/-- **Levels only rise**: statements, one after the other and one inside the other, print the
events that are heard, on each appender of their loggers, with their own levels and what
has been streamed into them; on each logger none of them is followed by one of a lower level,
and none is below where the logger was before or above where it is afterwards.  No logger ends
lower than it was, and one that ends higher is at the level of a statement on it. -/
theorem levels_only_rise (ss : Statements) (hss : ss.Over w) :
    let w' := ss.exec none w
    let xs := ss.heard w.getLevel
    (∃ new, w'.records = w.records ++ new ∧
      new.map (fun r => (r.appender, r.text)) = xs.flatMap (printed w)) ∧
    xs.Pairwise (fun x y => x.2.logger = y.2.logger → x.2.level ≤ y.2.level) ∧
    (∀ x ∈ xs, w.getLevel x.2.logger ≤ x.2.level ∧ x.2.level ≤ w'.getLevel x.2.logger) ∧
    (∀ p, w.getLevel p ≤ w'.getLevel p) ∧
    ∀ p, w'.getLevel p = w.getLevel p ∨ (p, w'.getLevel p) ∈ ss.used := by
  intro w' xs
  have hran : Ran none ss w w' := exec_spec ss none hss fun e' he' => by cases he'
  refine ⟨hran.records, heard_pairwise ss _, fun x hx => ?_, fun p => ?_, fun p => ?_⟩
  · rw [hran.level]
    exact heard_bounds ss _ hx
  · rw [hran.level]
    exact le_thresholds ss _ p
  · rw [hran.level]
    exact thresholds_eq_or_mem ss _ p

/-- A statement into which only text is streamed is printed if its level passes the test. -/
theorem newEvent_mem_heard {θ : Ptr Logger → LogLevel} {p : Ptr Logger} {level : LogLevel}
    (h : θ p ≤ level) (env : Env) (filename : String) (line : Int) (content : String) :
    (env, newEvent env p level filename line content) ∈
      heard θ (.log env p level filename line (.text content .nil) .nil) := by
  have hself : thresholds (Function.update θ p level) (.text content .nil) p ≤ level := by
    rw [thresholds, thresholds, Function.update_self]
  have hsaid : said (.text content .nil) = content := by simp [said]
  rw [heard, if_pos h]
  refine List.mem_append_right _ (List.mem_append_left _ ?_)
  rw [if_pos hself, hsaid]
  exact List.mem_singleton_self _

/-- On the root logger, an `INFO` statement into which a call that logs an `ERROR` is streamed,
and another `INFO` statement: only the `ERROR` is printed. -/
def sample (env : Env) : Statements :=
  .log env LogSystem.init.root .info "main.cpp" 1
    (.text "x" (.log env LogSystem.init.root .error "main.cpp" 2 (.text "y" .nil) .nil))
    (.log env LogSystem.init.root .info "main.cpp" 3 .nil .nil)

theorem levels_only_rise_sample :
    let env := Env.sample []
    let w := LogSystem.init
    let w' := (sample env).exec none w
    let xs := (sample env).heard w.getLevel
    xs = [(env, newEvent env w.root .error "main.cpp" 2 "y")] ∧
      (sample env).used = [(w.root, .info), (w.root, .error), (w.root, .info)] ∧
      (∃ new, w'.records = w.records ++ new ∧
        new.map (fun r => (r.appender, r.text)) = xs.flatMap (printed w)) ∧
      xs.Pairwise (fun x y => x.2.logger = y.2.logger → x.2.level ≤ y.2.level) ∧
      (∀ x ∈ xs, w.getLevel x.2.logger ≤ x.2.level ∧ x.2.level ≤ w'.getLevel x.2.logger) ∧
      (∀ p, w.getLevel p ≤ w'.getLevel p) ∧
      ∀ p, w'.getLevel p = w.getLevel p ∨ (p, w'.getLevel p) ∈ (sample env).used := by
  intro env w w' xs
  have hover : (sample env).Over w := ⟨by decide, ⟨by decide, trivial, trivial⟩, by decide, trivial, trivial⟩
  exact ⟨rfl, rfl, levels_only_rise (sample env) hover⟩

end Statements

end Sylar
