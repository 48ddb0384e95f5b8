/-
Sylar/Configured.lean

The loggers over a sequence of values of "logs".

A `LogsState` is the value the variable holds together with the logging module.
Its steps are `setValue` on the variable, which runs the listener, and any
operation of the logging module by anybody else.

Two questions are asked of a run.  Do the loggers follow the definitions that
are there (`loggers_follow`)?  They do.  Are the loggers of the definitions that
have gone switched off (`removed_silenced_iff`)?  Only when something else was
added or modified at the same time: the deletion loop stands inside the loop
over the new definitions, behind the `continue` that skips unchanged ones.
-/
import Sylar.Initer

namespace Sylar

open Transition LogSystem

/-! ### The variable and its listener -/

/-- The value of "logs", and the logging module. -/
structure LogsState where
  value : LogSet
  world : LogSystem

/-- No definitions, and only the root logger. -/
def LogsState.initial : LogsState := ⟨SortedBy.empty, LogSystem.init⟩

/-- `g_log_defines->setValue(new)`. -/
def LogsState.setValue (env : Env) (new : LogSet) (s : LogsState) : Outcome Unit LogsState :=
  if new = s.value then .ret s
  else do
    let w ← onLogsChanged env s.value new s.world
    pure ⟨new, w⟩

/-- What happens: the variable is set, or something else happens to the loggers. -/
inductive LogsOp
  | setValue (env : Env) (new : LogSet)
  | other (op : LogOp)

/-- One step. -/
def LogsStep (s : LogsState) (op : LogsOp) (s' : LogsState) : Prop :=
  match op with
  | .setValue env new => s.setValue env new = .ret s'
  | .other op => s'.value = s.value ∧ LogStep s.world op s'.world

variable {s s' t : LogsState} {tr : List (Taken LogsState LogsOp)}

/-- What a call of `setValue` that returned has done. -/
theorem LogsState.setValue_spec {env : Env} {new : LogSet} (hw : s.world.WF)
    (h : s.setValue env new = .ret s') :
    s'.value = new ∧
      ((new = s.value ∧ s' = s) ∨ (new ≠ s.value ∧ Carried s.value new s.world s'.world)) := by
  unfold LogsState.setValue at h
  split_ifs at h with hnew
  · obtain rfl := Outcome.ret.inj h
    exact ⟨hnew.symm, Or.inl ⟨hnew, rfl⟩⟩
  · obtain ⟨w, hw', h⟩ := Outcome.bind_eq_ret.mp h
    obtain rfl := Outcome.ret.inj h
    exact ⟨rfl, Or.inr ⟨hnew, (onLogsChanged_spec hw hw').2⟩⟩

/-- A value that can be deployed is taken without fail. -/
theorem LogsStep.setValue_total (env : Env) (new : LogSet) (s : LogsState)
    (hnew : ∀ d ∈ new, Deployable env d) : ∃ s', LogsStep s (.setValue env new) s' := by
  by_cases heq : new = s.value
  · exact ⟨s, if_pos heq⟩
  · obtain ⟨w, hw⟩ := (onLogsChanged_returns_iff s.value new s.world).mpr
      fun d hd _ => hnew d hd
    refine ⟨⟨new, w⟩, ?_⟩
    rw [LogsStep, LogsState.setValue, if_neg heq, hw]
    rfl

/-- It has only used public operations of the logging module that install formatters by
pattern. -/
theorem LogsState.setValue_patternSteps {env : Env} {new : LogSet} (hw : s.world.WF)
    (h : s.setValue env new = .ret s') : PatternSteps s.world s'.world := by
  unfold LogsState.setValue at h
  split_ifs at h
  · obtain rfl := Outcome.ret.inj h
    exact .refl _
  · obtain ⟨w, hw', h⟩ := Outcome.bind_eq_ret.mp h
    obtain rfl := Outcome.ret.inj h
    exact (onLogsChanged_spec hw hw').1

theorem LogsStep.wf {op : LogsOp} (hw : s.world.WF) (h : LogsStep s op s') : s'.world.WF := by
  cases op with
  | setValue env new => exact (LogsState.setValue_patternSteps hw h).wf hw
  | other op => exact h.2.wf hw

/-! ### The definitions that are there -/

/-- `new` is something the decoder returned. -/
def Decoded (env : Env) (new : LogSet) : Prop := ∃ string, decodeSet env.yaml string = .ret new

/-- Every file the definitions name can be opened. -/
def FilesOpen (env : Env) (new : LogSet) : Prop :=
  ∀ d ∈ new, ∀ a ∈ d.appenders, a.type = 1 → env.canOpen a.file = true

theorem Decoded.deployable {env : Env} {new : LogSet} (hd : Decoded env new)
    (ho : FilesOpen env new) : ∀ d ∈ new, Deployable env d := by
  obtain ⟨string, hs⟩ := hd
  intro d hd a ha
  exact ⟨(decodeSet_decodable hs d hd).type a ha, ho d hd a ha⟩

/-- Values come from the decoder and name files that open; nothing else changes the
loggers that are named. -/
def Undisturbed (x : Taken LogsState LogsOp) : Prop :=
  match x.label with
  | .setValue env new => Decoded env new ∧ FilesOpen env new
  | .other _ => ∀ d ∈ x.source.value, SameAt d.name x.source.world x.target.world

/-- What does not set the value changes none of the loggers that are named. -/
def LeavesAlone (x : Taken LogsState LogsOp) : Prop :=
  ∀ op, x.label = .other op → ∀ d ∈ x.source.value, SameAt d.name x.source.world x.target.world

theorem Undisturbed.leavesAlone {x : Taken LogsState LogsOp} (h : Undisturbed x) :
    LeavesAlone x := by
  intro op hop
  rwa [Undisturbed, hop] at h

/-- The loggers are as defined. -/
def Configured (s : LogsState) : Prop := ∀ d ∈ s.value, s.world.Mirrors d

/-- **Step lemma**: a call of `setValue` carries the loggers from the old definitions to
the new ones.  Those of unchanged definitions are right because they were. -/
theorem LogSystem.Carried.configured {w w' : LogSystem} {old new : LogSet} (hw : w.WF)
    (h : Carried old new w w') (hold : ∀ d ∈ old, w.Mirrors d) : ∀ d ∈ new, w'.Mirrors d := by
  intro d hd
  by_cases hfind : old.find? d.name = some d
  · -- skipped by the listener: right before, and not touched since
    have hmem : d ∈ old := (SortedBy.find?_eq_some.mp hfind).1
    refine (hold d hmem).of_sameAt (h.steps.wf hw) (h.same d.name ?_ (not_removed_of_mem hd))
    intro d' hd' hname
    rw [SortedBy.eq_of_key_eq hd' hd hname]
    exact hfind
  · exact h.mirrors d hd hfind

/-- Names in neither set are left alone. -/
theorem LogSystem.Carried.unnamed {w w' : LogSystem} {old new : LogSet} (h : Carried old new w w')
    {n : String} (hold : old.find? n = none) (hnew : new.find? n = none) : SameAt n w w' := by
  refine h.same n ?_ ?_
  · intro d hd hname
    exact absurd hname (SortedBy.find?_eq_none.mp hnew d hd)
  · rintro ⟨⟨d, hd, hname⟩, _⟩
    exact SortedBy.find?_eq_none.mp hold d hd hname

theorem LogsState.setValue_configured {env : Env} {new : LogSet} (hw : s.world.WF)
    (hs : Configured s) (h : s.setValue env new = .ret s') : Configured s' := by
  obtain ⟨hval, ⟨_, rfl⟩ | ⟨_, hc⟩⟩ := LogsState.setValue_spec hw h
  · exact hs
  · intro d hd
    exact hc.configured hw hs d (hval ▸ hd)

theorem LogsState.setValue_unnamed {env : Env} {new : LogSet} (hw : s.world.WF)
    (h : s.setValue env new = .ret s') {n : String} (hold : s.value.find? n = none)
    (hnew : new.find? n = none) : SameAt n s.world s'.world := by
  obtain ⟨_, ⟨_, rfl⟩ | ⟨_, hc⟩⟩ := LogsState.setValue_spec hw h
  · exact .refl n _
  · exact hc.unnamed hold hnew

theorem configured_initial : Configured .initial := fun d hd =>
  absurd hd (SortedBy.not_mem_empty d)

theorem LogsStep.configured {op : LogsOp} (hw : s.world.WF) (hs : Configured s)
    (h : LogsStep s op s') (hop : LeavesAlone ⟨s, op, s'⟩) : Configured s' := by
  cases op with
  | setValue env new => exact LogsState.setValue_configured hw hs h
  | other op =>
      obtain ⟨hval, hstep⟩ := h
      intro d hd
      have hd' : d ∈ s.value := hval ▸ hd
      exact (hs d hd').of_sameAt (hstep.wf hw) (hop op rfl d hd')

/-- **Configured loggers follow the configuration.**  In every undisturbed run from the
empty set of definitions, the loggers are as defined after each step; the next value is
taken without fail; and a call of `setValue` changes no logger named in neither the old
nor the new value. -/
theorem loggers_follow (hreach : s.world.Reachable) (hempty : s.value = SortedBy.empty)
    (hrun : Run LogsStep s tr t) (hop : ∀ x ∈ tr, Undisturbed x) :
    Configured t ∧
      (∀ env new, Decoded env new → FilesOpen env new →
        ∃ t', LogsStep t (.setValue env new) t') ∧
      ∀ x ∈ tr, ∀ env new, x.label = .setValue env new →
        ∀ n, x.source.value.find? n = none → new.find? n = none →
          SameAt n x.source.world x.target.world := by
  -- the loggers can only be followed in well-formed states, so both are carried along
  have hconf : t.world.WF ∧ Configured t := by
    refine hrun.invariant_of (I := fun s => s.world.WF ∧ Configured s) (C := Undisturbed)
      ⟨hreach.wf, ?_⟩ ?_ hop
    · intro d hd
      rw [hempty] at hd
      exact absurd hd (SortedBy.not_mem_empty d)
    · rintro t a u ⟨hw, ht⟩ hstep hC
      exact ⟨hstep.wf hw, hstep.configured hw ht hC.leavesAlone⟩
  refine ⟨hconf.2, ?_, ?_⟩
  · intro env new hd ho
    exact LogsStep.setValue_total env new t (hd.deployable ho)
  · refine hrun.forall_taken (I := fun s => s.world.WF) hreach.wf
      (fun _ _ _ hw hstep => hstep.wf hw) ?_
    rintro t a u hw hstep env new rfl n hold hnew
    exact LogsState.setValue_unnamed hw hstep hold hnew

/-- One logger with one stdout appender. -/
def systemDefinition : LogDefinition := ⟨"system", .info, "", [⟨2, "", ""⟩]⟩

/-- The entry of a configuration file that asks for it. -/
def systemNode : Yaml.Node :=
  .map [Yaml.Node.entry "name" "system", Yaml.Node.entry "level" "INFO",
    (.scalar "appender", .seq [.map [Yaml.Node.entry "type" "StdoutLogAppender"]])]

/-- The texts of the entry and of the list with nothing else in it. -/
def systemRows : List (Yaml.Node × String) :=
  [(systemNode, "name: system\nlevel: INFO\nappender:\n  - type: StdoutLogAppender"),
    (.seq [systemNode], "- name: system\n  level: INFO\n  appender:\n    - type: StdoutLogAppender")]

/-- The set with this definition. -/
def systemSet : LogSet := ⟨[systemDefinition], List.pairwise_singleton _ _⟩

theorem systemSet_decoded : Decoded (Env.sample systemRows) systemSet :=
  ⟨_, decodeSet_pushBack (Yaml.sample_faithful ⟨by decide, by decide⟩) [()]
    (fun _ => systemNode) (fun _ => systemDefinition) (fun _ _ => rfl)
    (List.pairwise_singleton _ _)⟩

/-- From the initial state "logs" is set to it. -/
theorem systemSet_step :
    ∃ t, LogsStep .initial (.setValue (Env.sample systemRows) systemSet) t :=
  LogsStep.setValue_total _ _ .initial (systemSet_decoded.deployable fun _ _ _ _ _ => rfl)

/-- Another one, and the list of both. -/
def httpDefinition : LogDefinition := { systemDefinition with name := "http" }

def httpNode : Yaml.Node :=
  .map [Yaml.Node.entry "name" "http", Yaml.Node.entry "level" "INFO",
    (.scalar "appender", .seq [.map [Yaml.Node.entry "type" "StdoutLogAppender"]])]

def bothRows : List (Yaml.Node × String) :=
  [(systemNode, "name: system\nlevel: INFO\nappender:\n  - type: StdoutLogAppender"),
    (httpNode, "name: http\nlevel: INFO\nappender:\n  - type: StdoutLogAppender"),
    (.seq [httpNode, systemNode],
      "- name: http\n  level: INFO\n  appender:\n    - type: StdoutLogAppender\n" ++
      "- name: system\n  level: INFO\n  appender:\n    - type: StdoutLogAppender")]

def bothSet : LogSet :=
  ⟨[httpDefinition, systemDefinition], List.pairwise_pair.mpr (by decide)⟩

theorem bothSet_decoded : Decoded (Env.sample bothRows) bothSet :=
  ⟨_, decodeSet_pushBack (Yaml.sample_faithful ⟨by decide +kernel, by decide +kernel⟩) [true, false]
    (fun b => if b then httpNode else systemNode)
    (fun b => if b then httpDefinition else systemDefinition)
    (fun b _ => by cases b <;> rfl) (List.pairwise_pair.mpr (by decide))⟩

theorem bothSet_step (s : LogsState) :
    ∃ t, LogsStep s (.setValue (Env.sample bothRows) bothSet) t :=
  LogsStep.setValue_total _ _ s (bothSet_decoded.deployable fun _ _ _ _ _ => rfl)

/-- The second value keeps a definition. -/
theorem loggers_follow_bothSet : ∃ t u,
    let tr := [⟨.initial, .setValue (Env.sample systemRows) systemSet, t⟩,
      ⟨t, .setValue (Env.sample bothRows) bothSet, u⟩]
    Run LogsStep .initial tr u ∧ systemDefinition ∈ t.value ∧ systemDefinition ∈ u.value ∧
      Configured u ∧
      (∀ env new, Decoded env new → FilesOpen env new →
        ∃ t', LogsStep u (.setValue env new) t') ∧
      ∀ x ∈ tr, ∀ env new, x.label = .setValue env new →
        ∀ n, x.source.value.find? n = none → new.find? n = none →
          SameAt n x.source.world x.target.world := by
  obtain ⟨t, ht⟩ := systemSet_step
  obtain ⟨u, hu⟩ := bothSet_step t
  have hw : t.world.WF := LogsStep.wf (s := .initial) wf_init ht
  have hval : t.value = systemSet := (LogsState.setValue_spec (s := .initial) wf_init ht).1
  have hval' : u.value = bothSet := (LogsState.setValue_spec hw hu).1
  refine ⟨t, u, (Run.nil.snoc ht).snoc hu, hval ▸ List.mem_singleton_self _,
    hval' ▸ List.mem_cons_of_mem _ (List.mem_singleton_self _),
    loggers_follow ⟨[], .nil⟩ rfl ((Run.nil.snoc ht).snoc hu) fun x hx => ?_⟩
  rcases List.mem_cons.mp hx with rfl | hx
  · exact ⟨systemSet_decoded, fun _ _ _ _ _ => rfl⟩
  · obtain rfl := List.mem_singleton.mp hx
    exact ⟨bothSet_decoded, fun _ _ _ _ _ => rfl⟩

/-! ### The definitions that have gone -/

/-- A call of `setValue` leaves the logger of every definition it removed off and
without appenders. -/
def SilencesRemoved (x : Taken LogsState LogsOp) : Prop :=
  ∀ env new, x.label = .setValue env new →
    ∀ n, Removed x.source.value new n → x.target.world.Silenced n

/-- The deletion loop is reached, because some definition is new or modified; or there is
nothing for it to do. -/
def ReachesDeletion (x : Taken LogsState LogsOp) : Prop :=
  ∀ env new, x.label = .setValue env new →
    (∃ d ∈ new, x.source.value.find? d.name ≠ some d) ∨
      ∀ n, Removed x.source.value new n → x.source.world.Silenced n

/-- **Step lemma.** -/
theorem LogsStep.silencesRemoved_iff {op : LogsOp} (hw : s.world.WF) (h : LogsStep s op s') :
    SilencesRemoved ⟨s, op, s'⟩ ↔ ReachesDeletion ⟨s, op, s'⟩ := by
  refine forall₂_congr fun env new => forall_congr' fun hlabel => ?_
  dsimp only at hlabel
  subst hlabel
  obtain ⟨_, ⟨_, rfl⟩ | ⟨_, hc⟩⟩ := LogsState.setValue_spec hw h
  · -- the value was this one already: no definition is removed
    constructor
    · exact Or.inr
    · rintro (⟨d, hd, hne⟩ | hsil)
      · next hnew =>
          exact absurd (SortedBy.find?_eq_some.mpr ⟨hnew ▸ hd, rfl⟩) hne
      · exact hsil
  · by_cases hex : ∃ d ∈ new, s.value.find? d.name ≠ some d
    · exact ⟨fun _ => Or.inl hex, fun _ => hc.silenced hex⟩
    · -- every definition is skipped, and the loggers are as they were
      have hall : ∀ d ∈ new, s.value.find? d.name = some d := by
        intro d hd
        by_contra hne
        exact hex ⟨d, hd, hne⟩
      constructor
      · intro hsil
        exact Or.inr fun n hn => (hc.skipped hall n).silenced_iff.mp (hsil n hn)
      · rintro (h | hsil)
        · exact absurd h hex
        · exact fun n hn => (hc.skipped hall n).silenced_iff.mpr (hsil n hn)

/-- **Removed definitions are switched off in a run exactly when every step that removes
some reaches the deletion loop, or finds their loggers off already.** -/
theorem removed_silenced_iff (hreach : s.world.Reachable) (hrun : Run LogsStep s tr t) :
    (∀ x ∈ tr, SilencesRemoved x) ↔ ∀ x ∈ tr, ReachesDeletion x := by
  apply forall₂_congr
  intro x hx
  refine hrun.forall_taken (I := fun s => s.world.WF)
    (P := fun x => SilencesRemoved x ↔ ReachesDeletion x) hreach.wf ?_ ?_ x hx
  · intro _ _ _ hw hstep
    exact hstep.wf hw
  · intro _ _ _ hw hstep
    exact hstep.silencesRemoved_iff hw

/-- One of two definitions is removed, and the other one changed. -/
theorem removed_silenced_iff_http :
    let changed : LogSet := ⟨[{ systemDefinition with level := .error }], List.pairwise_singleton _ _⟩
    ∃ t u,
      let tr := [⟨.initial, .setValue (Env.sample bothRows) bothSet, t⟩,
        ⟨t, .setValue (Env.sample bothRows) changed, u⟩]
      Run LogsStep .initial tr u ∧ Removed t.value changed "http" ∧
        ((∀ x ∈ tr, SilencesRemoved x) ↔ ∀ x ∈ tr, ReachesDeletion x) ∧
        u.world.Silenced "http" := by
  intro changed
  have hdeploy : ∀ d ∈ changed, Deployable (Env.sample bothRows) d := by
    intro d hd
    obtain rfl := List.mem_singleton.mp hd
    intro a ha
    obtain rfl := List.mem_singleton.mp ha
    exact ⟨Or.inr rfl, fun _ => rfl⟩
  obtain ⟨t, ht⟩ := bothSet_step .initial
  obtain ⟨u, hu⟩ := LogsStep.setValue_total (Env.sample bothRows) changed t hdeploy
  have hrun := (Run.nil.snoc ht).snoc hu
  have hval : t.value = bothSet := (LogsState.setValue_spec (s := .initial) wf_init ht).1
  have hremoved : Removed t.value changed "http" := by
    rw [hval]
    exact ⟨⟨httpDefinition, List.mem_cons_self, rfl⟩, rfl⟩
  have hiff := removed_silenced_iff ⟨[], .nil⟩ hrun
  refine ⟨t, u, hrun, hremoved, hiff, ?_⟩
  have hreaches : ∀ x ∈ [Taken.mk .initial (.setValue (Env.sample bothRows) bothSet) t,
      ⟨t, .setValue (Env.sample bothRows) changed, u⟩], ReachesDeletion x := by
    intro x hx env new hlabel
    rcases List.mem_cons.mp hx with rfl | hx
    · cases hlabel
      exact Or.inl ⟨httpDefinition, List.mem_cons_self, fun h => by cases h⟩
    · obtain rfl := List.mem_singleton.mp hx
      cases hlabel
      -- "system" is defined otherwise now
      refine Or.inl ⟨_, List.mem_singleton_self _, ?_⟩
      rw [hval]
      decide
  exact hiff.mpr hreaches _ (List.mem_cons_of_mem _ (List.mem_singleton_self _)) _ _ rfl
    "http" hremoved

/-- "logs" is set to one definition and then to none: the logger stays on, with its
appender. -/
theorem removed_stays_on : ∃ t u,
    let tr := [⟨.initial, .setValue (Env.sample systemRows) systemSet, t⟩,
      ⟨t, .setValue (Env.sample systemRows) SortedBy.empty, u⟩]
    Run LogsStep .initial tr u ∧
      u.value.find? "system" = none ∧ u.world.Mirrors systemDefinition ∧
      ¬ ∀ x ∈ tr, SilencesRemoved x := by
  obtain ⟨t, ht⟩ := systemSet_step
  have hw : t.world.WF := LogsStep.wf (s := .initial) wf_init ht
  obtain ⟨hval, ⟨hnew, _⟩ | ⟨_, hc⟩⟩ := LogsState.setValue_spec (s := .initial) wf_init ht
  · exact absurd hnew (by decide)
  -- the first step has created the logger
  have hmirrors : t.world.Mirrors systemDefinition :=
    hc.mirrors systemDefinition (List.mem_singleton.mpr rfl) (by decide)
  obtain ⟨u, hu⟩ := LogsStep.setValue_total (Env.sample systemRows)
    SortedBy.empty t fun d hd => absurd hd (SortedBy.not_mem_empty d)
  obtain ⟨hval', ⟨hnew, _⟩ | ⟨_, hc'⟩⟩ := LogsState.setValue_spec hw hu
  · rw [hval] at hnew
    exact absurd hnew (by decide)
  -- nothing to visit: the loggers are as before
  have hstays : u.world.Mirrors systemDefinition :=
    hmirrors.of_sameAt (hc'.steps.wf hw) (hc'.skipped (fun d hd => absurd hd (SortedBy.not_mem_empty d)) _)
  refine ⟨t, u, (Run.nil.snoc ht).snoc hu, by rw [hval']; rfl, hstays, fun hall => ?_⟩
  obtain ⟨p, hp, hlevel, _⟩ := hstays
  have hremoved : Removed t.value SortedBy.empty "system" := by
    rw [hval]
    exact ⟨⟨systemDefinition, List.mem_singleton.mpr rfl, rfl⟩, rfl⟩
  have hsil := hall ⟨t, .setValue (Env.sample systemRows) SortedBy.empty, u⟩ (by simp)
  have hoff := (hsil _ _ rfl "system" hremoved p hp).1
  rw [hlevel] at hoff
  exact absurd hoff (by decide)

end Sylar
