/-
Sylar/Reload.lean

The log configuration as one variable among others (log.cpp).

Here the types of a program include `std::set<LogDefinition>`, with the decoder
of log.cpp as its conversion, and function 0 is the listener `LogIniter` adds to
"logs".

Most of what can be wrong with a "logs" value is dealt with: an appender that
cannot be understood is skipped, an entry that is no map or has a value of the
wrong kind makes the decoder throw, and a load goes on to the next member
(`malformed_logs_rejected`).  Two things end the process: an entry without a name
(`decodeNode_survives_iff`), and a file that cannot be opened.
-/
import Sylar.Config
import Sylar.Configured

namespace Sylar

open Yaml Config LogSystem

/-! ### Decoding without leaving -/

section Decoder

variable {Y : Yaml.Cpp}

/-- Subscripting the entry with "name" does not come back empty-handed: there is a name,
or the entry is a scalar and the subscript throws. -/
def Named (node : Node) : Prop := node.sub "name" ≠ .ret none

theorem sub_survives (node : Node) (key : String) : (node.sub key).Survives := by
  cases node <;> trivial

theorem subscript_survives (item : Option Node) (key : String) :
    (subscript item key).Survives := by
  cases item with
  | none => trivial
  | some node => exact sub_survives node key

theorem decodePattern_survives (item : Option Node) (type : Int) (file : String) :
    (decodePattern Y item type file).Survives := by
  apply (subscript_survives item "pattern").bind
  intro p _
  cases p with
  | none => trivial
  | some p => exact (Y.asString_survives p).bind fun _ _ => trivial

theorem decodeAppender_survives (item : Option Node) : (decodeAppender Y item).Survives := by
  apply (subscript_survives item "type").bind
  intro t _
  cases t with
  | none => trivial
  | some t =>
      apply (Y.asString_survives t).bind
      intro type _
      split_ifs
      · apply (subscript_survives item "file").bind
        intro f _
        cases f with
        | none => trivial
        | some f =>
            exact (Y.asString_survives f).bind fun _ _ => decodePattern_survives item 1 _
      · exact decodePattern_survives item 2 ""
      · trivial

theorem decodeAppenders_survives (items : List (Option Node)) :
    (decodeAppenders Y items).Survives :=
  Outcome.foldlM_survives fun _ item _ =>
    (decodeAppender_survives item).bind fun _ _ => trivial

theorem decodeLevel_survives (node : Node) : (decodeLevel Y node).Survives := by
  apply (sub_survives node "level").bind
  intro l _
  cases l with
  | none => trivial
  | some l => exact (Y.asString_survives l).bind fun _ _ => trivial

/-- The decoder of one definition ends the process for want of a name only. -/
theorem decodeNode_survives_iff (node : Node) : (decodeNode Y node).Survives ↔ Named node := by
  constructor
  · intro h hname
    rw [decodeNode, hname] at h
    exact h
  · intro h
    apply (sub_survives node "name").bind
    intro n hn
    cases n with
    | none => exact absurd hn h
    | some n =>
        apply (Y.asString_survives n).bind
        intro _ _
        apply (decodeLevel_survives node).bind
        intro _ _
        apply (sub_survives node "appender").bind
        intro as _
        cases as with
        | none => trivial
        | some as => exact (decodeAppenders_survives _).bind fun _ _ => trivial

/-- Every entry of the list this text stands for is named, as the decoder of entries
sees it. -/
def EntriesNamed (Y : Yaml.Cpp) (text : String) : Prop :=
  ∀ n, Y.load text = some n → ∀ item ∈ Y.items n, ∀ node, Y.load (Y.print item) = some node →
    Named node

theorem loadNode_eq_ret {text : String} {n : Node} (h : Y.loadNode text = .ret n) :
    Y.load text = some n := by
  unfold Cpp.loadNode at h
  cases hload : Y.load text with
  | none => rw [hload] at h; cases h
  | some m => rw [hload] at h; exact congrArg some (Outcome.ret.inj h)

theorem decodeSet_survives {text : String} (h : EntriesNamed Y text) :
    (decodeSet Y text).Survives := by
  apply (Y.loadNode_survives text).bind
  intro n hn
  -- printing and loading an item may throw; only its decoder can end the process
  apply Outcome.foldlM_survives
  intro vec item hitem
  refine Outcome.Survives.bind ?_ fun _ _ => trivial
  apply (Y.loadNode_survives _).bind
  intro node hnode
  exact (decodeNode_survives_iff node).mpr
    (h n (loadNode_eq_ret hn) item hitem node (loadNode_eq_ret hnode))

end Decoder

/-! ### The types and listeners of a program that logs -/

/-- The other types of a program, and sets of definitions.  `what` gives the text of the
exception yaml-cpp throws at a text. -/
abbrev Types.withLogs (env : Env) (what : String → String) (U : Types) : Types where
  Code := Option U.Code
  Val
    | none => LogSet
    | some c => U.Val c
  decCode := inferInstance
  decVal
    | none => inferInstanceAs (DecidableEq LogSet)
    | some c => U.decVal c
  typeName
    | none => "St3setIN5sylar13LogDefinitionESt4lessIS1_ESaIS1_EE"
    | some c => U.typeName c
  fromStr
    | none, s => (decodeSet env.yaml s).mapThrow fun _ => what s
    | some c, s => U.fromStr c s

variable {env : Env} {what : String → String} {U : Types}

/-- The listener of `LogIniter`, in a program; it never throws. -/
def logIniter {U : Types} (env : Env) (old new : LogSet) (p : Process U) :
    Outcome (Thrown U) (Process U) := do
  let w ← (onLogsChanged env old new p.log).mapThrow fun _ => (p, "")
  pure { p with log := w }

/-- A program in which function 0 is that listener. -/
def Program.withLogIniter (P : Program (U.withLogs env what)) : Program (U.withLogs env what) where
  callback
    -- the number `LogIniter` registers
    | none, 0, old, new, p => logIniter env old new p
    | c, f, old, new, p => P.callback c f old new p

/-- "logs" as the module registers it, with the listener under the key 1. -/
def logsVar (env : Env) (what : String → String) (U : Types) : Var (U.withLogs env what) :=
  ⟨none, "logs", ⟨(SortedBy.empty : LogSet), SortedMap.set SortedBy.empty 1 0⟩⟩

/-- The values `LogIniter`'s listener takes. -/
def Deploys (env : Env) (what : String → String) (U : Types) :
    ∀ c, (U.withLogs env what).Val c → Prop
  | none, new => ∀ d ∈ (new : LogSet), Deployable env d
  | some _, _ => True

theorem Program.Quiet.withLogIniter {P : Program (U.withLogs env what)} (hP : P.Quiet) :
    P.withLogIniter.QuietOn (Deploys env what U) := by
  intro c f old new p hnew
  match c, f with
  | none, 0 =>
      obtain ⟨w, hw⟩ := (onLogsChanged_returns_iff old new p.log).mpr fun d hd _ => hnew d hd
      refine ⟨{ p with log := w }, ?_, rfl⟩
      simp only [Program.withLogIniter, logIniter, hw, Outcome.mapThrow, Outcome.ret_bind,
        Outcome.pure_eq]
  | none, f + 1 => exact hP none (f + 1) old new p trivial
  | some c, f => exact hP (some c) f old new p trivial

/-! ### A load with a log configuration -/

/-- Texts for a variable of log definitions: the entries have names, and the files that
a decoded set names open. -/
def LogsTexts (env : Env) (l : List String) : Prop :=
  ∀ s ∈ l, EntriesNamed env.yaml s ∧
    ∀ new, decodeSet env.yaml s = .ret new → FilesOpen env new

/-- Texts for another variable: they convert or throw. -/
def OtherTexts (U : Types) (c : U.Code) (l : List String) : Prop :=
  ∀ s ∈ l, (U.fromStr c s).Survives

/-- What is asked of the texts a variable of the type `c` is given. -/
def GoodTexts (env : Env) (U : Types) (l : List String) : Option U.Code → Prop
  | none => LogsTexts env l
  | some c => OtherTexts U c l

theorem converts_of_goodTexts {vars : String → Option (Var (U.withLogs env what))}
    {ms : List (String × Node)}
    (h : ∀ k x, vars k = some x → GoodTexts env U (texts env k ms) x.code) :
    Converts env (Deploys env what U) ms vars := by
  intro k x hx s hs
  obtain ⟨c, name, var⟩ := x
  have hgood := h k _ hx
  cases c with
  | none =>
      obtain ⟨hnamed, hopen⟩ := hgood s hs
      refine ⟨(decodeSet_survives hnamed).mapThrow, fun new hnew => ?_⟩
      have hdec : decodeSet env.yaml s = .ret new := Outcome.mapThrow_eq_ret.mp hnew
      exact Decoded.deployable ⟨s, hdec⟩ (hopen new hdec)
  | some c => exact ⟨hgood s hs, fun _ _ => trivial⟩

/-- **A log configuration that is only malformed is rejected.**  If the entries of log
lists have names, the files they name open, and the other types and listeners are well
behaved, a load returns; a variable for which some text converts holds the last one that
does; and a variable for which none does is kept, "logs" included. -/
theorem malformed_logs_rejected {P : Program (U.withLogs env what)} (hP : P.Quiet)
    {p : Process (U.withLogs env what)} {root : Node}
    (hgood : ∀ k x, p.vars k = some x →
      GoodTexts env U (texts env k (visited root)) x.code) :
    ∃ p', loadFromYaml env P.withLogIniter root p = .ret p' ∧
      ∀ k x, p.vars k = some x →
        (∀ before s after v, texts env k (visited root) = before ++ s :: after →
          (U.withLogs env what).fromStr x.code s = .ret v →
          (∀ s' ∈ after, ((U.withLogs env what).fromStr x.code s').value? = none) →
            p'.vars k = some (x.assign v)) ∧
        ((∀ s ∈ texts env k (visited root),
          ((U.withLogs env what).fromStr x.code s).value? = none) → p'.vars k = some x) := by
  obtain ⟨p', hload, hvars⟩ :=
    loadFromYaml_spec env hP.withLogIniter root (converts_of_goodTexts hgood)
  refine ⟨p', hload, fun k x hx => ⟨?_, ?_⟩⟩
  · intro before s after v htexts hs hafter
    rw [hvars, settled, hx, htexts]
    exact congrArg some (Var.settle_last hs hafter)
  · intro hnone
    rw [hvars, settled, hx]
    exact congrArg some (Var.settle_of_none hnone)

/-! ### Documents with nothing but logs -/

/-- A document with "logs" and nothing else. -/
def logsDocument (entries : List Node) : Node := .map [(.scalar "logs", .seq entries)]

theorem visited_logsDocument (entries : List Node) :
    visited (logsDocument entries) =
      [("", logsDocument entries), ("logs", .seq entries)] := by
  have hmembers : members "" (logsDocument entries) =
      [("", logsDocument entries), ("logs", .seq entries)] := rfl
  have hvalid : validName "logs" = true := rfl
  simp [visited, hmembers, validName_empty, hvalid]

/-- The list is printed and given to "logs". -/
theorem texts_logsDocument (env : Env) (entries : List Node) :
    texts env "logs" (visited (logsDocument entries)) = [env.yaml.emit (.seq entries)] := by
  have hlower : tolower "logs" = "logs" := rfl
  rw [visited_logsDocument]
  simp [texts, hlower, nodeText]

/-- The load is one conversion. -/
theorem loadFromYaml_logsDocument {P : Program U} {p : Process U} {x : Var U}
    (hx : p.vars "logs" = some x) (entries : List Node) :
    loadFromYaml env P (logsDocument entries) p =
      (fromString env P "logs" x (env.yaml.emit (.seq entries)) p >>= fun r => pure r.1) := by
  have hvalid : validName "logs" = true := rfl
  have hne : ("logs" : String) ≠ "" := by decide
  have hlower : tolower "logs" = "logs" := rfl
  rw [logsDocument, loadFromYaml_single hvalid rfl, loadMember, if_neg hne, hlower,
    show lookupBase "logs" p = some x from hx]
  rfl

/-- What ends the process in the listener ends it in `setValue`. -/
theorem setValue_logsVar_exit {P : Program (U.withLogs env what)}
    {p : Process (U.withLogs env what)} {new : LogSet} {n : Nat} (hne : new ≠ SortedBy.empty)
    (h : onLogsChanged env SortedBy.empty new p.log = .exit n) :
    setValue P.withLogIniter "logs" (logsVar env what U) new p = .exit n := by
  have hlistener : logIniter env SortedBy.empty new p = .exit n := by
    rw [logIniter, h]
    rfl
  unfold setValue
  split_ifs with hnew
  · exact absurd hnew hne
  · show (logIniter env SortedBy.empty new p >>= pure) >>= _ = _
    rw [hlistener]
    rfl

theorem decodeSet_single {Y : Yaml.Cpp} (hY : Y.Faithful) (node : Node) :
    decodeSet Y (Y.emit (.seq [node])) =
      (decodeNode Y node >>= fun d => pure (SortedBy.empty.insert d)) := by
  rw [decodeSet, hY.loadNode_emit, Outcome.ret_bind, Cpp.items_seq]
  simp only [List.map_cons, List.map_nil, List.foldlM_cons, List.foldlM_nil,
    decodeDefinition_print hY, bind_pure]

/-- A named entry is a good text for "logs", if its files open. -/
theorem goodTexts_logsDocument (what : String → String) (U : Types) (hY : env.yaml.Faithful)
    {node : Node} (hnamed : Named node)
    (hopen : ∀ new, decodeSet env.yaml (env.yaml.emit (.seq [node])) = .ret new →
      FilesOpen env new) :
    ∀ k x, (Process.only "logs" (logsVar env what U)).vars k = some x →
      GoodTexts env U (texts env k (visited (logsDocument [node]))) x.code := by
  intro k x hk
  rw [Process.vars_only] at hk
  by_cases hkk : k = "logs"
  · subst hkk
    rw [Function.update_self] at hk
    obtain rfl := Option.some.inj hk
    intro s hs
    rw [texts_logsDocument] at hs
    obtain rfl := List.mem_singleton.mp hs
    refine ⟨?_, hopen⟩
    -- the printed list loads as the list, and its item as the item
    intro n hn item hitem node' hnode'
    obtain rfl := Option.some.inj ((hY.load_emit _).symm.trans hn)
    rw [Cpp.items_seq] at hitem
    obtain rfl := List.mem_singleton.mp hitem
    obtain rfl := Option.some.inj ((hY.load_emit _).symm.trans hnode')
    exact hnamed
  · rw [Function.update_of_ne hkk] at hk
    cases hk

/-- An entry that is a number is rejected, and "logs" keeps its value. -/
theorem malformed_logs_rejected_number :
    let env := Env.sample [(.seq [.scalar "5"], "- 5"), (.scalar "5", "5")]
    let what := fun _ : String => "operator[] call on a scalar"
    let U := Types.ofRead some
    let p := Process.only "logs" (logsVar env what U)
    ∃ p', loadFromYaml env (Program.silent _).withLogIniter (logsDocument [.scalar "5"]) p =
        .ret p' ∧ p'.vars "logs" = p.vars "logs" := by
  intro env what U p
  have hY : env.yaml.Faithful := Env.sample_faithful ⟨by decide, by decide⟩
  have hx : p.vars "logs" = some (logsVar env what U) := by
    rw [Process.vars_only, Function.update_self]
  have hnamed : Named (.scalar "5") := fun h => by cases h
  have hgood := goodTexts_logsDocument what U hY hnamed fun _ _ _ _ _ _ _ => rfl
  obtain ⟨p', hload, hvars⟩ := malformed_logs_rejected (Program.quiet_silent _) hgood
  refine ⟨p', hload, ((hvars "logs" _ hx).2 fun s hs => ?_).trans hx.symm⟩
  rw [texts_logsDocument] at hs
  obtain rfl := List.mem_singleton.mp hs
  have hdecode : decodeSet env.yaml (env.yaml.emit (.seq [.scalar "5"])) = .throw () :=
    decodeSet_single hY _
  simp only [logsVar, hdecode, Outcome.mapThrow, Outcome.value?_throw]

/-- An entry without a name. -/
def namelessNode : Node := .map [Node.entry "level" "INFO"]

/-- An entry with one appender. -/
def appenderEntry (appender : List (Node × Node)) : Node :=
  .map [Node.entry "name" "a", (.scalar "appender", .seq [.map appender])]

/-- Its type is none that is known. -/
def unknownTypeNode : Node := appenderEntry [Node.entry "type" "Socket"]

/-- Its file is in a directory that does not exist. -/
def unopenedNode : Node :=
  appenderEntry [Node.entry "type" "FileLogAppender", Node.entry "file" "none/a.log"]

/-- The texts of the entries and of the lists with nothing else in them. -/
def malformedRows : List (Node × String) :=
  [(namelessNode, "level: INFO"), (.seq [namelessNode], "- level: INFO"),
    (unknownTypeNode, "name: a\nappender:\n  - type: Socket"),
    (.seq [unknownTypeNode], "- name: a\n  appender:\n    - type: Socket"),
    (unopenedNode, "name: a\nappender:\n  - type: FileLogAppender\n    file: none/a.log"),
    (.seq [unopenedNode],
      "- name: a\n  appender:\n    - type: FileLogAppender\n      file: none/a.log")]

/-- An entry without a name ends the process, and so does a file that cannot be opened.
An appender of an unknown type does not, but the value of "logs" is replaced: the
definition is taken without the appender. -/
theorem malformed_logs_not_kept :
    let env := { Env.sample malformedRows with canOpen := fun file => file != "none/a.log" }
    let what := fun _ : String => "bad conversion"
    let U := Types.ofRead some
    let P := Program.silent (U.withLogs env what)
    let p := Process.only "logs" (logsVar env what U)
    loadFromYaml env P.withLogIniter (logsDocument [namelessNode]) p = .exit 0 ∧
      loadFromYaml env P.withLogIniter (logsDocument [unopenedNode]) p = .exit 1 ∧
      ∃ p', loadFromYaml env P.withLogIniter (logsDocument [unknownTypeNode]) p = .ret p' ∧
        p'.vars "logs" = some ((logsVar env what U).assign
          (SortedBy.empty.insert (⟨"a", .off, "", []⟩ : LogDefinition) : LogSet)) := by
  intro env what U P p
  have hY : env.yaml.Faithful := Yaml.sample_faithful ⟨by decide, by decide⟩
  have hx : p.vars "logs" = some (logsVar env what U) := by
    rw [Process.vars_only, Function.update_self]
  refine ⟨?_, ?_, ?_⟩
  · have hdecode : decodeSet env.yaml (env.yaml.emit (.seq [namelessNode])) = .exit 0 :=
      decodeSet_single hY _
    rw [loadFromYaml_logsDocument hx]
    simp only [fromString, logsVar, hdecode, Outcome.mapThrow, Outcome.exit_bind,
      Outcome.rescue]
  · have hdecode : decodeSet env.yaml (env.yaml.emit (.seq [unopenedNode])) =
        .ret (SortedBy.empty.insert ⟨"a", .off, "", [⟨1, "", "none/a.log"⟩]⟩) :=
      decodeSet_single hY _
    -- the listener gets as far as the constructor of the appender
    have hlistener : onLogsChanged env SortedBy.empty
        (SortedBy.empty.insert ⟨"a", .off, "", [⟨1, "", "none/a.log"⟩]⟩) p.log = .exit 1 := rfl
    have hset := setValue_logsVar_exit (P := P) (p := p) (by decide) hlistener
    have hconv : (U.withLogs env what).fromStr (logsVar env what U).code
        (env.yaml.emit (.seq [unopenedNode])) =
          .ret (SortedBy.empty.insert ⟨"a", .off, "", [⟨1, "", "none/a.log"⟩]⟩ : LogSet) := by
      simp only [logsVar, hdecode, Outcome.mapThrow]
    rw [loadFromYaml_logsDocument hx, fromString_exit hconv hset]
    rfl
  · have hdecode : decodeSet env.yaml (env.yaml.emit (.seq [unknownTypeNode])) =
        .ret (SortedBy.empty.insert ⟨"a", .off, "", []⟩) := decodeSet_single hY _
    have hnamed : Named unknownTypeNode := fun h => by cases h
    have hopen : ∀ new, decodeSet env.yaml (env.yaml.emit (.seq [unknownTypeNode])) = .ret new →
        FilesOpen env new := by
      intro new hnew d hd a ha
      rw [hdecode] at hnew
      obtain rfl := Outcome.ret.inj hnew
      obtain rfl := List.mem_singleton.mp hd
      cases ha
    have hgood := goodTexts_logsDocument what U hY hnamed hopen
    obtain ⟨p', hload, hvars⟩ := loadFromYaml_spec env (Program.quiet_silent _).withLogIniter
      (logsDocument [unknownTypeNode]) (converts_of_goodTexts hgood)
    refine ⟨p', hload, ?_⟩
    rw [hvars, settled, hx, texts_logsDocument]
    refine congrArg some (Var.settle_of_ret ?_)
    simp only [logsVar, hdecode, Outcome.mapThrow]

end Sylar
