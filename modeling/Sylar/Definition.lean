/-
Sylar/Definition.lean

The configuration of loggers (log.cpp): appender and logger definitions, and
their codecs to and from YAML text.

A set of definitions is ordered by name, and two definitions with the same name
are the same element of it.  The codec of a set is the generic one of
config.hpp: every element is written to a text of its own, loaded again, and
pushed to a sequence; reading prints every element of the sequence and decodes
the text.

Encoder and decoder were written independently and do not agree: the encoder
writes a key the decoder does not read, neither knows the logger's pattern, and
`ERROR` is not a level the decoder knows.  `decode_encode` says what comes back,
and `roundtrip_iff` when that is what was written.
-/
import Sylar.Model

namespace Sylar

open Yaml

/-! ### Definitions -/

/-- `AppenderDefinition`; type 1 is a file appender and type 2 a stdout appender. -/
structure AppenderDefinition where
  type : Int := 0
  pattern : String := ""
  file : String := ""
  deriving DecidableEq, Repr, Inhabited

/-- `LogDefinition`. -/
structure LogDefinition where
  name : String := ""
  level : LogLevel := .off
  pattern : String := ""
  appenders : List AppenderDefinition := []
  deriving DecidableEq, Repr, Inhabited

/-- `std::set<LogDefinition>`. -/
abbrev LogSet := SortedBy LogDefinition.name

/-! ### Decoding -/

section Codec

variable (Y : Yaml.Cpp)

/-- `node[key]` on a node that may be undefined. -/
def subscript (node : Option Node) (key : String) : Outcome Unit (Option Node) :=
  match node with
  | some n => n.sub key
  | none => .ret none

/-- The optional pattern of an appender. -/
def decodePattern (item : Option Node) (type : Int) (file : String) :
    Outcome Unit (Option AppenderDefinition) := do
  match ← subscript item "pattern" with
  | some p => do
      let pattern ← Y.asString p
      pure (some { type, pattern, file })
  | none => pure (some { type, file })

/-- One iteration of the loop over the appenders; `none` for one that is reported and
skipped. -/
def decodeAppender (item : Option Node) : Outcome Unit (Option AppenderDefinition) := do
  match ← subscript item "type" with
  -- `continue`, as for each `none` below
  | none => pure none
  | some t => do
      let type ← Y.asString t
      if type = "FileLogAppender" then
        match ← subscript item "file" with
        | none => pure none
        | some f => do
            let file ← Y.asString f
            decodePattern Y item 1 file
      else if type = "StdoutLogAppender" then decodePattern Y item 2 ""
      else pure none

/-- The loop over the appenders. -/
def decodeAppenders (items : List (Option Node)) : Outcome Unit (List AppenderDefinition) :=
  items.foldlM (fun appenders item => do
    let apDefine ← decodeAppender Y item
    pure (appenders ++ apDefine.toList)) []

/-- `def.level`; a level that is not given reads as the empty text. -/
def decodeLevel (node : Node) : Outcome Unit LogLevel := do
  match ← node.sub "level" with
  | some l => do
      let str ← Y.asString l
      pure (.fromString str)
  | none => pure (.fromString "")

/-- `LexicalCast<std::string, LogDefinition>` on the loaded node.  A definition without
a name ends the process. -/
def decodeNode (node : Node) : Outcome Unit LogDefinition := do
  match ← node.sub "name" with
  | none => .exit 0
  | some n => do
      let name ← Y.asString n
      let level ← decodeLevel Y node
      match ← node.sub "appender" with
      | none => pure { name, level }
      | some as => do
          let appenders ← decodeAppenders Y (Y.items as)
          pure { name, level, appenders }

/-- `LexicalCast<std::string, LogDefinition>`. -/
def decodeDefinition (string : String) : Outcome Unit LogDefinition := do
  let node ← Y.loadNode string
  decodeNode Y node

/-- `LexicalCast<std::string, std::set<LogDefinition>>`. -/
def decodeSet (string : String) : Outcome Unit LogSet := do
  let node ← Y.loadNode string
  (Y.items node).foldlM (fun vec item => do
    let d ← decodeDefinition Y (Y.print item)
    pure (vec.insert d)) SortedBy.empty

/-! ### Encoding -/

/-- `apNode`. -/
def AppenderDefinition.toNode (ap : AppenderDefinition) : Node :=
  let typeEntries :=
    if ap.type = 1 then
      [Node.entry "type" "FileLogAppender", Node.entry "file" ap.file]
    else if ap.type = 2 then [Node.entry "type" "StdoutAppender"]
    else []
  let entries := typeEntries ++
    if ap.pattern = "" then [] else [Node.entry "pattern" ap.pattern]
  if entries = [] then .null else .map entries

/-- The node `LexicalCast<LogDefinition, std::string>` prints. -/
def LogDefinition.toNode (d : LogDefinition) : Node :=
  .map ([Node.entry "name" d.name, Node.entry "level" d.level.toString] ++
    if d.appenders = [] then []
    else [(.scalar "appenders", .seq (d.appenders.map AppenderDefinition.toNode))])

/-- `LexicalCast<LogDefinition, std::string>`. -/
def encodeDefinition (d : LogDefinition) : String := Y.print (some d.toNode)

/-- `LexicalCast<std::set<LogDefinition>, std::string>`. -/
def encodeSet (s : LogSet) : Outcome Unit String := do
  let nodes ← Y.loadAll (fun d => .ret (encodeDefinition Y d)) s.toList
  pure (Y.print (Node.pushBack nodes))

end Codec

/-! ### What the decoder can return -/

variable {Y : Yaml.Cpp}

theorem decodePattern_type {item : Option Node} {type : Int} {file : String}
    {a : AppenderDefinition} (h : decodePattern Y item type file = .ret (some a)) :
    a.type = type := by
  unfold decodePattern at h
  obtain ⟨p, _, h⟩ := Outcome.bind_eq_ret.mp h
  cases p with
  | none => exact (congrArg AppenderDefinition.type (Option.some.inj (Outcome.ret.inj h))).symm
  | some p =>
      obtain ⟨pattern, _, h⟩ := Outcome.bind_eq_ret.mp h
      exact (congrArg AppenderDefinition.type (Option.some.inj (Outcome.ret.inj h))).symm

/-- A decoded appender is a file appender or a stdout appender. -/
theorem decodeAppender_type {item : Option Node} {a : AppenderDefinition}
    (h : decodeAppender Y item = .ret (some a)) : a.type = 1 ∨ a.type = 2 := by
  unfold decodeAppender at h
  obtain ⟨t, _, h⟩ := Outcome.bind_eq_ret.mp h
  cases t with
  | none => cases h
  | some t =>
      obtain ⟨type, _, h⟩ := Outcome.bind_eq_ret.mp h
      split_ifs at h
      · obtain ⟨f, _, h⟩ := Outcome.bind_eq_ret.mp h
        cases f with
        | none => cases h
        | some f =>
            obtain ⟨file, _, h⟩ := Outcome.bind_eq_ret.mp h
            exact Or.inl (decodePattern_type h)
      · exact Or.inr (decodePattern_type h)
      · cases h

/-- What every decoded definition has in common: no pattern for the logger, and appenders
of the two known types. -/
structure LogDefinition.Decodable (d : LogDefinition) : Prop where
  pattern : d.pattern = ""
  type : ∀ a ∈ d.appenders, a.type = 1 ∨ a.type = 2

theorem decodeAppenders_type {items : List (Option Node)} {as : List AppenderDefinition}
    (h : decodeAppenders Y items = .ret as) : ∀ a ∈ as, a.type = 1 ∨ a.type = 2 := by
  refine Outcome.foldlM_induction
    (P := fun _ (as : List AppenderDefinition) => ∀ a ∈ as, a.type = 1 ∨ a.type = 2)
    (fun _ ha => absurd ha List.not_mem_nil) ?_ h
  intro done item rest as as' _ has hstep
  obtain ⟨apDefine, hap, hstep⟩ := Outcome.bind_eq_ret.mp hstep
  obtain rfl := Outcome.ret.inj hstep
  intro a ha
  rcases List.mem_append.mp ha with ha | ha
  · exact has a ha
  · cases apDefine with
    | none => cases ha
    | some a' =>
        obtain rfl := List.mem_singleton.mp ha
        exact decodeAppender_type hap

theorem decodeNode_decodable {node : Node} {d : LogDefinition} (h : decodeNode Y node = .ret d) :
    d.Decodable := by
  unfold decodeNode at h
  obtain ⟨n, _, h⟩ := Outcome.bind_eq_ret.mp h
  cases n with
  | none => cases h
  | some n =>
      obtain ⟨name, _, h⟩ := Outcome.bind_eq_ret.mp h
      obtain ⟨level, _, h⟩ := Outcome.bind_eq_ret.mp h
      obtain ⟨as, _, h⟩ := Outcome.bind_eq_ret.mp h
      cases as with
      | none =>
          obtain rfl := Outcome.ret.inj h
          exact ⟨rfl, fun _ ha => absurd ha List.not_mem_nil⟩
      | some as =>
          obtain ⟨appenders, happ, h⟩ := Outcome.bind_eq_ret.mp h
          obtain rfl := Outcome.ret.inj h
          exact ⟨rfl, decodeAppenders_type happ⟩

/-- Whatever the set decoder returns is made of such definitions. -/
theorem decodeSet_decodable {string : String} {s : LogSet} (h : decodeSet Y string = .ret s) :
    ∀ d ∈ s, d.Decodable := by
  unfold decodeSet at h
  obtain ⟨node, _, h⟩ := Outcome.bind_eq_ret.mp h
  refine Outcome.foldlM_induction (P := fun _ (s : LogSet) => ∀ d ∈ s, d.Decodable)
    (fun d hd => absurd hd (SortedBy.not_mem_empty d)) ?_ h
  intro done item rest s s' _ hs hstep
  obtain ⟨d, hd, hstep⟩ := Outcome.bind_eq_ret.mp hstep
  obtain rfl := Outcome.ret.inj hstep
  intro d' hd'
  rcases SortedBy.mem_place hd' with rfl | hd'
  · obtain ⟨node, _, hd⟩ := Outcome.bind_eq_ret.mp hd
    exact decodeNode_decodable hd
  · exact hs d' hd'

/-! ### Reading a dumped sequence of definitions -/

theorem decodeDefinition_print (hY : Y.Faithful) (n : Node) :
    decodeDefinition Y (Y.print (some n)) = decodeNode Y n := by
  rw [decodeDefinition, Cpp.print, hY.loadNode_emit]
  rfl

/-- A sequence of nodes that decode to definitions with ascending names decodes to the
set of these. -/
theorem decodeSet_pushBack {α : Type} (hY : Y.Faithful) (xs : List α) (node : α → Node)
    (d : α → LogDefinition) (hdecode : ∀ x ∈ xs, decodeNode Y (node x) = .ret (d x))
    (hsorted : (xs.map d).Pairwise fun a b => a.name < b.name) :
    decodeSet Y (Y.print (Node.pushBack (xs.map node))) = .ret ⟨xs.map d, hsorted⟩ := by
  have hstep : ∀ x ∈ xs, decodeDefinition Y (Y.print (some (node x))) = .ret (d x) := by
    intro x hx
    rw [decodeDefinition_print hY, hdecode x hx]
  rw [decodeSet, hY.loadNode_print, Outcome.ret_bind, Cpp.items_pushBack, List.map_map,
    List.foldlM_map]
  -- names ascend, so each insertion is at the end
  refine (Outcome.foldlM_push SortedBy.insert hstep SortedBy.empty).trans (congrArg Outcome.ret ?_)
  exact SortedBy.ext (SortedBy.toList_foldl_insert hsorted)

/-! ### The round trip -/

/-- What is left of a definition that is written and read back. -/
def LogDefinition.reread (d : LogDefinition) : LogDefinition where
  name := d.name
  level := .fromString d.level.toString

theorem LogDefinition.reread_name (d : LogDefinition) : d.reread.name = d.name := rfl

/-- Name and level are all the decoder finds. -/
theorem decodeNode_toNode (d : LogDefinition) : decodeNode Y d.toNode = .ret d.reread := by
  have hname : d.toNode.sub "name" = .ret (some (.scalar d.name)) := by
    simp [LogDefinition.toNode, Node.sub, Node.entry, Node.isKey]
  have hlevel : decodeLevel Y d.toNode = .ret (.fromString d.level.toString) := by
    simp [decodeLevel, LogDefinition.toNode, Node.sub, Node.entry, Node.isKey, Cpp.asString]
  -- the appenders are under another key
  have happender : d.toNode.sub "appender" = .ret none := by
    unfold LogDefinition.toNode
    split <;> simp [Node.sub, Node.entry, Node.isKey]
  simp only [decodeNode, hname, hlevel, happender, Outcome.ret_bind, Cpp.asString]
  rfl

theorem decode_encode (hY : Y.Faithful) (d : LogDefinition) :
    decodeDefinition Y (encodeDefinition Y d) = .ret d.reread := by
  rw [encodeDefinition, decodeDefinition_print hY, decodeNode_toNode]

theorem encodeSet_eq (hY : Y.Faithful) (s : LogSet) :
    encodeSet Y s = .ret (Y.print (Node.pushBack (s.toList.map LogDefinition.toNode))) := by
  have hload : Y.loadAll (fun d => .ret (encodeDefinition Y d)) s.toList =
      .ret (s.toList.map LogDefinition.toNode) := hY.loadAll_eq _ fun _ _ => rfl
  rw [encodeSet, hload]
  rfl

theorem decodeSet_encodeSet (hY : Y.Faithful) (s : LogSet) :
    (encodeSet Y s >>= decodeSet Y) = .ret (s.map LogDefinition.reread LogDefinition.reread_name) := by
  rw [encodeSet_eq hY, Outcome.ret_bind]
  exact decodeSet_pushBack hY s.toList _ _ (fun d _ => decodeNode_toNode d)
    (s.map LogDefinition.reread LogDefinition.reread_name).sorted

/-- A definition the codecs agree about: without appenders, without a pattern, and at
another level than `ERROR`. -/
structure LogDefinition.Plain (d : LogDefinition) : Prop where
  level : d.level ≠ .error
  pattern : d.pattern = ""
  appenders : d.appenders = []

theorem LogDefinition.reread_eq_self_iff (d : LogDefinition) : d.reread = d ↔ d.Plain := by
  obtain ⟨name, level, pattern, appenders⟩ := d
  simp only [LogDefinition.reread, LogDefinition.mk.injEq, true_and,
    LogLevel.fromString_toString_eq_iff]
  constructor
  · rintro ⟨hlevel, hpattern, happenders⟩
    exact ⟨hlevel, hpattern.symm, happenders.symm⟩
  · rintro ⟨hlevel, hpattern, happenders⟩
    exact ⟨hlevel, hpattern.symm, happenders.symm⟩

/-- **A definition survives being written and read back exactly when it is plain**, and
a set of definitions exactly when all of them are. -/
theorem roundtrip_iff (hY : Y.Faithful) :
    (∀ d, decodeDefinition Y (encodeDefinition Y d) = .ret d ↔ d.Plain) ∧
      ∀ s : LogSet, (encodeSet Y s >>= decodeSet Y) = .ret s ↔ ∀ d ∈ s, d.Plain := by
  constructor
  · intro d
    rw [decode_encode hY, Outcome.ret.injEq, LogDefinition.reread_eq_self_iff]
  · intro s
    rw [decodeSet_encodeSet hY, Outcome.ret.injEq, SortedBy.map_eq_self_iff]
    exact forall₂_congr fun d _ => d.reread_eq_self_iff

/-- The texts of two definitions and of the set of them. -/
def sampleRows : List (Node × String) :=
  [((LogDefinition.mk "system" .info "" []).toNode, "name: system\nlevel: INFO"),
    ((LogDefinition.mk "root" .error "" [⟨2, "", ""⟩]).toNode,
      "name: root\nlevel: ERROR\nappenders:\n  - type: StdoutAppender"),
    (.seq [(LogDefinition.mk "system" .info "" []).toNode], "- name: system\n  level: INFO")]

theorem sampleRows_unambiguous : Unambiguous sampleRows := ⟨by decide, by decide⟩

theorem roundtrip_iff_sample :
    (∀ d, decodeDefinition (sample sampleRows) (encodeDefinition (sample sampleRows) d) = .ret d ↔
        d.Plain) ∧
      ∀ s : LogSet, (encodeSet (sample sampleRows) s >>= decodeSet (sample sampleRows)) = .ret s ↔
        ∀ d ∈ s, d.Plain :=
  roundtrip_iff (sample_faithful sampleRows_unambiguous)

/-- A logger at `ERROR` with one stdout appender comes back switched off and without
appenders. -/
theorem roundtrip_lossy :
    let Y := sample sampleRows
    let d : LogDefinition := ⟨"root", .error, "", [⟨2, "", ""⟩]⟩
    Y.Faithful ∧ encodeDefinition Y d =
        "name: root\nlevel: ERROR\nappenders:\n  - type: StdoutAppender" ∧
      decodeDefinition Y (encodeDefinition Y d) = .ret ⟨"root", .off, "", []⟩ ∧
      decodeDefinition Y (encodeDefinition Y d) ≠ .ret d := by
  intro Y d
  have hY : Y.Faithful := sample_faithful sampleRows_unambiguous
  have hd : decodeDefinition Y (encodeDefinition Y d) = .ret ⟨"root", .off, "", []⟩ :=
    decode_encode hY d
  have hrow : sampleRows.find? (fun r => r.1 = d.toNode) = some sampleRows[1] := by decide
  refine ⟨hY, sample_emit hrow, hd, ?_⟩
  rw [hd]
  decide

end Sylar
