/-
Sylar/Scalars.lean

Scalars inside containers, and in place of containers (config.hpp, config.cpp).

Inside: a scalar of a document is given to a string variable as it is, but an
element of a sequence is emitted first, and that text is the value.  The two
agree exactly on the strings that are emitted as they are (`scalars_agree_iff`).

In place of: nothing in the six container conversions looks at the kind of the
node.  A scalar has no size and no entries, so each of them reads it as an empty
container, and the text is never refused (`wrong_kind_never_refused`).
-/
import Sylar.Codec
import Sylar.Meaning

namespace Sylar

open Yaml Config

variable {α β γ κ : Type}

/-! ### What a document gives a variable -/

/-- The last place of the document that denotes the key has this node. -/
def LastWord (k : String) (root node : Node) : Prop :=
  ∃ before m after, places [] root = before ++ m :: after ∧ Denotes k m ∧ m.2 = node ∧
    ∀ m' ∈ after, ¬ Denotes k m'

/-- A document whose last word on a variable of the type `c` is this node sets it to `v`,
whatever else is registered and stands in the document. -/
def Stores {U : Types} (env : Env) (c : U.Code) (node : Node) (v : U.Val c) : Prop :=
  ∀ (P : Program U) (p : Process U) (k name : String) (var : ConfigVar (U.Val c) Nat)
    (root : Node), P.Quiet → p.Converting → k ≠ "" → p.vars k = some ⟨c, name, var⟩ →
    LastWord k root node →
      ∃ p', loadFromYaml env P root p = .ret p' ∧ p'.vars k = some ⟨c, name, var.assign v⟩

section Stores

variable {U : Types} {env : Env} {c : U.Code} {node : Node} {v v' : U.Val c}

theorem stores_of_ret (hv : U.fromStr c (nodeText env node) = .ret v) : Stores env c node v := by
  rintro P p k name var root hP hp hk hx ⟨before, m, after, hplaces, hm, rfl, hafter⟩
  obtain ⟨p', hload, hmeaning⟩ := loadFromYaml_meaning env hP hp root
  refine ⟨p', hload, ?_⟩
  apply ((hmeaning k hk).2 _ hx).1 before m after v hplaces hm hv
  intro m' hm' hden
  exact absurd hden (hafter m' hm')

/-- The document with one entry. -/
theorem lastWord_single (hmap : node.isMap = false) :
    LastWord "v" (.map [(.scalar "v", node)]) node := by
  have hv : tolower (dotted ["v"]) = "v" ∧ validName (dotted ["v"]) = true := by decide
  refine ⟨[([], .map [(.scalar "v", node)])], (["v"], node), [], ?_, denotes_iff.mpr hv, rfl,
    List.forall_mem_nil _⟩
  cases node with
  | map entries => cases hmap
  | null => rfl
  | scalar s => rfl
  | seq items => rfl

/-- The value stored is the conversion of the node's text, and no other. -/
theorem stores_iff (hc : ∀ s, (U.fromStr c s).Survives) (hmap : node.isMap = false)
    (hv : U.fromStr c (nodeText env node) = .ret v) : Stores env c node v' ↔ v' = v := by
  constructor
  · intro h
    let p : Process U := .only "v" ⟨c, "v", ⟨v, SortedBy.empty⟩⟩
    have hx : p.vars "v" = some ⟨c, "v", ⟨v, SortedBy.empty⟩⟩ := by
      rw [Process.vars_only, Function.update_self]
    have hp : p.Converting := by
      intro k x hk
      rw [Process.vars_only] at hk
      by_cases hkey : k = "v"
      · subst hkey
        rw [Function.update_self] at hk
        obtain rfl := Option.some.inj hk
        exact hc
      · rw [Function.update_of_ne hkey] at hk
        cases hk
    have hlast := lastWord_single hmap
    obtain ⟨p', hload, hvars⟩ :=
      h _ p "v" "v" _ _ (Program.quiet_silent U) hp (by decide) hx hlast
    obtain ⟨q, hload', hvars'⟩ :=
      stores_of_ret hv _ p "v" "v" _ _ (Program.quiet_silent U) hp (by decide) hx hlast
    obtain rfl := Outcome.ret.inj (hload.symm.trans hload')
    have hsame := Option.some.inj (hvars.symm.trans hvars')
    simpa [ConfigVar.assign] using hsame
  · rintro rfl
    exact stores_of_ret hv

end Stores

/-! ### Inside a container -/

/-- The other types of a program, and one with these conversions; `what` gives the text of
what they throw at a text. -/
abbrev Types.withCodec [DecidableEq α] (c : Codec α) (typeName : String) (what : String → String)
    (U : Types) : Types where
  Code := Option U.Code
  Val
    | none => α
    | some c => U.Val c
  decCode := inferInstance
  decVal
    | none => inferInstance
    | some c => U.decVal c
  typeName
    | none => typeName
    | some c => U.typeName c
  fromStr
    | none, s => (c.dec s).mapThrow fun _ => what s
    | some c, s => U.fromStr c s

/-- The types of a program that has strings and vectors of them. -/
abbrev Types.withStrings (Y : Yaml.Cpp) (what : String → String) (U : Types) : Types :=
  (U.withCodec stringCodec "NSt7__cxx1112basic_stringIcSt11char_traitsIcESaIcEEE" what).withCodec
    (vectorCodec Y stringCodec)
    "St6vectorINSt7__cxx1112basic_stringIcSt11char_traitsIcESaIcEEESaIS5_EE" what

/-- `std::string`. -/
abbrev Types.string (Y : Yaml.Cpp) (what : String → String) (U : Types) :
    (U.withStrings Y what).Code := some none

/-- `std::vector<std::string>`. -/
abbrev Types.strings (Y : Yaml.Cpp) (what : String → String) (U : Types) :
    (U.withStrings Y what).Code := none

section Inside

variable {Y : Yaml.Cpp}

/-- Every element is the text that is emitted for its node. -/
theorem decode_emit_seq (hY : Y.Faithful) (ss : List String) :
    (vectorCodec Y stringCodec).dec (Y.emit (.seq (ss.map .scalar))) =
      .ret (ss.map fun s => Y.emit (.scalar s)) := by
  show decodeSequence Y stringCodec (fun vec s => vec ++ [s]) [] _ = _
  rw [decodeSequence, hY.loadNode_emit, Outcome.ret_bind, Cpp.items_seq, List.map_map,
    List.foldlM_map]
  have hstep : ∀ s ∈ ss, stringCodec.dec (Y.print (some (.scalar s))) =
      .ret (Y.emit (.scalar s)) := fun s _ => rfl
  have hloop := Outcome.foldlM_push (fun vec s => vec ++ [s]) hstep []
  rw [foldl_push_back] at hloop
  exact hloop

end Inside

theorem fromStr_strings {env : Env} (hY : env.yaml.Faithful) (what : String → String) (U : Types)
    (ss : List String) :
    (U.withStrings env.yaml what).fromStr (U.strings env.yaml what)
      (nodeText env (.seq (ss.map .scalar))) =
        .ret (ss.map fun s => env.yaml.emit (.scalar s)) := by
  show ((vectorCodec env.yaml stringCodec).dec (env.yaml.emit _)).mapThrow _ = _
  rw [decode_emit_seq hY]
  rfl

/-- In a sequence a string is stored as it is emitted. -/
theorem stores_strings_iff {env : Env} (hY : env.yaml.Faithful) {what : String → String}
    {U : Types} {ss vs : List String} :
    Stores env (U.strings env.yaml what) (.seq (ss.map .scalar)) vs ↔
      ss.map (fun s => env.yaml.emit (.scalar s)) = vs := by
  have hstring : ∀ s, (stringCodec.dec s).Survives := fun _ => trivial
  have hsurvives : ∀ s, ((U.withStrings env.yaml what).fromStr none s).Survives :=
    fun s => ((Layer.vector stringCodec).survives hstring s).mapThrow
  rw [stores_iff hsurvives rfl (fromStr_strings hY what U ss), eq_comm]

/-- **Scalars in and out of a sequence.**  As a scalar, a string is stored as it is; in a
sequence, exactly the strings that are emitted as they are. -/
theorem scalars_agree_iff {env : Env} (hY : env.yaml.Faithful) (what : String → String)
    (U : Types) (ss : List String) :
    (∀ s ∈ ss, Stores env (U.string env.yaml what) (.scalar s) s) ∧
      (Stores env (U.strings env.yaml what) (.seq (ss.map .scalar)) ss ↔
        ∀ s ∈ ss, env.yaml.emit (.scalar s) = s) := by
  constructor
  · intro s _
    exact stores_of_ret rfl
  · rw [stores_strings_iff hY]
    exact map_eq_self_iff

/-- The texts of `[a]`, and of a sequence of the empty string. -/
def scalarRows : List (Node × String) :=
  [(.scalar "a", "a"), (.seq [.scalar "a"], "- a"), (.scalar "", "\"\""),
    (.seq [.scalar ""], "- \"\"")]

theorem sample_scalarRows_faithful : (Env.sample scalarRows).yaml.Faithful :=
  sample_faithful ⟨by decide, by decide⟩

/-- `[a]`. -/
theorem scalars_agree_iff_word :
    Stores (Env.sample scalarRows)
      ((Types.ofRead some).strings (sample scalarRows) fun _ => "bad conversion")
      (.seq [.scalar "a"]) ["a"] := by
  apply (scalars_agree_iff sample_scalarRows_faithful _ _ ["a"]).2.mpr
  intro s hs
  obtain rfl := List.mem_singleton.mp hs
  exact sample_emit (r := (.scalar "a", "a")) rfl

/-- `[""]` is read as a vector of two quotation marks. -/
theorem empty_scalar_quoted :
    let c := (Types.ofRead some).strings (sample scalarRows) fun _ => "bad conversion"
    Stores (Env.sample scalarRows) c (.seq [.scalar ""]) ["\"\""] ∧
      ¬ Stores (Env.sample scalarRows) c (.seq [.scalar ""]) [""] := by
  intro c
  have hY := sample_scalarRows_faithful
  have hemit : (Env.sample scalarRows).yaml.emit (.scalar "") = "\"\"" :=
    sample_emit (r := (.scalar "", "\"\"")) rfl
  have hmap : [""].map (fun s => (Env.sample scalarRows).yaml.emit (.scalar s)) = ["\"\""] :=
    congrArg (fun t => [t]) hemit
  constructor
  · exact (stores_strings_iff hY).mpr hmap
  · intro h
    have hsame := hmap.symm.trans ((stores_strings_iff hY).mp h)
    exact absurd hsame (by decide)

/-! ### In place of a container -/

/-- The text is refused: `fromString` returns `false`, the value is the one it was, and no
listener is called. -/
def Codec.Refuses (d : Codec β) (throws : γ → β → β → Bool) (x : ConfigVar β γ) (t : String) :
    Prop :=
  ∃ r, d.fromString throws x t = .ret (r, false) ∧ r.var.val = x.val ∧ r.notices = []

/-- No text that loads as a scalar is refused, whatever the value and the listeners. -/
def Codec.NeverRefuses (Y : Yaml.Cpp) (d : Codec β) : Prop :=
  ∀ (γ : Type) (throws : γ → β → β → Bool) (x : ConfigVar β γ) (t s : String),
    Y.load t = some (.scalar s) → ¬ d.Refuses throws x t

namespace Codec

variable {Y : Yaml.Cpp} {d : Codec β}

/-- A text that converts is refused by no one: either nobody is called and `true` is
returned, or a listener is called. -/
theorem not_refuses_of_ret {throws : γ → β → β → Bool} {x : ConfigVar β γ} {t : String} {v : β}
    (hdec : d.dec t = .ret v) : ¬ d.Refuses throws x t := by
  rintro ⟨r, hr, _, hnotices⟩
  unfold fromString ConfigVar.fromString at hr
  rw [hdec] at hr
  obtain ⟨rfl, hthrew⟩ := Prod.mk.inj (Outcome.ret.inj hr)
  rcases @ConfigVar.setValue_cases β γ ⟨d.beq⟩ throws x v with
    ⟨_, hset⟩ | ⟨_, _, hset⟩ | ⟨_, before, f, after, _, _, _, hset⟩
  · rw [hset] at hthrew
    cases hthrew
  · rw [hset] at hthrew
    cases hthrew
  · -- the listener that throws has been called
    rw [hset] at hnotices
    exact List.append_ne_nil_of_right_ne_nil _ (List.cons_ne_nil _ []) hnotices

/-- A scalar is read as an empty container. -/
theorem neverRefuses_of_empty {empty : β}
    (h : ∀ t s, Y.load t = some (.scalar s) → d.dec t = .ret empty) : d.NeverRefuses Y :=
  fun _ _ _ t s hload => not_refuses_of_ret (h t s hload)

end Codec

section InPlace

variable (Y : Yaml.Cpp) (c : Codec α)

/-- A scalar has no size. -/
theorem decodeSequence_scalar (push : β → α → β) (empty : β) {t s : String}
    (h : Y.load t = some (.scalar s)) : decodeSequence Y c push empty t = .ret empty := by
  rw [decodeSequence, Cpp.loadNode, h]
  rfl

/-- A scalar has no entries. -/
theorem decodeEntries_scalar (insert : β → String × α → β) (empty : β) {t s : String}
    (h : Y.load t = some (.scalar s)) : decodeEntries Y c insert empty t = .ret empty := by
  rw [decodeEntries, Cpp.loadNode, h]
  rfl

/-- **Scalars are taken for empty containers**, by all six conversions. -/
theorem wrong_kind_never_refused :
    (vectorCodec Y c).NeverRefuses Y ∧ (listCodec Y c).NeverRefuses Y ∧
      (∀ (κ : Type) [LinearOrder κ] (key : α → κ), (setCodec Y c key).NeverRefuses Y) ∧
      (∀ A, (unorderedSetCodec Y c A).NeverRefuses Y) ∧
      (mapCodec Y c).NeverRefuses Y ∧ ∀ A, (unorderedMapCodec Y c A).NeverRefuses Y := by
  refine ⟨?_, ?_, fun κ _ key => ?_, fun A => ?_, ?_, fun A => ?_⟩
  · exact Codec.neverRefuses_of_empty fun t s => decodeSequence_scalar Y c _ []
  · exact Codec.neverRefuses_of_empty fun t s => decodeSequence_scalar Y c _ []
  · exact Codec.neverRefuses_of_empty fun t s => decodeSequence_scalar Y c _ SortedBy.empty
  · have hempty : ∀ t s, Y.load t = some (.scalar s) → (unorderedSetCodec Y c A).dec t =
        .ret ((Unordered.empty : Unordered c.beq).arrange A c.beq_comm) := by
      intro t s h
      show (decodeSequence Y c Unordered.insert Unordered.empty t >>= _) = _
      rw [decodeSequence_scalar Y c _ _ h]
      rfl
    exact Codec.neverRefuses_of_empty hempty
  · exact Codec.neverRefuses_of_empty fun t s => decodeEntries_scalar Y c _ SortedBy.empty
  · have hempty : ∀ t s, Y.load t = some (.scalar s) → (unorderedMapCodec Y c A).dec t =
        .ret ((Unordered.empty : Unordered (@sameKey α)).arrange A sameKey_comm) := by
      intro t s h
      show (decodeEntries Y c Unordered.insert Unordered.empty t >>= _) = _
      rw [decodeEntries_scalar Y c _ _ h]
      rfl
    exact Codec.neverRefuses_of_empty hempty

end InPlace

/-- A vector that holds `a` is emptied by the text `a`, and its listener is told. -/
theorem scalar_wipes_vector :
    let d := vectorCodec (sample scalarRows) stringCodec
    let x : ConfigVar (List String) Unit := ⟨["a"], SortedMap.set SortedBy.empty 1 ()⟩
    d.fromString (fun _ _ _ => false) x "a" =
        .ret (⟨x.assign [], [⟨1, ["a"], []⟩], false⟩, true) ∧
      ¬ d.Refuses (fun _ _ _ => false) x "a" := by
  intro d x
  have hload : (sample scalarRows).load "a" = some (.scalar "a") := by
    have hemit : (sample scalarRows).emit (.scalar "a") = "a" :=
      sample_emit (r := (.scalar "a", "a")) rfl
    rw [← hemit]
    exact sample_scalarRows_faithful.load_emit (.scalar "a")
  have hdec : d.dec "a" = .ret [] :=
    decodeSequence_scalar (sample scalarRows) stringCodec _ [] hload
  refine ⟨?_, Codec.not_refuses_of_ret hdec⟩
  unfold Codec.fromString ConfigVar.fromString
  rw [hdec]
  rfl

end Sylar
