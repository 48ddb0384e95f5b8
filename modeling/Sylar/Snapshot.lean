/-
Sylar/Snapshot.lean

Documents and states of the registry (config.hpp, config.cpp).

A document is a list of assignments.  How its keys are nested is a matter of
spelling: as long as no key denotes a map, only the leaves under their dotted
paths count (`sameLoad_flat`).  The entries of two documents can be put into one,
and the order does not matter when no variable is spoken of in both
(`loadFromYaml_merge`).

A state of the registry is a document, too: `Visit` lists the variables, and what
`toString` says of each loads as a node (`snapshot`).  Loading it brings the values
back whatever they were changed to (`snapshot_restores`), but not one entry at a
time: the node of a variable `a` of a map type may have an entry `b`, which speaks of
the variable `a.b`.  What saves the value of `a.b` is the order of the registry's
map.  A key comes before the keys that extend it, so the entry that is a variable's
own is the last one to speak of it.
-/
import Sylar.Keys
import Sylar.Meaning
import Sylar.Registry
import Sylar.Scalars

namespace Sylar

open Yaml Config

variable {U : Types} {env : Env} {P : Program U} {p q : Process U} {k : String}

/-- Two variables. -/
def Process.two (k l : String) (x y : Var U) : Process U :=
  ⟨SortedMap.set (SortedMap.set SortedBy.empty k x) l y, LogSystem.init⟩

theorem Process.vars_two (k l : String) (x y : Var U) : (Process.two k l x y).vars =
    Function.update (Function.update (fun _ => none) k (some x)) l (some y) := by
  refine (SortedMap.get?_set _ l y).trans ?_
  rw [SortedMap.get?_set]
  rfl

theorem Process.two_cases {k' l : String} {x y z : Var U}
    (h : (Process.two k l x y).vars k' = some z) : k' = k ∧ z = x ∨ k' = l ∧ z = y := by
  rw [vars_two, Function.update_apply, Function.update_apply] at h
  split_ifs at h with hl hk
  · exact Or.inr ⟨hl, (Option.some.inj h).symm⟩
  · exact Or.inl ⟨hk, (Option.some.inj h).symm⟩

namespace Config

/-! ### The members below a path -/

mutual

/-- All paths in a node begin with the path of the node. -/
theorem members_path (node : Node) {path : String} (hne : path ≠ "") :
    ∀ m ∈ members path node, m = (path, node) ∨ ∃ t, m.1 = path ++ "." ++ t := by
  intro m hm
  cases node with
  | map entries =>
      rcases List.mem_cons.mp hm with rfl | hm
      · exact Or.inl rfl
      · exact Or.inr (entryMembers_path entries hne m hm)
  | null => exact Or.inl (List.mem_singleton.mp hm)
  | scalar s => exact Or.inl (List.mem_singleton.mp hm)
  | seq items => exact Or.inl (List.mem_singleton.mp hm)
termination_by structural node

theorem entryMembers_path (entries : List (Node × Node)) {path : String} (hne : path ≠ "") :
    ∀ m ∈ entryMembers path entries, ∃ t, m.1 = path ++ "." ++ t := by
  intro m hm
  match entries with
  | [] => cases hm
  | (key, node) :: rest =>
      rcases List.mem_append.mp hm with hm | hm
      · have hjoin : joinPath path key.scalarText = path ++ "." ++ key.scalarText := if_neg hne
        have hnonempty : joinPath path key.scalarText ≠ "" := by
          rw [hjoin]
          intro h
          have hlength := congrArg String.length h
          simp at hlength
        rcases members_path node hnonempty m hm with rfl | ⟨t, ht⟩
        · exact ⟨key.scalarText, hjoin⟩
        · refine ⟨key.scalarText ++ "." ++ t, ?_⟩
          rw [ht, hjoin]
          simp only [String.append_assoc]
      · exact entryMembers_path rest hne m hm
termination_by structural entries

end

theorem members_leaf {node : Node} (hmap : node.isMap = false) (path : String) :
    members path node = [(path, node)] := by
  cases node with
  | map entries => cases hmap
  | _ => rfl

theorem entryMembers_append (path : String) (es es' : List (Node × Node)) :
    entryMembers path (es ++ es') = entryMembers path es ++ entryMembers path es' := by
  induction es with
  | nil => rfl
  | cons e es ih =>
      obtain ⟨key, node⟩ := e
      show members _ node ++ entryMembers path (es ++ es') = _
      rw [ih, ← List.append_assoc]
      rfl

/-! ### Documents -/

/-- The document with these entries. -/
def document (entries : List (String × Node)) : Node :=
  .map (entries.map fun e => (.scalar e.1, e.2))

theorem texts_visited_map (env : Env) (k : String) (es : List (Node × Node)) :
    texts env k (visited (.map es)) =
      texts env k ((entryMembers "" es).filter fun m => validName m.1) := by
  show texts env k (List.filter _ (("", .map es) :: entryMembers "" es)) = _
  rw [List.filter_cons_of_pos (by exact validName_empty)]
  simp [texts]

theorem texts_visited_append (env : Env) (k : String) (es es' : List (Node × Node)) :
    texts env k (visited (.map (es ++ es'))) =
      texts env k (visited (.map es)) ++ texts env k (visited (.map es')) := by
  simp only [texts_visited_map]
  rw [entryMembers_append, List.filter_append, texts_append]

/-- What one entry of a document says about the key `k`. -/
def entryTexts (env : Env) (k : String) (e : String × Node) : List String :=
  texts env k ((members e.1 e.2).filter fun m => validName m.1)

theorem texts_document (env : Env) (k : String) (es : List (String × Node)) :
    texts env k (visited (document es)) = es.flatMap (entryTexts env k) := by
  rw [document, texts_visited_map]
  induction es with
  | nil => rfl
  | cons e es ih =>
      have hpath : joinPath "" e.1 = e.1 := if_pos rfl
      rw [List.map_cons, entryMembers, List.filter_append, texts_append, ih, List.flatMap_cons]
      show texts env k (List.filter _ (members (joinPath "" e.1) e.2)) ++ _ = _
      rw [hpath]
      rfl

/-! ### Spelling -/

/-- The leaves of a document that are visited. -/
def leaves (root : Node) : List (String × Node) := (visited root).filter fun m => !m.2.isMap

/-- The document with one entry for each leaf, under its dotted path. -/
def flat (root : Node) : Node := document (leaves root)

theorem texts_flat (env : Env) (k : String) (root : Node) :
    texts env k (visited (flat root)) = texts env k (leaves root) := by
  have hleaf : ∀ m ∈ leaves root, entryTexts env k m = texts env k [m] := by
    intro m hm
    obtain ⟨hm, hmap⟩ := List.mem_filter.mp hm
    have hvalid : validName m.1 = true := (List.mem_filter.mp hm).2
    rw [entryTexts, members_leaf (by simpa using hmap),
      List.filter_cons_of_pos (by exact hvalid), List.filter_nil]
  rw [flat, texts_document]
  generalize leaves root = ms at hleaf
  induction ms with
  | nil => rfl
  | cons m ms ih =>
      rw [List.flatMap_cons, hleaf m List.mem_cons_self,
        ih fun m hm => hleaf m (List.mem_cons_of_mem _ hm), ← texts_append]
      rfl

/-- **Nesting is spelling.**  A registry none of whose keys denotes a map of the document
is left in the same state by the document and by the list of its leaves, or by neither. -/
theorem sameLoad_flat (hP : P.Quiet) {root : Node}
    (hmap : ∀ k x, p.vars k = some x →
      ∀ m ∈ visited root, m.1 ≠ "" → tolower m.1 = k → m.2.isMap = false) :
    SameLoad env P p root (flat root) := by
  refine sameLoad_of_dedup hP fun k x hx => congrArg List.dedup ?_
  rw [texts_flat, leaves, texts, texts, List.filter_filter]
  refine congrArg (List.map _) (List.filter_congr fun m hm => ?_)
  by_cases hk : m.1 ≠ "" ∧ tolower m.1 = k
  · simp [hk, hmap k x hx m hm hk.1 hk.2]
  · simp [hk]

theorem sameLoad_flat_port :
    let root : Node := .map [(.scalar "System", .map [Node.entry "port" "2"])]
    let p : Process (Types.ofRead some) := .only "system.port" (.new "system.port" () "")
    SameLoad (Env.sample []) (Program.silent _) p root (flat root) ∧
      flat root = .map [Node.entry "System.port" "2"] := by
  intro root p
  refine ⟨sameLoad_flat (Program.quiet_silent _) fun k x hx m hm hne hpath => ?_, by decide⟩
  rw [Process.vars_only, Function.update_apply] at hx
  split_ifs at hx with hk
  subst hk
  revert m
  decide

/-! ### Putting documents together -/

/-- **One document for two.**  Loading the entries of two documents at once is loading the
one after the other; and where no variable is spoken of in both, the other way round
comes to the same. -/
theorem loadFromYaml_merge (env : Env) (hP : P.Quiet) (hp : p.Converting)
    (es es' : List (Node × Node)) :
    ∃ p₁ p₂ r, loadFromYaml env P (.map es) p = .ret p₁ ∧
      loadFromYaml env P (.map es') p₁ = .ret p₂ ∧
      loadFromYaml env P (.map (es ++ es')) p = .ret r ∧ r.vars = p₂.vars ∧
      ((∀ k x, p.vars k = some x →
          texts env k (visited (.map es)) = [] ∨ texts env k (visited (.map es')) = []) →
        ∃ r', loadFromYaml env P (.map (es' ++ es)) p = .ret r' ∧ r'.vars = r.vars) := by
  have hload : ∀ (root : Node) (q : Process U), q.Converting →
      ∃ q', loadFromYaml env P root q = .ret q' ∧ q'.vars = settled env (visited root) q.vars :=
    fun root q hq => loadFromYaml_spec env hP root
      fun k x hx s _ => ⟨hq k x hx s, fun _ _ => trivial⟩
  obtain ⟨p₁, h₁, hvars₁⟩ := hload (.map es) p hp
  obtain ⟨p₂, h₂, hvars₂⟩ := hload (.map es') p₁ (converting_settled hp hvars₁)
  obtain ⟨r, hr, hvars⟩ := hload (.map (es ++ es')) p hp
  refine ⟨p₁, p₂, r, h₁, h₂, hr, ?_, fun hdisjoint => ?_⟩
  · rw [hvars, hvars₂, hvars₁, ← settled_append]
    funext k
    rw [settled, settled, texts_visited_append, texts_append]
  · refine loadFromYaml_of_dedup hP (fun k x hx => congrArg List.dedup ?_) hr
    rw [texts_visited_append, texts_visited_append]
    rcases hdisjoint k x hx with h | h <;> simp [h]

/-- Two documents about two variables, in either order. -/
theorem loadFromYaml_merge_apart :
    let load := loadFromYaml (Env.sample []) (Program.silent (Types.ofRead some))
    let p := Process.two "a" "a.b" (.new "a" () "") (.new "a.b" () "")
    ∃ r r', load (.map [Node.entry "a" "1", Node.entry "A.b" "2"]) p = .ret r ∧
      load (.map [Node.entry "A.b" "2", Node.entry "a" "1"]) p = .ret r' ∧ r'.vars = r.vars := by
  intro load p
  obtain ⟨-, -, r, -, -, hr, -, hswap⟩ := loadFromYaml_merge (Env.sample [])
    (Program.quiet_silent _) (p := p) (fun _ _ _ _ => trivial)
    [Node.entry "a" "1"] [Node.entry "A.b" "2"]
  obtain ⟨r', hr', hvars⟩ := hswap fun k x hx => by
    rcases Process.two_cases hx with ⟨rfl, -⟩ | ⟨rfl, -⟩
    · exact Or.inr rfl
    · exact Or.inl rfl
  exact ⟨r, r', hr, hr', hvars⟩

/-! ### Storing a registry -/

/-- `Config::Visit`. -/
def visit {σ : Type} (callback : σ → Var U → Outcome String σ) (s : σ) (p : Process U) :
    Outcome String σ :=
  p.data.toList.foldlM (fun s i => callback s i.2) s

end Config

/-- `ConfigVar<T>::toString`, with the `ToStr` of each type; what it reports is left out. -/
def Var.toString (toStr : ∀ c, U.Val c → Outcome String String) (x : Var U) :
    Outcome String String :=
  Outcome.rescue (fun _ => "") (toStr x.code x.var.val)

namespace Config

variable {toStr : ∀ c, U.Val c → Outcome String String}

/-- A callback for `Visit`: `node[var->getName()] = YAML::Load(var->toString())`, for a node
that has no such entry yet. -/
def store (env : Env) (toStr : ∀ c, U.Val c → Outcome String String)
    (entries : List (String × Node)) (x : Var U) : Outcome String (List (String × Node)) := do
  let text ← x.toString toStr
  match env.yaml.load text with
  | some node => pure (entries ++ [(x.name, node)])
  | none => .throw "yaml-cpp: error"

/-- The registry as a document. -/
def snapshot (env : Env) (toStr : ∀ c, U.Val c → Outcome String String) (p : Process U) :
    Outcome String Node := do
  let entries ← visit (store env toStr) [] p
  pure (document entries)

/-- The variable's text loads as a node whose text is read as its value. -/
def ReadsBack (env : Env) (toStr : ∀ c, U.Val c → Outcome String String) (x : Var U)
    (node : Node) : Prop :=
  ∃ text, toStr x.code x.var.val = .ret text ∧ env.yaml.load text = some node ∧
    U.fromStr x.code (nodeText env node) = .ret x.var.val

/-- What a variable needs to be stored under the key `k`: a document can speak of it, and
its text reads back. -/
structure Storable (env : Env) (toStr : ∀ c, U.Val c → Outcome String String) (k : String)
    (x : Var U) : Prop where
  nonempty : k ≠ ""
  valid : validName k = true
  lower : tolower k = k
  /-- The constructor has seen to this. -/
  name : x.name = tolower k
  back : ∃ node, ReadsBack env toStr x node

/-- An entry for each variable, in the order of the keys. -/
theorem snapshot_eq (hp : ∀ i ∈ p.data.toList, Storable env toStr i.1 i.2) :
    ∃ node : String × Var U → Node, (∀ i ∈ p.data.toList, ReadsBack env toStr i.2 (node i)) ∧
      snapshot env toStr p = .ret (document (p.data.toList.map fun i => (i.1, node i))) := by
  have hback : ∀ i, ∃ node, i ∈ p.data.toList → ReadsBack env toStr i.2 node := by
    intro i
    by_cases hi : i ∈ p.data.toList
    · obtain ⟨node, hnode⟩ := (hp i hi).back
      exact ⟨node, fun _ => hnode⟩
    · exact ⟨.null, fun h => absurd h hi⟩
  choose node hnode using hback
  refine ⟨node, hnode, ?_⟩
  have hvisit : visit (store env toStr) [] p =
      .ret (p.data.toList.map fun i => (i.1, node i)) := by
    unfold visit
    have hstep : ∀ i ∈ p.data.toList, ∀ es, store env toStr es i.2 =
        .ret (es ++ [(i.1, node i)]) := by
      intro i hi es
      obtain ⟨text, htext, hload, -⟩ := hnode i hi
      have hname : i.2.name = i.1 := (hp i hi).name.trans (hp i hi).lower
      simp only [store, Var.toString, htext, Outcome.rescue, Outcome.ret_bind, hload, hname,
        Outcome.pure_eq]
    generalize p.data.toList = l at hstep
    suffices hall : ∀ es, l.foldlM (fun es i => store env toStr es i.2) es =
        .ret (es ++ l.map fun i => (i.1, node i)) from hall []
    induction l with
    | nil => exact fun es => by rw [List.map_nil, List.append_nil]; rfl
    | cons i l ih =>
        intro es
        rw [List.foldlM_cons, hstep i List.mem_cons_self, Outcome.ret_bind,
          ih fun i hi => hstep i (List.mem_cons_of_mem _ hi), List.map_cons, List.append_assoc]
        rfl
  rw [snapshot, hvisit]
  rfl

end Config

/-! ### Containers can be stored -/

section Containers

variable {α β γ : Type} {Y : Yaml.Cpp} {c : Codec α}

/-- A container is written as a sequence, a map or nothing. -/
theorem Layer.enc_eq_ret {d : Codec β} (h : Layer Y c d) {v : β} {text : String}
    (henc : d.enc v = .ret text) :
    ∃ n : Option Node, text = Y.print n ∧ (n.getD .null).isScalar = false := by
  have hsequence : ∀ xs, encodeSequence Y c xs = .ret text →
      ∃ n : Option Node, text = Y.print n ∧ (n.getD .null).isScalar = false := by
    intro xs hxs
    obtain ⟨nodes, -, hprint⟩ := Outcome.bind_eq_ret.mp hxs
    refine ⟨_, (Outcome.ret.inj hprint).symm, ?_⟩
    unfold Node.pushBack
    split <;> rfl
  have hentries : ∀ es, encodeEntries Y c es = .ret text →
      ∃ n : Option Node, text = Y.print n ∧ (n.getD .null).isScalar = false := by
    intro es hes
    obtain ⟨nodes, -, hprint⟩ := Outcome.bind_eq_ret.mp hes
    refine ⟨_, (Outcome.ret.inj hprint).symm, ?_⟩
    unfold Node.assignAll
    split <;> rfl
  cases h with
  | vector _ => exact hsequence _ henc
  | list _ => exact hsequence _ henc
  | set _ _ _ => exact hsequence _ henc
  | unorderedSet _ _ => exact hsequence _ henc
  | map _ => exact hentries _ henc
  | unorderedMap _ _ => exact hentries _ henc

theorem Nested.enc_eq_ret {d : Codec β} (h : Nested Y c d) {v : β} {text : String}
    (henc : d.enc v = .ret text) :
    ∃ n : Option Node, text = Y.print n ∧ (n.getD .null).isScalar = false := by
  cases h with
  | one hlayer => exact hlayer.enc_eq_ret henc
  | more _ hlayer => exact hlayer.enc_eq_ret henc

namespace Config

/-- The `ToStr` of a program with the conversions of one more type. -/
abbrev withToStr [DecidableEq β] (d : Codec β) (typeName : String) (what : String → String)
    (toStr : ∀ c, U.Val c → Outcome String String) :
    ∀ c, (U.withCodec d typeName what).Val c → Outcome String String
  | none, v => (d.enc v).mapThrow fun _ => what ""
  | some c, v => toStr c v

/-- A variable of a nested container type reads back. -/
theorem readsBack_nested [DecidableEq β] (hY : env.yaml.Faithful) (hc : c.Lawful env.yaml)
    {d : Codec β} (hd : Nested env.yaml c d) (hbeq : ∀ y x, d.beq y x = true → y = x)
    {typeName : String} {what : String → String} {toStr : ∀ c, U.Val c → Outcome String String}
    (name : String) (var : ConfigVar β Nat) :
    ∃ node, ReadsBack env (withToStr d typeName what toStr)
      (⟨none, name, var⟩ : Var (U.withCodec d typeName what)) node := by
  obtain ⟨text, node, y, henc, hload, hdec, hy⟩ := (hd.recovers hY hc).lawful var.val
  obtain rfl := hbeq _ _ hy
  obtain ⟨n, rfl, hscalar⟩ := hd.enc_eq_ret henc
  -- what is no scalar is given to `fromString` as it is emitted
  have hnode : node = n.getD .null := by
    have h := hY.loadNode_print n
    rw [Cpp.loadNode, hload] at h
    exact Outcome.ret.inj h
  have htext : nodeText env node = env.yaml.emit node := by
    rw [hnode]
    cases hn : n.getD .null with
    | scalar s => rw [hn] at hscalar; cases hscalar
    | _ => rfl
  refine ⟨node, env.yaml.print n, ?_, hload, ?_⟩
  · show (d.enc var.val).mapThrow _ = _
    rw [henc]
    rfl
  · show (d.dec (nodeText env node)).mapThrow _ = _
    rw [htext, hdec]
    rfl

end Config

end Containers

namespace Config

variable {toStr : ∀ c, U.Val c → Outcome String String}

/-! ### Who speaks of a key -/

theorem tolower_append (s t : String) : tolower (s ++ t) = tolower s ++ tolower t := by
  simp [tolower]

/-- A key comes before the keys that extend it. -/
theorem lt_extend (k t : String) : k < k ++ "." ++ t := by
  rw [String.lt_iff_toList_lt, String.toList_append, String.toList_append, List.append_assoc]
  induction k.toList with
  | nil => exact List.Lex.nil
  | cons c cs ih => exact List.Lex.cons ih

/-- An entry speaks of its own key and of those that extend it. -/
theorem mem_entryTexts {e : String × Node} (hne : e.1 ≠ "") (hlower : tolower e.1 = e.1)
    {s : String} (hs : s ∈ entryTexts env k e) : k = e.1 ∨ ∃ t, k = e.1 ++ "." ++ t := by
  obtain ⟨m, hm, rfl⟩ := List.mem_map.mp hs
  obtain ⟨hvisited, hpath⟩ := List.mem_filter.mp hm
  obtain ⟨-, rfl⟩ := of_decide_eq_true hpath
  rcases members_path e.2 hne m (List.mem_filter.mp hvisited).1 with rfl | ⟨t, ht⟩
  · exact Or.inl hlower
  · refine Or.inr ⟨tolower t, ?_⟩
    rw [ht, tolower_append, tolower_append, hlower]
    rfl

/-- Of its own key an entry speaks once. -/
theorem entryTexts_self {e : String × Node} (hne : e.1 ≠ "") (hvalid : validName e.1 = true)
    (hlower : tolower e.1 = e.1) : entryTexts env e.1 e = [nodeText env e.2] := by
  cases hnode : e.2 with
  | map entries =>
      rw [entryTexts, hnode, members, List.filter_cons_of_pos (by exact hvalid)]
      -- what is below has a longer path
      have hrest :
          texts env e.1 ((entryMembers e.1 entries).filter fun m => validName m.1) = [] := by
        refine List.map_eq_nil_iff.mpr (List.filter_eq_nil_iff.mpr fun m hm hpath => ?_)
        obtain ⟨-, hpath⟩ := of_decide_eq_true hpath
        obtain ⟨t, ht⟩ := entryMembers_path entries hne m (List.mem_filter.mp hm).1
        rw [ht, tolower_append, tolower_append, hlower] at hpath
        exact (lt_extend e.1 (tolower t)).ne hpath.symm
      rw [← List.singleton_append, texts_append, hrest, List.append_nil]
      simp [texts, hne, hlower]
  | _ =>
      rw [entryTexts, hnode]
      simp [members, texts, hne, hvalid, hlower]

/-- In the stored registry the last to speak of a variable is its own entry. -/
theorem texts_stored {node : String × Var U → Node} {x : Var U}
    (hp : ∀ i ∈ p.data.toList, i.1 ≠ "" ∧ validName i.1 = true ∧ tolower i.1 = i.1)
    (hx : p.vars k = some x) :
    ∃ before, texts env k (visited (document (p.data.toList.map fun i => (i.1, node i)))) =
      before ++ [nodeText env (node (k, x))] := by
  have hmem : (k, x) ∈ p.data.toList := SortedMap.get?_eq_some.mp hx
  obtain ⟨before, after, hlist⟩ := List.append_of_mem hmem
  have hafter : after.flatMap (fun i => entryTexts env k (i.1, node i)) = [] := by
    refine List.flatMap_eq_nil_iff.mpr fun i hi => List.eq_nil_iff_forall_not_mem.mpr fun s hs => ?_
    have hi' : i ∈ p.data.toList := hlist ▸ List.mem_append_right _ (List.mem_cons_of_mem _ hi)
    -- what comes after `k` in the map neither is `k` nor is extended by it
    have hlt : k < i.1 := by
      have hsorted := p.data.sorted
      rw [hlist] at hsorted
      exact (List.pairwise_cons.mp (List.pairwise_append.mp hsorted).2.1).1 i hi
    obtain ⟨hne, -, hlower⟩ := hp i hi'
    rcases mem_entryTexts (e := (i.1, node i)) hne hlower hs with hk | ⟨t, ht⟩
    · exact hlt.ne hk
    · exact hlt.asymm (ht ▸ lt_extend i.1 t)
  obtain ⟨hne, hvalid, hlower⟩ := hp (k, x) hmem
  have hself : entryTexts env k (k, node (k, x)) = [nodeText env (node (k, x))] :=
    entryTexts_self (e := (k, node (k, x))) hne hvalid hlower
  refine ⟨before.flatMap fun i => entryTexts env k (i.1, node i), ?_⟩
  rw [texts_document, List.flatMap_map, hlist, List.flatMap_append, List.flatMap_cons, hafter,
    hself, List.append_nil]

/-- Of a key that neither is stored nor extends one that is, nothing is said. -/
theorem texts_stored_of_apart {node : String × Var U → Node}
    (hp : ∀ i ∈ p.data.toList, i.1 ≠ "" ∧ validName i.1 = true ∧ tolower i.1 = i.1)
    (hk : ∀ i ∈ p.data.toList, k ≠ i.1 ∧ ∀ t, k ≠ i.1 ++ "." ++ t) :
    texts env k (visited (document (p.data.toList.map fun i => (i.1, node i)))) = [] := by
  rw [texts_document, List.flatMap_map]
  refine List.flatMap_eq_nil_iff.mpr fun i hi => List.eq_nil_iff_forall_not_mem.mpr fun s hs => ?_
  obtain ⟨hne, -, hlower⟩ := hp i hi
  rcases mem_entryTexts (e := (i.1, node i)) hne hlower hs with rfl | ⟨t, rfl⟩
  · exact (hk i hi).1 rfl
  · exact (hk i hi).2 t rfl

/-- **A stored registry comes back.**  If every variable of `p` can be stored, `p` becomes
a document, and loading that into any state `q` of the program gives each variable of the
same name and type the value it had in `p`, whatever nodes of other variables speak of it.
Variables whose key neither is stored nor extends one that is stay as they are. -/
theorem snapshot_restores (hP : P.Quiet)
    (hp : ∀ k x, p.vars k = some x → Storable env toStr k x) (hq : q.Converting) :
    ∃ root q', snapshot env toStr p = .ret root ∧ loadFromYaml env P root q = .ret q' ∧
      (∀ k x y, p.vars k = some x → q.vars k = some y → y.code = x.code →
        (q'.vars k).map Var.value = some x.value) ∧
      ∀ k, (∀ k' x, p.vars k' = some x → k ≠ k' ∧ ∀ t, k ≠ k' ++ "." ++ t) →
        q'.vars k = q.vars k := by
  have hstorable : ∀ i ∈ p.data.toList, Storable env toStr i.1 i.2 :=
    fun i hi => hp i.1 i.2 (SortedMap.get?_eq_some.mpr hi)
  have hkeys : ∀ i ∈ p.data.toList, i.1 ≠ "" ∧ validName i.1 = true ∧ tolower i.1 = i.1 :=
    fun i hi => ⟨(hstorable i hi).nonempty, (hstorable i hi).valid, (hstorable i hi).lower⟩
  obtain ⟨node, hnode, hsnapshot⟩ := snapshot_eq hstorable
  obtain ⟨q', hload, hvars⟩ := loadFromYaml_spec env hP
    (document (p.data.toList.map fun i => (i.1, node i)))
    fun k x hx s _ => ⟨hq k x hx s, fun _ _ => trivial⟩
  refine ⟨_, q', hsnapshot, hload, fun k x y hx hy hcode => ?_, fun k hk => ?_⟩
  · have hlast : ∃ before,
        texts env k (visited (document (p.data.toList.map fun i => (i.1, node i)))) =
          before ++ [nodeText env (node (k, x))] := texts_stored hkeys hx
    obtain ⟨before, htexts⟩ := hlast
    obtain ⟨text, -, -, hback⟩ := hnode (k, x) (SortedMap.get?_eq_some.mp hx)
    obtain ⟨c, name, var⟩ := x
    obtain ⟨c', name', var'⟩ := y
    obtain rfl : c' = c := hcode
    have hsettle : Var.settle (before ++ [nodeText env (node (k, ⟨c', name, var⟩))])
        ⟨c', name', var'⟩ = Var.assign ⟨c', name', var'⟩ var.val :=
      Var.settle_last hback fun s hs => absurd hs List.not_mem_nil
    rw [hvars, settled, hy, htexts, Option.map_some, hsettle]
    rfl
  · rw [hvars]
    refine settled_of_nil (texts_stored_of_apart hkeys fun i hi => ?_)
    exact hk i.1 i.2 (SortedMap.get?_eq_some.mpr hi)

/-- The types of a program that has `std::map<std::string, bool>`, and strings. -/
abbrev flags (Y : Yaml.Cpp) : Types :=
  (Types.ofRead some).withCodec (mapCodec Y boolCodec)
    "St3mapINSt7__cxx1112basic_stringIcSt11char_traitsIcESaIcEEEbSt4lessIS5_ESaISt4pairIKS5_bEEE"
    fun _ => "bad conversion"

/-- The node of the map `a` speaks of the string `a.on`, too, and what it says there does not
count. -/
theorem snapshot_restores_nested :
    let env := Env.sample boolRows
    let v : SortedMap String Bool := SortedMap.set SortedBy.empty "on" true
    let p : Process (flags env.yaml) :=
      .two "a" "a.on" (.new "a" none v) (.new "a.on" (some ()) "0")
    let q : Process (flags env.yaml) :=
      .two "a" "a.on" (.new "a" none SortedBy.empty) (.new "a.on" (some ()) "")
    let toStr := withToStr (mapCodec env.yaml boolCodec) _ _ fun _ v => .ret v
    ∃ root q', snapshot env toStr p = .ret root ∧
      loadFromYaml env (Program.silent _) root q = .ret q' ∧
      (q'.vars "a").map Var.value = some ⟨none, v⟩ ∧
      (q'.vars "a.on").map Var.value = some ⟨some (), "0"⟩ := by
  intro env v p q toStr
  have hY : env.yaml.Faithful := sample_boolRows_faithful
  have hnested : Nested env.yaml boolCodec (mapCodec env.yaml boolCodec) := .one (.map boolCodec)
  have hbool : ∀ x y, boolCodec.beq x y = true ↔ x = y := fun _ _ => decide_eq_true_iff
  have hp : ∀ k x, p.vars k = some x → Storable env toStr k x := by
    intro k x hx
    rcases Process.two_cases hx with ⟨rfl, rfl⟩ | ⟨rfl, rfl⟩
    · exact ⟨by decide, rfl, by decide, rfl, readsBack_nested hY boolCodec_lawful hnested
        (fun y x h => SortedBy.ext ((eqSeq_eq_iff (eqEntry_iff hbool) _ _).mp h)) "a" _⟩
    · have hemit : env.yaml.emit (.scalar "0") = "0" :=
        sample_emit (r := (.scalar "0", "0")) (by decide)
      exact ⟨by decide, rfl, by decide, rfl, .scalar "0", "0", rfl, hemit ▸ hY.load_emit _, rfl⟩
  have hq : q.Converting := by
    intro k x hx s
    rcases Process.two_cases hx with ⟨-, rfl⟩ | ⟨-, rfl⟩
    · exact (hnested.survives (fun t => by unfold boolCodec; dsimp only; split_ifs <;> trivial) s).mapThrow
    · trivial
  obtain ⟨root, q', hroot, hload, hvalues, -⟩ :=
    snapshot_restores (Program.quiet_silent _) hp hq
  have hvars : ∀ {x y : Var (flags env.yaml)}, (Process.two "a" "a.on" x y).vars "a" = some x ∧
      (Process.two "a" "a.on" x y).vars "a.on" = some y := by
    intro x y
    rw [Process.vars_two]
    exact ⟨rfl, rfl⟩
  exact ⟨root, q', hroot, hload, hvalues "a" _ _ hvars.1 hvars.1 rfl,
    hvalues "a.on" _ _ hvars.2 hvars.2 rfl⟩

end Config

end Sylar
