/-
Sylar/Flatten.lean

Flattening a document with aliases (config.cpp).

`ListAllMember` follows references, and what it carries along is a path that
grows.  It comes back exactly if no map that it gets to, through entries with
accepted keys, contains itself (`flattening_ends_iff`); in `&x {a: *x}` one does.
It is modelled with a bound on the calls that are inside one another, so that
it comes back if there is a bound that is enough.

Where the document below a node is a tree, the result is that of `Sylar.Config`
(`loadFromYaml_unfolds`).
-/
import Sylar.Config
import Sylar.Lib.NodeGraph

namespace Sylar

open Yaml Config

namespace Aliased

variable {U : Types} {ν : Type}

/-! ### Loading -/

/-- `ListAllMember`, with at most `depth` calls inside one another: the logging module and
`output` after visiting `node`.  What is emitted for a node is `emit`. -/
def listAllMember (env : Env) (G : Graph ν) (emit : ν → String) (depth : Nat) (path : String)
    (node : ν) (out : LogSystem × List (String × ν)) : Option (LogSystem × List (String × ν)) :=
  match depth with
  | 0 => none
  | depth + 1 =>
      if validName path then
        match G.cell node with
        | .map entries =>
            entries.foldlM (fun out entry =>
                listAllMember env G emit depth (joinPath path (G.scalarText entry.1)) entry.2 out)
              (out.1, out.2 ++ [(path, node)])
        | _ => some (out.1, out.2 ++ [(path, node)])
      -- reported, and neither the node nor anything below it is listed
      else
        some (out.1.sylarLog env out.1.root .error "src/config.cpp" 21
          ("Config invalid name: " ++ path ++ " : " ++ emit node), out.2)

/-- What `fromString` is given for a node. -/
def nodeText (G : Graph ν) (emit : ν → String) (node : ν) : String :=
  match G.cell node with
  | .scalar s => s
  | _ => emit node

/-- One iteration of the loop over the members. -/
def loadMember (env : Env) (G : Graph ν) (emit : ν → String) (P : Program U) (p : Process U)
    (i : String × ν) : Outcome (Thrown U) (Process U) :=
  if i.1 = "" then .ret p
  else match lookupBase (tolower i.1) p with
    | some var => do
        let r ← fromString env P (tolower i.1) var (nodeText G emit i.2) p
        pure r.1
    | none => .ret p

/-- `Config::LoadFromYaml`. -/
def loadFromYaml (env : Env) (G : Graph ν) (emit : ν → String) (P : Program U) (depth : Nat)
    (root : ν) (p : Process U) : Option (Outcome (Thrown U) (Process U)) := do
  let all_nodes ← listAllMember env G emit depth "" root (p.log, [])
  pure (all_nodes.2.foldlM (loadMember env G emit P) { p with log := all_nodes.1 })

variable {env : Env} {G : Graph ν} {emit : ν → String} {depth depth' : Nat} {path : String}
  {n : ν} {out r : LogSystem × List (String × ν)}

/-! ### Calls that come back -/

section Loop

variable {α β : Type} {f g : β → α → Option β} {l : List α} {b c : β}

theorem foldlM_imp (h : ∀ b a c, f b a = some c → g b a = some c) (hf : l.foldlM f b = some c) :
    l.foldlM g b = some c := by
  induction l generalizing b with
  | nil => exact hf
  | cons a l ih =>
      rw [List.foldlM_cons] at hf ⊢
      obtain ⟨d, hd, hl⟩ := Option.bind_eq_some_iff.mp hf
      exact Option.bind_eq_some_iff.mpr ⟨d, h b a d hd, ih hl⟩

theorem some_of_mem_foldlM (h : l.foldlM f b = some c) {a : α} (ha : a ∈ l) :
    ∃ d e, f d a = some e := by
  induction l generalizing b with
  | nil => cases ha
  | cons a' l ih =>
      rw [List.foldlM_cons] at h
      obtain ⟨d, hd, hl⟩ := Option.bind_eq_some_iff.mp h
      rcases List.mem_cons.mp ha with rfl | ha
      · exact ⟨b, d, hd⟩
      · exact ih hl ha

end Loop

/-- A larger bound changes nothing. -/
theorem listAllMember_mono (h : listAllMember env G emit depth path n out = some r)
    (hle : depth ≤ depth') : listAllMember env G emit depth' path n out = some r := by
  induction depth generalizing depth' path n out r with
  | zero => cases h
  | succ depth ih =>
      obtain ⟨depth', rfl⟩ := Nat.exists_eq_add_of_le' (Nat.le_of_add_left_le hle)
      have hle : depth ≤ depth' := Nat.le_of_succ_le_succ hle
      rw [listAllMember] at h ⊢
      split_ifs at h ⊢ with hvalid
      · cases hcell : G.cell n with
        | map entries =>
            rw [hcell] at h
            exact foldlM_imp (fun _ _ _ hcall => ih hcall hle) h
        | _ =>
            rw [hcell] at h
            exact h
      · exact h

/-- The loop over the entries, with the same bound for every call in it. -/
theorem entries_mono {entries : List (ν × ν)}
    (h : entries.foldlM (fun out entry => listAllMember env G emit depth
      (joinPath path (G.scalarText entry.1)) entry.2 out) out = some r) (hle : depth ≤ depth') :
    entries.foldlM (fun out entry => listAllMember env G emit depth'
      (joinPath path (G.scalarText entry.1)) entry.2 out) out = some r :=
  foldlM_imp (fun _ _ _ hcall => listAllMember_mono hcall hle) h

theorem listAllMember_invalid (h : validName path = false) :
    ∃ r, listAllMember env G emit 1 path n out = some r := by
  rw [listAllMember, h]
  exact ⟨_, rfl⟩

theorem validName_joinPath_true (h : validName path = true) {key : String} :
    validName (joinPath path key) = validName key := by
  rw [joinPath]
  split_ifs
  · rfl
  · rw [validName_append, validName_append, h]
    rfl

/-- There is an end, by induction on what is below the node. -/
theorem ends_of_acc (h : Acc (fun m n => G.Below (validName ·) n m) n) (path : String)
    (out : LogSystem × List (String × ν)) :
    ∃ depth r, listAllMember env G emit depth path n out = some r := by
  induction h generalizing path out with
  | intro n _ ih =>
      by_cases hvalid : validName path = true
      · cases hcell : G.cell n with
        | map entries =>
            have hloop : ∀ es ⊆ entries, ∀ out, ∃ depth r,
                es.foldlM (fun out entry => listAllMember env G emit depth
                  (joinPath path (G.scalarText entry.1)) entry.2 out) out = some r := by
              intro es
              induction es with
              | nil => exact fun _ out => ⟨0, out, rfl⟩
              | cons entry es ihes =>
                  intro hsub out
                  obtain ⟨hentry, hes⟩ := List.cons_subset.mp hsub
                  have hcall : ∃ depth r, listAllMember env G emit depth
                      (joinPath path (G.scalarText entry.1)) entry.2 out = some r := by
                    by_cases hkey : validName (G.scalarText entry.1) = true
                    · exact ih entry.2 ⟨entries, entry.1, hcell, hentry, hkey⟩ _ out
                    · rw [← validName_joinPath_true hvalid, Bool.not_eq_true] at hkey
                      exact ⟨1, listAllMember_invalid hkey⟩
                  obtain ⟨depth₁, r₁, h₁⟩ := hcall
                  obtain ⟨depth₂, r₂, h₂⟩ := ihes hes r₁
                  refine ⟨max depth₁ depth₂, r₂, ?_⟩
                  rw [List.foldlM_cons]
                  exact Option.bind_eq_some_iff.mpr ⟨r₁,
                    listAllMember_mono h₁ (Nat.le_max_left ..),
                    entries_mono h₂ (Nat.le_max_right ..)⟩
            obtain ⟨depth, r, h⟩ := hloop entries (List.Subset.refl _) (out.1, out.2 ++ [(path, n)])
            refine ⟨depth + 1, r, ?_⟩
            rw [listAllMember, if_pos hvalid, hcell]
            exact h
        | _ =>
            refine ⟨1, (out.1, out.2 ++ [(path, n)]), ?_⟩
            rw [listAllMember, if_pos hvalid, hcell]
      · exact ⟨1, listAllMember_invalid (Bool.eq_false_iff.mpr hvalid)⟩

/-- What is below the node has an end, by induction on the bound that was enough. -/
theorem acc_of_ends (h : listAllMember env G emit depth path n out = some r)
    (hvalid : validName path = true) : Acc (fun m n => G.Below (validName ·) n m) n := by
  induction depth generalizing path n out r with
  | zero => cases h
  | succ depth ih =>
      refine ⟨_, fun m hm => ?_⟩
      obtain ⟨entries, k, hcell, hmem, hkey⟩ := hm
      rw [listAllMember, if_pos hvalid, hcell] at h
      obtain ⟨out', r', hcall⟩ := some_of_mem_foldlM h hmem
      exact ih hcall ((validName_joinPath_true hvalid).trans hkey)

/-- **Flattening ends exactly without a map in itself.**  For every finite document,
`ListAllMember` and `LoadFromYaml` come back if and only if no map contains itself that is
reached from the root through entries whose keys have only accepted characters. -/
theorem flattening_ends_iff [Finite ν] (env : Env) (G : Graph ν) (emit : ν → String)
    (P : Program U) (root : ν) (p : Process U) :
    ((∃ depth r, listAllMember env G emit depth "" root (p.log, []) = some r) ↔
      ¬ G.Contains (validName ·) root) ∧
    ((∃ depth r, loadFromYaml env G emit P depth root p = some r) ↔
      ¬ G.Contains (validName ·) root) := by
  have hlist : (∃ depth r, listAllMember env G emit depth "" root (p.log, []) = some r) ↔
      ¬ G.Contains (validName ·) root := by
    rw [← G.acc_iff_not_contains]
    constructor
    · rintro ⟨depth, r, h⟩
      exact acc_of_ends h validName_empty
    · intro h
      exact ends_of_acc h "" (p.log, [])
  refine ⟨hlist, ?_⟩
  rw [← hlist]
  constructor
  · rintro ⟨depth, r, h⟩
    obtain ⟨all_nodes, hall, _⟩ := Option.bind_eq_some_iff.mp h
    exact ⟨depth, all_nodes, hall⟩
  · rintro ⟨depth, all_nodes, hall⟩
    exact ⟨depth, _, Option.bind_eq_some_iff.mpr ⟨all_nodes, hall, rfl⟩⟩

/-- `{a: &x {b: v}, c: *x}`. -/
def shared : Graph (Fin 6) where
  cell
    | 0 => .map [(1, 3), (2, 3)]
    | 1 => .scalar "a"
    | 2 => .scalar "c"
    | 3 => .map [(4, 5)]
    | 4 => .scalar "b"
    | 5 => .scalar "v"

theorem shared_lt {n m : Fin 6} (h : shared.Below (validName ·) n m) : n < m := by
  obtain ⟨entries, k, hcell, hmem, _⟩ := h
  match n, hcell with
  | 0, hcell =>
      obtain rfl := Cell.map.inj hcell
      rcases List.mem_pair.mp hmem with h | h <;> cases h <;> decide
  | 3, hcell =>
      obtain rfl := Cell.map.inj hcell
      cases List.mem_singleton.mp hmem
      decide
  | 1, hcell | 2, hcell | 4, hcell | 5, hcell => cases hcell

/-- A map that has two places is flattened in both. -/
theorem flattening_ends_iff_shared :
    ∃ depth r, listAllMember (Env.sample []) shared (fun _ => "") depth "" 0
      (LogSystem.init, []) = some r := by
  refine (flattening_ends_iff (Env.sample []) shared (fun _ => "")
    (⟨fun _ _ _ _ p => .ret p⟩ : Program (Types.ofRead some)) 0
    ⟨SortedBy.empty, LogSystem.init⟩).1.mpr ?_
  rintro ⟨m, _, hcycle⟩
  have hle : shared.Below (validName ·) ≤ (· < ·) := fun _ _ => shared_lt
  have hlt : m < m := Relation.transGen_minimal hle m m hcycle
  exact absurd hlt (lt_irrefl m)

/-- `&x {a: *x}`; `false` is the map. -/
def selfContaining : Graph Bool where
  cell
    | false => .map [(true, false)]
    | true => .scalar "a"

/-- Neither `ListAllMember` nor `LoadFromYaml` comes back for a map that contains itself. -/
theorem flattening_never_ends :
    (∀ depth, listAllMember (Env.sample []) selfContaining (fun _ => "&1\na: *1") depth "" false
        (LogSystem.init, []) = none) ∧
      ∀ depth, loadFromYaml (Env.sample []) selfContaining (fun _ => "&1\na: *1")
        (⟨fun _ _ _ _ p => .ret p⟩ : Program (Types.ofRead some)) depth false
        ⟨SortedBy.empty, LogSystem.init⟩ = none := by
  have hlist : ∀ depth, listAllMember (Env.sample []) selfContaining (fun _ => "&1\na: *1") depth
      "" false (LogSystem.init, []) = none := by
    intro depth
    refine Option.eq_none_iff_forall_not_mem.mpr fun r hr => ?_
    refine not_transGen_of_acc (acc_of_ends hr validName_empty) (.single ?_)
    exact ⟨[(true, false)], true, rfl, List.mem_singleton_self _, by decide⟩
  refine ⟨hlist, fun depth => ?_⟩
  rw [loadFromYaml, hlist]
  rfl

/-! ### Documents without aliases -/

/-- The same log and the same paths, and nodes that unfold to the trees. -/
def Unfolded (G : Graph ν) (r : LogSystem × List (String × ν))
    (r' : LogSystem × List (String × Node)) : Prop :=
  r.1 = r'.1 ∧ List.Forall₂ (fun m m' => m.1 = m'.1 ∧ G.Unfolds m.2 m'.2) r.2 r'.2

theorem Unfolded.snoc {out' : LogSystem × List (String × Node)} (h : Unfolded G out out')
    (path : String) {t : Node} (ht : G.Unfolds n t) :
    Unfolded G (out.1, out.2 ++ [(path, n)]) (out'.1, out'.2 ++ [(path, t)]) :=
  ⟨h.1, List.rel_append h.2 (.cons ⟨rfl, ht⟩ .nil)⟩

mutual

/-- **Refinement**: where the document is a tree the members are those of the tree. -/
theorem listAllMember_unfolds (hemit : ∀ n t, G.Unfolds n t → emit n = env.yaml.emit t)
    (t : Node) {n : ν} (ht : G.Unfolds n t) (path : String)
    {out : LogSystem × List (String × ν)} {out' : LogSystem × List (String × Node)}
    (h : Unfolded G out out') :
    ∃ depth r, listAllMember env G emit depth path n out = some r ∧
      Unfolded G r (Config.listAllMember env path t out') := by
  by_cases hvalid : validName path = true
  · cases t with
    | map entries =>
        have hnode := h.snoc path ht
        rw [Graph.Unfolds] at ht
        obtain ⟨ns, hcell, hns⟩ := ht
        obtain ⟨depth, r, hr, hsame⟩ := listEntries_unfolds hemit entries hns path hnode
        refine ⟨depth + 1, r, ?_, ?_⟩
        · rw [listAllMember, if_pos hvalid, hcell]
          exact hr
        · rw [Config.listAllMember, if_pos hvalid]
          exact hsame
    | seq items =>
        have hnode := h.snoc path ht
        rw [Graph.Unfolds] at ht
        obtain ⟨ns, hcell, _⟩ := ht
        refine ⟨1, (out.1, out.2 ++ [(path, n)]), ?_, ?_⟩
        · rw [listAllMember, if_pos hvalid, hcell]
        · rw [Config.listAllMember_leaf env hvalid rfl]
          exact hnode
    | null | scalar s =>
        have hnode := h.snoc path ht
        rw [Graph.Unfolds] at ht
        refine ⟨1, (out.1, out.2 ++ [(path, n)]), ?_, ?_⟩
        · rw [listAllMember, if_pos hvalid, ht]
        · rw [Config.listAllMember_leaf env hvalid rfl]
          exact hnode
  · obtain ⟨hlog, hnodes⟩ := h
    refine ⟨1, _, by rw [listAllMember, if_neg hvalid], ?_⟩
    rw [Config.listAllMember.eq_def, if_neg hvalid, hemit n t ht, hlog]
    exact ⟨rfl, hnodes⟩
termination_by structural t

theorem listEntries_unfolds (hemit : ∀ n t, G.Unfolds n t → emit n = env.yaml.emit t)
    (entries : List (Node × Node)) {ns : List (ν × ν)} (hns : G.UnfoldsEntries ns entries)
    (path : String) {out : LogSystem × List (String × ν)}
    {out' : LogSystem × List (String × Node)} (h : Unfolded G out out') :
    ∃ depth r, ns.foldlM (fun out entry => listAllMember env G emit depth
        (joinPath path (G.scalarText entry.1)) entry.2 out) out = some r ∧
      Unfolded G r (listEntries env path entries out') := by
  match entries with
  | [] =>
      rw [Graph.UnfoldsEntries] at hns
      subst hns
      exact ⟨0, out, rfl, h⟩
  | (key, t) :: rest =>
      rw [Graph.UnfoldsEntries] at hns
      obtain ⟨k, n, ns, rfl, hkey, ht, hns⟩ := hns
      obtain ⟨depth₁, r₁, h₁, hsame₁⟩ :=
        listAllMember_unfolds hemit t ht (joinPath path key.scalarText) h
      obtain ⟨depth₂, r₂, h₂, hsame₂⟩ := listEntries_unfolds hemit rest hns path hsame₁
      refine ⟨max depth₁ depth₂, r₂, ?_, hsame₂⟩
      rw [List.foldlM_cons, hkey.scalarText]
      exact Option.bind_eq_some_iff.mpr ⟨r₁, listAllMember_mono h₁ (Nat.le_max_left ..),
        entries_mono h₂ (Nat.le_max_right ..)⟩
termination_by structural entries

end

theorem loadMember_unfolds (hemit : ∀ n t, G.Unfolds n t → emit n = env.yaml.emit t)
    (P : Program U) (p : Process U) {m : String × ν} {m' : String × Node}
    (h : m.1 = m'.1 ∧ G.Unfolds m.2 m'.2) :
    loadMember env G emit P p m = Config.loadMember env P p m' := by
  obtain ⟨path, n⟩ := m
  obtain ⟨path, t⟩ := m'
  obtain ⟨rfl, ht⟩ := h
  have htext : nodeText G emit n = Config.nodeText env t := by
    have hn := hemit n t ht
    rw [nodeText]
    cases t with
    | null =>
        rw [Graph.Unfolds] at ht
        rw [ht]
        exact hn
    | scalar s =>
        rw [Graph.Unfolds] at ht
        rw [ht]
        rfl
    | seq items | map entries =>
        rw [Graph.Unfolds] at ht
        obtain ⟨ns, hcell, _⟩ := ht
        rw [hcell]
        exact hn
  rw [loadMember, htext]
  rfl

/-- **Refinement**: where the document is a tree it is loaded as in `Sylar.Config`. -/
theorem loadFromYaml_unfolds (hemit : ∀ n t, G.Unfolds n t → emit n = env.yaml.emit t)
    (P : Program U) {root : ν} {t : Node} (ht : G.Unfolds root t) (p : Process U) :
    ∃ depth, loadFromYaml env G emit P depth root p = some (Config.loadFromYaml env P t p) := by
  have hstart : Unfolded G (p.log, []) (p.log, []) := ⟨rfl, .nil⟩
  obtain ⟨depth, r, hr, hlog, hmembers⟩ := listAllMember_unfolds hemit t ht "" hstart
  have hloop : ∀ {ms ms'} (q : Process U),
      List.Forall₂ (fun m m' => m.1 = m'.1 ∧ G.Unfolds m.2 m'.2) ms ms' →
      ms.foldlM (loadMember env G emit P) q = ms'.foldlM (Config.loadMember env P) q := by
    intro ms ms' q h
    induction h generalizing q with
    | nil => rfl
    | cons hm _ ih =>
        rw [List.foldlM_cons, List.foldlM_cons, loadMember_unfolds hemit P q hm]
        exact congrArg _ (funext ih)
  refine ⟨depth, Option.bind_eq_some_iff.mpr ⟨r, hr, ?_⟩⟩
  rw [Config.loadFromYaml, ← hlog]
  exact congrArg some (hloop _ hmembers)

end Aliased

end Sylar
