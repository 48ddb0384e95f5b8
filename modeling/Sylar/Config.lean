/-
Sylar/Config.lean

The registry of configuration variables and its loading from YAML (config.hpp,
config.cpp).

Variables have types of the program's choosing, with conversions and listeners
of the program's making; `Types` and `Program` are what the registry knows of
them.  The registry owns its variables and never drops one, so the key of a
variable stands for the pointer to it.

Loading first flattens the document (`listAllMember`) and then visits the
members in order: the path of a member, in lower case, is looked up in the
registry, and the text of its node is converted.  The two facts everything else
rests on: the members are the nodes whose dotted path is a valid name
(`listAllMember_eq`), and a load leaves every variable with the last of its texts that
converts (`loadFromYaml_spec`).
-/
import Sylar.ConfigVar
import Sylar.Lib.Overwrite
import Sylar.World

namespace Sylar

open Yaml Overwrite

namespace Config

/-! ### Names -/

/-- The characters a name may consist of. -/
def acceptedChars : List Char :=
  "abcdefghijklmnopqrstuvwxyzABCDEFGHIMNOPQRSTUVWXYZ._0123456789".toList

/-- `name.find_first_not_of(…) == npos`. -/
def validName (name : String) : Bool := name.toList.all fun c => acceptedChars.contains c

/-- `std::transform(…, ::tolower)`. -/
def tolower (s : String) : String := .ofList (s.toList.map Char.toLower)

/-- The path of a child. -/
def joinPath (path key : String) : String := if path = "" then key else path ++ "." ++ key

end Config

open Config

/-! ### Types, variables, listeners -/

/-- The types `T` of a program's variables; `==` on their values is equality. -/
structure Types where
  Code : Type
  Val : Code → Type
  decCode : DecidableEq Code
  decVal : ∀ c, DecidableEq (Val c)
  /-- `typeid(T).name()`. -/
  typeName : Code → String
  /-- `FromStr`; it throws a `std::exception`, here its `what()`. -/
  fromStr : ∀ c, String → Outcome String (Val c)

instance (U : Types) : DecidableEq U.Code := U.decCode

instance (U : Types) (c : U.Code) : DecidableEq (U.Val c) := U.decVal c

/-- A registered variable; its callbacks are numbers of functions of the program. -/
structure Var (U : Types) where
  code : U.Code
  /-- `m_name`. -/
  name : String
  var : ConfigVar (U.Val code) Nat

/-- The state of the program, as far as the two modules hold it. -/
structure Process (U : Types) where
  /-- `s_data`. -/
  data : SortedMap String (Var U)
  log : LogSystem

/-- What leaves with an exception: the state at that point and `what()`. -/
abbrev Thrown (U : Types) := Process U × String

/-- The listeners of a program: what function `f` does when a variable of type `c`
changes from `old` to `new`. -/
structure Program (U : Types) where
  callback : ∀ c, Nat → (old new : U.Val c) → Process U → Outcome (Thrown U) (Process U)

variable {U : Types}

namespace Var

/-- `ConfigVar::ConfigVar`. -/
def new (name : String) (c : U.Code) (default_value : U.Val c) : Var U :=
  ⟨c, tolower name, ⟨default_value, SortedBy.empty⟩⟩

/-- The variable with another value. -/
def assign (x : Var U) (val : U.Val x.code) : Var U := { x with var := x.var.assign val }

end Var

namespace Process

/-- A statement of the module on the root logger. -/
def sylarLog (env : Env) (level : LogLevel) (filename : String) (line : Int) (text : String)
    (p : Process U) : Process U :=
  { p with log := p.log.sylarLog env p.log.root level filename line text }

/-- The variable under each key. -/
def vars (p : Process U) : String → Option (Var U) := p.data.get?

@[simp] theorem vars_sylarLog (env : Env) (level : LogLevel) (filename : String) (line : Int)
    (text : String) (p : Process U) :
    (p.sylarLog env level filename line text).vars = p.vars := rfl

end Process

namespace Config

/-- `ConfigVar::setValue` on the variable `x` under the key `k`.  The lock held during
the callbacks keeps everything about `x` as it was. -/
def setValue (P : Program U) (k : String) (x : Var U) (val : U.Val x.code) (p : Process U) :
    Outcome (Thrown U) (Process U) :=
  if val = x.var.val then .ret p
  else do
    let p ← x.var.callbacks.toList.foldlM
      (fun p f => P.callback x.code f.2 x.var.val val p) p
    pure { p with data := p.data.set k (x.assign val) }

/-- `ConfigVar::fromString`. -/
def fromString (env : Env) (P : Program U) (k : String) (x : Var U) (val : String)
    (p : Process U) : Outcome (Thrown U) (Process U × Bool) :=
  Outcome.rescue
    (fun e => (e.1.sylarLog env .all env.sourceFile 294
      ("ConfigVar::fromString exception" ++ e.2 ++ " convert string to " ++
        U.typeName x.code ++ "."), false))
    do
      let v ← (U.fromStr x.code val).mapThrow (Prod.mk p)
      let p ← setValue P k x v p
      pure (p, true)

/-! ### Registering -/

/-- `Config::LookupBase`. -/
def lookupBase (name : String) (p : Process U) : Option (Var U) := p.vars name

/-- `Config::Lookup<T>`: the state after the call and the variable, if its type fits. -/
def lookup (env : Env) (name : String) (c : U.Code) (default_value : U.Val c) (p : Process U) :
    Outcome (Thrown U) (Process U × Option String) :=
  match p.data.get? name with
  | some x =>
      -- `dynamic_pointer_cast` succeeds for the same type only
      if x.code = c then
        .ret (p.sylarLog env .info env.sourceFile 362 ("Lookup name=" ++ name ++ " exists"),
          some name)
      else
        .ret (p.sylarLog env .error env.sourceFile 366 (name ++ " exists but type " ++
          U.typeName x.code ++ " is not supported."), none)
  | none =>
      if validName name then
        -- the key is the name as it was given
        .ret ({ p with data := p.data.set name (.new name c default_value) }, some name)
      else
        .throw (p.sylarLog env .all env.sourceFile 372 ("Lookup name invalid " ++ name), name)

/-! ### Loading -/

mutual

/-- `ListAllMember`: the logging module and `output` after visiting `node`. -/
def listAllMember (env : Env) (path : String) (node : Node)
    (out : LogSystem × List (String × Node)) : LogSystem × List (String × Node) :=
  if validName path then
    match node with
    | .map entries => listEntries env path entries (out.1, out.2 ++ [(path, .map entries)])
    | node => (out.1, out.2 ++ [(path, node)])
  -- reported, and neither the node nor anything below it is listed
  else
    (out.1.sylarLog env out.1.root .error "src/config.cpp" 21
      ("Config invalid name: " ++ path ++ " : " ++ env.yaml.emit node), out.2)
termination_by structural node

/-- Its loop over the entries of a map. -/
def listEntries (env : Env) (path : String) (entries : List (Node × Node))
    (out : LogSystem × List (String × Node)) : LogSystem × List (String × Node) :=
  match entries with
  | [] => out
  | (key, node) :: rest =>
      listEntries env path rest (listAllMember env (joinPath path key.scalarText) node out)
termination_by structural entries

end

/-- What `fromString` is given for a node. -/
def nodeText (env : Env) : Node → String
  | .scalar s => s
  | node => env.yaml.emit node

/-- One iteration of the loop over the members. -/
def loadMember (env : Env) (P : Program U) (p : Process U) (i : String × Node) :
    Outcome (Thrown U) (Process U) :=
  if i.1 = "" then .ret p
  -- only the lookup is in lower case, the name was checked as written
  else match lookupBase (tolower i.1) p with
    | some var => do
        let r ← fromString env P (tolower i.1) var (nodeText env i.2) p
        pure r.1
    | none => .ret p

/-- `Config::LoadFromYaml`. -/
def loadFromYaml (env : Env) (P : Program U) (root : Node) (p : Process U) :
    Outcome (Thrown U) (Process U) :=
  let all_nodes := listAllMember env "" root (p.log, [])
  all_nodes.2.foldlM (loadMember env P) { p with log := all_nodes.1 }

/-! ### The members of a document -/

mutual

/-- A node and the nodes below it that are no part of a sequence, under their dotted
paths, in document order. -/
def members (path : String) (node : Node) : List (String × Node) :=
  match node with
  | .map entries => (path, .map entries) :: entryMembers path entries
  | node => [(path, node)]
termination_by structural node

def entryMembers (path : String) (entries : List (Node × Node)) : List (String × Node) :=
  match entries with
  | [] => []
  | (key, node) :: rest =>
      members (joinPath path key.scalarText) node ++ entryMembers path rest
termination_by structural entries

end

theorem tolower_eq_empty {s : String} : tolower s = "" ↔ s = "" := by
  rw [tolower, ← String.toList_inj, String.toList_ofList, ← String.toList_inj]
  exact List.map_eq_nil_iff

theorem validName_empty : validName "" = true := rfl

theorem validName_append (s t : String) : validName (s ++ t) = (validName s && validName t) := by
  rw [validName, String.toList_append, List.all_append]
  rfl

/-- A path below an invalid one is invalid. -/
theorem validName_joinPath {path : String} (h : validName path = false) (key : String) :
    validName (joinPath path key) = false := by
  have hne : path ≠ "" := by
    rintro rfl
    rw [validName_empty] at h
    cases h
  rw [joinPath, if_neg hne, validName_append, validName_append, h]
  rfl

mutual

theorem members_invalid (node : Node) {path : String} (h : validName path = false) :
    (members path node).filter (fun m => validName m.1) = [] := by
  cases node with
  | map entries =>
      rw [members, List.filter_cons_of_neg (by simp [h]), entryMembers_invalid entries h]
  | null => simp [members, h]
  | scalar s => simp [members, h]
  | seq items => simp [members, h]
termination_by structural node

theorem entryMembers_invalid (entries : List (Node × Node)) {path : String}
    (h : validName path = false) :
    (entryMembers path entries).filter (fun m => validName m.1) = [] := by
  match entries with
  | [] => rfl
  | (key, node) :: rest =>
      rw [entryMembers, List.filter_append, entryMembers_invalid rest h,
        members_invalid node (validName_joinPath h key.scalarText)]
      rfl
termination_by structural entries

end

mutual

/-- **The flattened document**: the traversal stops at an invalid path, and all it has
left out are nodes whose path is invalid. -/
theorem listAllMember_eq (env : Env) (node : Node) (path : String)
    (out : LogSystem × List (String × Node)) :
    (listAllMember env path node out).2 =
      out.2 ++ (members path node).filter fun m => validName m.1 := by
  by_cases h : validName path = true
  · cases node with
    | map entries =>
        rw [listAllMember, if_pos h, listEntries_eq env entries path, members,
          List.filter_cons_of_pos (by simpa using h)]
        simp
    | null => simp [listAllMember, members, h]
    | scalar s => simp [listAllMember, members, h]
    | seq items => simp [listAllMember, members, h]
  · rw [members_invalid node (Bool.eq_false_iff.mpr h)]
    cases node <;> simp [listAllMember, h]
termination_by structural node

theorem listEntries_eq (env : Env) (entries : List (Node × Node)) (path : String)
    (out : LogSystem × List (String × Node)) :
    (listEntries env path entries out).2 =
      out.2 ++ (entryMembers path entries).filter fun m => validName m.1 := by
  match entries with
  | [] => simp [listEntries, entryMembers]
  | (key, node) :: rest =>
      rw [listEntries, listEntries_eq env rest path, listAllMember_eq env node, entryMembers,
        List.filter_append, List.append_assoc]
termination_by structural entries

end

/-- The members that are visited. -/
def visited (root : Node) : List (String × Node) :=
  (members "" root).filter fun m => validName m.1

theorem listAllMember_visited (env : Env) (root : Node) (log : LogSystem) :
    (listAllMember env "" root (log, [])).2 = visited root :=
  listAllMember_eq env root "" (log, [])

/-- What is not a map has nothing below it. -/
theorem listAllMember_leaf (env : Env) {path : String} (hvalid : validName path = true)
    {node : Node} (hmap : node.isMap = false) (out : LogSystem × List (String × Node)) :
    listAllMember env path node out = (out.1, out.2 ++ [(path, node)]) := by
  cases node with
  | map entries => cases hmap
  | _ => simp only [listAllMember, hvalid, if_true]

/-- The entry of a document that has only one is visited, and that is all. -/
theorem loadFromYaml_single {env : Env} {name : String} (hvalid : validName name = true)
    {node : Node} (hmap : node.isMap = false) (P : Program U) (p : Process U) :
    loadFromYaml env P (.map [(.scalar name, node)]) p = loadMember env P p (name, node) := by
  have hnode := listAllMember_leaf env hvalid hmap
  have hmembers : listAllMember env "" (.map [(.scalar name, node)]) (p.log, []) =
      (p.log, [("", .map [(.scalar name, node)]), (name, node)]) := by
    simp [listAllMember, listEntries, validName_empty, Node.scalarText, joinPath, hnode]
  rw [loadFromYaml, hmembers]
  exact bind_pure (loadMember env P p (name, node))

/-! ### What a load leaves -/

/-- The texts given to the variable under the key `k`, in order. -/
def texts (env : Env) (k : String) (ms : List (String × Node)) : List String :=
  (ms.filter fun m => m.1 ≠ "" ∧ tolower m.1 = k).map fun m => nodeText env m.2

theorem texts_append (env : Env) (k : String) (ms ms' : List (String × Node)) :
    texts env k (ms ++ ms') = texts env k ms ++ texts env k ms' := by
  simp [texts]

end Config

/-- The variable after the texts have been given to it. -/
def Var.settle (l : List String) (x : Var U) : Var U :=
  x.assign (Overwrite.settle (fun s => (U.fromStr x.code s).value?) x.var.val l)

theorem Var.settle_append (l l' : List String) (x : Var U) :
    x.settle (l ++ l') = (x.settle l).settle l' :=
  congrArg x.assign Overwrite.settle_append

/-- A text that converts is the value. -/
theorem Var.settle_of_ret {x : Var U} {s : String} {v : U.Val x.code}
    (h : U.fromStr x.code s = .ret v) : x.settle [s] = x.assign v := by
  simp [Var.settle, h]

/-- A text that does not convert leaves the variable alone. -/
theorem Var.settle_of_none {x : Var U} {l : List String}
    (h : ∀ s ∈ l, (U.fromStr x.code s).value? = none) : x.settle l = x :=
  congrArg x.assign (Overwrite.settle_of_none h)

/-- The last text that converts is the value. -/
theorem Var.settle_last {x : Var U} {before after : List String} {s : String} {v : U.Val x.code}
    (hs : U.fromStr x.code s = .ret v)
    (hafter : ∀ s' ∈ after, (U.fromStr x.code s').value? = none) :
    x.settle (before ++ s :: after) = x.assign v := by
  have hlast : (x.settle before).settle [s] = x.assign v :=
    Var.settle_of_ret (x := x.settle before) hs
  have hrest : (x.assign v).settle after = x.assign v :=
    Var.settle_of_none (x := x.assign v) hafter
  calc x.settle (before ++ s :: after)
      = ((x.settle before).settle [s]).settle after := by
        rw [Var.settle_append, ← List.singleton_append, Var.settle_append]
    _ = (x.assign v).settle after := by rw [hlast]
    _ = x.assign v := hrest

/-- Every listener told of a value that is `Good` returns and has written no
configuration. -/
def Program.QuietOn (P : Program U) (Good : ∀ c, U.Val c → Prop) : Prop :=
  ∀ c f old new p, Good c new → ∃ p', P.callback c f old new p = .ret p' ∧ p'.vars = p.vars

/-- No listener throws or writes configuration. -/
def Program.Quiet (P : Program U) : Prop := P.QuietOn fun _ _ => True

namespace Config

variable {env : Env} {P : Program U} {Good : ∀ c, U.Val c → Prop} {k : String} {x : Var U}
  {p p' : Process U}

theorem setValue_spec (hP : P.QuietOn Good) (hx : p.vars k = some x) {val : U.Val x.code}
    (hval : Good x.code val) :
    ∃ p', setValue P k x val p = .ret p' ∧
      p'.vars = Function.update p.vars k (some (x.assign val)) := by
  unfold setValue
  split_ifs with h
  · -- the value it has: no listener is called, and nothing is stored
    refine ⟨p, rfl, ?_⟩
    subst h
    exact (Function.update_eq_self_iff.mpr hx.symm).symm
  · -- the listeners leave the variables alone, and then this one is stored
    obtain ⟨q, hq, hvars⟩ := Outcome.foldlM_total
      (f := fun p f => P.callback x.code f.2 x.var.val val p)
      (P := fun _ q => q.vars = p.vars) (l := x.var.callbacks.toList) (s := p) rfl
      (fun _ f _ q _ hq => by
        obtain ⟨q', hq', hvars⟩ := hP x.code f.2 x.var.val val q hval
        exact ⟨q', hq', hvars.trans hq⟩)
    refine ⟨{ q with data := q.data.set k (x.assign val) }, by rw [hq]; rfl, ?_⟩
    rw [← hvars]
    exact SortedMap.get?_set q.data k (x.assign val)

/-- **One conversion**: it is given to the variable, and to no other. -/
theorem fromString_spec (env : Env) (hP : P.QuietOn Good) (hx : p.vars k = some x) {s : String}
    (hs : (U.fromStr x.code s).Survives)
    (hgood : ∀ v, U.fromStr x.code s = .ret v → Good x.code v) :
    ∃ r, fromString env P k x s p = .ret r ∧
      r.1.vars = Function.update p.vars k (some (x.settle [s])) := by
  unfold fromString
  cases hconv : U.fromStr x.code s with
  | ret v =>
      obtain ⟨q, hq, hvars⟩ := setValue_spec hP hx (hgood v hconv)
      refine ⟨(q, true), ?_, by rw [hvars, Var.settle_of_ret hconv]⟩
      simp only [Outcome.mapThrow, Outcome.ret_bind, hq, Outcome.pure_eq, Outcome.rescue]
  | throw e =>
      -- caught in `fromString`, which reports it and returns
      refine ⟨_, rfl, ?_⟩
      rw [Var.settle_of_none (by simp [hconv])]
      exact (Function.update_eq_self_iff.mpr hx.symm).symm
  | exit n => rw [hconv] at hs; exact hs.elim
  | crash => rw [hconv] at hs; exact hs.elim

/-- A call that returned has converted its text, or caught what the conversion threw. -/
theorem fromString_survives {s : String} {r : Process U × Bool}
    (h : fromString env P k x s p = .ret r) : (U.fromStr x.code s).Survives := by
  unfold fromString at h
  cases hconv : U.fromStr x.code s with
  | ret v => trivial
  | throw e => trivial
  | exit n => rw [hconv] at h; cases h
  | crash => rw [hconv] at h; cases h

/-- A listener that ends the process is not held up. -/
theorem fromString_exit {s : String} {v : U.Val x.code} {n : Nat}
    (hs : U.fromStr x.code s = .ret v) (h : setValue P k x v p = .exit n) :
    fromString env P k x s p = .exit n := by
  simp only [fromString, hs, Outcome.mapThrow, Outcome.ret_bind, h, Outcome.exit_bind,
    Outcome.rescue]

/-- The variables after the members have been visited. -/
def settled (env : Env) (ms : List (String × Node)) (vars : String → Option (Var U)) :
    String → Option (Var U) :=
  fun k => (vars k).map (Var.settle (texts env k ms))

/-- A variable that is given no text stays as it is. -/
theorem settled_of_nil {ms : List (String × Node)} {vars : String → Option (Var U)}
    (h : texts env k ms = []) : settled env ms vars k = vars k := by
  rw [settled, h]
  cases vars k <;> rfl

theorem settled_nil (vars : String → Option (Var U)) : settled env [] vars = vars :=
  funext fun _ => settled_of_nil rfl

theorem settled_append (ms ms' : List (String × Node)) (vars : String → Option (Var U)) :
    settled env (ms ++ ms') vars = settled env ms' (settled env ms vars) := by
  funext k
  rw [settled, settled, settled, Option.map_map, texts_append]
  exact congrArg (Option.map · (vars k)) (funext fun x => x.settle_append _ _)

/-- Every conversion the members ask for returns or throws, and what it returns is
`Good`. -/
def Converts (env : Env) (Good : ∀ c, U.Val c → Prop) (ms : List (String × Node))
    (vars : String → Option (Var U)) : Prop :=
  ∀ k x, vars k = some x → ∀ s ∈ texts env k ms,
    (U.fromStr x.code s).Survives ∧ ∀ v, U.fromStr x.code s = .ret v → Good x.code v

/-- Visiting members does not change what the others ask for. -/
theorem Converts.of_append {done rest : List (String × Node)} {i : String × Node}
    {vars : String → Option (Var U)} (h : Converts env Good (done ++ i :: rest) vars) :
    Converts env Good [i] (settled env done vars) := by
  intro k y hy s hs
  obtain ⟨x, hx, rfl⟩ := Option.map_eq_some_iff.mp hy
  apply h k x hx s
  rw [← List.singleton_append, texts_append, texts_append]
  exact List.mem_append_right _ (List.mem_append_left _ hs)

theorem Converts.append {ms ms' : List (String × Node)} {vars : String → Option (Var U)}
    (h : Converts env Good ms vars) (h' : Converts env Good ms' (settled env ms vars)) :
    Converts env Good (ms ++ ms') vars := by
  intro k x hx s hs
  rw [texts_append] at hs
  rcases List.mem_append.mp hs with hs | hs
  · exact h k x hx s hs
  · exact h' k (x.settle (texts env k ms)) (by rw [settled, hx]; rfl) s hs

/-- One member, if the conversion it asks for goes through. -/
theorem loadMember_of_fromString {i : String × Node}
    (h : ∀ x, i.1 ≠ "" → p.vars (tolower i.1) = some x →
      ∃ r, fromString env P (tolower i.1) x (nodeText env i.2) p = .ret r ∧
        r.1.vars = Function.update p.vars (tolower i.1) (some (x.settle [nodeText env i.2]))) :
    ∃ p', loadMember env P p i = .ret p' ∧ p'.vars = settled env [i] p.vars := by
  -- keys that `i` does not denote
  have hother : ∀ k, ¬ (i.1 ≠ "" ∧ tolower i.1 = k) → settled env [i] p.vars k = p.vars k := by
    intro k hk
    exact settled_of_nil (by simp [texts, hk])
  unfold loadMember
  split_ifs with hi
  · exact ⟨p, rfl, (funext fun k => hother k fun hk => hk.1 hi).symm⟩
  · have htexts : texts env (tolower i.1) [i] = [nodeText env i.2] := by simp [texts, hi]
    cases hx : lookupBase (tolower i.1) p with
    | none =>
        refine ⟨p, rfl, funext fun k => ?_⟩
        by_cases hk : tolower i.1 = k
        · subst hk
          rw [settled, show p.vars (tolower i.1) = none from hx]
          rfl
        · exact (hother k fun h => hk h.2).symm
    | some x =>
        obtain ⟨r, hr, hvars⟩ := h x hi hx
        refine ⟨r.1, by simp only [hr, Outcome.ret_bind, Outcome.pure_eq], ?_⟩
        refine hvars.trans (funext fun k => ?_)
        by_cases hk : tolower i.1 = k
        · subst hk
          rw [Function.update_self, settled, htexts, show p.vars (tolower i.1) = some x from hx]
          rfl
        · rw [Function.update_of_ne (Ne.symm hk), hother k fun h => hk h.2]

/-- The member's own text is among those for its key. -/
theorem nodeText_mem_texts {i : String × Node} (hi : i.1 ≠ "") :
    nodeText env i.2 ∈ texts env (tolower i.1) [i] := by
  simp [texts, hi]

/-- **Step lemma.** -/
theorem loadMember_spec (env : Env) (hP : P.QuietOn Good) {i : String × Node}
    (h : Converts env Good [i] p.vars) :
    ∃ p', loadMember env P p i = .ret p' ∧ p'.vars = settled env [i] p.vars := by
  apply loadMember_of_fromString
  intro x hi hx
  obtain ⟨hsurvives, hgood⟩ := h (tolower i.1) x hx (nodeText env i.2) (nodeText_mem_texts hi)
  exact fromString_spec env hP hx hsurvives hgood

/-- **What a load leaves.**  If conversions return or throw and listeners are quiet on
what they return, the load returns, and every variable holds the last of its texts that
converts, or what it held. -/
theorem loadFromYaml_spec (env : Env) (hP : P.QuietOn Good) (root : Node)
    (h : Converts env Good (visited root) p.vars) :
    ∃ p', loadFromYaml env P root p = .ret p' ∧ p'.vars = settled env (visited root) p.vars := by
  unfold loadFromYaml
  dsimp only
  rw [listAllMember_visited]
  -- after `done` the variables are settled by `done`
  refine Outcome.foldlM_total (P := fun done (q : Process U) => q.vars = settled env done p.vars)
    (settled_nil p.vars).symm ?_
  intro done i rest q hms hq
  have hi : Converts env Good [i] q.vars := hq ▸ (hms ▸ h).of_append
  obtain ⟨q', hq', hvars⟩ := loadMember_spec env hP hi
  exact ⟨q', hq', by rw [hvars, hq, settled_append]⟩

theorem loadMember_converts {i : String × Node} (h : loadMember env P p i = .ret p') :
    Converts env (fun _ _ => True) [i] p.vars := by
  intro k x hx s hs
  refine ⟨?_, fun _ _ => trivial⟩
  obtain ⟨m, hm, rfl⟩ := List.mem_map.mp hs
  obtain ⟨hm, hpath⟩ := List.mem_filter.mp hm
  obtain rfl := List.mem_singleton.mp hm
  obtain ⟨hne, rfl⟩ := of_decide_eq_true hpath
  have hlookup : lookupBase (tolower m.1) p = some x := hx
  rw [loadMember, if_neg hne, hlookup] at h
  obtain ⟨r, hr, -⟩ := Outcome.bind_eq_ret.mp h
  exact fromString_survives hr

/-- A load that returned has seen every conversion return or throw. -/
theorem loadFromYaml_converts (hP : P.Quiet) {root : Node}
    (h : loadFromYaml env P root p = .ret p') :
    Converts env (fun _ _ => True) (visited root) p.vars := by
  unfold loadFromYaml at h
  dsimp only at h
  rw [listAllMember_visited] at h
  -- each iteration tells both what it converted and what it left for the next one
  refine (Outcome.foldlM_induction (P := fun done (q : Process U) =>
    Converts env (fun _ _ => True) done p.vars ∧ q.vars = settled env done p.vars)
    (s := { p with log := (listAllMember env "" root (p.log, [])).1 })
    ⟨fun k x _ s hs => absurd hs List.not_mem_nil, (settled_nil p.vars).symm⟩ ?_ h).1
  rintro done i _ q q' - ⟨hdone, hq⟩ hstep
  have hi := loadMember_converts hstep
  obtain ⟨q'', hq'', hvars⟩ := loadMember_spec env hP hi
  obtain rfl := Outcome.ret.inj (hstep.symm.trans hq'')
  rw [hq] at hi
  exact ⟨hdone.append hi, by rw [hvars, hq, settled_append]⟩

end Config

/-! ### Small programs -/

/-- All variables are of one type, whose conversion is `read`. -/
abbrev Types.ofRead {β : Type} [DecidableEq β] (read : String → Option β) : Types where
  Code := Unit
  Val _ := β
  decCode := inferInstance
  decVal _ := inferInstance
  typeName _ := "T"
  fromStr _ s := ((read s).map .ret).getD (.throw "bad lexical cast")

/-- Nothing happens when a variable changes. -/
def Program.silent (U : Types) : Program U := ⟨fun _ _ _ _ p => .ret p⟩

theorem Program.quiet_silent (U : Types) : (Program.silent U).Quiet :=
  fun _ _ _ _ p _ => ⟨p, rfl, rfl⟩

/-- Nothing is registered. -/
def Process.start (U : Types) : Process U := ⟨SortedBy.empty, LogSystem.init⟩

/-- One variable is registered. -/
def Process.only (k : String) (x : Var U) : Process U :=
  ⟨SortedMap.set SortedBy.empty k x, LogSystem.init⟩

theorem Process.vars_only (k : String) (x : Var U) :
    (Process.only k x).vars = Function.update (fun _ => none) k (some x) :=
  SortedMap.get?_set _ k x

end Sylar
