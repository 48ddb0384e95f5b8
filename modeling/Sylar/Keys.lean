/-
Sylar/Keys.lean

Spelling of keys, in the program and in documents.

A variable is registered under the name as it was given, and looked up under the
path in lower case.  So a name with a capital letter is never found
(`configurable_iff`).

Within a document the spelling is meant not to matter.  It does: the alphabet
of valid names lacks the capitals J, K and L, and a path with one of them is
dropped together with everything below it.  Two documents that differ in case
only have the same effect exactly when what is dropped was given again later
(`case_insensitive_iff`); without these three letters they always have
(`case_insensitive_of_spelled`).
-/
import Sylar.Config

namespace Sylar

open Yaml Config

variable {U : Types} {env : Env} {P : Program U} {p p' : Process U}

/-! ### A document with one entry -/

/-- No listener throws; it may do anything else. -/
def Program.Returns (P : Program U) : Prop :=
  ∀ c f old new p, ∃ p', P.callback c f old new p = .ret p'

namespace Config

theorem setValue_returns (hP : P.Returns) {k : String} {x : Var U} (hx : p.vars k = some x)
    (val : U.Val x.code) :
    ∃ p', setValue P k x val p = .ret p' ∧ p'.vars k = some (x.assign val) := by
  unfold setValue
  split_ifs with h
  · subst h
    exact ⟨p, rfl, hx⟩
  · obtain ⟨q, hq, -⟩ := Outcome.foldlM_total
      (f := fun p f => P.callback x.code f.2 x.var.val val p)
      (P := fun _ _ => True) (l := x.var.callbacks.toList) (s := p) trivial
      (fun _ f _ q _ _ => by
        obtain ⟨q', hq'⟩ := hP x.code f.2 x.var.val val q
        exact ⟨q', hq', trivial⟩)
    refine ⟨{ q with data := q.data.set k (x.assign val) }, by rw [hq]; rfl, ?_⟩
    exact SortedMap.get?_set_self q.data k (x.assign val)

/-- A name that can be registered is one that is not registered yet and is valid. -/
theorem lookup_of_fresh {name : String} {c : U.Code} {d : U.Val c} {r : Process U × Option String}
    (hfresh : p.vars name = none) (h : lookup env name c d p = .ret r) :
    validName name = true ∧
      r.1.vars = Function.update p.vars name (some (.new name c d)) := by
  unfold lookup at h
  rw [show p.data.get? name = none from hfresh] at h
  dsimp only at h
  split_ifs at h with hvalid
  obtain rfl := Outcome.ret.inj h
  exact ⟨hvalid, SortedMap.get?_set p.data name _⟩

end Config

/-! ### Registered names -/

/-- Whatever its type, and whatever else is registered, a variable with this name takes
every value a document with this key asks for. -/
def Configurable (name : String) : Prop :=
  ∀ (U : Types) (env : Env) (P : Program U) (p : Process U) (x : Var U) (s : String)
    (v : U.Val x.code), P.Returns → p.vars name = some x → U.fromStr x.code s = .ret v →
      ∃ p', loadFromYaml env P (.map [Node.entry name s]) p = .ret p' ∧
        p'.vars name = some (x.assign v)

theorem configurable_of_lower {name : String} (hne : name ≠ "") (hvalid : validName name = true)
    (hlower : tolower name = name) : Configurable name := by
  intro U env P p x s v hP hx hs
  obtain ⟨q, hq, hvars⟩ := setValue_returns hP hx v
  refine ⟨q, ?_, hvars⟩
  rw [Node.entry, loadFromYaml_single hvalid rfl, loadMember, if_neg hne, hlower,
    show lookupBase name p = some x from hx]
  simp only [fromString, nodeText, hs, Outcome.mapThrow, Outcome.ret_bind, hq, Outcome.pure_eq,
    Outcome.rescue]

theorem loadFromYaml_missed {name : String} (hvalid : validName name = true)
    (hlower : tolower name ≠ name) (s : String) (c : U.Code) (val : U.Val c) :
    loadFromYaml env P (.map [Node.entry name s]) (.only name (.new name c val)) =
      .ret (.only name (.new name c val)) := by
  rw [Node.entry, loadFromYaml_single hvalid rfl, loadMember]
  split_ifs
  · rfl
  · rw [lookupBase, Process.vars_only, Function.update_of_ne hlower]

/-- The lower-case name is another one, under which nothing is found. -/
theorem not_configurable {name : String} (hvalid : validName name = true)
    (hlower : tolower name ≠ name) : ¬ Configurable name := by
  intro h
  -- a variable that takes any text
  let x : Var (Types.ofRead some) := .new name () ""
  have hx : (Process.only name x).vars name = some x := by
    rw [Process.vars_only, Function.update_self]
  obtain ⟨p', hload, hvars⟩ := h (Types.ofRead some) (Env.sample []) (Program.silent _) _ _
    "x" "x" (fun _ _ _ _ p => ⟨p, rfl⟩) hx rfl
  rw [loadFromYaml_missed hvalid hlower] at hload
  obtain rfl := Outcome.ret.inj hload
  rw [hx] at hvars
  have hval : some "" = some "x" := congrArg (fun x => x.map fun x => x.var.val) hvars
  exact absurd hval (by decide)

/-- **A registered variable can be configured exactly when its name has no capital
letter.** -/
theorem configurable_iff {name : String} {c : U.Code} {d : U.Val c}
    {r : Process U × Option String} (hne : name ≠ "") (hfresh : p.vars name = none)
    (hlookup : lookup env name c d p = .ret r) :
    Configurable name ↔ tolower name = name := by
  have hvalid := (lookup_of_fresh hfresh hlookup).1
  constructor
  · intro h
    by_contra hlower
    exact not_configurable hvalid hlower h
  · exact configurable_of_lower hne hvalid

theorem configurable_iff_port : Configurable "port" ↔ tolower "port" = "port" := by
  have hlookup : lookup (Env.sample []) "port" () "" (Process.start (Types.ofRead some)) =
      .ret (.only "port" (.new "port" () ""), some "port") := rfl
  exact configurable_iff (by decide) rfl hlookup

/-- "A" is registered with the empty text, and a document with the entry `A: 1` leaves
it at that. -/
theorem capital_missed :
    ∃ r : Process (Types.ofRead some),
      lookup (Env.sample []) "A" () "" (Process.start _) = .ret (r, some "A") ∧
      loadFromYaml (Env.sample []) (Program.silent _) (.map [Node.entry "A" "1"]) r = .ret r ∧
      (r.vars "A").map (fun x => x.var.val) = some "" ∧ ¬ Configurable "A" := by
  have hlower : tolower "A" ≠ "A" := by decide
  have hmissed : loadFromYaml (Env.sample []) (Program.silent (Types.ofRead some))
      (.map [Node.entry "A" "1"]) (.only "A" (.new "A" () "")) =
        .ret (.only "A" (.new "A" () "")) :=
    loadFromYaml_missed (U := Types.ofRead some) rfl hlower "1" () ""
  refine ⟨Process.only "A" (Var.new "A" () ""), rfl, hmissed, ?_, not_configurable rfl hlower⟩
  rw [Process.vars_only, Function.update_self]
  rfl

/-! ### Characters -/

/-- ASCII letters, digits, the dot and the underscore. -/
def plainChar (c : Char) : Bool :=
  ('a' ≤ c && c ≤ 'z') || ('A' ≤ c && c ≤ 'Z') || ('0' ≤ c && c ≤ '9') || c = '.' || c = '_'

/-- All of them are. -/
def plainName (s : String) : Bool := s.toList.all plainChar

/-- The three capitals that a valid name cannot have. -/
def noJKL (s : String) : Bool := s.toList.all fun c => !(['J', 'K', 'L'].contains c)

/-- A fact about ASCII characters can be tested. -/
theorem ascii_cases {Q : Char → Prop} [DecidablePred Q]
    (h : ((List.range 128).all fun n => decide (Q (Char.ofNat n))) = true) {c : Char}
    (hc : c.toNat < 128) : Q c := by
  rw [← Char.ofNat_toNat c]
  exact of_decide_eq_true (List.all_eq_true.mp h c.toNat (List.mem_range.mpr hc))

/-- Other characters are in lower case. -/
theorem toLower_of_not_ascii {c : Char} (h : ¬ c.toNat < 128) : c.toLower = c := by
  unfold Char.toLower
  rw [dif_neg]
  rintro ⟨-, hle⟩
  have hz : c.val.toNat ≤ 90 := hle
  have hc : 128 ≤ c.val.toNat := Nat.not_lt.mp h
  omega

theorem ascii_of_plain {c : Char} (h : plainChar c = true) : c.toNat < 128 := by
  by_contra hc
  have hval : 128 ≤ c.val.toNat := Nat.not_lt.mp hc
  simp only [plainChar, Bool.or_eq_true, Bool.and_eq_true, decide_eq_true_eq] at h
  rcases h with (((⟨_, h⟩ | ⟨_, h⟩) | ⟨_, h⟩) | rfl) | rfl
  · have hz : c.val.toNat ≤ 122 := h
    omega
  · have hz : c.val.toNat ≤ 90 := h
    omega
  · have hz : c.val.toNat ≤ 57 := h
    omega
  · exact hc (by decide)
  · exact hc (by decide)

theorem plainChar_toLower (c : Char) : plainChar c.toLower = plainChar c := by
  by_cases hc : c.toNat < 128
  · exact ascii_cases (Q := fun c => plainChar c.toLower = plainChar c) rfl hc
  · rw [toLower_of_not_ascii hc]

theorem toLower_toLower (c : Char) : c.toLower.toLower = c.toLower := by
  by_cases hc : c.toNat < 128
  · exact ascii_cases (Q := fun c => c.toLower.toLower = c.toLower) rfl hc
  · rw [toLower_of_not_ascii hc, toLower_of_not_ascii hc]

/-- What is missing from the alphabet. -/
theorem accepted_eq {c : Char} (h : plainChar c = true) :
    acceptedChars.contains c = !(['J', 'K', 'L'].contains c) :=
  ascii_cases (Q := fun c => plainChar c = true →
    acceptedChars.contains c = !(['J', 'K', 'L'].contains c)) rfl (ascii_of_plain h) h

theorem plainName_tolower (s : String) : plainName (tolower s) = plainName s := by
  rw [plainName, tolower, String.toList_ofList, List.all_map]
  exact congrArg s.toList.all (funext plainChar_toLower)

theorem tolower_tolower (s : String) : tolower (tolower s) = tolower s := by
  rw [tolower, tolower, String.toList_ofList, List.map_map]
  exact congrArg (fun f => String.ofList (s.toList.map f)) (funext toLower_toLower)

theorem validName_eq {s : String} (h : plainName s = true) : validName s = noJKL s := by
  unfold validName noJKL
  rw [Bool.eq_iff_iff, List.all_eq_true, List.all_eq_true]
  exact forall₂_congr fun c hc => by rw [accepted_eq (List.all_eq_true.mp h c hc)]

theorem plainName_joinPath {path key : String} (hpath : plainName path = true)
    (hkey : plainName key = true) : plainName (joinPath path key) = true := by
  unfold joinPath
  split_ifs with h
  · exact hkey
  · simp only [plainName, String.toList_append, List.all_append, Bool.and_eq_true] at *
    exact ⟨⟨hpath, rfl⟩, hkey⟩

theorem tolower_joinPath (path key : String) :
    tolower (joinPath path key) = joinPath (tolower path) (tolower key) := by
  unfold joinPath
  by_cases h : path = ""
  · rw [if_pos h, if_pos (tolower_eq_empty.mpr h)]
  · rw [if_neg h, if_neg (mt tolower_eq_empty.mp h)]
    rw [← String.toList_inj]
    simp [tolower, String.toList_append]

/-! ### Documents up to case -/

mutual

/-- Every key outside sequences is a scalar made of plain characters. -/
def plainKeys : Node → Bool
  | .map entries => plainEntries entries
  | _ => true
termination_by structural node => node

def plainEntries : List (Node × Node) → Bool
  | [] => true
  | (.scalar key, node) :: rest => plainName key && plainKeys node && plainEntries rest
  | _ :: _ => false
termination_by structural entries => entries

end

/-- A key in lower case. -/
def lowerKey : Node → Node
  | .scalar key => .scalar (tolower key)
  | key => key

mutual

/-- The document with every key outside sequences in lower case. -/
def lowerKeys : Node → Node
  | .map entries => .map (lowerEntries entries)
  | node => node
termination_by structural node => node

def lowerEntries : List (Node × Node) → List (Node × Node)
  | [] => []
  | (key, node) :: rest => (lowerKey key, lowerKeys node) :: lowerEntries rest
termination_by structural entries => entries

end

mutual

theorem plainKeys_lowerKeys (node : Node) : plainKeys (lowerKeys node) = plainKeys node := by
  cases node with
  | map entries => exact plainEntries_lowerEntries entries
  | null => rfl
  | scalar s => rfl
  | seq items => rfl
termination_by structural node

theorem plainEntries_lowerEntries (entries : List (Node × Node)) :
    plainEntries (lowerEntries entries) = plainEntries entries := by
  match entries with
  | [] => rfl
  | (.scalar key, node) :: rest =>
      rw [lowerEntries, lowerKey, plainEntries, plainEntries, plainName_tolower,
        plainKeys_lowerKeys node, plainEntries_lowerEntries rest]
  | (.null, node) :: rest => rfl
  | (.seq items, node) :: rest => rfl
  | (.map entries', node) :: rest => rfl
termination_by structural entries

end

mutual

theorem members_plain (node : Node) {path : String} (hpath : plainName path = true)
    (h : plainKeys node = true) : ∀ m ∈ members path node, plainName m.1 = true := by
  cases node with
  | map entries =>
      intro m hm
      rw [members] at hm
      rcases List.mem_cons.mp hm with rfl | hm
      · exact hpath
      · exact entryMembers_plain entries hpath h m hm
  | null => intro m hm; obtain rfl := List.mem_singleton.mp hm; exact hpath
  | scalar s => intro m hm; obtain rfl := List.mem_singleton.mp hm; exact hpath
  | seq items => intro m hm; obtain rfl := List.mem_singleton.mp hm; exact hpath
termination_by structural node

theorem entryMembers_plain (entries : List (Node × Node)) {path : String}
    (hpath : plainName path = true) (h : plainEntries entries = true) :
    ∀ m ∈ entryMembers path entries, plainName m.1 = true := by
  match entries with
  | [] => exact fun m hm => absurd hm List.not_mem_nil
  | (.scalar key, node) :: rest =>
      rw [plainEntries, Bool.and_eq_true, Bool.and_eq_true] at h
      intro m hm
      rw [entryMembers] at hm
      rcases List.mem_append.mp hm with hm | hm
      · exact members_plain node (plainName_joinPath hpath h.1.1) h.1.2 m hm
      · exact entryMembers_plain rest hpath h.2 m hm
termination_by structural entries

end

mutual

/-- The members of the document in lower case. -/
theorem members_lowerKeys (node : Node) (path : String) :
    members (tolower path) (lowerKeys node) =
      (members path node).map fun m => (tolower m.1, lowerKeys m.2) := by
  cases node with
  | map entries =>
      rw [lowerKeys, members, members, entryMembers_lowerEntries entries path]
      rfl
  | null => rfl
  | scalar s => rfl
  | seq items => rfl
termination_by structural node

theorem entryMembers_lowerEntries (entries : List (Node × Node)) (path : String) :
    entryMembers (tolower path) (lowerEntries entries) =
      (entryMembers path entries).map fun m => (tolower m.1, lowerKeys m.2) := by
  match entries with
  | [] => rfl
  | (key, node) :: rest =>
      have hkey : joinPath (tolower path) (lowerKey key).scalarText =
          tolower (joinPath path key.scalarText) := by
        rw [tolower_joinPath]
        cases key <;> rfl
      rw [lowerEntries, entryMembers, hkey, members_lowerKeys node,
        entryMembers_lowerEntries rest, entryMembers, List.map_append]
termination_by structural entries

end

/-! ### The effect of a document up to case -/

/-- The texts for the key `k`, of the nodes whose path has none of the three capitals. -/
def spelledTexts (env : Env) (k : String) (root : Node) : List String :=
  texts env k ((members "" root).filter fun m => noJKL m.1)

/-- The key `k` denotes no map. -/
def NoMap (k : String) (root : Node) : Prop :=
  ∀ m ∈ members "" root, tolower m.1 = k → m.2.isMap = false

/-- Loading either document leads to the same variables, or neither load returns. -/
def SameLoad (env : Env) (P : Program U) (p : Process U) (t t' : Node) : Prop :=
  ∀ vars, (∃ q, loadFromYaml env P t p = .ret q ∧ q.vars = vars) ↔
    ∃ q, loadFromYaml env P t' p = .ret q ∧ q.vars = vars

/-- The two documents have the same effect on every registry with lower-case keys that
denote no map, with quiet listeners. -/
def CaseInsensitive (env : Env) (t t' : Node) : Prop :=
  ∀ (U : Types) (P : Program U) (p : Process U), P.Quiet →
    (∀ k x, p.vars k = some x → tolower k = k ∧ NoMap k t) → SameLoad env P p t t'

variable {t t' : Node}

theorem texts_visited (hplain : plainKeys t = true) (k : String) :
    texts env k (visited t) = spelledTexts env k t := by
  unfold visited spelledTexts
  refine congrArg (texts env k) (List.filter_congr fun m hm => ?_)
  exact validName_eq (members_plain t rfl hplain m hm)

/-- Of the texts for a key only the last occurrences matter. -/
theorem loadFromYaml_of_dedup (hP : P.Quiet)
    (h : ∀ k x, p.vars k = some x →
      (texts env k (visited t)).dedup = (texts env k (visited t')).dedup)
    {q : Process U} (hload : loadFromYaml env P t p = .ret q) :
    ∃ q', loadFromYaml env P t' p = .ret q' ∧ q'.vars = q.vars := by
  -- the second document asks for the same conversions, perhaps more often
  have hconv := loadFromYaml_converts hP hload
  have hconv' : Converts env (fun _ _ => True) (visited t') p.vars := by
    intro k x hx s hs
    apply hconv k x hx s
    rwa [← List.mem_dedup, h k x hx, List.mem_dedup]
  obtain ⟨q₁, hq₁, hvars₁⟩ := loadFromYaml_spec env hP t hconv
  obtain ⟨q₂, hq₂, hvars₂⟩ := loadFromYaml_spec env hP t' hconv'
  obtain rfl := Outcome.ret.inj (hload.symm.trans hq₁)
  refine ⟨q₂, hq₂, ?_⟩
  rw [hvars₁, hvars₂]
  funext k
  rw [settled, settled]
  cases hx : p.vars k with
  | none => rfl
  | some x => exact congrArg (fun v => some (x.assign v)) (Overwrite.settle_congr (h k x hx).symm)

theorem sameLoad_of_dedup (hP : P.Quiet)
    (h : ∀ k x, p.vars k = some x →
      (texts env k (visited t)).dedup = (texts env k (visited t')).dedup) :
    SameLoad env P p t t' := by
  intro vars
  constructor
  · rintro ⟨q, hq, rfl⟩
    exact loadFromYaml_of_dedup hP h hq
  · rintro ⟨q, hq, rfl⟩
    exact loadFromYaml_of_dedup hP (fun k x hx => (h k x hx).symm) hq

/-- One variable of a type made for the purpose tells two lists of texts apart. -/
theorem dedup_of_caseInsensitive (h : CaseInsensitive env t t') {k : String}
    (hk : tolower k = k) (hmap : NoMap k t) :
    (texts env k (visited t)).dedup = (texts env k (visited t')).dedup := by
  rw [← Overwrite.settle_eq_iff_dedup]
  intro read b
  -- the only variable, registered under `k`; its conversion is `read`
  let x : Var (Types.ofRead read) := .new k () b
  have hx : (Process.only k x).vars k = some x := by
    rw [Process.vars_only, Function.update_self]
  have hread : ∀ s, ((Types.ofRead read).fromStr () s).value? = read s := by
    intro s
    simp only [Types.ofRead]
    cases read s <;> rfl
  have hconv : ∀ root, Converts env (fun _ _ => True) (visited root)
      (Process.only k x).vars := by
    intro root _ _ _ s _
    refine ⟨?_, fun _ _ => trivial⟩
    simp only [Types.ofRead]
    cases read s <;> trivial
  obtain ⟨q, hq, hvars⟩ := loadFromYaml_spec env (Program.quiet_silent _) t (hconv t)
  obtain ⟨q', hq', hvars'⟩ := loadFromYaml_spec env (Program.quiet_silent _) t' (hconv t')
  have hreg : ∀ k' x', (Process.only k x).vars k' = some x' → tolower k' = k' ∧ NoMap k' t := by
    intro k' x' hx'
    rw [Process.vars_only] at hx'
    by_cases hkk : k' = k
    · exact hkk ▸ ⟨hk, hmap⟩
    · rw [Function.update_of_ne hkk] at hx'
      cases hx'
  obtain ⟨q'', hq'', hsame⟩ := (h _ _ _ (Program.quiet_silent _) hreg q.vars).mp ⟨q, hq, rfl⟩
  obtain rfl := Outcome.ret.inj (hq'.symm.trans hq'')
  -- the two loads leave the same in it, which is what it settles to
  have hval : settled env (visited t) _ k = settled env (visited t') _ k :=
    congrFun (hvars.symm.trans (hsame.symm.trans hvars')) k
  rw [settled, settled, hx] at hval
  have hval' := congrArg (Option.map fun x => x.var.val) hval
  simp only [Option.map_some, Var.settle, Var.assign, ConfigVar.assign, hread,
    Option.some.injEq] at hval'
  exact hval'

theorem isMap_lowerKeys (node : Node) : (lowerKeys node).isMap = node.isMap := by
  cases node <;> rfl

/-- What is no map keeps its text. -/
theorem nodeText_lowerKeys {node : Node} (h : node.isMap = false) :
    nodeText env (lowerKeys node) = nodeText env node := by
  cases node with
  | map entries => cases h
  | null => rfl
  | scalar s => rfl
  | seq items => rfl

/-- The texts for a key that denotes no map are the same in lower case. -/
theorem texts_lowerKeys {k : String} (hmap : NoMap k t) :
    texts env k (members "" (lowerKeys t)) = texts env k (members "" t) := by
  have hlower : members "" (lowerKeys t) =
      (members "" t).map fun m => (tolower m.1, lowerKeys m.2) := members_lowerKeys t ""
  rw [hlower, texts, texts, List.filter_map, List.map_map]
  -- the same members denote `k`, and each has kept its text
  have hfilter : (members "" t).filter ((fun m => decide (m.1 ≠ "" ∧ tolower m.1 = k)) ∘
      fun m => (tolower m.1, lowerKeys m.2)) =
      (members "" t).filter fun m => decide (m.1 ≠ "" ∧ tolower m.1 = k) := by
    apply List.filter_congr
    intro m _
    simp only [Function.comp_apply, ne_eq, tolower_eq_empty, tolower_tolower]
  rw [hfilter]
  apply List.map_congr_left
  intro m hm
  obtain ⟨hm, hk⟩ := List.mem_filter.mp hm
  exact nodeText_lowerKeys (hmap m hm (of_decide_eq_true hk).2)

theorem NoMap.of_lowerKeys {k : String} (h : NoMap k t) (hcase : lowerKeys t = lowerKeys t') :
    NoMap k t' := by
  intro m hm hk
  have hmem : (tolower m.1, lowerKeys m.2) ∈ members (tolower "") (lowerKeys t) := by
    rw [hcase, members_lowerKeys t' ""]
    exact List.mem_map_of_mem hm
  rw [members_lowerKeys t ""] at hmem
  obtain ⟨m', hm', heq⟩ := List.mem_map.mp hmem
  obtain ⟨hpath, hnode⟩ := Prod.mk.inj heq
  rw [← isMap_lowerKeys, ← hnode, isMap_lowerKeys]
  exact h m' hm' (hpath.trans hk)

/-- **Documents that differ in the case of keys have the same effect exactly when, for
every key that denotes no map, the texts under paths without the capitals J, K and L are
the same, up to those that occur again later.** -/
theorem case_insensitive_iff (hcase : lowerKeys t = lowerKeys t') (hplain : plainKeys t = true) :
    CaseInsensitive env t t' ↔
      ∀ k, NoMap k t → (spelledTexts env k t).dedup = (spelledTexts env k t').dedup := by
  have hplain' : plainKeys t' = true := by
    rw [← plainKeys_lowerKeys, ← hcase, plainKeys_lowerKeys, hplain]
  constructor
  · intro h k hmap
    rw [← texts_visited hplain, ← texts_visited hplain']
    by_cases hk : tolower k = k
    · exact dedup_of_caseInsensitive h hk hmap
    · -- no path is `k` in lower case
      have hnil : ∀ ms, texts env k ms = [] := by
        intro ms
        refine List.map_eq_nil_iff.mpr (List.filter_eq_nil_iff.mpr fun m _ hm => hk ?_)
        rw [← (of_decide_eq_true hm).2, tolower_tolower]
      rw [hnil, hnil]
  · intro h U P p hP hreg
    apply sameLoad_of_dedup hP
    intro k x hx
    rw [texts_visited hplain, texts_visited hplain']
    exact h k (hreg k x hx).2

/-- Without the three capitals there is no difference. -/
theorem case_insensitive_of_spelled (hcase : lowerKeys t = lowerKeys t')
    (hplain : plainKeys t = true) (ht : ∀ m ∈ members "" t, noJKL m.1 = true)
    (ht' : ∀ m ∈ members "" t', noJKL m.1 = true) : CaseInsensitive env t t' := by
  have hplain' : plainKeys t' = true := by
    rw [← plainKeys_lowerKeys, ← hcase, plainKeys_lowerKeys, hplain]
  intro U P p hP hreg
  refine sameLoad_of_dedup hP fun k x hx => congrArg List.dedup ?_
  have hmap := (hreg k x hx).2
  rw [texts_visited hplain, texts_visited hplain', spelledTexts, spelledTexts,
    List.filter_eq_self.mpr ht, List.filter_eq_self.mpr ht', ← texts_lowerKeys hmap, hcase,
    texts_lowerKeys (hmap.of_lowerKeys hcase)]

theorem case_insensitive_iff_port :
    CaseInsensitive (Env.sample []) (.map [Node.entry "port" "1"])
        (.map [Node.entry "PORT" "1"]) ↔
      ∀ k, NoMap k (.map [Node.entry "port" "1"]) →
        (spelledTexts (Env.sample []) k (.map [Node.entry "port" "1"])).dedup =
          (spelledTexts (Env.sample []) k (.map [Node.entry "PORT" "1"])).dedup :=
  case_insensitive_iff rfl rfl

/-- `job: 1` sets the variable "job", and `Job: 1` does not. -/
theorem capital_dropped :
    let env := Env.sample [(.scalar "1", "1")]
    let x : Var (Types.ofRead some) := .new "job" () ""
    let p := Process.only "job" x
    let t : Node := .map [Node.entry "job" "1"]
    let t' : Node := .map [Node.entry "Job" "1"]
    lowerKeys t = lowerKeys t' ∧ plainKeys t = true ∧
      (∃ q, loadFromYaml env (Program.silent _) t p = .ret q ∧
        (q.vars "job").map (fun x => x.var.val) = some "1") ∧
      (∃ q, loadFromYaml env (Program.silent _) t' p = .ret q ∧
        (q.vars "job").map (fun x => x.var.val) = some "") ∧
      ¬ CaseInsensitive env t t' := by
  intro env x p t t'
  have hx : p.vars "job" = some x := by
    rw [Process.vars_only, Function.update_self]
  have hmembers : members "" t = [("", t), ("job", .scalar "1")] := rfl
  have hmap : NoMap "job" t := by
    rw [NoMap, hmembers]
    intro m hm hk
    rcases List.mem_cons.mp hm with rfl | hm
    · exact absurd hk (by decide)
    · obtain rfl := List.mem_singleton.mp hm
      rfl
  -- the path "Job" is invalid, so only the root is visited
  have hvisited : visited t' = [("", t')] := rfl
  refine ⟨rfl, rfl, ?_, ?_, fun h => ?_⟩
  · obtain ⟨q, hq, hvars⟩ := configurable_of_lower (by decide) rfl rfl _ env
      (Program.silent _) p _ "1" "1" (fun _ _ _ _ p => ⟨p, rfl⟩) hx rfl
    exact ⟨q, hq, by rw [hvars]; rfl⟩
  · have hnil : ∀ k, texts env k (visited t') = [] := fun k => by
      rw [hvisited]
      rfl
    have hconv : Converts env (fun _ _ => True) (visited t') p.vars := by
      intro k x _ s hs
      rw [hnil] at hs
      exact absurd hs List.not_mem_nil
    obtain ⟨q, hq, hvars⟩ := loadFromYaml_spec _ (Program.quiet_silent _) t' hconv
    refine ⟨q, hq, ?_⟩
    rw [hvars, settled_of_nil (hnil "job"), hx]
    rfl
  · have htexts := dedup_of_caseInsensitive h (k := "job") rfl hmap
    rw [hvisited] at htexts
    exact absurd htexts (by decide)

end Sylar
