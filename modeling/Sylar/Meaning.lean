/-
Sylar/Meaning.lean

What loading a document means, in terms of the document alone.

A place is a list of keys and the node they lead to; `places` lists them in
document order, and `Denotes k` says which of them speak of the variable under
the key `k`.  A load leaves each variable with what the last place that denotes
it, and whose text converts, asks for (`loadFromYaml_meaning`).

The second question is what a second load of the same document does.  It
changes no value in the end, but it may take a variable through the values it
has been through before: a load calls no listener exactly when every text of a
variable with listeners converts to the value the variable has (`silent_iff`),
and after a first load that means that all of them convert to the same value
(`reload_silent_iff`).
-/
import Sylar.Config

namespace Sylar

open Yaml Config

variable {U : Types} {env : Env} {P : Program U} {p p' : Process U} {k : String}

namespace Config

/-! ### Places -/

mutual

/-- The nodes that are no part of a sequence, each with the keys that lead to it, in
document order. -/
def places (keys : List String) (node : Node) : List (List String × Node) :=
  match node with
  | .map entries => (keys, .map entries) :: entryPlaces keys entries
  | node => [(keys, node)]
termination_by structural node

def entryPlaces (keys : List String) (entries : List (Node × Node)) :
    List (List String × Node) :=
  match entries with
  | [] => []
  | (key, node) :: rest => places (keys ++ [key.scalarText]) node ++ entryPlaces keys rest
termination_by structural entries

end

/-- The keys joined by dots; an empty beginning adds no dot. -/
def dotted (keys : List String) : String := keys.foldl joinPath ""

/-- The place `m` speaks of the variable under the key `k`: its path is `k` up to case,
and consists of accepted characters as far as one follows it. -/
structure Denotes (k : String) (m : List String × Node) : Prop where
  path : tolower (dotted m.1) = k
  accepted : ∀ keys, keys <+: m.1 → validName (dotted keys) = true

theorem dotted_concat (keys : List String) (key : String) :
    dotted (keys ++ [key]) = joinPath (dotted keys) key := by
  rw [dotted, List.foldl_append]
  rfl

mutual

theorem members_eq_places (node : Node) (keys : List String) :
    members (dotted keys) node = (places keys node).map fun m => (dotted m.1, m.2) := by
  cases node with
  | map entries =>
      rw [members, places, List.map_cons, entryMembers_eq_places entries keys]
  | null => rfl
  | scalar s => rfl
  | seq items => rfl
termination_by structural node

theorem entryMembers_eq_places (entries : List (Node × Node)) (keys : List String) :
    entryMembers (dotted keys) entries =
      (entryPlaces keys entries).map fun m => (dotted m.1, m.2) := by
  match entries with
  | [] => rfl
  | (key, node) :: rest =>
      rw [entryMembers, entryPlaces, List.map_append, ← dotted_concat,
        members_eq_places node, entryMembers_eq_places rest]
termination_by structural entries

end

/-- A valid path has only valid beginnings. -/
theorem validName_dotted {keys keys' : List String} (h : validName (dotted (keys ++ keys')) = true) :
    validName (dotted keys) = true := by
  induction keys' using List.reverseRecOn with
  | nil => rwa [List.append_nil] at h
  | append_singleton keys' key ih =>
      apply ih
      rw [← List.append_assoc, dotted_concat] at h
      by_contra hinvalid
      rw [validName_joinPath (Bool.eq_false_iff.mpr hinvalid)] at h
      cases h

theorem denotes_iff {m : List String × Node} :
    Denotes k m ↔ tolower (dotted m.1) = k ∧ validName (dotted m.1) = true := by
  constructor
  · intro h
    exact ⟨h.path, h.accepted m.1 (List.prefix_refl _)⟩
  · rintro ⟨hpath, hvalid⟩
    refine ⟨hpath, ?_⟩
    rintro keys ⟨keys', hkeys⟩
    rw [← hkeys] at hvalid
    exact validName_dotted hvalid

instance (k : String) (m : List String × Node) : Decidable (Denotes k m) :=
  decidable_of_iff _ denotes_iff.symm

/-- **The texts for a key are those of the places that denote it**, in order. -/
theorem texts_visited_eq (hk : k ≠ "") (root : Node) :
    texts env k (visited root) =
      ((places [] root).filter fun m => Denotes k m).map fun m => nodeText env m.2 := by
  have hmembers : members "" root = (places [] root).map fun m => (dotted m.1, m.2) :=
    members_eq_places root []
  rw [texts, visited, hmembers, List.filter_filter, List.filter_map, List.map_map]
  have hfilter : (places [] root).filter ((fun m : String × Node =>
      decide (m.1 ≠ "" ∧ tolower m.1 = k) && validName m.1) ∘ fun m => (dotted m.1, m.2)) =
      (places [] root).filter fun m => Denotes k m := by
    apply List.filter_congr
    intro m _
    rw [Bool.eq_iff_iff, Function.comp_apply, Bool.and_eq_true, decide_eq_true_eq,
      decide_eq_true_eq, denotes_iff]
    constructor
    · rintro ⟨⟨_, hpath⟩, hvalid⟩
      exact ⟨hpath, hvalid⟩
    · rintro ⟨hpath, hvalid⟩
      refine ⟨⟨fun hempty => hk ?_, hpath⟩, hvalid⟩
      rw [← hpath, show dotted m.1 = "" from hempty]
      rfl
  rw [hfilter]
  rfl

/-- A text for a key is that of a place that denotes it; there is none for the empty
key. -/
theorem mem_texts_visited {root : Node} {s : String} :
    s ∈ texts env k (visited root) ↔
      k ≠ "" ∧ ∃ m ∈ places [] root, Denotes k m ∧ nodeText env m.2 = s := by
  by_cases hk : k = ""
  · subst hk
    constructor
    · intro hs
      obtain ⟨m, hm, rfl⟩ := List.mem_map.mp hs
      obtain ⟨hne, hlower⟩ := of_decide_eq_true (List.mem_filter.mp hm).2
      exact absurd (tolower_eq_empty.mp hlower) hne
    · rintro ⟨hne, _⟩
      exact absurd rfl hne
  · rw [texts_visited_eq hk]
    simp [hk, and_assoc]

end Config

/-! ### What a load leaves -/

/-- Conversions of the registered variables return or throw. -/
def Process.Converting (p : Process U) : Prop :=
  ∀ k x, p.vars k = some x → ∀ s, (U.fromStr x.code s).Survives

/-- **The meaning of a document.**  If conversions return or throw and listeners are
quiet, a load returns, and every variable with a non-empty key holds the conversion of the
last place that denotes it and converts, whatever the other places do; without such a
place it keeps its value.  No variable is registered by a load. -/
theorem loadFromYaml_meaning (env : Env) (hP : P.Quiet) (hp : p.Converting) (root : Node) :
    ∃ p', loadFromYaml env P root p = .ret p' ∧
      ∀ k, k ≠ "" →
        (p.vars k = none → p'.vars k = none) ∧
        ∀ x, p.vars k = some x →
          (∀ before m after v, places [] root = before ++ m :: after → Denotes k m →
            U.fromStr x.code (nodeText env m.2) = .ret v →
            (∀ m' ∈ after, Denotes k m' →
              (U.fromStr x.code (nodeText env m'.2)).value? = none) →
            p'.vars k = some (x.assign v)) ∧
          ((∀ m ∈ places [] root, Denotes k m →
            (U.fromStr x.code (nodeText env m.2)).value? = none) → p'.vars k = some x) := by
  obtain ⟨p', hload, hvars⟩ := loadFromYaml_spec env hP root
    fun k x hx s _ => ⟨hp k x hx s, fun _ _ => trivial⟩
  refine ⟨p', hload, fun k hk => ⟨fun hx => ?_, fun x hx => ⟨?_, ?_⟩⟩⟩
  · rw [hvars, settled, hx]
    rfl
  · intro before m after v hplaces hm hv hafter
    have hcons : (m :: after).filter (fun m => Denotes k m) =
        m :: after.filter fun m => Denotes k m := List.filter_cons_of_pos (decide_eq_true hm)
    have htexts : texts env k (visited root) =
        ((before.filter fun m => Denotes k m).map fun m => nodeText env m.2) ++
          nodeText env m.2 :: (after.filter fun m => Denotes k m).map fun m => nodeText env m.2 := by
      rw [texts_visited_eq hk, hplaces, List.filter_append, hcons, List.map_append,
        List.map_cons]
    rw [hvars, settled, hx, htexts]
    refine congrArg some (Var.settle_last hv fun s hs => ?_)
    obtain ⟨m', hm', rfl⟩ := List.mem_map.mp hs
    obtain ⟨hm', hden⟩ := List.mem_filter.mp hm'
    exact hafter m' hm' (of_decide_eq_true hden)
  · intro hnone
    rw [hvars, settled, hx, texts_visited_eq hk]
    refine congrArg some (Var.settle_of_none fun s hs => ?_)
    obtain ⟨m, hm, rfl⟩ := List.mem_map.mp hs
    obtain ⟨hm, hden⟩ := List.mem_filter.mp hm
    exact hnone m hm (of_decide_eq_true hden)

/-- A dotted and a nested spelling of one key, in this order: the nested one counts, and
an invalid key between them does not matter. -/
theorem loadFromYaml_meaning_nested :
    let U := Types.ofRead some
    let root : Node := .map [Node.entry "system.Port" "1", Node.entry "system port" "3",
      (.scalar "System", .map [Node.entry "port" "2"])]
    let p : Process U := .only "system.port" (.new "system.port" () "")
    ∃ p', loadFromYaml (Env.sample []) (Program.silent U) root p = .ret p' ∧
      (p'.vars "system.port").map (fun x => x.var.val) = some "2" := by
  intro U root p
  have hp : p.Converting := fun _ _ _ _ => trivial
  obtain ⟨p', hload, hmeaning⟩ :=
    loadFromYaml_meaning (Env.sample []) (Program.quiet_silent U) hp root
  refine ⟨p', hload, ?_⟩
  have hx : p.vars "system.port" = some (.new "system.port" () "") := by
    rw [Process.vars_only, Function.update_self]
  have hlast := ((hmeaning "system.port" (by decide)).2 _ hx).1 (places [] root).dropLast
    (["System", "port"], .scalar "2") [] "2" rfl (denotes_iff.mpr ⟨by decide, by decide⟩) rfl
    (fun _ hm => absurd hm List.not_mem_nil)
  rw [hlast]
  rfl

/-! ### Loads that call no listener -/

/-- Calling a listener is fatal. -/
def Program.trap (U : Types) : Program U := ⟨fun _ _ _ _ _ => .crash⟩

namespace Config

/-- A load calls no listener: it returns even if calling one is fatal. -/
def Silent (env : Env) (root : Node) (p : Process U) : Prop :=
  ∃ q, loadFromYaml env (Program.trap U) root p = .ret q

/-- Every text of a variable with listeners converts, if it does, to the value the
variable has. -/
def Unchanging (env : Env) (ms : List (String × Node)) (vars : String → Option (Var U)) : Prop :=
  ∀ k x, vars k = some x → x.var.callbacks.toList ≠ [] →
    ∀ s ∈ texts env k ms, ∀ v, U.fromStr x.code s = .ret v → v = x.var.val

variable {x : Var U}

/-- With the trap, an update goes through if nobody has to be told. -/
theorem setValue_trap (hx : p.vars k = some x) {val : U.Val x.code}
    (h : x.var.callbacks.toList ≠ [] → val = x.var.val) :
    ∃ p', setValue (Program.trap U) k x val p = .ret p' ∧
      p'.vars = Function.update p.vars k (some (x.assign val)) := by
  unfold setValue
  split_ifs with hval
  · refine ⟨p, rfl, ?_⟩
    subst hval
    exact (Function.update_eq_self_iff.mpr hx.symm).symm
  · have hnil : x.var.callbacks.toList = [] := by
      by_contra hne
      exact hval (h hne)
    rw [hnil]
    exact ⟨_, rfl, SortedMap.get?_set p.data k (x.assign val)⟩

theorem setValue_trap_eq_crash {val : U.Val x.code} (hval : val ≠ x.var.val)
    (hne : x.var.callbacks.toList ≠ []) : setValue (Program.trap U) k x val p = .crash := by
  unfold setValue
  rw [if_neg hval]
  obtain ⟨f, fs, hfs⟩ := List.exists_cons_of_ne_nil hne
  rw [hfs, List.foldlM_cons]
  rfl

/-- With the trap, one conversion goes through if nobody has to be told. -/
theorem fromString_trap (env : Env) (hx : p.vars k = some x) {s : String}
    (hs : (U.fromStr x.code s).Survives)
    (h : x.var.callbacks.toList ≠ [] → ∀ v, U.fromStr x.code s = .ret v → v = x.var.val) :
    ∃ r, fromString env (Program.trap U) k x s p = .ret r ∧
      r.1.vars = Function.update p.vars k (some (x.settle [s])) := by
  unfold fromString
  cases hconv : U.fromStr x.code s with
  | ret v =>
      obtain ⟨q, hq, hvars⟩ := setValue_trap hx fun hne => h hne v hconv
      refine ⟨(q, true), ?_, by rw [hvars, Var.settle_of_ret hconv]⟩
      simp only [Outcome.mapThrow, Outcome.ret_bind, hq, Outcome.pure_eq, Outcome.rescue]
  | throw e =>
      refine ⟨_, rfl, ?_⟩
      rw [Var.settle_of_none (by simp [hconv])]
      exact (Function.update_eq_self_iff.mpr hx.symm).symm
  | exit n => rw [hconv] at hs; exact hs.elim
  | crash => rw [hconv] at hs; exact hs.elim

/-- With the trap, an update is fatal, or nobody had to be told. -/
theorem setValue_trap_cases (val : U.Val x.code) :
    setValue (Program.trap U) k x val p = .crash ∨
      ∀ P, setValue P k x val p = setValue (Program.trap U) k x val p := by
  by_cases hval : val = x.var.val
  · right
    intro P
    rw [setValue, setValue, if_pos hval, if_pos hval]
  · by_cases hnil : x.var.callbacks.toList = []
    · right
      intro P
      rw [setValue, setValue, hnil]
      rfl
    · left
      exact setValue_trap_eq_crash hval hnil

/-- What went through with the trap goes through with any listeners. -/
theorem fromString_of_trap {s : String} {r : Process U × Bool}
    (h : fromString env (Program.trap U) k x s p = .ret r) (P : Program U) :
    fromString env P k x s p = .ret r := by
  rw [← h]
  unfold fromString at h ⊢
  cases hconv : U.fromStr x.code s with
  | ret v =>
      rcases setValue_trap_cases (k := k) (x := x) (p := p) v with hcrash | hany
      · simp only [hconv, Outcome.mapThrow, Outcome.ret_bind, hcrash, Outcome.crash_bind,
          Outcome.rescue] at h
        cases h
      · simp only [Outcome.mapThrow, Outcome.ret_bind, hany P]
  | throw e => rfl
  | exit n => rfl
  | crash => rfl

theorem loadMember_of_trap {i : String × Node}
    (h : loadMember env (Program.trap U) p i = .ret p') (P : Program U) :
    loadMember env P p i = .ret p' := by
  unfold loadMember at h ⊢
  split_ifs at h ⊢ with hi
  · exact h
  · cases hx : lookupBase (tolower i.1) p with
    | none =>
        rw [hx] at h
        exact h
    | some x =>
        simp only [hx] at h
        obtain ⟨r, hr, hret⟩ := Outcome.bind_eq_ret.mp h
        exact Outcome.bind_eq_ret.mpr ⟨r, fromString_of_trap hr P, hret⟩

theorem Unchanging.append_iff {ms ms' : List (String × Node)} {vars : String → Option (Var U)} :
    Unchanging env (ms ++ ms') vars ↔ Unchanging env ms vars ∧ Unchanging env ms' vars := by
  unfold Unchanging
  constructor
  · intro h
    refine ⟨fun k x hx hne s hs => h k x hx hne s ?_, fun k x hx hne s hs => h k x hx hne s ?_⟩
    · rw [texts_append]
      exact List.mem_append_left _ hs
    · rw [texts_append]
      exact List.mem_append_right _ hs
  · rintro ⟨h, h'⟩ k x hx hne s hs
    rw [texts_append] at hs
    rcases List.mem_append.mp hs with hs | hs
    · exact h k x hx hne s hs
    · exact h' k x hx hne s hs

/-- Members that change nobody's value leave the variables with listeners alone. -/
theorem Unchanging.iff_settled {ms ms' : List (String × Node)} {vars : String → Option (Var U)}
    (h : Unchanging env ms vars) :
    Unchanging env ms' (settled env ms vars) ↔ Unchanging env ms' vars := by
  have hsettle : ∀ k x, vars k = some x → x.var.callbacks.toList ≠ [] →
      x.settle (texts env k ms) = x := by
    intro k x hx hne
    refine congrArg x.assign (Overwrite.settle_of_forall fun s hs => ?_)
    cases hconv : U.fromStr x.code s with
    | ret v => exact h k x hx hne s hs v hconv
    | throw e => rfl
    | exit n => rfl
    | crash => rfl
  constructor
  · intro h' k x hx hne
    refine h' k x ?_ hne
    rw [settled, hx, Option.map_some, hsettle k x hx hne]
  · intro h' k y hy hne
    obtain ⟨x, hx, rfl⟩ := Option.map_eq_some_iff.mp hy
    have hx' : x.settle (texts env k ms) = x := hsettle k x hx hne
    rw [hx']
    exact h' k x hx hne

/-- One member with the trap. -/
theorem loadMember_trap (hp : p.Converting) {i : String × Node}
    (h : Unchanging env [i] p.vars) :
    ∃ p', loadMember env (Program.trap U) p i = .ret p' ∧ p'.vars = settled env [i] p.vars := by
  apply loadMember_of_fromString
  intro x hi hx
  exact fromString_trap env hx (hp _ x hx _) fun hne =>
    h _ x hx hne _ (nodeText_mem_texts hi)

theorem unchanging_of_loadMember {i : String × Node}
    (h : loadMember env (Program.trap U) p i = .ret p') : Unchanging env [i] p.vars := by
  intro k x hx hne s hs v hv
  obtain ⟨m, hm, rfl⟩ := List.mem_map.mp hs
  obtain ⟨hm, hpath⟩ := List.mem_filter.mp hm
  obtain rfl := List.mem_singleton.mp hm
  obtain ⟨hkey, rfl⟩ := of_decide_eq_true hpath
  have hlookup : lookupBase (tolower m.1) p = some x := hx
  rw [loadMember, if_neg hkey, hlookup] at h
  -- a value that differs would have met the trap
  by_contra hval
  have hcrash := setValue_trap_eq_crash (k := tolower m.1) (p := p) hval hne
  simp only [fromString, hv, Outcome.mapThrow, Outcome.ret_bind, hcrash, Outcome.crash_bind,
    Outcome.rescue] at h
  cases h

theorem converting_settled (hp : p.Converting) {ms : List (String × Node)}
    (h : p'.vars = settled env ms p.vars) : p'.Converting := by
  intro k y hy s
  rw [h] at hy
  obtain ⟨x, hx, rfl⟩ := Option.map_eq_some_iff.mp hy
  exact hp k x hx s

/-- **A load is silent exactly when no text of a variable with listeners converts to
another value than the variable has.** -/
theorem silent_iff (hp : p.Converting) (root : Node) :
    Silent env root p ↔ Unchanging env (visited root) p.vars := by
  unfold Silent loadFromYaml
  dsimp only
  rw [listAllMember_visited]
  constructor
  · rintro ⟨q, hq⟩
    -- what has been visited was unchanging, so the variables are known
    refine (Outcome.foldlM_induction (P := fun done (q : Process U) =>
      Unchanging env done p.vars ∧ q.vars = settled env done p.vars)
      (s := { p with log := (listAllMember env "" root (p.log, [])).1 })
      ⟨fun k x _ _ s hs => absurd hs List.not_mem_nil, (settled_nil p.vars).symm⟩ ?_ hq).1
    rintro done i rest t t' - ⟨hdone, ht⟩ hstep
    have hi := unchanging_of_loadMember hstep
    obtain ⟨t'', ht'', hvars⟩ := loadMember_trap (converting_settled hp ht) hi
    obtain rfl := Outcome.ret.inj (hstep.symm.trans ht'')
    rw [ht] at hi
    exact ⟨Unchanging.append_iff.mpr ⟨hdone, hdone.iff_settled.mp hi⟩,
      by rw [hvars, ht, settled_append]⟩
  · intro h
    have htotal := Outcome.foldlM_total (f := loadMember env (Program.trap U))
      (P := fun done (q : Process U) => q.vars = settled env done p.vars)
      (l := visited root) (s := { p with log := (listAllMember env "" root (p.log, [])).1 })
      (settled_nil p.vars).symm ?_
    · obtain ⟨q, hq, -⟩ := htotal
      exact ⟨q, hq⟩
    · intro done i rest t hl ht
      rw [hl, Unchanging.append_iff, ← List.singleton_append, Unchanging.append_iff] at h
      have hi : Unchanging env [i] t.vars := ht ▸ h.1.iff_settled.mpr h.2.1
      obtain ⟨t', ht', hvars⟩ := loadMember_trap (converting_settled hp ht) hi
      exact ⟨t', ht', by rw [hvars, ht, settled_append]⟩

/-- What a silent load does does not depend on the listeners. -/
theorem loadFromYaml_of_silent {q : Process U} {root : Node}
    (h : loadFromYaml env (Program.trap U) root p = .ret q) (P : Program U) :
    loadFromYaml env P root p = .ret q := by
  unfold loadFromYaml at h ⊢
  dsimp only at h ⊢
  generalize hs : ({ p with log := (listAllMember env "" root (p.log, [])).1 } : Process U) = s at h ⊢
  clear hs
  generalize (listAllMember env "" root (p.log, [])).2 = ms at h ⊢
  induction ms generalizing s with
  | nil => exact h
  | cons i ms ih =>
      rw [List.foldlM_cons, Outcome.bind_eq_ret] at h
      obtain ⟨t, ht, h⟩ := h
      rw [List.foldlM_cons, loadMember_of_trap ht P]
      exact ih t h

/-! ### Loading the same document again -/

theorem settled_idem (ms : List (String × Node)) (vars : String → Option (Var U)) :
    settled env ms (settled env ms vars) = settled env ms vars := by
  funext k
  rw [settled, settled, Option.map_map]
  exact congrArg (Option.map · (vars k)) (funext fun x => congrArg x.assign Overwrite.settle_idem)

/-- After a load, the same document changes nothing exactly when it says one thing of
each variable with listeners. -/
theorem unchanging_settled_iff {ms : List (String × Node)} {vars : String → Option (Var U)} :
    Unchanging env ms (settled env ms vars) ↔
      ∀ k x, vars k = some x → x.var.callbacks.toList ≠ [] →
        ∀ s ∈ texts env k ms, ∀ s' ∈ texts env k ms, ∀ v v', U.fromStr x.code s = .ret v →
          U.fromStr x.code s' = .ret v' → v = v' := by
  constructor
  · intro h k x hx hne s hs s' hs' v v' hv hv'
    have hk : settled env ms vars k = some (x.settle (texts env k ms)) := by rw [settled, hx]; rfl
    exact (h k _ hk hne s hs v hv).trans (h k _ hk hne s' hs' v' hv').symm
  · intro h k y hy hne s hs v hv
    obtain ⟨x, hx, rfl⟩ := Option.map_eq_some_iff.mp hy
    -- the value is what one of the texts converts to
    have hsome : (U.fromStr x.code s).value? = some v := congrArg Outcome.value? hv
    obtain ⟨s', hs', hread⟩ := Overwrite.exists_read_settle
      (fun s => (U.fromStr x.code s).value?) (b := x.var.val) hs hsome
    exact h k x hx hne s hs s' hs' v _ hv (Outcome.value?_eq_some.mp hread)

end Config

/-- **Loading a document twice.**  The second load returns and leaves every variable with
the value it has.  It calls no listener exactly when, for each variable with listeners,
all the places that denote it and convert ask for the same value. -/
theorem reload_silent_iff (env : Env) (hP : P.Quiet) (hp : p.Converting) {root : Node}
    (h : loadFromYaml env P root p = .ret p') :
    (∃ p'', loadFromYaml env P root p' = .ret p'' ∧ p''.vars = p'.vars) ∧
      (Silent env root p' ↔
        ∀ k x, k ≠ "" → p.vars k = some x → x.var.callbacks.toList ≠ [] →
          ∀ m ∈ places [] root, ∀ m' ∈ places [] root, Denotes k m → Denotes k m' →
            ∀ v v', U.fromStr x.code (nodeText env m.2) = .ret v →
              U.fromStr x.code (nodeText env m'.2) = .ret v' → v = v') := by
  have hconverts : ∀ {q : Process U}, q.Converting →
      Converts env (fun _ _ => True) (visited root) q.vars :=
    fun hq k x hx s _ => ⟨hq k x hx s, fun _ _ => trivial⟩
  obtain ⟨q, hq, hvars⟩ := loadFromYaml_spec env hP root (hconverts hp)
  obtain rfl := Outcome.ret.inj (h.symm.trans hq)
  have hp' : p'.Converting := converting_settled hp hvars
  refine ⟨?_, ?_⟩
  · obtain ⟨p'', hp'', hvars'⟩ := loadFromYaml_spec env hP root (hconverts hp')
    refine ⟨p'', hp'', ?_⟩
    rw [hvars', hvars, settled_idem]
  · rw [silent_iff hp' root, hvars, unchanging_settled_iff]
    constructor
    · intro hsame k x hk hx hne m hm m' hm' hden hden'
      refine hsame k x hx hne _ (mem_texts_visited.mpr ⟨hk, m, hm, hden, rfl⟩) _
        (mem_texts_visited.mpr ⟨hk, m', hm', hden', rfl⟩)
    · intro hsame k x hx hne s hs s' hs'
      obtain ⟨hk, m, hm, hden, rfl⟩ := mem_texts_visited.mp hs
      obtain ⟨-, m', hm', hden', rfl⟩ := mem_texts_visited.mp hs'
      exact hsame k x hk hx hne m hm m' hm' hden hden'

/-- A variable `a` with one listener. -/
def Process.watched : Process (Types.ofRead some) :=
  .only "a" ⟨(), "a", ⟨"", SortedMap.set SortedBy.empty 1 0⟩⟩

/-- Two spellings of `a`, with one value. -/
theorem reload_silent_iff_same :
    let root : Node := .map [Node.entry "a" "1", Node.entry "A" "1"]
    let P := Program.silent (Types.ofRead some)
    ∃ p', loadFromYaml (Env.sample []) P root Process.watched = .ret p' ∧
      (∃ p'', loadFromYaml (Env.sample []) P root p' = .ret p'' ∧ p''.vars = p'.vars) ∧
      Silent (Env.sample []) root p' := by
  intro root P
  have hp : Process.watched.Converting := fun _ _ _ _ => trivial
  have hload : ∃ p', loadFromYaml (Env.sample []) P root Process.watched = .ret p' :=
    ⟨_, rfl⟩
  obtain ⟨p', hload⟩ := hload
  obtain ⟨hagain, hsilent⟩ := reload_silent_iff (Env.sample []) (Program.quiet_silent _) hp hload
  refine ⟨p', hload, hagain, hsilent.mpr ?_⟩
  intro k x hk hx _ m hm m' hm' hden hden' v v' hv hv'
  have hval : ∀ n ∈ places [] root, Denotes k n → nodeText (Env.sample []) n.2 = "1" := by
    intro n hn hden
    rcases List.mem_cons.mp hn with rfl | hn
    · -- the whole document denotes no variable
      exact absurd hden.path.symm hk
    · rcases List.mem_pair.mp hn with rfl | rfl <;> rfl
  rw [hval m hm hden] at hv
  rw [hval m' hm' hden'] at hv'
  exact Outcome.ret.inj (hv.symm.trans hv')

/-- Two spellings of `a`, with two values: a second load of the document takes the
variable through both again, and tells the listener each time. -/
theorem reload_tells :
    let root : Node := .map [Node.entry "a" "1", Node.entry "A" "2"]
    let P := Program.silent (Types.ofRead some)
    P.Quiet ∧ Process.watched.Converting ∧
      ∃ p', loadFromYaml (Env.sample []) P root Process.watched = .ret p' ∧
        ¬ Silent (Env.sample []) root p' := by
  intro root P
  have hp : Process.watched.Converting := fun _ _ _ _ => trivial
  refine ⟨Program.quiet_silent _, hp, _, rfl, ?_⟩
  intro hsilent
  have hp' : ∀ q : Process (Types.ofRead some), q.Converting := fun _ _ _ _ _ => trivial
  have hsame := (silent_iff (hp' _) root).mp hsilent "a"
    ⟨(), "a", ⟨"2", SortedMap.set SortedBy.empty 1 0⟩⟩ rfl (by decide) "1"
    (mem_texts_visited.mpr ⟨by decide, (["a"], .scalar "1"), by decide, by decide, rfl⟩) "1" rfl
  exact absurd hsame (by decide)

end Sylar
