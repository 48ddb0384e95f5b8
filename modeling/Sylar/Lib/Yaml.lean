/-
Sylar/Lib/Yaml.lean

YAML documents as a C++ program sees them through yaml-cpp.

`Node` is a loaded document: a finite tree.  A subscript that finds nothing
gives an *undefined* node, which is `none` here.  The access functions follow
yaml-cpp's non-const `operator[]`:

    null, sequence   subscripting with a string finds nothing
    map              the first entry whose key is that scalar
    scalar           throws `BadSubscript`

The text side (the parser and the emitter) is third-party code and stays a
parameter, `Cpp`.  `Cpp.Faithful` is what the documentation promises of it:
loading an emitted tree restores the tree, and the empty text is a null node.

`sample rows` is a `Cpp` in which the texts of finitely many trees are given,
by `rows`, and every other tree has a text of its own; it is faithful as soon
as `rows` is unambiguous (`sample_faithful`).
-/
import Mathlib.Data.List.Nodup
import Mathlib.Data.String.Basic
import Sylar.Lib.Outcome

namespace Yaml

/-- A loaded YAML document. -/
inductive Node
  | null
  | scalar (text : String)
  | seq (items : List Node)
  | map (entries : List (Node × Node))
  deriving Repr, Inhabited

namespace Node

def isScalar : Node → Bool
  | scalar _ => true
  | _ => false

def isMap : Node → Bool
  | map _ => true
  | _ => false

/-- `Node::Scalar()`: the text of a scalar, and the empty text for every other
kind of node. -/
def scalarText : Node → String
  | scalar s => s
  | _ => ""

/-- `Node::size()`. -/
def size : Node → Nat
  | seq items => items.length
  | map entries => entries.length
  | _ => 0

/-- Does the map key `k` compare equal to the string `key`? -/
def isKey (key : String) (k : Node) : Bool :=
  match k with
  | scalar s => s = key
  | _ => false

/-- `node[key]` with a string key. -/
def sub (n : Node) (key : String) : Outcome Unit (Option Node) :=
  match n with
  | map entries => .ret ((entries.find? fun e => e.1.isKey key).map Prod.snd)
  | scalar _ => .throw ()
  | _ => .ret none

/-- A scalar key and a scalar value. -/
def entry (key value : String) : Node × Node := (scalar key, scalar value)

/-- What a fresh `YAML::Node` is after `push_back` of `items`, in order; it is never
assigned to when there are none. -/
def pushBack (items : List Node) : Option Node := if items = [] then none else some (seq items)

/-- The same for `node[key] = value` with different keys, in order. -/
def assignAll (entries : List (Node × Node)) : Option Node :=
  if entries = [] then none else some (map entries)

/-- What an iteration over the node finds in `it->first` and `it->second`.  The elements
of a sequence have neither, and `it->first.Scalar()` throws. -/
def pairs : Node → Outcome Unit (List (Node × Node))
  | map entries => .ret entries
  | seq (_ :: _) => .throw ()
  | _ => .ret []

/-- The pairs of what was assigned, an empty node being read as null. -/
@[simp] theorem pairs_assignAll (entries : List (Node × Node)) :
    ((assignAll entries).getD null).pairs = .ret entries := by
  unfold assignAll
  split_ifs with h
  · rw [h]
    rfl
  · rfl

/-! ### An injective code for trees

Prefix-free, so that a list of codes can be cut apart again. -/

/-- A string, each character escaped, with an end mark. -/
def codeText : List Char → List Char
  | [] => ['.']
  | c :: cs => '\\' :: c :: codeText cs

mutual

/-- The code of a tree. -/
def code : Node → List Char
  | null => ['~']
  | scalar s => 's' :: codeText s.toList
  | seq items => '[' :: codeItems items
  | map entries => '{' :: codeEntries entries
termination_by structural n => n

def codeItems : List Node → List Char
  | [] => [']']
  | n :: ns => ',' :: (code n ++ codeItems ns)
termination_by structural ns => ns

def codeEntries : List (Node × Node) → List Char
  | [] => ['}']
  | (k, v) :: rest => ',' :: (code k ++ (code v ++ codeEntries rest))
termination_by structural es => es

end

theorem codeText_append_inj {s t r r' : List Char}
    (h : codeText s ++ r = codeText t ++ r') : s = t ∧ r = r' := by
  induction s generalizing t with
  | nil =>
      cases t with
      | nil => exact ⟨rfl, by simpa [codeText] using h⟩
      | cons c cs => simp [codeText] at h
  | cons c cs ih =>
      cases t with
      | nil => simp [codeText] at h
      | cons d ds =>
          simp only [codeText, List.cons_append, List.cons.injEq, true_and] at h
          obtain ⟨rfl, h⟩ := h
          obtain ⟨rfl, hr⟩ := ih h
          exact ⟨rfl, hr⟩

mutual

theorem code_append_inj : ∀ (n m : Node) {r r' : List Char},
    code n ++ r = code m ++ r' → n = m ∧ r = r'
  | null, m, r, r', h => by
      cases m <;> simp_all [code]
  | scalar s, m, r, r', h => by
      cases m with
      | scalar t =>
          simp only [code, List.cons_append, List.cons.injEq, true_and] at h
          obtain ⟨hst, hr⟩ := codeText_append_inj h
          exact ⟨congrArg scalar (String.toList_inj.mp hst), hr⟩
      | null => simp [code] at h
      | seq items => simp [code] at h
      | map entries => simp [code] at h
  | seq items, m, r, r', h => by
      cases m with
      | seq items' =>
          simp only [code, List.cons_append, List.cons.injEq, true_and] at h
          obtain ⟨hi, hr⟩ := codeItems_append_inj items items' h
          exact ⟨congrArg seq hi, hr⟩
      | null => simp [code] at h
      | scalar t => simp [code] at h
      | map entries => simp [code] at h
  | map entries, m, r, r', h => by
      cases m with
      | map entries' =>
          simp only [code, List.cons_append, List.cons.injEq, true_and] at h
          obtain ⟨he, hr⟩ := codeEntries_append_inj entries entries' h
          exact ⟨congrArg map he, hr⟩
      | null => simp [code] at h
      | scalar t => simp [code] at h
      | seq items => simp [code] at h

theorem codeItems_append_inj : ∀ (ns ms : List Node) {r r' : List Char},
    codeItems ns ++ r = codeItems ms ++ r' → ns = ms ∧ r = r'
  | [], ms, r, r', h => by
      cases ms <;> simp_all [codeItems]
  | n :: ns, ms, r, r', h => by
      cases ms with
      | nil => simp [codeItems] at h
      | cons m ms =>
          simp only [codeItems, List.cons_append, List.cons.injEq, true_and,
            List.append_assoc] at h
          obtain ⟨hn, hrest⟩ := code_append_inj n m h
          obtain ⟨hns, hr⟩ := codeItems_append_inj ns ms hrest
          exact ⟨by rw [hn, hns], hr⟩

theorem codeEntries_append_inj : ∀ (es fs : List (Node × Node)) {r r' : List Char},
    codeEntries es ++ r = codeEntries fs ++ r' → es = fs ∧ r = r'
  | [], fs, r, r', h => by
      cases fs <;> simp_all [codeEntries]
  | (k, v) :: es, fs, r, r', h => by
      cases fs with
      | nil => simp [codeEntries] at h
      | cons f fs =>
          obtain ⟨k', v'⟩ := f
          simp only [codeEntries, List.cons_append, List.cons.injEq, true_and,
            List.append_assoc] at h
          obtain ⟨hk, hval⟩ := code_append_inj k k' h
          obtain ⟨hv, hrest⟩ := code_append_inj v v' hval
          obtain ⟨hes, hr⟩ := codeEntries_append_inj es fs hrest
          exact ⟨by rw [hk, hv, hes], hr⟩

end

theorem code_injective : Function.Injective code := fun n m h =>
  (code_append_inj n m (congrArg (· ++ []) h)).1

instance : DecidableEq Node := fun n m =>
  decidable_of_iff (code n = code m) code_injective.eq_iff

end Node

/-! ### The library -/

/-- What the program uses of yaml-cpp's text side. -/
structure Cpp where
  /-- `YAML::Load`; `none` when the text does not parse and it throws. -/
  load : String → Option Node
  /-- `os << node` for a node that has a value. -/
  emit : Node → String
  /-- What `as<std::string>()` makes of a null node: a text in newer releases,
  an exception (`none`) in older ones. -/
  nullText : Option String
  /-- The number a map key reads as, when it is asked for by index. -/
  asIndex : String → Option Nat

namespace Cpp

variable (Y : Cpp)

/-- `YAML::Load` as a step of the program. -/
def loadNode (text : String) : Outcome Unit Node :=
  match Y.load text with
  | some n => .ret n
  | none => .throw ()

/-- `os << node`.  An undefined node, and one that was never assigned to, print
as nothing. -/
def print : Option Node → String
  | some n => Y.emit n
  | none => ""

/-- `node.as<std::string>()`. -/
def asString : Node → Outcome Unit String
  | .scalar s => .ret s
  | .null => match Y.nullText with
      | some t => .ret t
      | none => .throw ()
  | _ => .throw ()

/-- `node[i]` with an index below `node.size()`. -/
def item (n : Node) (i : Nat) : Option Node :=
  match n with
  | .seq items => items[i]?
  | .map entries =>
      (entries.find? fun e => e.1.isScalar && Y.asIndex e.1.scalarText = some i).map Prod.snd
  | _ => none

/-- `node[0], …, node[size - 1]`, the way every indexed loop visits them. -/
def items (n : Node) : List (Option Node) := (List.range n.size).map (Y.item n)

/-- `for (auto& i : xs) node.push_back(YAML::Load(text(i)))`, as the list of what is
pushed. -/
def loadAll {α : Type} (text : α → Outcome Unit String) (xs : List α) :
    Outcome Unit (List Node) :=
  xs.foldlM (fun nodes i => do
    let t ← text i
    let n ← Y.loadNode t
    pure (nodes ++ [n])) []

/-- What the documentation of yaml-cpp promises. -/
structure Faithful : Prop where
  load_emit : ∀ n, Y.load (Y.emit n) = some n
  load_empty : Y.load "" = some .null

variable {Y}

@[simp] theorem items_seq (ns : List Node) : Y.items (.seq ns) = ns.map some := by
  apply List.ext_getElem
  · simp [items, Node.size]
  · intro i h₁ h₂
    simp only [items, Node.size, List.length_map, List.length_range] at h₁
    simp [items, item, h₁]

@[simp] theorem items_null : Y.items .null = [] := rfl

@[simp] theorem items_scalar (s : String) : Y.items (.scalar s) = [] := rfl

theorem Faithful.loadNode_emit (h : Y.Faithful) (n : Node) :
    Y.loadNode (Y.emit n) = .ret n := by
  rw [loadNode, h.load_emit]

theorem Faithful.loadNode_print (h : Y.Faithful) (n : Option Node) :
    Y.loadNode (Y.print n) = .ret (n.getD .null) := by
  cases n with
  | none => rw [loadNode, print, h.load_empty]; rfl
  | some n => exact h.loadNode_emit n

/-- The items of what was pushed back, an empty node being read as null. -/
@[simp] theorem items_pushBack (ns : List Node) :
    Y.items ((Node.pushBack ns).getD .null) = ns.map some := by
  unfold Node.pushBack
  split_ifs with h
  · rw [h]
    rfl
  · exact items_seq ns

/-- Texts that load are loaded one by one. -/
theorem loadAll_of_load {α : Type} {text : α → Outcome Unit String} (node : α → Node) {xs : List α}
    (htext : ∀ x ∈ xs, ∃ t, text x = .ret t ∧ Y.load t = some (node x)) :
    Y.loadAll text xs = .ret (xs.map node) := by
  have hstep : ∀ x ∈ xs, (text x >>= Y.loadNode) = .ret (node x) := by
    intro x hx
    obtain ⟨t, ht, hload⟩ := htext x hx
    rw [ht, Outcome.ret_bind, loadNode, hload]
  have hloop := Outcome.foldlM_push (fun nodes n => nodes ++ [n]) hstep []
  simp only [bind_assoc] at hloop
  rw [loadAll, hloop, List.foldl_append_eq_append, List.nil_append, ← List.flatMap_def,
    ← List.map_eq_flatMap, List.map_id']

/-- One text that does not load is enough. -/
theorem loadAll_throw {α : Type} {text : α → String} {xs : List α}
    (h : ∃ x ∈ xs, Y.load (text x) = none) :
    Y.loadAll (fun x => .ret (text x)) xs = .throw () := by
  refine Outcome.foldlM_push_throw (g := fun x => Y.loadNode (text x))
    (fun nodes n => nodes ++ [n]) (fun x _ => ?_) ?_ []
  · rw [loadNode]
    cases Y.load (text x) with
    | none => exact Or.inr rfl
    | some n => exact Or.inl ⟨n, rfl⟩
  · obtain ⟨x, hx, hnone⟩ := h
    exact ⟨x, hx, by rw [loadNode, hnone]⟩

/-- Trees that are printed one by one are loaded back one by one. -/
theorem Faithful.loadAll_eq {α : Type} (h : Y.Faithful) {text : α → Outcome Unit String}
    (node : α → Node) {xs : List α} (htext : ∀ x ∈ xs, text x = .ret (Y.print (some (node x)))) :
    Y.loadAll text xs = .ret (xs.map node) :=
  loadAll_of_load node fun x hx => ⟨_, htext x hx, h.load_emit (node x)⟩

theorem loadNode_survives (text : String) : (Y.loadNode text).Survives := by
  rw [loadNode]
  cases Y.load text <;> simp

theorem asString_survives (n : Node) : (Y.asString n).Survives := by
  cases n with
  | null => rw [asString]; cases Y.nullText <;> simp
  | scalar s => simp [asString]
  | seq items => simp [asString]
  | map entries => simp [asString]

end Cpp

/-! ### A concrete instance -/

/-- The text of a tree that has none of its own: a `%` and its code. -/
def otherText (n : Node) : String := String.ofList ('%' :: n.code)

theorem otherText_injective : Function.Injective otherText := fun n m h => by
  have hlist := congrArg String.toList h
  simp only [otherText, String.toList_ofList, List.cons.injEq, true_and] at hlist
  exact Node.code_injective hlist

open Classical in
/-- A yaml-cpp whose texts for the trees of `rows` are the given ones. -/
noncomputable def sample (rows : List (Node × String)) : Cpp where
  load t :=
    if t = "" then some .null
    else match rows.find? fun r => r.2 = t with
      | some r => some r.1
      | none => if h : ∃ n, otherText n = t then some h.choose else none
  emit n := ((rows.find? fun r => r.1 = n).map Prod.snd).getD (otherText n)
  nullText := some "null"
  asIndex := String.toNat?

theorem sample_emit {rows : List (Node × String)} {n : Node} {r : Node × String}
    (h : rows.find? (fun r => r.1 = n) = some r) : (sample rows).emit n = r.2 := by
  simp [sample, h]

/-- No text stands for two trees, and none is empty or looks like `otherText`. -/
structure Unambiguous (rows : List (Node × String)) : Prop where
  nodup : (rows.map Prod.snd).Nodup
  plain : ∀ r ∈ rows, r.2 ≠ "" ∧ r.2.toList.head? ≠ some '%'

theorem unambiguous_nil : Unambiguous [] := ⟨List.nodup_nil, fun _ h => absurd h List.not_mem_nil⟩

theorem sample_faithful {rows : List (Node × String)} (h : Unambiguous rows) :
    (sample rows).Faithful where
  load_empty := by simp [sample]
  load_emit := by
    intro n
    rcases hn : rows.find? (fun r => r.1 = n) with - | r
    · have hemit : (sample rows).emit n = otherText n := by simp [sample, hn]
      have hne : otherText n ≠ "" := fun e => by
        have := congrArg String.toList e
        simp [otherText] at this
      have hrow : rows.find? (fun r => r.2 = otherText n) = none := by
        rw [List.find?_eq_none]
        intro r hr e
        apply (h.plain r hr).2
        rw [of_decide_eq_true e]
        simp [otherText]
      have hex : ∃ m, otherText m = otherText n := ⟨n, rfl⟩
      rw [hemit]
      simp only [sample, hne, hrow, dif_pos hex, if_false]
      exact congrArg some (otherText_injective hex.choose_spec)
    · have hmem : r ∈ rows := List.mem_of_find?_eq_some hn
      have hfst : r.1 = n := by simpa using List.find?_some hn
      have hrow : rows.find? (fun r' => r'.2 = r.2) = some r := by
        rcases hf : rows.find? (fun r' => r'.2 = r.2) with - | r'
        · rw [List.find?_eq_none] at hf
          exact absurd (decide_eq_true rfl) (hf r hmem)
        · have hmem' : r' ∈ rows := List.mem_of_find?_eq_some hf
          have hsnd : r'.2 = r.2 := by simpa using List.find?_some hf
          exact hf.trans (congrArg some (List.inj_on_of_nodup_map h.nodup hmem' hmem hsnd))
      rw [sample_emit hn]
      simp only [sample, (h.plain r hmem).1, hrow, if_false, hfst]

end Yaml
