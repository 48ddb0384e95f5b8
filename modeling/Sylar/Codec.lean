/-
Sylar/Codec.lean

Conversions of configuration values to text and back (config.hpp).

A container is printed as a sequence or a map of what the texts of its elements
load as, and read by converting the text of every node in it.  So an element is
not read from the text it was written as, but from that text loaded and emitted
again, and this is the law a codec has to satisfy (`Codec.Lawful`).  Every
container of a lawful codec is lawful, whatever the nesting, and its own text
reads back at once (`nested_roundtrip`).

Strings are not lawful: as YAML, a text may mean something else, or nothing.  A
container of strings comes back as it was exactly when every string in it is the
text of the node it loads as (`strings_roundtrip_iff`).
-/
import Sylar.Definition
import Sylar.Lib.Unordered
import Sylar.Lib.Yaml
import Sylar.Listener

namespace Sylar

open Yaml

variable {α β γ σ κ : Type}

/-! ### Codecs -/

/-- What `ConfigVar<T>` knows of `T`. -/
structure Codec (α : Type) where
  /-- `operator==`. -/
  beq : α → α → Bool
  equiv : Equivalence fun x y => beq x y = true
  /-- `LexicalCast<T, std::string>`; it throws a `std::exception`. -/
  enc : α → Outcome Unit String
  /-- `LexicalCast<std::string, T>`. -/
  dec : String → Outcome Unit α

theorem equivalence_decide_eq [DecidableEq α] :
    Equivalence fun x y : α => decide (x = y) = true where
  refl _ := decide_eq_true rfl
  symm h := decide_eq_true (of_decide_eq_true h).symm
  trans h h' := decide_eq_true ((of_decide_eq_true h).trans (of_decide_eq_true h'))

theorem Codec.beq_comm (c : Codec α) (x y : α) : c.beq x y = c.beq y x :=
  Bool.eq_iff_iff.mpr ⟨fun h => c.equiv.symm h, fun h => c.equiv.symm h⟩

/-- `operator==` of containers that are compared element by element. -/
def eqSeq (eq : α → α → Bool) (xs ys : List α) : Bool := List.Forall₂ (fun x y => eq x y = true) xs ys

theorem equivalence_eqSeq {eq : α → α → Bool} (heq : Equivalence fun x y => eq x y = true) :
    Equivalence fun xs ys => eqSeq eq xs ys = true where
  refl xs := decide_eq_true (List.forall₂_same.mpr fun x _ => heq.refl x)
  symm h := decide_eq_true ((List.Forall₂.imp (fun _ _ h => heq.symm h) (of_decide_eq_true h)).flip)
  trans {xs ys zs} h h' := by
    apply decide_eq_true
    replace h := of_decide_eq_true h
    replace h' := of_decide_eq_true h'
    induction h generalizing zs with
    | nil => exact h'
    | cons hxy _ ih =>
        obtain ⟨z, zs, hyz, hrest, rfl⟩ := List.forall₂_cons_left_iff.mp h'
        exact .cons (heq.trans hxy hyz) (ih hrest)

/-- Elements replaced by equal ones. -/
theorem eqSeq_map {eq : α → α → Bool} {f : α → α} (hf : ∀ x, eq (f x) x = true) (xs : List α) :
    eqSeq eq (xs.map f) xs = true :=
  decide_eq_true (List.forall₂_map_left_iff.mpr (List.forall₂_same.mpr fun x _ => hf x))

/-- `operator==` of the pairs of a map. -/
def eqEntry (eq : α → α → Bool) (a b : String × α) : Bool := a.1 = b.1 && eq a.2 b.2

theorem equivalence_eqEntry {eq : α → α → Bool} (heq : Equivalence fun x y => eq x y = true) :
    Equivalence fun a b : String × α => eqEntry eq a b = true := by
  have hiff : ∀ a b : String × α, eqEntry eq a b = true ↔ a.1 = b.1 ∧ eq a.2 b.2 = true := by
    intro a b
    rw [eqEntry, Bool.and_eq_true, decide_eq_true_eq]
  refine ⟨fun a => ?_, fun {a b} h => ?_, fun {a b c} h h' => ?_⟩
  · exact (hiff a a).mpr ⟨rfl, heq.refl a.2⟩
  · obtain ⟨hkey, hval⟩ := (hiff a b).mp h
    exact (hiff b a).mpr ⟨hkey.symm, heq.symm hval⟩
  · obtain ⟨hkey, hval⟩ := (hiff a b).mp h
    obtain ⟨hkey', hval'⟩ := (hiff b c).mp h'
    exact (hiff a c).mpr ⟨hkey.trans hkey', heq.trans hval hval'⟩

theorem eqEntry_iff {eq : α → α → Bool} (heq : ∀ x y, eq x y = true ↔ x = y)
    (a b : String × α) : eqEntry eq a b = true ↔ a = b := by
  rw [eqEntry, Bool.and_eq_true, decide_eq_true_eq, heq, Prod.ext_iff]

theorem eqEntry_snd {eq : α → α → Bool} {k : String} {x y : α} (h : eq x y = true) :
    eqEntry eq (k, x) (k, y) = true := by
  rw [eqEntry, h, decide_eq_true rfl]
  rfl

/-! ### Containers -/

section Containers

variable (Y : Yaml.Cpp) (c : Codec α)

/-- The loop of all sequence-like containers into a string. -/
def encodeSequence (xs : List α) : Outcome Unit String := do
  let nodes ← Y.loadAll c.enc xs
  pure (Y.print (Node.pushBack nodes))

/-- The loop of all sequence-like containers from a string. -/
def decodeSequence (push : σ → α → σ) (empty : σ) (string : String) : Outcome Unit σ := do
  let node ← Y.loadNode string
  (Y.items node).foldlM (fun vec item => do
    let x ← c.dec (Y.print item)
    pure (push vec x)) empty

/-- The loop of maps into a string. -/
def encodeEntries (entries : List (String × α)) : Outcome Unit String := do
  -- the keys of a map are different, so each subscript makes a new entry
  let nodes ← Y.loadAll (fun i => c.enc i.2) entries
  pure (Y.print (Node.assignAll ((entries.map fun i => .scalar i.1).zip nodes)))

/-- The loop of maps from a string. -/
def decodeEntries (insert : σ → String × α → σ) (empty : σ) (string : String) :
    Outcome Unit σ := do
  let node ← Y.loadNode string
  let its ← node.pairs
  its.foldlM (fun map it => do
    let x ← c.dec (Y.print (some it.2))
    pure (insert map (it.1.scalarText, x))) empty

/-- Sequences that keep their elements as they come. -/
def sequenceCodec : Codec (List α) where
  beq := eqSeq c.beq
  equiv := equivalence_eqSeq c.equiv
  enc := encodeSequence Y c
  dec := decodeSequence Y c (fun vec x => vec ++ [x]) []

/-- `std::vector<T>`. -/
def vectorCodec : Codec (List α) := sequenceCodec Y c

/-- `std::list<T>`. -/
def listCodec : Codec (List α) := sequenceCodec Y c

/-- `std::set<T>`, with `operator<` of `T` the order of the keys. -/
def setCodec [LinearOrder κ] (key : α → κ) : Codec (SortedBy key) where
  beq s t := eqSeq c.beq s.toList t.toList
  equiv := (equivalence_eqSeq c.equiv).comap SortedBy.toList
  enc s := encodeSequence Y c s.toList
  dec := decodeSequence Y c SortedBy.insert SortedBy.empty

/-- `std::unordered_set<T>`. -/
def unorderedSetCodec (A : Arrange α) : Codec (Unordered c.beq) where
  beq := Unordered.eqBy c.beq
  equiv := Unordered.equivalence_eqBy c.equiv fun _ _ h => h
  enc s := encodeSequence Y c s.toList
  dec string := do
    let s ← decodeSequence Y c Unordered.insert Unordered.empty string
    pure (s.arrange A c.beq_comm)

/-- `std::map<std::string, T>`. -/
def mapCodec : Codec (SortedMap String α) where
  beq m m' := eqSeq (eqEntry c.beq) m.toList m'.toList
  equiv := (equivalence_eqSeq (equivalence_eqEntry c.equiv)).comap SortedBy.toList
  enc m := encodeEntries Y c m.toList
  dec := decodeEntries Y c SortedBy.insert SortedBy.empty

/-- Do the pairs have the same key? -/
def sameKey (a b : String × α) : Bool := a.1 = b.1

theorem sameKey_comm (a b : String × α) : sameKey a b = sameKey b a :=
  decide_eq_decide.mpr eq_comm

theorem sameKey_of_eqEntry {eq : α → α → Bool} {a b : String × α} (h : eqEntry eq a b = true) :
    sameKey a b = true := (Bool.and_eq_true_iff.mp h).1

/-- `std::unordered_map<std::string, T>`. -/
def unorderedMapCodec (A : Arrange (String × α)) : Codec (Unordered (@sameKey α)) where
  beq := Unordered.eqBy (eqEntry c.beq)
  equiv := Unordered.equivalence_eqBy (equivalence_eqEntry c.equiv) fun _ _ => sameKey_of_eqEntry
  enc m := encodeEntries Y c m.toList
  dec string := do
    let m ← decodeEntries Y c Unordered.insert Unordered.empty string
    pure (m.arrange A sameKey_comm)

end Containers

/-- The codec of the elements of `logs`. -/
def logCodec (Y : Yaml.Cpp) : Codec LogDefinition where
  beq d d' := d = d'
  equiv := equivalence_decide_eq
  enc d := .ret (encodeDefinition Y d)
  dec := decodeDefinition Y

/-- The conversions of `logs` are those of a set. -/
theorem setCodec_logCodec (Y : Yaml.Cpp) :
    (setCodec Y (logCodec Y) LogDefinition.name).enc = encodeSet Y ∧
      (setCodec Y (logCodec Y) LogDefinition.name).dec = decodeSet Y :=
  ⟨rfl, rfl⟩

/-! ### Writing and reading -/

section Loops

variable {Y : Yaml.Cpp} {c : Codec α} (node : α → Node) (back : α → α)

theorem encodeSequence_eq {xs : List α}
    (henc : ∀ x ∈ xs, ∃ t, c.enc x = .ret t ∧ Y.load t = some (node x)) :
    encodeSequence Y c xs = .ret (Y.print (Node.pushBack (xs.map node))) := by
  rw [encodeSequence, Cpp.loadAll_of_load node henc]
  rfl

theorem decodeSequence_eq {xs : List α} {text : String} (push : σ → α → σ) (empty : σ)
    (htext : Y.loadNode text = .ret ((Node.pushBack (xs.map node)).getD .null))
    (hdec : ∀ x ∈ xs, c.dec (Y.emit (node x)) = .ret (back x)) :
    decodeSequence Y c push empty text = .ret ((xs.map back).foldl push empty) := by
  rw [decodeSequence, htext, Outcome.ret_bind, Cpp.items_pushBack, List.map_map, List.foldlM_map]
  exact Outcome.foldlM_push push hdec empty

/-- The entries of the node that is printed for the pairs. -/
def entryNodes (node : α → Node) (es : List (String × α)) : List (Node × Node) :=
  es.map fun i => (.scalar i.1, node i.2)

theorem encodeEntries_eq {es : List (String × α)}
    (henc : ∀ i ∈ es, ∃ t, c.enc i.2 = .ret t ∧ Y.load t = some (node i.2)) :
    encodeEntries Y c es = .ret (Y.print (Node.assignAll (entryNodes node es))) := by
  have hzip : ∀ l : List (String × α), ((l.map fun i => Node.scalar i.1).zip
      (l.map fun i => node i.2)) = entryNodes node l := by
    intro l
    rw [List.zip_map']
    rfl
  rw [encodeEntries, Cpp.loadAll_of_load (fun i => node i.2) henc, Outcome.ret_bind, hzip]
  rfl

theorem decodeEntries_eq {es : List (String × α)} {text : String} (insert : σ → String × α → σ)
    (empty : σ) (htext : Y.loadNode text = .ret ((Node.assignAll (entryNodes node es)).getD .null))
    (hdec : ∀ i ∈ es, c.dec (Y.emit (node i.2)) = .ret (back i.2)) :
    decodeEntries Y c insert empty text =
      .ret ((es.map fun i => (i.1, back i.2)).foldl insert empty) := by
  have hstep : ∀ i ∈ es, (c.dec (Y.print (some (node i.2))) >>= fun x =>
      pure (i.1, x)) = (.ret (i.1, back i.2) : Outcome Unit (String × α)) := by
    intro i hi
    rw [Cpp.print, hdec i hi]
    rfl
  have hloop := Outcome.foldlM_push insert hstep empty
  simp only [bind_assoc, pure_bind] at hloop
  rw [decodeEntries, htext, Outcome.ret_bind, Node.pairs_assignAll, Outcome.ret_bind, entryNodes,
    List.foldlM_map]
  exact hloop

end Loops

/-! ### The law of codecs -/

namespace Codec

variable {Y : Yaml.Cpp} {c : Codec α} {d : Codec β}

/-- A value is written as a text that loads, and the text emitted for what it loads as is
read as an equal value. -/
def Lawful (Y : Yaml.Cpp) (c : Codec α) : Prop :=
  ∀ x, ∃ t n y, c.enc x = .ret t ∧ Y.load t = some n ∧ c.dec (Y.emit n) = .ret y ∧
    c.beq y x = true

/-- The text written is read as an equal value itself, too. -/
structure Recovers (Y : Yaml.Cpp) (c : Codec α) : Prop where
  lawful : c.Lawful Y
  direct : ∀ x, ∃ t y, c.enc x = .ret t ∧ c.dec t = .ret y ∧ c.beq y x = true

/-- A codec that reads a text only as far as it is loaded, and writes what it reads back. -/
theorem recovers_of_load (hY : Y.Faithful)
    (h : ∀ x, ∃ (n : Option Node) (y : α), c.enc x = .ret (Y.print n) ∧
      (∀ t, Y.loadNode t = .ret (n.getD .null) → c.dec t = .ret y) ∧ c.beq y x = true) :
    c.Recovers Y := by
  refine ⟨fun x => ?_, fun x => ?_⟩
  · obtain ⟨n, y, henc, hdec, hbeq⟩ := h x
    have hload : Y.load (Y.print n) = some (n.getD .null) := by
      cases n with
      | none => exact hY.load_empty
      | some n => exact hY.load_emit n
    exact ⟨Y.print n, n.getD .null, y, henc, hload, hdec _ (hY.loadNode_emit _), hbeq⟩
  · obtain ⟨n, y, henc, hdec, hbeq⟩ := h x
    exact ⟨Y.print n, y, henc, hdec _ (hY.loadNode_print n), hbeq⟩

/-- **Sequences**: a container whose loops visit its elements, and that comes out equal
when it is filled with equal elements. -/
theorem Lawful.recovers_of_sequence (hY : Y.Faithful) (hc : c.Lawful Y) (elems : β → List α)
    (push : σ → α → σ) (empty : σ) (finish : σ → β)
    (henc : ∀ v, d.enc v = encodeSequence Y c (elems v))
    (hdec : ∀ t, d.dec t = do let r ← decodeSequence Y c push empty t; pure (finish r))
    (hbeq : ∀ v (back : α → α), (∀ x, c.beq (back x) x = true) →
      d.beq (finish (((elems v).map back).foldl push empty)) v = true) :
    d.Recovers Y := by
  choose text node back htext hload hback heq using hc
  refine recovers_of_load hY fun v => ⟨Node.pushBack ((elems v).map node), _, ?_, fun t ht => ?_,
    hbeq v back heq⟩
  · rw [henc]
    exact encodeSequence_eq node fun x _ => ⟨text x, htext x, hload x⟩
  · rw [hdec, decodeSequence_eq node back push empty ht fun x _ => hback x]
    rfl

/-- **Maps**, likewise. -/
theorem Lawful.recovers_of_entries (hY : Y.Faithful) (hc : c.Lawful Y)
    (elems : β → List (String × α)) (insert : σ → String × α → σ) (empty : σ) (finish : σ → β)
    (henc : ∀ v, d.enc v = encodeEntries Y c (elems v))
    (hdec : ∀ t, d.dec t = do let r ← decodeEntries Y c insert empty t; pure (finish r))
    (hbeq : ∀ v (back : α → α), (∀ x, c.beq (back x) x = true) →
      d.beq (finish (((elems v).map fun i => (i.1, back i.2)).foldl insert empty)) v = true) :
    d.Recovers Y := by
  choose text node back htext hload hback heq using hc
  refine recovers_of_load hY fun v => ⟨Node.assignAll (entryNodes node (elems v)), _, ?_,
    fun t ht => ?_, hbeq v back heq⟩
  · rw [henc]
    exact encodeEntries_eq node fun i _ => ⟨text i.2, htext i.2, hload i.2⟩
  · rw [hdec, decodeEntries_eq node back insert empty ht fun i _ => hback i.2]
    rfl

end Codec

/-! ### Nesting -/

/-- `d` is the codec of a container of values of codec `c`. -/
inductive Layer (Y : Yaml.Cpp) : {α β : Type} → Codec α → Codec β → Prop
  | vector {α : Type} (c : Codec α) : Layer Y c (vectorCodec Y c)
  | list {α : Type} (c : Codec α) : Layer Y c (listCodec Y c)
  /-- Equal elements are equivalent in the order of the set. -/
  | set {α κ : Type} [LinearOrder κ] (c : Codec α) (key : α → κ)
      (hkey : ∀ x y, c.beq x y = true → key x = key y) : Layer Y c (setCodec Y c key)
  | unorderedSet {α : Type} (c : Codec α) (A : Arrange α) : Layer Y c (unorderedSetCodec Y c A)
  | map {α : Type} (c : Codec α) : Layer Y c (mapCodec Y c)
  | unorderedMap {α : Type} (c : Codec α) (A : Arrange (String × α)) :
      Layer Y c (unorderedMapCodec Y c A)

/-- `d` is the codec of a nesting of containers over values of codec `leaf`. -/
inductive Nested (Y : Yaml.Cpp) {α : Type} (leaf : Codec α) : {β : Type} → Codec β → Prop
  | one {β : Type} {d : Codec β} : Layer Y leaf d → Nested Y leaf d
  | more {β γ : Type} {c : Codec β} {d : Codec γ} : Nested Y leaf c → Layer Y c d → Nested Y leaf d

theorem foldl_push_back (xs : List α) : xs.foldl (fun vec x => vec ++ [x]) [] = xs := by
  rw [List.foldl_append_eq_append, List.nil_append, ← List.flatMap_def, ← List.map_eq_flatMap,
    List.map_id']

/-- **One layer**: a container of a lawful codec reads back. -/
theorem Layer.recovers {Y : Yaml.Cpp} (hY : Y.Faithful) {c : Codec α} {d : Codec β}
    (h : Layer Y c d) (hc : c.Lawful Y) : d.Recovers Y := by
  have hsequence : (sequenceCodec Y c).Recovers Y := by
    refine hc.recovers_of_sequence hY id _ _ id (fun _ => rfl) (fun _ => (bind_pure _).symm)
      fun v back hback => ?_
    rw [foldl_push_back]
    exact eqSeq_map hback v
  cases h with
  | vector => exact hsequence
  | list => exact hsequence
  | set _ key hkey =>
      refine hc.recovers_of_sequence hY SortedBy.toList _ _ id (fun _ => rfl)
        (fun _ => (bind_pure _).symm) fun v back hback => ?_
      -- the elements read are equivalent to those written, so they come in ascending order
      have hkeys : ∀ x, key (back x) = key x := fun x => hkey _ _ (hback x)
      have hsorted : (v.toList.map back).Pairwise fun x y => key x < key y :=
        List.pairwise_map.mpr (v.sorted.imp fun h => by rwa [hkeys, hkeys])
      have hlist := SortedBy.toList_foldl_insert hsorted
      show eqSeq c.beq _ v.toList = true
      rw [id_eq, hlist]
      exact eqSeq_map hback v.toList
  | unorderedSet _ A =>
      refine hc.recovers_of_sequence hY Unordered.toList _ _ (Unordered.arrange A c.beq_comm)
        (fun _ => rfl) (fun _ => rfl) fun v back hback => ?_
      have hdistinct : (v.toList.map back).Pairwise fun x y => c.beq x y = false := by
        refine List.pairwise_map.mpr (v.distinct.imp fun {x y} hxy => ?_)
        rw [← Bool.not_eq_true] at hxy ⊢
        exact fun h => hxy (c.equiv.trans (c.equiv.symm (hback x)) (c.equiv.trans h (hback y)))
      refine Unordered.eqBy_of_map c.equiv (fun _ _ h => h) hback ((A.perm _).trans ?_)
      rw [Unordered.toList_foldl_insert hdistinct]
  | map =>
      refine hc.recovers_of_entries hY SortedBy.toList _ _ id (fun _ => rfl)
        (fun _ => (bind_pure _).symm) fun v back hback => ?_
      have hsorted : (v.toList.map fun i => (i.1, back i.2)).Pairwise fun x y => x.1 < y.1 :=
        List.pairwise_map.mpr v.sorted
      have hlist := SortedBy.toList_foldl_insert hsorted
      show eqSeq (eqEntry c.beq) _ v.toList = true
      rw [id_eq, hlist]
      exact eqSeq_map (fun i => eqEntry_snd (hback i.2)) v.toList
  | unorderedMap _ A =>
      refine hc.recovers_of_entries hY Unordered.toList _ _ (Unordered.arrange A sameKey_comm)
        (fun _ => rfl) (fun _ => rfl) fun v back hback => ?_
      have hdistinct : (v.toList.map fun i => (i.1, back i.2)).Pairwise
          fun x y => sameKey x y = false := List.pairwise_map.mpr v.distinct
      refine Unordered.eqBy_of_map (equivalence_eqEntry c.equiv)
        (fun _ _ => sameKey_of_eqEntry) (fun i => eqEntry_snd (hback i.2)) ((A.perm _).trans ?_)
      rw [Unordered.toList_foldl_insert hdistinct]

theorem Nested.recovers {Y : Yaml.Cpp} (hY : Y.Faithful) {leaf : Codec α} (hleaf : leaf.Lawful Y)
    {d : Codec β} (h : Nested Y leaf d) : d.Recovers Y := by
  induction h with
  | one hlayer => exact hlayer.recovers hY hleaf
  | more _ hlayer ih => exact hlayer.recovers hY ih.lawful

/-- **One layer**: what a container reads returns or throws, if what it reads of its elements
does. -/
theorem Layer.survives {Y : Yaml.Cpp} {c : Codec α} {d : Codec β} (h : Layer Y c d)
    (hc : ∀ t, (c.dec t).Survives) (t : String) : (d.dec t).Survives := by
  have hsequence : ∀ {σ : Type} (push : σ → α → σ) (empty : σ),
      (decodeSequence Y c push empty t).Survives := by
    intro σ push empty
    apply (Y.loadNode_survives t).bind
    intro node _
    apply Outcome.foldlM_survives
    intro vec item _
    exact (hc _).bind fun _ _ => trivial
  have hentries : ∀ {σ : Type} (insert : σ → String × α → σ) (empty : σ),
      (decodeEntries Y c insert empty t).Survives := by
    intro σ insert empty
    apply (Y.loadNode_survives t).bind
    intro node _
    refine Outcome.Survives.bind ?_ fun its _ => ?_
    · rcases node with - | s | (- | ⟨n, ns⟩) | es <;> trivial
    · apply Outcome.foldlM_survives
      intro m it _
      exact (hc _).bind fun _ _ => trivial
  cases h with
  | vector _ => exact hsequence _ _
  | list _ => exact hsequence _ _
  | set _ _ _ => exact hsequence _ _
  | unorderedSet _ _ => exact (hsequence _ _).bind fun _ _ => trivial
  | map _ => exact hentries _ _
  | unorderedMap _ _ => exact (hentries _ _).bind fun _ _ => trivial

theorem Nested.survives {Y : Yaml.Cpp} {leaf : Codec α} (hleaf : ∀ t, (leaf.dec t).Survives)
    {d : Codec β} (h : Nested Y leaf d) : ∀ t, (d.dec t).Survives := by
  induction h with
  | one hlayer => exact hlayer.survives hleaf
  | more _ hlayer ih => exact hlayer.survives ih

/-! ### A variable with a codec -/

namespace Codec

/-- `ConfigVar::toString`. -/
def toString (c : Codec α) (x : ConfigVar α γ) : Outcome Unit String :=
  Outcome.rescue (fun _ => "") (c.enc x.val)

/-- `ConfigVar::fromString`. -/
def fromString (c : Codec α) (throws : γ → α → α → Bool) (x : ConfigVar α γ) (t : String) :
    Outcome Unit (ConfigVar.Call α γ × Bool) :=
  @ConfigVar.fromString α γ ⟨c.beq⟩ c.dec throws x t

variable {c : Codec α}

/-- A text that is read as an equal value changes nothing. -/
theorem fromString_of_beq {t : String} {y : α} {x : ConfigVar α γ} (hdec : c.dec t = .ret y)
    (hbeq : c.beq y x.val = true) (throws : γ → α → α → Bool) :
    c.fromString throws x t = .ret (⟨x, [], false⟩, true) := by
  have hset : @ConfigVar.setValue α γ ⟨c.beq⟩ throws x y = ⟨x, [], false⟩ :=
    @ConfigVar.setValue_of_beq α γ ⟨c.beq⟩ throws x y hbeq
  unfold fromString ConfigVar.fromString
  rw [hdec]
  dsimp only
  rw [hset]
  rfl

end Codec

/-- **Nested containers read back.**  For every nesting of containers over values of a
lawful codec, a variable is left as it is, and nobody is told, when it is given its own
text. -/
theorem nested_roundtrip {Y : Yaml.Cpp} (hY : Y.Faithful) {leaf : Codec α}
    (hleaf : leaf.Lawful Y) {d : Codec β} (hd : Nested Y leaf d) (throws : γ → β → β → Bool)
    (x : ConfigVar β γ) :
    ∃ t, d.toString x = .ret t ∧ d.fromString throws x t = .ret (⟨x, [], false⟩, true) := by
  obtain ⟨t, y, henc, hdec, hbeq⟩ := (hd.recovers hY hleaf).direct x.val
  refine ⟨t, ?_, Codec.fromString_of_beq hdec hbeq throws⟩
  rw [Codec.toString, henc]
  rfl

/-- `boost::lexical_cast` between `bool` and strings. -/
def boolCodec : Codec Bool where
  beq x y := x = y
  equiv := equivalence_decide_eq
  enc x := .ret (if x then "1" else "0")
  dec t := if t = "1" then .ret true else if t = "0" then .ret false else .throw ()

/-- The texts of `[{on: 1}]` and what is in it. -/
def boolRows : List (Node × String) :=
  [(.scalar "0", "0"), (.scalar "1", "1"), (.map [Node.entry "on" "1"], "on: 1"),
    (.seq [.map [Node.entry "on" "1"]], "- on: 1")]

theorem sample_boolRows_faithful : (sample boolRows).Faithful :=
  sample_faithful ⟨by decide, by decide⟩

theorem boolCodec_lawful : boolCodec.Lawful (sample boolRows) := by
  have hload : ∀ r ∈ boolRows, (sample boolRows).load r.2 = some r.1 ∧
      (sample boolRows).emit r.1 = r.2 := by
    intro r hr
    have hrow : boolRows.find? (fun r' => r'.1 = r.1) = some r := by
      revert r
      decide
    have hemit := sample_emit hrow
    exact ⟨hemit ▸ sample_boolRows_faithful.load_emit r.1, hemit⟩
  intro x
  cases x with
  | false =>
      obtain ⟨hzero, hemit⟩ := hload (.scalar "0", "0") (by decide)
      exact ⟨"0", .scalar "0", false, rfl, hzero, by rw [hemit]; rfl, rfl⟩
  | true =>
      obtain ⟨hone, hemit⟩ := hload (.scalar "1", "1") (by decide)
      exact ⟨"1", .scalar "1", true, rfl, hone, by rw [hemit]; rfl, rfl⟩

/-- A vector of maps to `bool`. -/
theorem nested_roundtrip_bool :
    let d := vectorCodec (sample boolRows) (mapCodec (sample boolRows) boolCodec)
    let x : ConfigVar (List (SortedMap String Bool)) Unit :=
      ⟨[SortedMap.set SortedBy.empty "on" true], SortedMap.set SortedBy.empty 1 ()⟩
    ∃ t, d.toString x = .ret t ∧
      d.fromString (fun _ _ _ => true) x t = .ret (⟨x, [], false⟩, true) := by
  intro d x
  exact nested_roundtrip sample_boolRows_faithful boolCodec_lawful
    (.more (.one (.map boolCodec)) (.vector _)) (fun _ _ _ => true) x

/-! ### Strings -/

/-- `LexicalCast` between strings copies. -/
def stringCodec : Codec String where
  beq x y := x = y
  equiv := equivalence_decide_eq
  enc := .ret
  dec := .ret

/-- Whatever the listeners do, the variable holds its value after it has been given its
own text. -/
def Codec.Kept (c : Codec α) (x : ConfigVar α γ) : Prop :=
  ∀ throws, ∃ t r, c.toString x = .ret t ∧ c.fromString throws x t = .ret r ∧
    r.1.var.val = x.val

/-- The text is that of the node it loads as. -/
def Verbatim (Y : Yaml.Cpp) (s : String) : Prop := ∃ n, Y.load s = some n ∧ Y.emit n = s

section Strings

variable {Y : Yaml.Cpp}

/-- What a string in a container comes back as. -/
def comesBack (Y : Yaml.Cpp) (s : String) : String := Y.print (Y.load s)

theorem verbatim_iff {s : String} (h : ∃ n, Y.load s = some n) :
    Verbatim Y s ↔ comesBack Y s = s := by
  obtain ⟨n, hn⟩ := h
  rw [Verbatim, comesBack, hn]
  constructor
  · rintro ⟨m, hm, hemit⟩
    obtain rfl := Option.some.inj hm
    exact hemit
  · exact fun h => ⟨n, rfl, h⟩

theorem Codec.kept_iff {c : Codec α} {x : ConfigVar α γ} {t : String} {y : α}
    (htext : c.toString x = .ret t) (hdec : c.dec t = .ret y)
    (hbeq : c.beq y x.val = true ↔ y = x.val) : c.Kept x ↔ y = x.val := by
  constructor
  · intro h
    obtain ⟨t', r, ht', hr, hval⟩ := h fun _ _ _ => false
    obtain rfl := Outcome.ret.inj (htext.symm.trans ht')
    by_cases heq : c.beq y x.val = true
    · exact hbeq.mp heq
    · -- nobody throws, so what was read is stored
      unfold fromString ConfigVar.fromString at hr
      rw [hdec] at hr
      dsimp only at hr
      obtain rfl := Outcome.ret.inj hr
      rcases @ConfigVar.setValue_cases α γ ⟨c.beq⟩ (fun _ _ _ => false) x y with
        ⟨hsame, _⟩ | ⟨_, _, hset⟩ | ⟨_, _, _, _, _, _, hf, _⟩
      · exact absurd hsame heq
      · rw [hset] at hval
        exact hval
      · cases hf
  · intro h throws
    exact ⟨t, _, htext, fromString_of_beq hdec (hbeq.mpr h) throws, rfl⟩

/-- **A container of strings**, whichever it is: `texts` are the strings in it. -/
theorem Codec.kept_iff_verbatim {c : Codec α} (texts : α → List String)
    (hbeq : ∀ y z, c.beq y z = true ↔ y = z) {empty : α} (hempty : c.dec "" = .ret empty)
    (hnil : texts empty = [])
    (hthrow : ∀ v, (∃ s ∈ texts v, Y.load s = none) → c.enc v = .throw ())
    (hload : ∀ v, (∀ s ∈ texts v, ∃ n, Y.load s = some n) →
      ∃ t y, c.enc v = .ret t ∧ c.dec t = .ret y ∧ (y = v ↔ ∀ s ∈ texts v, comesBack Y s = s))
    (x : ConfigVar α γ) : c.Kept x ↔ ∀ s ∈ texts x.val, Verbatim Y s := by
  by_cases hall : ∀ s ∈ texts x.val, ∃ n, Y.load s = some n
  · obtain ⟨t, y, henc, hdec, hiff⟩ := hload x.val hall
    have htext : c.toString x = .ret t := by
      rw [toString, henc]
      rfl
    rw [kept_iff htext hdec (hbeq y x.val), hiff]
    exact forall₂_congr fun s hs => (verbatim_iff (hall s hs)).symm
  · -- what is thrown becomes the empty text, which is read as an empty container
    obtain ⟨s, hs, hnone⟩ : ∃ s ∈ texts x.val, Y.load s = none := by
      by_contra hno
      refine hall fun s hs => Option.ne_none_iff_exists'.mp fun hnone => hno ⟨s, hs, hnone⟩
    have htext : c.toString x = .ret "" := by
      rw [toString, hthrow x.val ⟨s, hs, hnone⟩]
      rfl
    rw [kept_iff htext hempty (hbeq empty x.val)]
    refine iff_of_false (fun h => ?_) fun h => ?_
    · rw [← h, hnil] at hs
      cases hs
    · obtain ⟨n, hn, _⟩ := h s hs
      rw [hnone] at hn
      cases hn

theorem eqSeq_eq_iff {eq : α → α → Bool} (heq : ∀ x y, eq x y = true ↔ x = y) (xs ys : List α) :
    eqSeq eq xs ys = true ↔ xs = ys := by
  have hrel : (fun x y => eq x y = true) = (Eq : α → α → Prop) := by
    funext x y
    exact propext (heq x y)
  rw [eqSeq, decide_eq_true_eq, hrel, List.forall₂_eq_eq_eq]

/-- What a string in a container is written as. -/
def loaded (Y : Yaml.Cpp) (s : String) : Node := (Y.load s).getD .null

theorem load_eq_loaded {s : String} (h : ∃ n, Y.load s = some n) :
    Y.load s = some (loaded Y s) ∧ Y.emit (loaded Y s) = comesBack Y s := by
  obtain ⟨n, hn⟩ := h
  rw [comesBack, loaded, hn]
  exact ⟨rfl, rfl⟩

theorem map_eq_self_iff {f : α → α} {xs : List α} : xs.map f = xs ↔ ∀ x ∈ xs, f x = x := by
  have hiff : xs.map f = xs.map id ↔ ∀ x ∈ xs, f x = id x := List.map_inj_left
  rwa [List.map_id] at hiff

/-- A vector of strings that load. -/
theorem vector_comesBack (hY : Y.Faithful) {v : List String}
    (hall : ∀ s ∈ v, ∃ n, Y.load s = some n) :
    ∃ t, (vectorCodec Y stringCodec).enc v = .ret t ∧
      (vectorCodec Y stringCodec).dec t = .ret (v.map (comesBack Y)) := by
  refine ⟨_, encodeSequence_eq (loaded Y) fun s hs => ⟨s, rfl, (load_eq_loaded (hall s hs)).1⟩, ?_⟩
  have hdec := decodeSequence_eq (c := stringCodec) (loaded Y) (comesBack Y)
    (fun vec s => vec ++ [s]) [] (hY.loadNode_print _)
    fun s hs => congrArg Outcome.ret (load_eq_loaded (hall s hs)).2
  rwa [foldl_push_back] at hdec

/-- A map to strings that load. -/
theorem map_comesBack (hY : Y.Faithful) {v : SortedMap String String}
    (hall : ∀ i ∈ v.toList, ∃ n, Y.load i.2 = some n) :
    ∃ t y, (mapCodec Y stringCodec).enc v = .ret t ∧ (mapCodec Y stringCodec).dec t = .ret y ∧
      y.toList = v.toList.map fun i => (i.1, comesBack Y i.2) := by
  have hdec := decodeEntries_eq (c := stringCodec) (loaded Y) (comesBack Y) SortedBy.insert
    (SortedBy.empty : SortedMap String String) (hY.loadNode_print _)
    fun i hi => congrArg Outcome.ret (load_eq_loaded (hall i hi)).2
  exact ⟨_, _, encodeEntries_eq (loaded Y) fun i hi =>
      ⟨i.2, rfl, (load_eq_loaded (hall i hi)).1⟩,
    hdec, SortedBy.toList_foldl_insert (List.pairwise_map.mpr v.sorted)⟩

/-- **Containers of strings.**  A vector of strings, and a map to strings, come back as
they were exactly when each string in them is the text of the node it loads as. -/
theorem strings_roundtrip_iff (hY : Y.Faithful) :
    (∀ x : ConfigVar (List String) γ,
      (vectorCodec Y stringCodec).Kept x ↔ ∀ s ∈ x.val, Verbatim Y s) ∧
    (∀ x : ConfigVar (SortedMap String String) γ,
      (mapCodec Y stringCodec).Kept x ↔ ∀ i ∈ x.val, Verbatim Y i.2) := by
  have hempty : Y.loadNode "" = .ret .null := hY.loadNode_print none
  have hbeq : ∀ s t : String, stringCodec.beq s t = true ↔ s = t := fun s t => decide_eq_true_iff
  refine ⟨fun x => ?_, fun x => ?_⟩
  · have hnothing : (vectorCodec Y stringCodec).dec "" = .ret [] := by
      show decodeSequence Y stringCodec (fun vec s => vec ++ [s]) [] "" = .ret []
      rw [decodeSequence, hempty]
      rfl
    refine Codec.kept_iff_verbatim (fun v => v) (eqSeq_eq_iff hbeq) hnothing rfl
      (fun v hnone => ?_) (fun v hall => ?_) x
    · have hload : Y.loadAll stringCodec.enc v = .throw () := Cpp.loadAll_throw hnone
      show encodeSequence Y stringCodec v = .throw ()
      rw [encodeSequence, hload]
      rfl
    · obtain ⟨t, henc, hdec⟩ := vector_comesBack hY hall
      exact ⟨t, _, henc, hdec, map_eq_self_iff⟩
  · have hnothing : (mapCodec Y stringCodec).dec "" = .ret SortedBy.empty := by
      show decodeEntries Y stringCodec SortedBy.insert SortedBy.empty "" = .ret SortedBy.empty
      rw [decodeEntries, hempty]
      rfl
    have hforall : (∀ i ∈ x.val, Verbatim Y i.2) ↔
        ∀ s ∈ x.val.toList.map Prod.snd, Verbatim Y s := List.forall_mem_map.symm
    rw [hforall]
    refine Codec.kept_iff_verbatim (fun v : SortedMap String String => v.toList.map Prod.snd)
      (fun v w => ?_) hnothing rfl (fun v hnone => ?_) (fun v hall => ?_) x
    · exact (eqSeq_eq_iff (eqEntry_iff hbeq) _ _).trans ⟨SortedBy.ext, congrArg SortedBy.toList⟩
    · obtain ⟨s, hs, hs'⟩ := hnone
      obtain ⟨i, hi, rfl⟩ := List.mem_map.mp hs
      have hload : Y.loadAll (fun i : String × String => stringCodec.enc i.2) v.toList =
          .throw () := Cpp.loadAll_throw ⟨i, hi, hs'⟩
      show encodeEntries Y stringCodec v.toList = .throw ()
      rw [encodeEntries, hload]
      rfl
    · obtain ⟨t, y, henc, hdec, hlist⟩ := map_comesBack hY fun i hi =>
        hall i.2 (List.mem_map_of_mem hi)
      refine ⟨t, y, henc, hdec, ?_⟩
      rw [SortedBy.ext_iff, hlist, map_eq_self_iff, List.forall_mem_map]
      exact forall₂_congr fun i _ => ⟨fun h => congrArg Prod.snd h, fun h => Prod.ext rfl h⟩

end Strings

/-- The texts of `[a]` and `{k: a}`, and of `[~]` and `{k: ~}`. -/
def stringRows : List (Node × String) :=
  [(.scalar "a", "a"), (.null, "~"), (.seq [.scalar "a"], "- a"), (.seq [.null], "- ~"),
    (.map [Node.entry "k" "a"], "k: a"), (.map [(.scalar "k", .null)], "k: ~")]

theorem sample_stringRows_faithful : (sample stringRows).Faithful :=
  sample_faithful ⟨by decide, by decide⟩

/-- A map from `k` to the string. -/
def single (s : String) : SortedMap String String := SortedMap.set SortedBy.empty "k" s

/-- A word comes back. -/
theorem strings_roundtrip_iff_word :
    (vectorCodec (sample stringRows) stringCodec).Kept
        (⟨["a"], SortedBy.empty⟩ : ConfigVar (List String) Unit) ∧
      (mapCodec (sample stringRows) stringCodec).Kept
        (⟨single "a", SortedBy.empty⟩ : ConfigVar (SortedMap String String) Unit) := by
  have hemit : (sample stringRows).emit (.scalar "a") = "a" :=
    sample_emit (r := (.scalar "a", "a")) rfl
  have hword : Verbatim (sample stringRows) "a" :=
    ⟨.scalar "a", hemit ▸ sample_stringRows_faithful.load_emit (.scalar "a"), hemit⟩
  obtain ⟨hvector, hmap⟩ := @strings_roundtrip_iff Unit _ sample_stringRows_faithful
  refine ⟨(hvector _).mpr fun s hs => ?_, (hmap _).mpr fun i hi => ?_⟩
  · obtain rfl := List.mem_singleton.mp hs
    exact hword
  · obtain rfl := List.mem_singleton.mp hi
    exact hword

/-- The empty string loads as a null node, which is emitted as `~`. -/
theorem empty_string_lost :
    ¬ (vectorCodec (sample stringRows) stringCodec).Kept
        (⟨[""], SortedBy.empty⟩ : ConfigVar (List String) Unit) ∧
      ¬ (mapCodec (sample stringRows) stringCodec).Kept
        (⟨single "", SortedBy.empty⟩ : ConfigVar (SortedMap String String) Unit) := by
  have hY := sample_stringRows_faithful
  have hload : ∃ n, (sample stringRows).load "" = some n := ⟨_, hY.load_empty⟩
  have hback : comesBack (sample stringRows) "" = "~" := by
    rw [comesBack, hY.load_empty]
    exact sample_emit (r := (.null, "~")) rfl
  constructor
  · obtain ⟨t, henc, hdec⟩ := vector_comesBack (v := [""]) hY (List.forall_mem_singleton.mpr hload)
    rw [List.map_singleton, hback] at hdec
    rw [Codec.kept_iff (congrArg _ henc) hdec (by decide)]
    decide
  · obtain ⟨t, y, henc, hdec, hlist⟩ := map_comesBack (v := single "") hY
      (List.forall_mem_singleton.mpr hload)
    have hy : y = single "~" := by
      refine SortedBy.ext (hlist.trans ?_)
      show [("k", comesBack (sample stringRows) "")] = _
      rw [hback]
      rfl
    subst hy
    rw [Codec.kept_iff (congrArg _ henc) hdec (by decide)]
    decide

end Sylar
