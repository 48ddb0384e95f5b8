/-
Sylar/Lib/NodeGraph.lean

YAML documents with aliases.

An alias stands for the node that its anchor marks, and the anchor may be that
of a node the alias is in.  So what is loaded is a graph, `Graph`, in which a
node can have several places and can contain itself.  The document is a tree,
`Node`, below the nodes that unfold to one (`Unfolds`).

A traversal that goes from a map to the values of its entries, if it accepts
their keys, comes to an end exactly if no map it gets to contains itself:
`acc_iff_not_contains`, an instance of a fact about finite relations
(`acc_iff_no_cycle`).
-/
import Mathlib.Data.Fintype.Card
import Mathlib.Data.Fintype.EquivFin
import Mathlib.Logic.Relation
import Sylar.Lib.Yaml

namespace Yaml

open Relation

/-! ### Finite relations -/

section Cycle

variable {α : Type*} {r : α → α → Prop} {a b : α}

theorem not_transGen_of_acc (h : Acc (fun y x => r x y) a) : ¬ TransGen r a a := by
  induction h with
  | intro x _ ih =>
      intro hcycle
      obtain ⟨y, hxy, hyx⟩ := TransGen.head'_iff.mp hcycle
      -- the cycle goes through the next element as well
      exact ih y hxy (TransGen.tail'_iff.mpr ⟨x, hyx, hxy⟩)

theorem acc_of_reflTransGen (h : Acc (fun y x => r x y) a) (hab : ReflTransGen r a b) :
    Acc (fun y x => r x y) b := by
  induction hab with
  | refl => exact h
  | tail _ hbc ih => exact ih.inv hbc

/-- **There is no infinite descent in a finite relation without a cycle**, nor in one with a
cycle that is out of reach. -/
theorem acc_iff_no_cycle [Finite α] :
    Acc (fun y x => r x y) a ↔ ∀ b, ReflTransGen r a b → ¬ TransGen r b b := by
  constructor
  · intro h b hab
    exact not_transGen_of_acc (acc_of_reflTransGen h hab)
  · intro h
    -- the elements within reach, one below the other
    let below : {b // ReflTransGen r a b} → {b // ReflTransGen r a b} → Prop :=
      fun y x => TransGen r x y
    have : IsTrans _ below := ⟨fun _ _ _ hyx hzy => hzy.trans hyx⟩
    have : Std.Irrefl below := ⟨fun b => h b b.2⟩
    have hwf : WellFounded below := Finite.wellFounded_of_trans_of_irrefl below
    have hacc : ∀ b : {b // ReflTransGen r a b}, Acc (fun y x => r x y) b.1 := by
      intro b
      induction b using hwf.induction with
      | h b ih => exact ⟨_, fun y hby => ih ⟨y, b.2.tail hby⟩ (.single hby)⟩
    exact hacc ⟨a, .refl⟩

end Cycle

/-! ### Graphs of nodes -/

/-- A node, with references to its parts. -/
inductive Cell (ν : Type)
  | null
  | scalar (text : String)
  | seq (items : List ν)
  | map (entries : List (ν × ν))

/-- A loaded document with aliases. -/
structure Graph (ν : Type) where
  cell : ν → Cell ν

namespace Graph

variable {ν : Type} (G : Graph ν)

/-- `Node::Scalar()`. -/
def scalarText (n : ν) : String :=
  match G.cell n with
  | .scalar s => s
  | _ => ""

mutual

/-- Below the node the document is a tree. -/
def Unfolds (n : ν) (t : Node) : Prop :=
  match t with
  | .null => G.cell n = .null
  | .scalar s => G.cell n = .scalar s
  | .seq items => ∃ ns, G.cell n = .seq ns ∧ UnfoldsItems ns items
  | .map entries => ∃ ns, G.cell n = .map ns ∧ UnfoldsEntries ns entries
termination_by structural t

def UnfoldsItems (ns : List ν) (items : List Node) : Prop :=
  match items with
  | [] => ns = []
  | t :: items => ∃ n ns', ns = n :: ns' ∧ Unfolds n t ∧ UnfoldsItems ns' items
termination_by structural items

def UnfoldsEntries (ns : List (ν × ν)) (entries : List (Node × Node)) : Prop :=
  match entries with
  | [] => ns = []
  | (key, t) :: entries => ∃ k n ns', ns = (k, n) :: ns' ∧ Unfolds k key ∧ Unfolds n t ∧
      UnfoldsEntries ns' entries
termination_by structural entries

end

variable {G} {n k : ν}

theorem Unfolds.scalarText {t : Node} (h : G.Unfolds n t) : G.scalarText n = t.scalarText := by
  rw [Graph.scalarText]
  cases t with
  | null | scalar s =>
      rw [Unfolds] at h
      rw [h]
      rfl
  | seq items | map entries =>
      rw [Unfolds] at h
      obtain ⟨ns, hcell, _⟩ := h
      rw [hcell]
      rfl

variable (G)

/-- The node `m` is the value of an entry whose key is accepted. -/
def Below (accept : String → Prop) (n m : ν) : Prop :=
  ∃ entries k, G.cell n = .map entries ∧ (k, m) ∈ entries ∧ accept (G.scalarText k)

/-- There is a map, within reach of the node, that contains itself. -/
def Contains (accept : String → Prop) (n : ν) : Prop :=
  ∃ m, ReflTransGen (G.Below accept) n m ∧ TransGen (G.Below accept) m m

theorem acc_iff_not_contains [Finite ν] {accept : String → Prop} :
    Acc (fun m n => G.Below accept n m) n ↔ ¬ G.Contains accept n := by
  rw [acc_iff_no_cycle]
  exact ⟨fun h ⟨m, hreach, hcycle⟩ => h m hreach hcycle, fun h m hreach hcycle =>
    h ⟨m, hreach, hcycle⟩⟩

end Graph

end Yaml
