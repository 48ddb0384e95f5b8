/-
Sylar/Lib/Unordered.lean

Hashed containers.  `Unordered same` is a list without two elements that are the
`same`, in the order in which the container happens to be visited: a set with
`same` its equality, a map with `same` the equality of keys.

That order is not specified.  `Arrange` stands for it: whatever has been
inserted, a visit meets it in some permutation.  Equality does not depend on it:
two containers are equal when they have the same size and every element of one is
found in the other (`eqBy`), that is, when they are permutations of each other up
to the equality of the elements (`eqBy_iff`).
-/
import Mathlib.Data.List.Induction
import Mathlib.Data.List.Perm.Subperm
import Mathlib.Data.Setoid.Basic

/-- A list without two elements that are the same. -/
structure Unordered {α : Type*} (same : α → α → Bool) where
  toList : List α
  distinct : toList.Pairwise fun a b => same a b = false

/-- The order in which a container filled with the elements of a list is visited. -/
structure Arrange (α : Type*) where
  order : List α → List α
  perm : ∀ l, (order l).Perm l

namespace Unordered

variable {α : Type*} {same : α → α → Bool}

@[ext] theorem ext {s t : Unordered same} (h : s.toList = t.toList) : s = t := by
  cases s; cases t; cases h; rfl

/-- The container with nothing in it. -/
def empty : Unordered same := ⟨[], List.Pairwise.nil⟩

/-- Insert `x`, unless there is an element that is the same. -/
def insert (s : Unordered same) (x : α) : Unordered same :=
  if h : s.toList.any fun a => same a x then s
  else ⟨s.toList ++ [x], by
    refine List.pairwise_append.mpr ⟨s.distinct, List.pairwise_singleton _ _, fun a ha b hb => ?_⟩
    obtain rfl := List.mem_singleton.mp hb
    rw [← Bool.not_eq_true]
    exact fun hab => h (List.any_eq_true.mpr ⟨a, ha, hab⟩)⟩

theorem toList_insert_of_new {s : Unordered same} {x : α}
    (h : ∀ a ∈ s.toList, same a x = false) : (s.insert x).toList = s.toList ++ [x] := by
  rw [insert, dif_neg]
  rw [List.any_eq_true]
  rintro ⟨a, ha, hax⟩
  rw [h a ha] at hax
  cases hax

/-- The same elements, visited in another order. -/
def arrange (A : Arrange α) (hsymm : ∀ a b, same a b = same b a) (s : Unordered same) :
    Unordered same :=
  ⟨A.order s.toList, ((A.perm s.toList).pairwise_iff fun h => by rwa [hsymm]).mpr s.distinct⟩

/-- Elements without two that are the same are all inserted, in order. -/
theorem toList_foldl_insert {l : List α} (hl : l.Pairwise fun a b => same a b = false) :
    (l.foldl insert (empty : Unordered same)).toList = l := by
  induction l using List.reverseRecOn with
  | nil => rfl
  | append_singleton l a ih =>
      obtain ⟨hl, _, hla⟩ := List.pairwise_append.mp hl
      rw [List.foldl_append, List.foldl_cons, List.foldl_nil, toList_insert_of_new, ih hl]
      rw [ih hl]
      exact fun b hb => hla b hb a (List.mem_singleton.mpr rfl)

/-- `operator==`: as many elements, and each equal to one of the other's. -/
def eqBy (eq : α → α → Bool) (s t : Unordered same) : Bool :=
  s.toList.length = t.toList.length ∧ s.toList.all fun a => t.toList.any fun b => eq a b

variable {eq : α → α → Bool}

/-- **Equality of containers** is equality up to order, if equal elements are the same. -/
theorem eqBy_iff (heq : Equivalence fun a b => eq a b = true)
    (hsame : ∀ a b, eq a b = true → same a b = true) (s t : Unordered same) :
    eqBy eq s t = true ↔
      (s.toList.map (Quotient.mk ⟨_, heq⟩)).Perm (t.toList.map (Quotient.mk ⟨_, heq⟩)) := by
  have hmk : ∀ a b, Quotient.mk ⟨_, heq⟩ a = Quotient.mk ⟨_, heq⟩ b ↔ eq a b = true :=
    fun a b => Quotient.eq
  have hnodup : (s.toList.map (Quotient.mk ⟨_, heq⟩)).Nodup := by
    refine List.pairwise_map.mpr (s.distinct.imp fun {a b} hab h => ?_)
    rw [hsame a b ((hmk a b).mp h)] at hab
    cases hab
  rw [eqBy, decide_eq_true_eq]
  constructor
  · rintro ⟨hlen, hall⟩
    have hsub : s.toList.map (Quotient.mk ⟨_, heq⟩) ⊆ t.toList.map (Quotient.mk ⟨_, heq⟩) := by
      intro q hq
      obtain ⟨a, ha, rfl⟩ := List.mem_map.mp hq
      obtain ⟨b, hb, hab⟩ := List.any_eq_true.mp (List.all_eq_true.mp hall a ha)
      exact List.mem_map.mpr ⟨b, hb, ((hmk a b).mpr hab).symm⟩
    apply (hnodup.subperm hsub).perm_of_length_le
    rw [List.length_map, List.length_map, hlen]
  · intro hperm
    refine ⟨by simpa using hperm.length_eq, List.all_eq_true.mpr fun a ha => ?_⟩
    obtain ⟨b, hb, hba⟩ := List.mem_map.mp (hperm.subset (List.mem_map_of_mem ha))
    exact List.any_eq_true.mpr ⟨b, hb, (hmk a b).mp hba.symm⟩

theorem equivalence_eqBy (heq : Equivalence fun a b => eq a b = true)
    (hsame : ∀ a b, eq a b = true → same a b = true) :
    Equivalence fun s t : Unordered same => eqBy eq s t = true where
  refl s := (eqBy_iff heq hsame s s).mpr (List.Perm.refl _)
  symm h := (eqBy_iff heq hsame _ _).mpr ((eqBy_iff heq hsame _ _).mp h).symm
  trans h h' := (eqBy_iff heq hsame _ _).mpr
    (((eqBy_iff heq hsame _ _).mp h).trans ((eqBy_iff heq hsame _ _).mp h'))

/-- A container filled with elements equal to those of another one is equal to it, in
whatever order it is visited. -/
theorem eqBy_of_map (heq : Equivalence fun a b => eq a b = true)
    (hsame : ∀ a b, eq a b = true → same a b = true) {f : α → α} (hf : ∀ a, eq (f a) a = true)
    {s t : Unordered same} (h : s.toList.Perm (t.toList.map f)) : eqBy eq s t = true := by
  rw [eqBy_iff heq hsame]
  have hmap : (t.toList.map f).map (Quotient.mk ⟨_, heq⟩) =
      t.toList.map (Quotient.mk ⟨_, heq⟩) := by
    rw [List.map_map]
    exact List.map_congr_left fun a _ => Quotient.sound (hf a)
  exact (h.map _).trans (hmap ▸ List.Perm.refl _)

end Unordered
