/-
Sylar/Lib/Arena.lean

Objects behind shared pointers.  An arena holds every object of one type that
has been created; a pointer is the number of the object.  Objects are never
reclaimed, so a pointer that was handed out stays good, which is what a
reference-counted pointer promises its holder.

Reading is total: the default object stands at every address where nothing has
been created yet.  The three laws a proof needs are

    get_alloc_self   the new object is what was put there
    get_alloc_of_mem no object that existed has changed
    get_modify       a write is seen at its own pointer and nowhere else
-/
import Mathlib.Data.List.Basic

/-- A pointer to an object of type `α`. -/
@[ext] structure Ptr (α : Type*) where
  addr : Nat
  deriving Repr

/-- Pointers are compared by address, whatever they point to. -/
instance {α : Type*} : DecidableEq (Ptr α) :=
  fun _ _ => decidable_of_iff _ Ptr.ext_iff.symm

/-- All objects of type `α` created so far, by address. -/
structure Arena (α : Type*) where
  objects : List α
  deriving DecidableEq, Repr

namespace Arena

variable {α : Type*}

/-- No object has been created. -/
def empty : Arena α := ⟨[]⟩

instance : Membership (Ptr α) (Arena α) := ⟨fun a p => p.addr < a.objects.length⟩

theorem mem_iff {a : Arena α} {p : Ptr α} : p ∈ a ↔ p.addr < a.objects.length := Iff.rfl

instance (a : Arena α) (p : Ptr α) : Decidable (p ∈ a) := decidable_of_iff _ mem_iff.symm

/-- The object behind `p`. -/
def get [Inhabited α] (a : Arena α) (p : Ptr α) : α := a.objects.getD p.addr default

/-- The pointer the next new object will have. -/
def fresh (a : Arena α) : Ptr α := ⟨a.objects.length⟩

/-- Create an object; it is found at `a.fresh`. -/
def alloc (a : Arena α) (x : α) : Arena α := ⟨a.objects ++ [x]⟩

/-- Change the object behind `p`. -/
def modify (a : Arena α) (p : Ptr α) (f : α → α) : Arena α := ⟨a.objects.modify p.addr f⟩

@[simp] theorem not_mem_empty (p : Ptr α) : p ∉ (empty : Arena α) := by simp [mem_iff, empty]

theorem fresh_notMem (a : Arena α) : a.fresh ∉ a := by simp [mem_iff, fresh]

theorem ne_fresh {a : Arena α} {p : Ptr α} (h : p ∈ a) : p ≠ a.fresh :=
  fun e => a.fresh_notMem (e ▸ h)

/-! ### Which pointers are good -/

@[simp] theorem fresh_mem_alloc (a : Arena α) (x : α) : a.fresh ∈ a.alloc x := by
  simp [mem_iff, fresh, alloc]

theorem mem_alloc_of_mem {a : Arena α} {p : Ptr α} (x : α) (h : p ∈ a) : p ∈ a.alloc x := by
  simp only [mem_iff, alloc, List.length_append, List.length_singleton] at *
  omega

theorem mem_alloc {a : Arena α} {p : Ptr α} {x : α} : p ∈ a.alloc x ↔ p ∈ a ∨ p = a.fresh := by
  simp only [mem_iff, alloc, fresh, List.length_append, List.length_singleton, Ptr.ext_iff]
  omega

@[simp] theorem mem_modify {a : Arena α} {p q : Ptr α} {f : α → α} :
    p ∈ a.modify q f ↔ p ∈ a := by
  simp [mem_iff, modify]

@[simp] theorem fresh_modify (a : Arena α) (q : Ptr α) (f : α → α) :
    (a.modify q f).fresh = a.fresh := by
  simp [fresh, modify]

/-! ### What is read -/

variable [Inhabited α]

@[simp] theorem get_alloc_self (a : Arena α) (x : α) : (a.alloc x).get a.fresh = x := by
  simp [get, alloc, fresh]

theorem get_of_notMem {a : Arena α} {p : Ptr α} (h : p ∉ a) : a.get p = default := by
  have hnone : a.objects[p.addr]? = none := List.getElem?_eq_none (Nat.le_of_not_lt h)
  simp [get, hnone]

theorem get_alloc_of_mem {a : Arena α} {p : Ptr α} (x : α) (h : p ∈ a) :
    (a.alloc x).get p = a.get p := by
  simp only [get, alloc, List.getD_eq_getElem?_getD]
  rw [List.getElem?_append_left h]

theorem get_alloc_of_ne {a : Arena α} {p : Ptr α} (x : α) (h : p ≠ a.fresh) :
    (a.alloc x).get p = a.get p := by
  by_cases hp : p ∈ a
  · exact get_alloc_of_mem x hp
  · rw [get_of_notMem hp, get_of_notMem fun hm => (mem_alloc.mp hm).elim hp h]

theorem get_modify_self {a : Arena α} {p : Ptr α} (f : α → α) (h : p ∈ a) :
    (a.modify p f).get p = f (a.get p) := by
  simp [get, modify, List.getElem?_eq_getElem (mem_iff.mp h)]

theorem get_modify_of_ne {a : Arena α} {p q : Ptr α} (f : α → α) (h : p ≠ q) :
    (a.modify q f).get p = a.get p := by
  have hne : q.addr ≠ p.addr := fun e => h (Ptr.ext e.symm)
  simp [get, modify, hne]

/-- A write that leaves some part `g` of the object alone is not seen through `g`. -/
theorem get_modify_proj {β : Type*} (a : Arena α) (p q : Ptr α) (f : α → α) (g : α → β)
    (hg : ∀ x, g (f x) = g x) : g ((a.modify q f).get p) = g (a.get p) := by
  by_cases hpq : p = q
  · subst hpq
    by_cases hp : p ∈ a
    · rw [get_modify_self f hp, hg]
    · rw [get_of_notMem hp, get_of_notMem fun hm => hp (mem_modify.mp hm)]
  · rw [get_modify_of_ne f hpq]

omit [Inhabited α] in
/-- An object changed right after it was created might as well have been created
changed. -/
@[simp] theorem modify_alloc_self (a : Arena α) (x : α) (f : α → α) :
    (a.alloc x).modify a.fresh f = a.alloc (f x) := by
  have hlist : (a.objects ++ [x]).modify a.objects.length f = a.objects ++ [f x] := by
    apply List.ext_getElem?
    intro i
    rcases Nat.lt_trichotomy i a.objects.length with hi | rfl | hi
    · simp [List.getElem?_append_left hi, Nat.ne_of_gt hi]
    · simp
    · simp [List.getElem?_append_right (Nat.le_of_lt hi), Nat.ne_of_lt hi,
        Nat.sub_ne_zero_of_lt hi]
  exact congrArg Arena.mk hlist

/-! ### Objects of types without a default -/

section Partial

omit [Inhabited α]

/-- The object behind `p`, if there is one. -/
def get? (a : Arena α) (p : Ptr α) : Option α := a.objects[p.addr]?

variable {a : Arena α} {p q : Ptr α}

theorem mem_of_get? {x : α} (h : a.get? p = some x) : p ∈ a :=
  (List.getElem?_eq_some_iff.mp h).1

@[simp] theorem get?_empty (p : Ptr α) : (empty : Arena α).get? p = none := rfl

@[simp] theorem get?_alloc_self (a : Arena α) (x : α) : (a.alloc x).get? a.fresh = some x := by
  simp [get?, alloc, fresh]

theorem get?_alloc_of_mem (x : α) (h : p ∈ a) : (a.alloc x).get? p = a.get? p :=
  List.getElem?_append_left h

/-- What can be found after an object was created. -/
theorem get?_alloc_eq_some {x y : α} (h : (a.alloc x).get? p = some y) :
    a.get? p = some y ∨ p = a.fresh ∧ y = x := by
  rcases mem_alloc.mp (mem_of_get? h) with hp | rfl
  · rw [get?_alloc_of_mem x hp] at h
    exact Or.inl h
  · rw [get?_alloc_self] at h
    exact Or.inr ⟨rfl, (Option.some.inj h).symm⟩

theorem get?_modify_self (f : α → α) : (a.modify p f).get? p = (a.get? p).map f := by
  simp [get?, modify]

theorem get?_modify_of_ne (f : α → α) (h : p ≠ q) : (a.modify q f).get? p = a.get? p := by
  have hne : q.addr ≠ p.addr := fun e => h (Ptr.ext e.symm)
  simp [get?, modify, hne]

end Partial

/-! ### Parts that stay -/

section Keeps

omit [Inhabited α]

variable {β : Type*}

/-- What `f` tells of the object behind `p`, once there is one, is the same in `b`. -/
def Keeps (f : α → β) (p : Ptr α) (a b : Arena α) : Prop :=
  ∀ y, (a.get? p).map f = some y → (b.get? p).map f = some y

variable {f : α → β} {p q : Ptr α} {a b c : Arena α}

theorem Keeps.refl (f : α → β) (p : Ptr α) (a : Arena α) : Keeps f p a a := fun _ h => h

theorem Keeps.trans (h : Keeps f p a b) (h' : Keeps f p b c) : Keeps f p a c :=
  fun y hy => h' y (h y hy)

theorem keeps_alloc (x : α) : Keeps f p a (a.alloc x) := by
  intro y hy
  obtain ⟨z, hz, hfz⟩ := Option.map_eq_some_iff.mp hy
  rw [get?_alloc_of_mem x (mem_of_get? hz)]
  exact hy

theorem keeps_modify {g : α → α} (hg : ∀ x, f (g x) = f x) : Keeps f p a (a.modify q g) := by
  intro y hy
  by_cases hpq : p = q
  · subst hpq
    rw [get?_modify_self, Option.map_map, show f ∘ g = f from funext hg]
    exact hy
  · rw [get?_modify_of_ne g hpq]
    exact hy

theorem keeps_modify_of_ne {g : α → α} (h : p ≠ q) : Keeps f p a (a.modify q g) := by
  intro y hy
  rw [get?_modify_of_ne g h]
  exact hy

end Keeps

/-! ### Growing -/

/-- Every object of `a` is in `b`, unchanged. -/
def Grows (a b : Arena α) : Prop := ∀ p ∈ a, p ∈ b ∧ b.get p = a.get p

theorem Grows.refl (a : Arena α) : a.Grows a := fun _ hp => ⟨hp, rfl⟩

theorem Grows.trans {a b c : Arena α} (h : a.Grows b) (h' : b.Grows c) : a.Grows c := by
  intro p hp
  obtain ⟨hb, hget⟩ := h p hp
  obtain ⟨hc, hget'⟩ := h' p hb
  exact ⟨hc, hget'.trans hget⟩

theorem grows_alloc (a : Arena α) (x : α) : a.Grows (a.alloc x) :=
  fun _ hp => ⟨mem_alloc_of_mem x hp, get_alloc_of_mem x hp⟩

end Arena
