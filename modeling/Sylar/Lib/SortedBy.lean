/-
Sylar/Lib/SortedBy.lean

Ordered containers.  `SortedBy key` is a list whose keys strictly increase,
with the proof of that as a field: the content of an ordered set compared
through `key`, visited in order.  An ordered map is the same thing for pairs
compared through their first component.

Two insertions differ only in what happens to an element already stored under
the key: `insert` keeps it (a set), `assign` replaces it (`m[k] = v`).  Both
are `place`, and everything said about them is said once, about `place`.
-/
import Mathlib.Data.List.Basic
import Mathlib.Data.List.Induction
import Mathlib.Logic.Function.Basic
import Mathlib.Order.Lattice

/-- A list of elements with strictly increasing keys. -/
structure SortedBy {α κ : Type*} [LinearOrder κ] (key : α → κ) where
  toList : List α
  sorted : toList.Pairwise fun a b => key a < key b

/-- An ordered map from `κ` to `β`. -/
abbrev SortedMap (κ β : Type*) [LinearOrder κ] := SortedBy (Prod.fst : κ × β → κ)

namespace SortedBy

variable {α κ : Type*} [LinearOrder κ] {key : α → κ}

@[ext] theorem ext {s t : SortedBy key} (h : s.toList = t.toList) : s = t := by
  cases s; cases t; cases h; rfl

instance [DecidableEq α] : DecidableEq (SortedBy key) := fun s t =>
  decidable_of_iff (s.toList = t.toList) ⟨ext, fun h => h ▸ rfl⟩

instance : Membership α (SortedBy key) := ⟨fun s a => a ∈ s.toList⟩

theorem mem_def {s : SortedBy key} {a : α} : a ∈ s ↔ a ∈ s.toList := Iff.rfl

/-- The container with nothing in it. -/
def empty : SortedBy key := ⟨[], List.Pairwise.nil⟩

instance : Inhabited (SortedBy key) := ⟨empty⟩

@[simp] theorem toList_empty : (empty : SortedBy key).toList = [] := rfl

@[simp] theorem not_mem_empty (a : α) : a ∉ (empty : SortedBy key) := List.not_mem_nil

/-- The element stored under `k`. -/
def find? (s : SortedBy key) (k : κ) : Option α := s.toList.find? fun a => key a = k

/-- Put `x` where it belongs.  `keep` says whether an element already stored
under its key stays. -/
def place (key : α → κ) (keep : Bool) (x : α) : List α → List α
  | [] => [x]
  | y :: ys =>
      if key x < key y then x :: y :: ys
      else if key y < key x then y :: place key keep x ys
      -- equal keys, as far as the order can tell
      else (if keep then y else x) :: ys

/-! ### Placing an element -/

theorem place_of_lt (keep : Bool) {x y : α} (ys : List α) (h : key x < key y) :
    place key keep x (y :: ys) = x :: y :: ys := by
  rw [place, if_pos h]

theorem place_of_gt (keep : Bool) {x y : α} (ys : List α) (h : key y < key x) :
    place key keep x (y :: ys) = y :: place key keep x ys := by
  rw [place, if_neg h.not_gt, if_pos h]

theorem place_of_eq (keep : Bool) {x y : α} (ys : List α) (h : key x = key y) :
    place key keep x (y :: ys) = (if keep then y else x) :: ys := by
  rw [place, if_neg (by simp [h]), if_neg (by simp [h])]

theorem mem_place {keep : Bool} {x a : α} {l : List α} (h : a ∈ place key keep x l) :
    a = x ∨ a ∈ l := by
  induction l with
  | nil => exact Or.inl (List.mem_singleton.mp h)
  | cons y ys ih =>
      rcases lt_trichotomy (key x) (key y) with hxy | hxy | hxy
      · rw [place_of_lt keep ys hxy] at h
        exact List.mem_cons.mp h
      · rw [place_of_eq keep ys hxy] at h
        cases keep
        · exact (List.mem_cons.mp h).imp_right (List.mem_cons_of_mem y)
        · exact Or.inr h
      · rw [place_of_gt keep ys hxy] at h
        rcases List.mem_cons.mp h with rfl | h
        · exact Or.inr List.mem_cons_self
        · exact (ih h).imp_right (List.mem_cons_of_mem y)

theorem pairwise_place (keep : Bool) (x : α) {l : List α}
    (h : l.Pairwise fun a b => key a < key b) :
    (place key keep x l).Pairwise fun a b => key a < key b := by
  induction l with
  | nil => exact List.pairwise_singleton _ _
  | cons y ys ih =>
      obtain ⟨hy, hys⟩ := List.pairwise_cons.mp h
      rcases lt_trichotomy (key x) (key y) with hxy | hxy | hxy
      · rw [place_of_lt keep ys hxy]
        refine List.pairwise_cons.mpr ⟨fun a ha => ?_, h⟩
        rcases List.mem_cons.mp ha with rfl | ha
        · exact hxy
        · exact hxy.trans (hy a ha)
      · rw [place_of_eq keep ys hxy]
        cases keep
        · exact List.pairwise_cons.mpr ⟨fun a ha => lt_of_eq_of_lt hxy (hy a ha), hys⟩
        · exact h
      · rw [place_of_gt keep ys hxy]
        refine List.pairwise_cons.mpr ⟨fun a ha => ?_, ih hys⟩
        rcases mem_place ha with rfl | ha
        · exact hxy
        · exact hy a ha

/-- Insert into a set: an element already stored under the key stays. -/
def insert (s : SortedBy key) (x : α) : SortedBy key :=
  ⟨place key true x s.toList, pairwise_place true x s.sorted⟩

/-- Store `x` under its key, whatever was there. -/
def assign (s : SortedBy key) (x : α) : SortedBy key :=
  ⟨place key false x s.toList, pairwise_place false x s.sorted⟩

/-! ### Looking up -/

theorem find?_eq_some {s : SortedBy key} {k : κ} {a : α} :
    s.find? k = some a ↔ a ∈ s ∧ key a = k := by
  rw [find?, mem_def]
  constructor
  · intro h
    exact ⟨List.mem_of_find?_eq_some h, by simpa using List.find?_some h⟩
  · rintro ⟨ha, rfl⟩
    -- whatever comes before `a` has a smaller key
    have aux : ∀ l : List α, l.Pairwise (fun a b => key a < key b) → a ∈ l →
        l.find? (fun b => key b = key a) = some a := by
      intro l hl ha
      induction l with
      | nil => cases ha
      | cons y ys ih =>
          obtain ⟨hy, hys⟩ := List.pairwise_cons.mp hl
          rcases List.mem_cons.mp ha with rfl | ha
          · simp
          · rw [List.find?_cons_of_neg (by simpa using (hy a ha).ne)]
            exact ih hys ha
    exact aux s.toList s.sorted ha

theorem find?_eq_none {s : SortedBy key} {k : κ} :
    s.find? k = none ↔ ∀ a ∈ s, key a ≠ k := by
  simp [find?, mem_def]

@[simp] theorem find?_empty (k : κ) : (empty : SortedBy key).find? k = none := rfl

/-- Elements with the same key are the same element. -/
theorem eq_of_key_eq {s : SortedBy key} {a b : α} (ha : a ∈ s) (hb : b ∈ s)
    (h : key a = key b) : a = b :=
  Option.some.inj ((find?_eq_some.mpr ⟨ha, h⟩).symm.trans (find?_eq_some.mpr ⟨hb, rfl⟩))

theorem find?_place_self (keep : Bool) (x : α) {l : List α}
    (h : l.Pairwise fun a b => key a < key b) :
    (place key keep x l).find? (fun a => key a = key x) =
      some (if keep then (l.find? fun a => key a = key x).getD x else x) := by
  induction l with
  | nil => cases keep <;> simp [place]
  | cons y ys ih =>
      obtain ⟨hy, hys⟩ := List.pairwise_cons.mp h
      rcases lt_trichotomy (key x) (key y) with hxy | hxy | hxy
      · have hnone : (y :: ys).find? (fun a => key a = key x) = none := by
          rw [List.find?_eq_none]
          intro a ha
          rcases List.mem_cons.mp ha with rfl | ha
          · simpa using hxy.ne'
          · simpa using (hxy.trans (hy a ha)).ne'
        rw [place_of_lt keep ys hxy, hnone]
        simp
      · rw [place_of_eq keep ys hxy]
        cases keep <;> simp [hxy]
      · rw [place_of_gt keep ys hxy, List.find?_cons_of_neg (by simpa using hxy.ne), ih hys,
          List.find?_cons_of_neg (by simpa using hxy.ne)]

theorem find?_place_of_ne (keep : Bool) {x : α} {k : κ} (hk : key x ≠ k) (l : List α) :
    (place key keep x l).find? (fun a => key a = k) = l.find? fun a => key a = k := by
  induction l with
  | nil => simp [place, hk]
  | cons y ys ih =>
      rcases lt_trichotomy (key x) (key y) with hxy | hxy | hxy
      · rw [place_of_lt keep ys hxy, List.find?_cons_of_neg (by simpa using hk)]
      · rw [place_of_eq keep ys hxy]
        cases keep
        · simp [← hxy, hk]
        · rfl
      · rw [place_of_gt keep ys hxy]
        by_cases hy : key y = k
        · simp [hy]
        · rw [List.find?_cons_of_neg (by simpa using hy), ih,
            List.find?_cons_of_neg (by simpa using hy)]

@[simp] theorem find?_assign_self (s : SortedBy key) (x : α) :
    (s.assign x).find? (key x) = some x := by
  simpa [find?, assign] using find?_place_self false x s.sorted

theorem find?_assign_of_ne (s : SortedBy key) {x : α} {k : κ} (h : key x ≠ k) :
    (s.assign x).find? k = s.find? k :=
  find?_place_of_ne false h s.toList

/-- Remove what is stored under `k`. -/
def erase (s : SortedBy key) (k : κ) : SortedBy key :=
  ⟨s.toList.filter fun a => key a ≠ k, s.sorted.filter _⟩

/-- That is at most one element. -/
theorem filter_key_eq (s : SortedBy key) (k : κ) :
    (s.toList.filter fun a => key a = k) = (s.find? k).toList := by
  cases hk : s.find? k with
  | none =>
      apply List.filter_eq_nil_iff.mpr
      intro a ha
      simpa using find?_eq_none.mp hk a ha
  | some a =>
      obtain ⟨ha, hka⟩ := find?_eq_some.mp hk
      have hnodup : (s.toList.filter fun a => key a = k).Nodup :=
        (s.sorted.imp fun h => ne_of_apply_ne key h.ne).filter _
      have hmem : ∀ b, b ∈ (s.toList.filter fun a => key a = k) ↔ b = a := by
        intro b
        rw [List.mem_filter, decide_eq_true_eq]
        constructor
        · rintro ⟨hb, hkb⟩
          exact eq_of_key_eq hb ha (hkb.trans hka.symm)
        · rintro rfl
          exact ⟨ha, hka⟩
      refine List.perm_singleton.mp ((List.perm_ext_iff_of_nodup hnodup
        (List.nodup_cons.mpr ⟨List.not_mem_nil, List.nodup_nil⟩)).mpr fun b => ?_)
      rw [hmem, List.mem_singleton]

/-! ### Filling a set in ascending order -/

theorem place_of_forall_lt (keep : Bool) {x : α} {l : List α} (h : ∀ y ∈ l, key y < key x) :
    place key keep x l = l ++ [x] := by
  induction l with
  | nil => rfl
  | cons y ys ih =>
      rw [place_of_gt keep ys (h y List.mem_cons_self),
        ih fun z hz => h z (List.mem_cons_of_mem y hz)]
      rfl

theorem toList_insert_of_forall_lt {s : SortedBy key} {x : α} (h : ∀ y ∈ s, key y < key x) :
    (s.insert x).toList = s.toList ++ [x] :=
  place_of_forall_lt true h

/-- Elements in ascending order are all inserted. -/
theorem toList_foldl_insert {l : List α} (hl : l.Pairwise fun a b => key a < key b) :
    (l.foldl insert (empty : SortedBy key)).toList = l := by
  induction l using List.reverseRecOn with
  | nil => rfl
  | append_singleton l a ih =>
      obtain ⟨hl, _, hla⟩ := List.pairwise_append.mp hl
      rw [List.foldl_append, List.foldl_cons, List.foldl_nil, toList_insert_of_forall_lt, ih hl]
      intro b hb
      rw [mem_def, ih hl] at hb
      exact hla b hb a (List.mem_singleton.mpr rfl)

theorem toList_assign_of_forall_lt {s : SortedBy key} {x : α} (h : ∀ y ∈ s, key y < key x) :
    (s.assign x).toList = s.toList ++ [x] :=
  place_of_forall_lt false h

/-- The same container with every element replaced by one with the same key. -/
def map (s : SortedBy key) (f : α → α) (hf : ∀ a, key (f a) = key a) : SortedBy key :=
  ⟨s.toList.map f, List.pairwise_map.mpr (s.sorted.imp fun h => by rwa [hf, hf])⟩

theorem map_eq_self_iff {s : SortedBy key} {f : α → α} {hf : ∀ a, key (f a) = key a} :
    s.map f hf = s ↔ ∀ a ∈ s, f a = a := by
  constructor
  · intro h
    have hlist : s.toList.map f = s.toList.map id := by
      simpa [map] using congrArg toList h
    exact List.map_inj_left.mp hlist
  · intro h
    exact ext ((List.map_congr_left h).trans (List.map_id _))

end SortedBy

namespace SortedMap

variable {κ β : Type*} [LinearOrder κ]

/-- The value stored under `k`. -/
def get? (m : SortedMap κ β) (k : κ) : Option β := (m.find? k).map Prod.snd

/-- `m[k] = v`. -/
def set (m : SortedMap κ β) (k : κ) (v : β) : SortedMap κ β := m.assign (k, v)

theorem get?_eq_some {m : SortedMap κ β} {k : κ} {v : β} : m.get? k = some v ↔ (k, v) ∈ m := by
  rw [get?, Option.map_eq_some_iff]
  constructor
  · rintro ⟨⟨k', v'⟩, h, rfl⟩
    obtain ⟨hm, rfl⟩ := SortedBy.find?_eq_some.mp h
    exact hm
  · intro h
    exact ⟨(k, v), SortedBy.find?_eq_some.mpr ⟨h, rfl⟩, rfl⟩

/-- The pairs with the key `k`: the one stored under it. -/
theorem filter_key_eq (m : SortedMap κ β) (k : κ) :
    (m.toList.filter fun a => a.1 = k) = ((m.get? k).map fun v => (k, v)).toList := by
  have hfilter := SortedBy.filter_key_eq m k
  rw [hfilter, get?]
  cases hk : m.find? k with
  | none => rfl
  | some a =>
      obtain ⟨_, rfl⟩ := SortedBy.find?_eq_some.mp hk
      rfl

@[simp] theorem get?_empty (k : κ) : get? (SortedBy.empty : SortedMap κ β) k = none := rfl

@[simp] theorem get?_set_self (m : SortedMap κ β) (k : κ) (v : β) : (set m k v).get? k = some v := by
  have h := SortedBy.find?_assign_self m (k, v)
  exact congrArg (Option.map Prod.snd) h

theorem get?_set_of_ne (m : SortedMap κ β) {k k' : κ} (v : β) (h : k' ≠ k) :
    (set m k' v).get? k = m.get? k := by
  have h' := SortedBy.find?_assign_of_ne m (x := (k', v)) h
  exact congrArg (Option.map Prod.snd) h'

theorem get?_set (m : SortedMap κ β) (k : κ) (v : β) :
    (set m k v).get? = Function.update m.get? k (some v) := by
  funext k'
  by_cases h : k' = k
  · rw [h, get?_set_self, Function.update_self]
  · rw [get?_set_of_ne m v (Ne.symm h), Function.update_of_ne h]

end SortedMap
