/-
Sylar/Lib/Overwrite.lean

One value, overwritten by the entries of a list in order.  An entry is read
first, and one that cannot be read leaves the value alone.

What is left at the end is the last entry that could be read.  So of equal
entries only the last matters (`settle_dedup`), and nothing else can be left out:
two lists that settle every value alike, however entries are read, have the same
last occurrences in the same order (`settle_eq_iff_dedup`).
-/
import Mathlib.Data.List.Dedup
import Mathlib.Data.List.Induction

namespace Overwrite

variable {α β : Type}

/-- The value after all entries of the list. -/
def settle (read : α → Option β) (b : β) (l : List α) : β :=
  l.foldl (fun b a => (read a).getD b) b

variable {read : α → Option β} {b : β} {l l' : List α}

@[simp] theorem settle_nil : settle read b [] = b := rfl

@[simp] theorem settle_cons (a : α) :
    settle read b (a :: l) = settle read ((read a).getD b) l := rfl

theorem settle_append : settle read b (l ++ l') = settle read (settle read b l) l' :=
  List.foldl_append

/-- The last entry that could be read. -/
theorem settle_eq (read : α → Option β) (b : β) (l : List α) :
    settle read b l = (l.filterMap read).getLast?.getD b := by
  induction l generalizing b with
  | nil => rfl
  | cons a l ih =>
      rw [settle_cons, ih, List.filterMap_cons]
      cases read a with
      | none => rfl
      | some v =>
          dsimp only [Option.getD_some]
          rw [List.getLast?_cons]
          cases (l.filterMap read).getLast? <;> rfl

/-- Doing it twice changes nothing more. -/
theorem settle_idem : settle read (settle read b l) l = settle read b l := by
  rw [settle_eq read (settle read b l), settle_eq read b]
  cases (l.filterMap read).getLast? <;> rfl

/-- As soon as one entry can be read, the value left is that of an entry. -/
theorem exists_read_settle (read : α → Option β) {a : α} {v : β} (ha : a ∈ l) (hread : read a = some v) :
    ∃ a' ∈ l, read a' = some (settle read b l) := by
  have hne : l.filterMap read ≠ [] :=
    List.ne_nil_of_mem (List.mem_filterMap.mpr ⟨a, ha, hread⟩)
  rw [settle_eq, List.getLast?_eq_some_getLast hne, Option.getD_some]
  exact List.mem_filterMap.mp (List.getLast_mem hne)

/-- Entries that read as the value change nothing. -/
theorem settle_of_forall (h : ∀ a ∈ l, (read a).getD b = b) : settle read b l = b := by
  induction l with
  | nil => rfl
  | cons a l ih =>
      rw [settle_cons, h a List.mem_cons_self]
      exact ih fun a' ha' => h a' (List.mem_cons_of_mem a ha')

/-- Entries that cannot be read change nothing. -/
theorem settle_of_none (h : ∀ a ∈ l, read a = none) : settle read b l = b :=
  settle_of_forall fun a ha => by rw [h a ha]; rfl

/-- An entry that comes again later could have been left out. -/
theorem settle_of_mem {a : α} (ha : a ∈ l) :
    settle read ((read a).getD b) l = settle read b l := by
  cases hread : read a with
  | none => rfl
  | some v =>
      have hne : l.filterMap read ≠ [] :=
        List.ne_nil_of_mem (List.mem_filterMap.mpr ⟨a, ha, hread⟩)
      rw [settle_eq, settle_eq, List.getLast?_eq_some_getLast hne]
      rfl

/-- Of equal entries only the last one counts. -/
theorem settle_dedup [DecidableEq α] (read : α → Option β) (b : β) (l : List α) :
    settle read b l.dedup = settle read b l := by
  induction l generalizing b with
  | nil => rfl
  | cons a l ih =>
      by_cases ha : a ∈ l
      · rw [List.dedup_cons_of_mem ha, settle_cons, settle_of_mem ha, ih]
      · rw [List.dedup_cons_of_notMem ha, settle_cons, settle_cons, ih]

/-- Lists with the same last occurrences settle a value alike. -/
theorem settle_congr [DecidableEq α] (h : l.dedup = l'.dedup) :
    settle read b l = settle read b l' := by
  rw [← settle_dedup read b l, ← settle_dedup read b l', h]

/-- A list without repetitions is known from the last elements of its sublists. -/
theorem eq_of_getLast?_filter [DecidableEq α] (hl : l.Nodup) (hl' : l'.Nodup)
    (h : ∀ keep : α → Bool, (l.filter keep).getLast? = (l'.filter keep).getLast?) : l = l' := by
  induction l using List.reverseRecOn generalizing l' with
  | nil =>
      have hnil := h fun _ => true
      simpa [eq_comm] using hnil
  | append_singleton l a ih =>
      have hlast := h fun _ => true
      simp only [List.filter_true, List.getLast?_append, List.getLast?_singleton,
        Option.some_or] at hlast
      obtain ⟨m, rfl⟩ := List.getLast?_eq_some_iff.mp hlast.symm
      -- `a` is nowhere else, so it can be filtered out of both
      have hdrop : ∀ {n : List α}, (n ++ [a]).Nodup → ∀ keep : α → Bool,
          (n ++ [a]).filter (fun x => keep x && x ≠ a) = n.filter keep := by
        intro n hn keep
        have ha := List.disjoint_singleton.mp (List.nodup_append'.mp hn).2.2
        rw [List.filter_append, List.filter_cons_of_neg (by simp), List.filter_nil,
          List.append_nil]
        apply List.filter_congr
        intro x hx
        have hxa : x ≠ a := fun e => ha (e ▸ hx)
        simp [hxa]
      refine congrArg (· ++ [a]) (ih (List.nodup_append'.mp hl).1 (List.nodup_append'.mp hl').1
        fun keep => ?_)
      rw [← hdrop hl, ← hdrop hl', h]

/-- Two lists settle every value alike exactly when they have the same last
occurrences in the same order. -/
theorem settle_eq_iff_dedup [DecidableEq α] {l l' : List α} :
    (∀ (read : α → Option (Option α)) (b : Option α), settle read b l = settle read b l') ↔
      l.dedup = l'.dedup := by
  constructor
  · intro h
    refine eq_of_getLast?_filter l.nodup_dedup l'.nodup_dedup fun keep => ?_
    -- entries are kept or not, and what is kept is stored
    have hsettle : ∀ m : List α,
        settle (fun a => if keep a then some (some a) else none) none m.dedup =
          (m.dedup.filter keep).getLast? := by
      intro m
      rw [settle_eq, ← List.filterMap_filter, List.filterMap_eq_map', List.getLast?_map]
      cases (m.dedup.filter keep).getLast? <;> rfl
    rw [← hsettle, ← hsettle, settle_dedup, settle_dedup, h]
  · exact fun h _ _ => settle_congr h

end Overwrite
