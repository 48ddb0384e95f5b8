/-
Sylar/Lib/Lines.lean

Lines, each ended by a separator.

Two texts of equally many lines are equal only if their lines are, as soon as no
line of one of them contains the separator (`unlines_inj`): the separators of a
text can be counted, and there is none left for the lines of the other.
-/
import Mathlib.Data.List.Basic

namespace Lines

variable {α : Type*} {sep : α} {xs ys : List (List α)}

/-- Where a text is divided at the first element of a kind, it is so in one way. -/
theorem append_cons_inj {E : α → Prop} {x y u v : List α} {a b : α} (hx : ∀ c ∈ x, ¬ E c)
    (hy : ∀ c ∈ y, ¬ E c) (ha : E a) (hb : E b) (h : x ++ a :: u = y ++ b :: v) :
    x = y ∧ a = b ∧ u = v := by
  induction x generalizing y with
  | nil =>
      cases y with
      | nil => exact ⟨rfl, (List.cons.inj h).1, (List.cons.inj h).2⟩
      | cons d y => exact absurd ((List.cons.inj h).1 ▸ ha) (hy d List.mem_cons_self)
  | cons c x ih =>
      cases y with
      | nil => exact absurd ((List.cons.inj h).1.symm ▸ hb) (hx c List.mem_cons_self)
      | cons d y =>
          obtain ⟨rfl, htail⟩ := List.cons.inj h
          obtain ⟨rfl, hrest⟩ := ih (fun e he => hx e (List.mem_cons_of_mem c he))
            (fun e he => hy e (List.mem_cons_of_mem c he)) htail
          exact ⟨rfl, hrest⟩

/-- The lines one after the other, with a separator behind each. -/
def unlines (sep : α) (xs : List (List α)) : List α := xs.flatMap (· ++ [sep])

@[simp] theorem unlines_nil : unlines sep [] = [] := rfl

@[simp] theorem unlines_cons (x : List α) :
    unlines sep (x :: xs) = x ++ sep :: unlines sep xs := by
  rw [unlines, List.flatMap_cons, List.append_assoc]
  rfl

section Count

variable [DecidableEq α]

theorem count_unlines_cons (x : List α) :
    (unlines sep (x :: xs)).count sep = x.count sep + ((unlines sep xs).count sep + 1) := by
  rw [unlines_cons, List.count_append, List.count_cons_self]

theorem count_unlines (hxs : ∀ x ∈ xs, sep ∉ x) : (unlines sep xs).count sep = xs.length := by
  induction xs with
  | nil => rfl
  | cons x xs ih =>
      obtain ⟨hx, hxs⟩ := List.forall_mem_cons.mp hxs
      rw [count_unlines_cons, List.count_eq_zero.mpr hx, ih hxs, Nat.zero_add, List.length_cons]

theorem length_le_count_unlines (sep : α) (xs : List (List α)) :
    xs.length ≤ (unlines sep xs).count sep := by
  induction xs with
  | nil => exact Nat.zero_le _
  | cons x xs ih =>
      rw [count_unlines_cons, List.length_cons]
      omega

theorem length_lt_count_unlines {x : List α} (hx : x ∈ xs) (hsep : sep ∈ x) :
    xs.length < (unlines sep xs).count sep := by
  induction xs with
  | nil => cases hx
  | cons y xs ih =>
      rw [count_unlines_cons, List.length_cons]
      rcases List.mem_cons.mp hx with rfl | hx
      · have hpos := List.count_pos_iff.mpr hsep
        have hle := length_le_count_unlines sep xs
        omega
      · have hlt := ih hx
        omega

end Count

/-- Equally many lines make the same text: then the separator is in some of both or of neither. -/
theorem notMem_of_unlines_eq (hxs : ∀ x ∈ xs, sep ∉ x) (hlen : xs.length = ys.length)
    (h : unlines sep xs = unlines sep ys) : ∀ y ∈ ys, sep ∉ y := by
  classical
  intro y hy hsep
  have hlt := length_lt_count_unlines hy hsep
  rw [← h, count_unlines hxs, hlen] at hlt
  exact Nat.lt_irrefl _ hlt

/-- **The text determines the lines.** -/
theorem unlines_inj (hxs : ∀ x ∈ xs, sep ∉ x) (hlen : xs.length = ys.length) :
    unlines sep xs = unlines sep ys ↔ xs = ys := by
  constructor
  · intro h
    have hys := notMem_of_unlines_eq hxs hlen h
    induction xs generalizing ys with
    | nil => exact (List.length_eq_zero_iff.mp hlen.symm).symm
    | cons x xs ih =>
        cases ys with
        | nil => cases hlen
        | cons y ys =>
            obtain ⟨hx, hxs⟩ := List.forall_mem_cons.mp hxs
            obtain ⟨hy, hys'⟩ := List.forall_mem_cons.mp hys
            rw [unlines_cons, unlines_cons] at h
            obtain ⟨rfl, _, h⟩ := append_cons_inj (E := (· = sep)) (fun c hc e => hx (e ▸ hc))
              (fun c hc e => hy (e ▸ hc)) rfl rfl h
            obtain rfl := ih hxs (Nat.succ.inj hlen) h hys'
            rfl
  · exact congrArg (unlines sep)

end Lines
