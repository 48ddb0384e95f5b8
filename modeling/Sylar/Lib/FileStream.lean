/-
Sylar/Lib/FileStream.lean

A C++ file stream opened in its default mode, for reading and writing.

The stream and its file are one object here: the bytes of the file, what is
still in the buffer included, the position, whether the stream is open, and its
fail bits.  Opening puts the position at the beginning and keeps the bytes; it
fails on a stream that is open already.  Writing replaces the bytes from the
position on.  A write that fails may still have put some of its bytes into the
file.

    length_overwrite      a write lengthens the file only by what does not fit
    overwrite_length      at the end of the file a write appends
    prefix_overwrite_iff  elsewhere the bytes stay only if what is put agrees with them
-/
import Mathlib.Data.List.Induction

/-- A stream and its file. -/
structure FileStream (β : Type*) where
  content : List β
  pos : Nat
  isOpen : Bool
  failed : Bool
  deriving DecidableEq

namespace FileStream

variable {β : Type*}

/-! ### Replacing bytes -/

/-- The bytes `bs`, put at position `p`. -/
def overwrite (l : List β) (p : Nat) (bs : List β) : List β :=
  l.take p ++ bs ++ l.drop (p + bs.length)

theorem overwrite_length (l bs : List β) : overwrite l l.length bs = l ++ bs := by
  simp [overwrite]

theorem overwrite_nil (l : List β) (p : Nat) : overwrite l p [] = l := by
  simp [overwrite]

theorem length_overwrite {l : List β} {p : Nat} (hp : p ≤ l.length) (bs : List β) :
    (overwrite l p bs).length = max l.length (p + bs.length) := by
  simp only [overwrite, List.length_append, List.length_take, List.length_drop]
  omega

/-- Bytes can be put one piece after the other. -/
theorem overwrite_append {l : List β} {p : Nat} (hp : p ≤ l.length) (bs cs : List β) :
    overwrite (overwrite l p bs) (p + bs.length) cs = overwrite l p (bs ++ cs) := by
  have htake : (l.take p ++ bs).length = p + bs.length := by
    rw [List.length_append, List.length_take, Nat.min_eq_left hp]
  rw [overwrite, overwrite, overwrite, List.take_left' htake, ← List.drop_drop,
    List.drop_left' htake, List.drop_drop, List.length_append, Nat.add_assoc]
  simp only [List.append_assoc]

/-- The end of what has been put. -/
theorem le_length_overwrite {l : List β} {p : Nat} (hp : p ≤ l.length) (bs : List β) :
    p + bs.length ≤ (overwrite l p bs).length := by
  rw [length_overwrite hp]
  exact Nat.le_max_right _ _

/-- The bytes stay, and some may follow, exactly when what is put agrees with them as far
as both go. -/
theorem prefix_overwrite_iff (l : List β) (p : Nat) (bs : List β) :
    l <+: overwrite l p bs ↔ l.drop p <+: bs ∨ bs <+: l.drop p := by
  have hafter : l.take p ++ l.drop p <+: l.take p ++ (bs ++ l.drop (p + bs.length)) ↔
      l.drop p <+: bs ++ l.drop (p + bs.length) := List.prefix_append_right_inj _
  rw [List.take_append_drop] at hafter
  rw [overwrite, List.append_assoc, hafter]
  constructor
  · intro h
    exact List.prefix_or_prefix_of_prefix h (List.prefix_append bs _)
  · rintro (h | ⟨t, ht⟩)
    · exact h.trans (List.prefix_append bs _)
    · -- what follows `bs` there is left as it is
      have hrest : bs ++ l.drop (p + bs.length) = l.drop p := by
        rw [← List.drop_drop, ← ht, List.drop_left]
      exact ⟨[], (List.append_nil _).trans hrest.symm⟩

/-! ### Operations -/

/-- A stream that has just been constructed, and a file with the bytes `content`. -/
def closed (content : List β) : FileStream β := ⟨content, 0, false, false⟩

/-- `open(name)`; `canOpen` is what the system says. -/
def openFile (canOpen : Bool) (s : FileStream β) : FileStream β :=
  if s.isOpen || !canOpen then { s with failed := true }
  else { s with pos := 0, isOpen := true, failed := false }

/-- `close()`. -/
def close (s : FileStream β) : FileStream β :=
  if s.isOpen then { s with isOpen := false } else { s with failed := true }

/-- `<<`; with `fails = some k` the write fails after `k` bytes.  A stream that has failed
writes nothing, and one that is not open fails. -/
def write (bs : List β) (fails : Option Nat) (s : FileStream β) : FileStream β :=
  if s.failed then s
  else if !s.isOpen then { s with failed := true }
  else
    match fails with
    | none => { s with content := overwrite s.content s.pos bs, pos := s.pos + bs.length }
    | some k => { s with
        content := overwrite s.content s.pos (bs.take k)
        pos := s.pos + (bs.take k).length
        failed := true }

/-- The next write can succeed. -/
def Usable (s : FileStream β) : Prop := s.isOpen = true ∧ s.failed = false

instance (s : FileStream β) : Decidable s.Usable := inferInstanceAs (Decidable (_ ∧ _))

/-- The position is in the file, and a stream that has not failed is open. -/
structure WF (s : FileStream β) : Prop where
  pos_le : s.pos ≤ s.content.length
  isOpen : s.failed = false → s.isOpen = true

variable {s : FileStream β}

theorem write_of_failed (h : s.failed = true) (bs : List β) (fails : Option Nat) :
    s.write bs fails = s := if_pos h

theorem WF.write_ok (h : s.WF) (hs : s.failed = false) (bs : List β) :
    s.write bs none =
      { s with content := overwrite s.content s.pos bs, pos := s.pos + bs.length } := by
  simp [write, hs, h.isOpen hs]

theorem WF.write_fails (h : s.WF) (hs : s.failed = false) (bs : List β) (k : Nat) :
    s.write bs (some k) = { s with
      content := overwrite s.content s.pos (bs.take k)
      pos := s.pos + (bs.take k).length
      failed := true } := by
  simp [write, hs, h.isOpen hs]

theorem WF.write (h : s.WF) (bs : List β) (fails : Option Nat) : (s.write bs fails).WF := by
  cases hs : s.failed with
  | true => rwa [write_of_failed hs]
  | false =>
      cases fails with
      | none =>
          rw [h.write_ok hs]
          exact ⟨le_length_overwrite h.pos_le bs, h.isOpen⟩
      | some k =>
          rw [h.write_fails hs]
          exact ⟨le_length_overwrite h.pos_le _, fun hf => by cases hf⟩

theorem content_openFile (canOpen : Bool) (s : FileStream β) :
    (s.openFile canOpen).content = s.content := by
  unfold openFile
  split <;> rfl

theorem content_close (s : FileStream β) : s.close.content = s.content := by
  unfold close
  split <;> rfl

/-- Opening succeeds only on a stream that is not open, and fails otherwise. -/
theorem wf_openFile (canOpen : Bool) (hpos : s.pos ≤ s.content.length) :
    (s.openFile canOpen).WF := by
  unfold openFile
  split
  · exact ⟨hpos, fun hf => by cases hf⟩
  · exact ⟨Nat.zero_le _, fun _ => rfl⟩

end FileStream
