/-
Sylar/Lib/OutStream.lean

A buffered output stream on a file that other streams write to as well.

What is written goes into a buffer first, and from there, in order, to the place in the
file where the stream stands; when, is up to the library.  So flushing and closing give the
bytes that go out, each with its place, and `paint` says what becomes of a file when bytes
arrive, from whichever stream.

A `Cursor` is the same stream without the buffer: it puts every byte in its place at
once.  A stream follows a cursor if what has gone out and what is pending is together what the
cursor has put (`Follows`), and the operations keep to this, whenever the buffer is
flushed.  On a file of its own a cursor does what a `FileStream` does (`Cursor.On`).
-/
import Mathlib.Logic.Function.Basic
import Sylar.Lib.FileStream

/-- A stream: what is still to go out, and the place in the file where it begins. -/
structure OutStream (β : Type*) where
  pos : Nat
  buffer : List β
  isOpen : Bool
  failed : Bool
  deriving DecidableEq

namespace OutStream

variable {β : Type*}

/-! ### Files -/

/-- A file, by places, when bytes arrive at theirs, the last one last. -/
def paint (file : Nat → Option β) (bytes : List (β × Nat)) : Nat → Option β :=
  bytes.foldl (fun file b => Function.update file b.2 (some b.1)) file

theorem paint_append (file : Nat → Option β) (bytes bytes' : List (β × Nat)) :
    paint file (bytes ++ bytes') = paint (paint file bytes) bytes' := List.foldl_append

/-- A byte that arrives replaces the one that was there, or lengthens the file. -/
theorem update_getElem? {l : List β} {p : Nat} (hp : p ≤ l.length) (b : β) :
    Function.update (fun n => l[n]?) p (some b) = fun n => (FileStream.overwrite l p [b])[n]? := by
  rcases Nat.lt_or_eq_of_le hp with hp | rfl
  · have hset : FileStream.overwrite l p [b] = l.set p b := by
      rw [List.set_eq_take_append_cons_drop, if_pos hp, FileStream.overwrite, List.append_assoc]
      rfl
    rw [hset]
    funext n
    by_cases hn : n = p
    · subst hn
      rw [Function.update_self, List.getElem?_set_self hp]
    · rw [Function.update_of_ne hn, List.getElem?_set_ne (Ne.symm hn)]
  · rw [FileStream.overwrite_length]
    funext n
    by_cases hn : n = l.length
    · subst hn
      rw [Function.update_self, List.getElem?_concat_length]
    · rw [Function.update_of_ne hn]
      rcases Nat.lt_or_gt_of_ne hn with hlt | hgt
      · rw [List.getElem?_append_left hlt]
      · rw [List.getElem?_eq_none (Nat.le_of_lt hgt), List.getElem?_eq_none]
        rw [List.length_append]
        exact hgt

/-- Bytes that arrive side by side are put there at once. -/
theorem paint_zipIdx {l : List β} {p : Nat} (hp : p ≤ l.length) (bs : List β) :
    paint (fun n => l[n]?) (bs.zipIdx p) = fun n => (FileStream.overwrite l p bs)[n]? := by
  induction bs using List.reverseRecOn with
  | nil =>
      rw [FileStream.overwrite_nil]
      rfl
  | append_singleton bs b ih =>
      rw [List.zipIdx_append, paint_append, ih, ← FileStream.overwrite_append hp]
      exact update_getElem? (FileStream.le_length_overwrite hp bs) b

/-! ### Operations -/

/-- A stream that has just been opened. -/
def opened : OutStream β := ⟨0, [], true, false⟩

/-- What is still to go out. -/
def pending (s : OutStream β) : List (β × Nat) := s.buffer.zipIdx s.pos

/-- Bytes are written into the buffer.  A stream that has failed writes nothing, and one that is
not open fails. -/
def write (bs : List β) (s : OutStream β) : OutStream β :=
  if s.failed then s
  else if !s.isOpen then { s with failed := true }
  else { s with buffer := s.buffer ++ bs }

/-- A write does not succeed. -/
def fail (s : OutStream β) : OutStream β := { s with failed := true }

/-- Up to `n` bytes go out. -/
def flush (n : Nat) (s : OutStream β) : OutStream β × List (β × Nat) :=
  if s.isOpen && !s.failed then
    ({ s with pos := s.pos + (s.buffer.take n).length, buffer := s.buffer.drop n },
      (s.buffer.take n).zipIdx s.pos)
  else (s, [])

/-- `close()`: all that is pending goes out. -/
def close (s : OutStream β) : OutStream β × List (β × Nat) :=
  if s.isOpen then
    ({ s with pos := s.pos + s.buffer.length, buffer := [], isOpen := false }, s.pending)
  else ({ s with failed := true }, [])

/-- `open(name)`; `canOpen` is what the system says. -/
def openFile (canOpen : Bool) (s : OutStream β) : OutStream β :=
  if s.isOpen || !canOpen then { s with failed := true }
  else { s with pos := 0, isOpen := true, failed := false }

/-! ### Without the buffer -/

/-- The bytes that have been put, each in its place, and where the next one goes. -/
structure Cursor (β : Type*) where
  out : List (β × Nat)
  pos : Nat
  isOpen : Bool
  failed : Bool
  deriving DecidableEq

namespace Cursor

def opened : Cursor β := ⟨[], 0, true, false⟩

/-- With `fails = some k` the write fails after `k` bytes. -/
def write (bs : List β) (fails : Option Nat) (c : Cursor β) : Cursor β :=
  if c.failed then c
  else if !c.isOpen then { c with failed := true }
  else
    match fails with
    | none => { c with out := c.out ++ bs.zipIdx c.pos, pos := c.pos + bs.length }
    | some k => { c with
        out := c.out ++ (bs.take k).zipIdx c.pos
        pos := c.pos + (bs.take k).length
        failed := true }

def close (c : Cursor β) : Cursor β :=
  if c.isOpen then { c with isOpen := false } else { c with failed := true }

def openFile (canOpen : Bool) (c : Cursor β) : Cursor β :=
  if c.isOpen || !canOpen then { c with failed := true }
  else { c with pos := 0, isOpen := true, failed := false }

/-- Two writes that succeed are one. -/
theorem write_write (c : Cursor β) (bs cs : List β) :
    (c.write bs none).write cs none = c.write (bs ++ cs) none := by
  obtain ⟨out, pos, isOpen, failed⟩ := c
  cases failed <;> cases isOpen <;>
    simp [write, List.zipIdx_append, List.append_assoc, Nat.add_assoc]

/-- A write that fails is one of fewer bytes, and then the failure. -/
theorem write_then_fail (c : Cursor β) (bs : List β) (k : Nat) :
    { c.write (bs.take k) none with failed := true } = c.write bs (some k) := by
  obtain ⟨out, pos, isOpen, failed⟩ := c
  cases failed <;> cases isOpen <;> rfl

end Cursor

/-! ### A stream follows its cursor -/

/-- What has gone out from the stream, and what is pending, is what the cursor has put. -/
structure Follows (s : OutStream β) (c : Cursor β) (gone : List (β × Nat)) : Prop where
  out : gone ++ s.pending = c.out
  pos : s.pos + s.buffer.length = c.pos
  isOpen : s.isOpen = c.isOpen
  failed : s.failed = c.failed
  /-- A stream that is closed has nothing pending. -/
  closed : s.isOpen = false → s.buffer = []

theorem follows_opened : Follows (opened : OutStream β) .opened [] where
  out := rfl
  pos := rfl
  isOpen := rfl
  failed := rfl
  closed _ := rfl

variable {s : OutStream β} {c : Cursor β} {gone : List (β × Nat)}

theorem Follows.write (h : Follows s c gone) (bs : List β) :
    Follows (s.write bs) (c.write bs none) gone := by
  unfold OutStream.write Cursor.write
  rw [← h.isOpen, ← h.failed]
  split_ifs with hfailed hopen
  · exact h
  · exact ⟨h.out, h.pos, rfl, rfl, h.closed⟩
  · refine ⟨?_, ?_, rfl, rfl, fun hclosed => absurd hclosed (by simpa using hopen)⟩
    · show gone ++ (s.buffer ++ bs).zipIdx s.pos = c.out ++ bs.zipIdx c.pos
      rw [List.zipIdx_append, ← h.out, ← h.pos, List.append_assoc]
      rfl
    · show s.pos + (s.buffer ++ bs).length = c.pos + bs.length
      rw [List.length_append, ← Nat.add_assoc, h.pos]

theorem Follows.fail (h : Follows s c gone) : Follows s.fail { c with failed := true } gone :=
  ⟨h.out, h.pos, h.isOpen, rfl, h.closed⟩

/-- Whenever bytes go out, nothing is lost. -/
theorem Follows.flush (h : Follows s c gone) (n : Nat) :
    Follows (s.flush n).1 c (gone ++ (s.flush n).2) := by
  unfold OutStream.flush
  split_ifs with hopen
  · refine ⟨?_, ?_, h.isOpen, h.failed, fun hclosed => ?_⟩
    · show gone ++ (s.buffer.take n).zipIdx s.pos ++ (s.buffer.drop n).zipIdx _ = c.out
      rw [← h.out, List.append_assoc, ← List.zipIdx_append, List.take_append_drop]
      rfl
    · show s.pos + (s.buffer.take n).length + (s.buffer.drop n).length = c.pos
      rw [Nat.add_assoc, ← List.length_append, List.take_append_drop, h.pos]
    · show s.buffer.drop n = []
      rw [h.closed hclosed, List.drop_nil]
  · rw [List.append_nil]
    exact h

theorem Follows.close (h : Follows s c gone) :
    Follows s.close.1 c.close (gone ++ s.close.2) := by
  unfold OutStream.close Cursor.close
  rw [← h.isOpen]
  split_ifs with hopen
  · refine ⟨?_, h.pos, rfl, h.failed, fun _ => rfl⟩
    show gone ++ s.pending ++ [] = c.out
    rw [List.append_nil, h.out]
  · refine ⟨?_, h.pos, rfl, rfl, h.closed⟩
    rw [List.append_nil]
    exact h.out

theorem Follows.openFile (h : Follows s c gone) (canOpen : Bool) :
    Follows (s.openFile canOpen) (c.openFile canOpen) gone := by
  unfold OutStream.openFile Cursor.openFile
  rw [← h.isOpen]
  split_ifs with hopen
  · exact ⟨h.out, h.pos, rfl, rfl, h.closed⟩
  · have hbuffer : s.buffer = [] := h.closed (by
      cases hs : s.isOpen with
      | true => simp [hs] at hopen
      | false => rfl)
    refine ⟨?_, ?_, rfl, rfl, fun hclosed => by cases hclosed⟩
    · rw [← h.out]
      show gone ++ s.buffer.zipIdx 0 = gone ++ s.buffer.zipIdx s.pos
      rw [hbuffer]
      rfl
    · show 0 + s.buffer.length = 0
      rw [hbuffer]
      rfl

/-! ### A file of its own -/

/-- The cursor has made of the bytes `l` what the stream with its file has. -/
structure Cursor.On (l : List β) (c : Cursor β) (s : FileStream β) : Prop where
  content : paint (fun n => l[n]?) c.out = fun n => s.content[n]?
  pos : c.pos = s.pos
  isOpen : c.isOpen = s.isOpen
  failed : c.failed = s.failed
  pos_le : s.pos ≤ s.content.length

namespace Cursor

variable {l : List β} {s : FileStream β}

theorem On.write (h : On l c s) (bs : List β) (fails : Option Nat) :
    On l (c.write bs fails) (s.write bs fails) := by
  have hput : ∀ bs : List β, paint (fun n => l[n]?) (c.out ++ bs.zipIdx c.pos) =
      fun n => (FileStream.overwrite s.content s.pos bs)[n]? := fun bs => by
    rw [paint_append, h.content, h.pos, paint_zipIdx h.pos_le]
  unfold Cursor.write FileStream.write
  rw [h.isOpen, h.failed]
  split_ifs
  · exact h
  · exact ⟨h.content, h.pos, rfl, rfl, h.pos_le⟩
  · cases fails with
    | none =>
        exact ⟨hput bs, congrArg (· + bs.length) h.pos, rfl, rfl,
          FileStream.le_length_overwrite h.pos_le bs⟩
    | some k =>
        exact ⟨hput (bs.take k), congrArg (· + (bs.take k).length) h.pos, rfl, rfl,
          FileStream.le_length_overwrite h.pos_le _⟩

theorem On.close (h : On l c s) : On l c.close s.close := by
  unfold Cursor.close FileStream.close
  rw [h.isOpen]
  split_ifs
  · exact ⟨h.content, h.pos, rfl, h.failed, h.pos_le⟩
  · exact ⟨h.content, h.pos, rfl, rfl, h.pos_le⟩

theorem On.openFile (h : On l c s) (canOpen : Bool) :
    On l (c.openFile canOpen) (s.openFile canOpen) := by
  unfold Cursor.openFile FileStream.openFile
  rw [h.isOpen]
  split_ifs
  · exact ⟨h.content, h.pos, rfl, rfl, h.pos_le⟩
  · exact ⟨h.content, rfl, rfl, rfl, Nat.zero_le _⟩

end Cursor

end OutStream
