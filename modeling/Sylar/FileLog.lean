/-
Sylar/FileLog.lean

The file behind a `FileLogAppender` (log.hpp, log.cpp).

The constructor opens the file with the position at its beginning, `log` writes
at the position, and `reopen` closes the stream, if it has not failed, and opens
it again.  None of them looks for the end of the file or takes a failed stream
out of use, so what is in the file can be overwritten, and `reopen` can return
true for a stream that writes nothing any more.

`keeps_records_iff` is the exact condition under which, over a whole run, the
bytes the file had and all records written stay in it, and a reopened stream can
be used.
-/
import Sylar.Lib.FileStream
import Sylar.Lib.Transition
import Sylar.World

namespace Sylar

open Transition

/-! ### The appender -/

/-- The stream of a `FileLogAppender` with its file, and the records that have been written
successfully. -/
structure FileLog where
  filestream : FileStream Char
  written : List (List Char)

namespace FileLog

/-- `FileLogAppender::FileLogAppender` on a file with these bytes; the process ends when it
cannot be opened. -/
def new (canOpen : Bool) (content : List Char) : Outcome Unit FileLog :=
  let s := (FileStream.closed content).openFile canOpen
  if s.isOpen then .ret ⟨s, []⟩ else .exit 1

/-- `FileLogAppender::log`, with the formatter it holds and the level of the logger.  When
the stream has failed afterwards a notice is printed. -/
def log (env : Env) (formatter : LogFormatter) (level : LogLevel) (event : LogEvent)
    (fails : Option Nat) (a : FileLog) : FileLog :=
  let text := (formatter.format env level event).toList
  let s := a.filestream.write text fails
  ⟨s, if s.failed then a.written else a.written ++ [text]⟩

/-- `FileLogAppender::reopen`: the appender afterwards and what is returned. -/
def reopen (canOpen : Bool) (a : FileLog) : FileLog × Bool :=
  let s := if a.filestream.failed then a.filestream else a.filestream.close
  let s := s.openFile canOpen
  (⟨s, a.written⟩, s.isOpen)

variable {a b : FileLog}

/-- A stream that can be used takes the next record. -/
theorem written_log_of_usable (h : a.filestream.Usable) (env : Env) (formatter : LogFormatter)
    (level : LogLevel) (event : LogEvent) :
    (a.log env formatter level event none).written =
      a.written ++ [(formatter.format env level event).toList] := by
  simp [log, FileStream.write, h.1, h.2]

/-- **Reopening** leaves the bytes alone, and can be relied on unless the stream has failed
while it is open: then it stays as it is, and open. -/
theorem reopen_spec (h : a.filestream.WF) (canOpen : Bool) :
    (a.reopen canOpen).1.filestream.content = a.filestream.content ∧
      (a.reopen canOpen).1.filestream.WF ∧
      (((a.reopen canOpen).2 = true → (a.reopen canOpen).1.filestream.Usable) ↔
        ¬ (a.filestream.isOpen = true ∧ a.filestream.failed = true)) := by
  obtain ⟨⟨content, pos, isOpen, failed⟩, written⟩ := a
  have hopen : failed = false → isOpen = true := h.isOpen
  refine ⟨?_, ?_, ?_⟩
  · show (FileStream.openFile _ _).content = _
    rw [FileStream.content_openFile]
    cases failed with
    | true => rfl
    | false => exact FileStream.content_close _
  · apply FileStream.wf_openFile
    cases failed with
    | true => exact h.pos_le
    | false =>
        obtain rfl := hopen rfl
        exact h.pos_le
  · cases failed with
    | false =>
        -- closed first, and then opened or not
        obtain rfl := hopen rfl
        cases canOpen <;>
          simp [reopen, FileStream.close, FileStream.openFile, FileStream.Usable]
    | true =>
        cases isOpen <;> cases canOpen <;>
          simp [reopen, FileStream.openFile, FileStream.Usable]

end FileLog

/-! ### Runs -/

/-- What is done with the appender, and what the system lets succeed: `fails = some k` is a
write that fails after `k` bytes. -/
inductive FileOp
  | log (env : Env) (formatter : LogFormatter) (level : LogLevel) (event : LogEvent)
      (fails : Option Nat)
  | reopen (canOpen : Bool)

/-- One step. -/
def FileStep (a : FileLog) : FileOp → FileLog → Prop
  | .log env formatter level event fails, a' => a' = a.log env formatter level event fails
  | .reopen canOpen, a' => a' = (a.reopen canOpen).1

/-- The file begins with the bytes it had and the records written, in order; what failed
writes have left may follow. -/
def Kept (content : List Char) (a : FileLog) : Prop :=
  ∃ rest, a.filestream.content = content ++ a.written.flatten ++ rest

/-- When `reopen` returns true the stream can be used, and the next record is written. -/
def ReopenHolds (x : Taken FileLog FileOp) : Prop :=
  ∀ canOpen, x.label = .reopen canOpen → (x.source.reopen canOpen).2 = true →
    x.target.filestream.Usable ∧ ∀ env formatter level event,
      (x.target.log env formatter level event none).written =
        x.target.written ++ [(formatter.format env level event).toList]

/-- A record that is written goes to the end of the file; what a failing write puts agrees
with the bytes at its place; and a stream that has failed while open is not reopened. -/
def Careful (x : Taken FileLog FileOp) : Prop :=
  let s := x.source.filestream
  match x.label with
  | .log env formatter level event none =>
      s.failed = false → (formatter.format env level event).toList ≠ [] → s.pos = s.content.length
  | .log env formatter level event (some k) =>
      let bytes := (formatter.format env level event).toList.take k
      s.failed = false → s.content.drop s.pos <+: bytes ∨ bytes <+: s.content.drop s.pos
  | .reopen _ => ¬ (s.isOpen = true ∧ s.failed = true)

variable {content : List Char} {a a' : FileLog} {op : FileOp} {tr : List (Taken FileLog FileOp)}

/-- The invariant: the file is what it was and the records written, or a write has failed,
what it left may follow, and nothing more is ever written. -/
structure Intact (content : List Char) (a : FileLog) : Prop where
  wf : a.filestream.WF
  kept : Kept content a
  exactly : a.filestream.failed = false ∨ a.filestream.isOpen = false →
    a.filestream.content = content ++ a.written.flatten

theorem intact_new {canOpen : Bool} (h : FileLog.new canOpen content = .ret a) :
    Intact content a := by
  cases canOpen with
  | false => cases h
  | true =>
      obtain rfl := Outcome.ret.inj h
      have hcontent : content = content ++ List.flatten [] := (List.append_nil content).symm
      exact ⟨⟨Nat.zero_le _, fun _ => rfl⟩, ⟨[], by rw [List.append_nil]; exact hcontent⟩,
        fun _ => hcontent⟩

/-! ### One step -/

/-- A record that is written is kept exactly when it goes to the end. -/
theorem Intact.log_ok (h : Intact content a) (hs : a.filestream.failed = false) (env : Env)
    (formatter : LogFormatter) (level : LogLevel) (event : LogEvent) :
    let text := (formatter.format env level event).toList
    (Kept content (a.log env formatter level event none) ↔
      (text ≠ [] → a.filestream.pos = a.filestream.content.length)) ∧
      (Kept content (a.log env formatter level event none) →
        Intact content (a.log env formatter level event none)) := by
  intro text
  have hpos := h.wf.pos_le
  have hlog : a.log env formatter level event none = ⟨{ a.filestream with
      content := FileStream.overwrite a.filestream.content a.filestream.pos text
      pos := a.filestream.pos + text.length }, a.written ++ [text]⟩ := by
    simp only [FileLog.log, h.wf.write_ok hs, hs, Bool.false_eq_true, if_false]
    rfl
  -- at the end of the file, or with nothing to write, the record is appended
  have happend : (text ≠ [] → a.filestream.pos = a.filestream.content.length) →
      FileStream.overwrite a.filestream.content a.filestream.pos text =
        content ++ (a.written ++ [text]).flatten := by
    intro hend
    rw [List.flatten_append, List.flatten_singleton, ← List.append_assoc,
      ← h.exactly (Or.inl hs)]
    by_cases htext : text = []
    · rw [htext, FileStream.overwrite_nil, List.append_nil]
    · rw [hend htext, FileStream.overwrite_length]
  have hiff : Kept content (a.log env formatter level event none) ↔
      (text ≠ [] → a.filestream.pos = a.filestream.content.length) := by
    constructor
    · rintro ⟨rest, hrest⟩ htext
      -- elsewhere the file is too short
      have hlen := congrArg List.length hrest
      rw [hlog] at hlen
      simp only [FileStream.length_overwrite hpos, List.flatten_append, List.flatten_singleton,
        ← List.append_assoc, ← h.exactly (Or.inl hs), List.length_append] at hlen
      have hlt := List.length_pos_of_ne_nil htext
      omega
    · intro hend
      refine ⟨[], ?_⟩
      rw [hlog, List.append_nil]
      exact happend hend
  refine ⟨hiff, fun hkept => ⟨h.wf.write text none, hkept, fun _ => ?_⟩⟩
  rw [hlog]
  exact happend (hiff.mp hkept)

/-- A write that fails keeps the records exactly when it leaves the bytes of the file, that
is, when it agrees with them. -/
theorem Intact.log_fails (h : Intact content a) (hs : a.filestream.failed = false) (env : Env)
    (formatter : LogFormatter) (level : LogLevel) (event : LogEvent) (k : Nat) :
    let bytes := (formatter.format env level event).toList.take k
    (Kept content (a.log env formatter level event (some k)) ↔
      a.filestream.content.drop a.filestream.pos <+: bytes ∨
        bytes <+: a.filestream.content.drop a.filestream.pos) ∧
      (Kept content (a.log env formatter level event (some k)) →
        Intact content (a.log env formatter level event (some k))) := by
  intro bytes
  have hlog : a.log env formatter level event (some k) = ⟨{ a.filestream with
      content := FileStream.overwrite a.filestream.content a.filestream.pos bytes
      pos := a.filestream.pos + bytes.length
      failed := true }, a.written⟩ := by
    simp only [FileLog.log, h.wf.write_fails hs, if_true]
    rfl
  refine ⟨?_, fun hkept => ⟨h.wf.write _ (some k), hkept, fun hf => ?_⟩⟩
  · have hkept : Kept content (a.log env formatter level event (some k)) ↔ a.filestream.content <+:
        FileStream.overwrite a.filestream.content a.filestream.pos bytes := by
      rw [hlog, Kept, h.exactly (Or.inl hs)]
      exact ⟨fun ⟨rest, hrest⟩ => ⟨rest, hrest.symm⟩, fun ⟨rest, hrest⟩ => ⟨rest, hrest.symm⟩⟩
    exact hkept.trans (FileStream.prefix_overwrite_iff _ _ _)
  · rw [hlog] at hf
    rcases hf with hf | hf
    · cases hf
    · exact absurd (hf.symm.trans (h.wf.isOpen hs)) Bool.false_ne_true

theorem Intact.reopen (h : Intact content a) (canOpen : Bool)
    (hcareful : ¬ (a.filestream.isOpen = true ∧ a.filestream.failed = true)) :
    Intact content (a.reopen canOpen).1 := by
  obtain ⟨hcontent, hwf, _⟩ := FileLog.reopen_spec h.wf canOpen
  have hexactly : (a.reopen canOpen).1.filestream.content =
      content ++ (a.reopen canOpen).1.written.flatten := by
    rw [hcontent]
    apply h.exactly
    cases hf : a.filestream.failed with
    | false => exact Or.inl rfl
    | true => exact Or.inr (Bool.eq_false_iff.mpr fun ho => hcareful ⟨ho, hf⟩)
  exact ⟨hwf, ⟨[], by rw [List.append_nil]; exact hexactly⟩, fun _ => hexactly⟩

/-- **Step lemma.** -/
theorem FileStep.keeps_iff (h : Intact content a) (hs : FileStep a op a') :
    ((Kept content a' ∧ ReopenHolds ⟨a, op, a'⟩) ↔ Careful ⟨a, op, a'⟩) ∧
      (Kept content a' ∧ ReopenHolds ⟨a, op, a'⟩ → Intact content a') := by
  cases op with
  | log env formatter level event fails =>
      obtain rfl := hs
      -- `reopen` is not called in this step
      have hreopen : ReopenHolds ⟨a, .log env formatter level event fails,
          a.log env formatter level event fails⟩ := fun canOpen hlabel => by cases hlabel
      simp only [hreopen, and_true]
      cases hf : a.filestream.failed with
      | true =>
          -- nothing happens to a stream that has failed
          have hlog : a.log env formatter level event fails = a := by
            simp only [FileLog.log, FileStream.write_of_failed hf, hf, if_true]
          rw [hlog]
          refine ⟨⟨fun _ => ?_, fun _ => h.kept⟩, fun _ => h⟩
          cases fails <;> exact fun hf' => absurd (hf.symm.trans hf') (by decide)
      | false =>
          cases fails with
          | none =>
              obtain ⟨hiff, hintact⟩ := h.log_ok hf env formatter level event
              exact ⟨hiff.trans ⟨fun hend _ => hend, fun hend => hend hf⟩, hintact⟩
          | some k =>
              obtain ⟨hiff, hintact⟩ := h.log_fails hf env formatter level event k
              exact ⟨hiff.trans ⟨fun hpre _ => hpre, fun hpre => hpre hf⟩, hintact⟩
  | reopen canOpen =>
      obtain rfl := hs
      have hspec := (FileLog.reopen_spec h.wf canOpen).2.2
      have hiff : (Kept content (a.reopen canOpen).1 ∧
          ReopenHolds ⟨a, .reopen canOpen, (a.reopen canOpen).1⟩) ↔
            ¬ (a.filestream.isOpen = true ∧ a.filestream.failed = true) := by
        constructor
        · rintro ⟨_, hholds⟩
          exact hspec.mp fun hret => (hholds canOpen rfl hret).1
        · intro hcareful
          refine ⟨(h.reopen canOpen hcareful).kept, ?_⟩
          rintro _ ⟨rfl⟩ hret
          have husable := hspec.mpr hcareful hret
          exact ⟨husable, FileLog.written_log_of_usable husable⟩
      exact ⟨hiff, fun hA => h.reopen canOpen (hiff.mp hA)⟩

/-! ### Whole runs -/

/-- **The file log keeps its records, and `reopen` can be relied on, exactly in the runs in
which every step is careful.** -/
theorem keeps_records_iff {canOpen : Bool} (hnew : FileLog.new canOpen content = .ret a)
    (hrun : Run FileStep a tr a') :
    (∀ x ∈ tr, Kept content x.target ∧ ReopenHolds x) ↔ ∀ x ∈ tr, Careful x :=
  hrun.forall_iff (I := Intact content) (A := fun x => Kept content x.target ∧ ReopenHolds x)
    (B := Careful) (intact_new hnew) fun _ _ _ h hs => hs.keeps_iff h

/-- A record that is the text of the event, and nothing else. -/
def FileOp.line (env : Env) (text : String) (fails : Option Nat) : FileOp :=
  .log env ⟨"%m", [.message], false⟩ .info { (default : LogEvent) with content := text } fails

/-- Two records, and then the file is opened again. -/
theorem keeps_records_iff_lines : ∃ a b c d,
    let tr := [⟨a, .line (Env.sample []) "one" none, b⟩, ⟨b, .line (Env.sample []) "two" none, c⟩,
      ⟨c, .reopen true, d⟩]
    FileLog.new true [] = .ret a ∧ Run FileStep a tr d ∧
      d.written = [['o', 'n', 'e'], ['t', 'w', 'o']] ∧
      d.filestream.content = ['o', 'n', 'e', 't', 'w', 'o'] ∧
      ((∀ x ∈ tr, Kept [] x.target ∧ ReopenHolds x) ↔ ∀ x ∈ tr, Careful x) := by
  have hnew : FileLog.new true [] = .ret ⟨⟨[], 0, true, false⟩, []⟩ := rfl
  have h₁ : FileStep ⟨⟨[], 0, true, false⟩, []⟩ (.line (Env.sample []) "one" none)
      ⟨⟨['o', 'n', 'e'], 3, true, false⟩, [['o', 'n', 'e']]⟩ := rfl
  have h₂ : FileStep ⟨⟨['o', 'n', 'e'], 3, true, false⟩, [['o', 'n', 'e']]⟩
      (.line (Env.sample []) "two" none) ⟨⟨['o', 'n', 'e', 't', 'w', 'o'], 6, true, false⟩,
        [['o', 'n', 'e'], ['t', 'w', 'o']]⟩ := rfl
  have h₃ : FileStep ⟨⟨['o', 'n', 'e', 't', 'w', 'o'], 6, true, false⟩,
      [['o', 'n', 'e'], ['t', 'w', 'o']]⟩ (.reopen true) _ := rfl
  have hrun := ((Run.nil.snoc h₁).snoc h₂).snoc h₃
  exact ⟨_, _, _, _, hnew, hrun, rfl, rfl, keeps_records_iff hnew hrun⟩

/-- A record written to a file that is not empty replaces what the file begins with.  After
a write that fails, `reopen` returns true and the stream cannot be used. -/
theorem records_lost :
    (∃ a b,
      let tr := [⟨a, .line (Env.sample []) "n" none, b⟩]
      FileLog.new true ['o', 'l', 'd'] = .ret a ∧ Run FileStep a tr b ∧
        b.filestream.content = ['n', 'l', 'd'] ∧
        ¬ ∀ x ∈ tr, Kept ['o', 'l', 'd'] x.target ∧ ReopenHolds x) ∧
    ∃ a b c,
      let tr := [⟨a, .line (Env.sample []) "n" (some 0), b⟩, ⟨b, .reopen true, c⟩]
      FileLog.new true [] = .ret a ∧ Run FileStep a tr c ∧
        (b.reopen true).2 = true ∧ c.filestream.failed = true ∧
        ¬ ∀ x ∈ tr, Kept [] x.target ∧ ReopenHolds x := by
  constructor
  · have hstep : FileStep ⟨⟨['o', 'l', 'd'], 0, true, false⟩, []⟩
        (.line (Env.sample []) "n" none) ⟨⟨['n', 'l', 'd'], 1, true, false⟩, [['n']]⟩ := rfl
    refine ⟨_, _, rfl, Run.nil.snoc hstep, rfl, fun h => ?_⟩
    obtain ⟨rest, hrest⟩ := (h _ List.mem_cons_self).1
    cases hrest
  · have hfail : FileStep ⟨⟨[], 0, true, false⟩, []⟩ (.line (Env.sample []) "n" (some 0))
        ⟨⟨[], 0, true, true⟩, []⟩ := rfl
    have hreopen : FileStep ⟨⟨[], 0, true, true⟩, []⟩ (.reopen true)
        ⟨⟨[], 0, true, true⟩, []⟩ := rfl
    refine ⟨_, _, _, rfl, (Run.nil.snoc hfail).snoc hreopen, rfl, rfl, fun h => ?_⟩
    obtain ⟨husable, _⟩ := (h _ (List.mem_cons_of_mem _ List.mem_cons_self)).2 true rfl rfl
    cases husable.2

end Sylar
