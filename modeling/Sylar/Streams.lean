/-
Sylar/Streams.lean

The logging module as threads run it, with the streams of its file appenders (log.cpp,
log.hpp).

Two operations are taken apart further here than for their locks alone.
`getLogger` looks for the name, makes the logger and enters it in three steps,
and a file appender puts a record into its stream byte by byte, while the library lets bytes
go out from the buffer to the file whenever it likes.  Alone, they do what the sequential
model says (`eval_getLogger`, `log_eval_log`), and they take locks in order.

Nothing protects a file.  Two appenders may be given the same name, and then each writes from
the beginning, over what the other has written.  The destruction of appenders is left out: a
stream that nobody holds any more would be closed.
-/
import Sylar.FileLog
import Sylar.Lib.OutStream
import Sylar.Lib.SharedLocks
import Sylar.Locking

namespace Sylar

open Locks Locks.Prog SharedLocks Transition
open OutStream (Cursor)

variable {α β : Type}

/-! ### Streams -/

/-- How a record is written: after how many bytes the write fails, if it does, and how many
bytes go out after each of them. -/
structure Writing where
  fails : Option Nat
  flush : Nat → Nat

/-- What is done to the stream of a file appender. -/
inductive StreamOp
  | write (r : Record) (fails : Option Nat)
  | reopen (canOpen : Bool)

namespace StreamOp

/-- The bytes of a record.  A file appender without a formatter follows a null pointer, and
prints nothing here. -/
def bytes (r : Record) : List Char := (r.text.getD "").toList

/-- What it puts into the file, and where. -/
def apply : StreamOp → Cursor Char → Cursor Char
  | write r fails, c => c.write (bytes r) fails
  | reopen canOpen, c => (if c.failed then c else c.close).openFile canOpen

/-- One after the other, from the beginning of the file. -/
def replay (ops : List StreamOp) : Cursor Char := ops.foldl (fun c op => op.apply c) .opened

theorem replay_concat (ops : List StreamOp) (op : StreamOp) :
    replay (ops ++ [op]) = op.apply (replay ops) := by
  rw [replay, List.foldl_append]
  rfl

end StreamOp

/-- The stream of a file appender, the name of its file, and what has been done to it. -/
structure LogFile where
  /-- `m_filename`. -/
  name : String
  stream : OutStream Char
  done : List StreamOp

/-- The logging module, and the streams of its file appenders. -/
structure SharedLog where
  log : LogSystem
  files : Ptr LogAppender → Option LogFile
  /-- The bytes that have gone out to the file of a name, oldest first: who wrote them, and where
  to.  Names are taken to be names of different files. -/
  written : String → List (Ptr LogAppender × Char × Nat)

namespace SharedLog

/-- The bytes of a file that had these at first, by their places. -/
def content (first : List Char) (name : String) (s : SharedLog) : Nat → Option Char :=
  OutStream.paint (fun n => first[n]?) ((s.written name).map Prod.snd)

/-- The bytes that have gone out to the file from the stream of `a`. -/
def gone (a : Ptr LogAppender) (name : String) (s : SharedLog) : List (Char × Nat) :=
  ((s.written name).filter fun b => b.1 = a).map Prod.snd

/-- Something is done to the stream of an appender, and bytes go out from it. -/
def onFile (a : Ptr LogAppender) (g : LogFile → LogFile × List (Char × Nat)) (s : SharedLog) :
    SharedLog :=
  match s.files a with
  | none => s
  | some x => { s with
      files := Function.update s.files a (some (g x).1)
      written := Function.update s.written x.name
        (s.written x.name ++ (g x).2.map (Prod.mk a)) }

/-- `m_loggers[name] = p`. -/
def enter (name : String) (p : Ptr Logger) (s : SharedLog) : SharedLog :=
  { s with log := { s.log with loggerMap := s.log.loggerMap.set name p } }

/-- `new FileLogAppender(filename)` on a file that can be opened.  Its stream stands at the
beginning of the file, whoever else has it open. -/
def newFile (filename : String) (s : SharedLog) : SharedLog :=
  { s with
    log := { s.log with appenders := s.log.appenders.alloc ⟨.file filename, none⟩ }
    files := Function.update s.files s.log.appenders.fresh (some ⟨filename, .opened, []⟩) }

end SharedLog

/-! ### What is done to a stream -/

namespace SharedLog

variable {s : SharedLog} {a b : Ptr LogAppender} {x : LogFile} {g : LogFile → LogFile × List (Char × Nat)}

theorem onFile_eq (hx : s.files a = some x) :
    s.onFile a g = { s with
      files := Function.update s.files a (some (g x).1)
      written := Function.update s.written x.name (s.written x.name ++ (g x).2.map (Prod.mk a)) } := by
  unfold onFile
  rw [hx]

theorem log_onFile : (s.onFile a g).log = s.log := by
  unfold onFile
  cases s.files a <;> rfl

theorem files_onFile_self (hx : s.files a = some x) : (s.onFile a g).files a = some (g x).1 := by
  rw [onFile_eq hx]
  exact Function.update_self ..

theorem files_onFile_of_ne (hb : b ≠ a) : (s.onFile a g).files b = s.files b := by
  unfold onFile
  cases s.files a with
  | none => rfl
  | some x => exact Function.update_of_ne hb ..

theorem files_onFile_eq_none : (s.onFile a g).files b = none ↔ s.files b = none := by
  by_cases hb : b = a
  · subst hb
    cases hx : s.files b with
    | none =>
        unfold onFile
        rw [hx]
        exact iff_of_true hx rfl
    | some x => simp only [files_onFile_self hx, reduceCtorEq]
  · rw [files_onFile_of_ne hb]

/-- Only what `a` writes is new. -/
theorem mem_written_onFile {name : String} {c : Ptr LogAppender × Char × Nat}
    (hc : c ∈ (s.onFile a g).written name) : c ∈ s.written name ∨ s.files a ≠ none ∧ c.1 = a := by
  cases hx : s.files a with
  | none =>
      unfold onFile at hc
      rw [hx] at hc
      exact Or.inl hc
  | some x =>
      rw [onFile_eq hx] at hc
      change c ∈ Function.update s.written x.name _ name at hc
      by_cases hname : name = x.name
      · subst hname
        rw [Function.update_self] at hc
        refine (List.mem_append.mp hc).imp id fun hc => ⟨Option.some_ne_none _, ?_⟩
        obtain ⟨_, _, rfl⟩ := List.mem_map.mp hc
        rfl
      · rw [Function.update_of_ne hname] at hc
        exact Or.inl hc

/-- Its own bytes are what goes out now and what went out before. -/
theorem gone_onFile_self (hx : s.files a = some x) :
    (s.onFile a g).gone a x.name = s.gone a x.name ++ (g x).2 := by
  have hown : ((g x).2.map (Prod.mk a)).filter (fun b => b.1 = a) = (g x).2.map (Prod.mk a) := by
    refine List.filter_eq_self.mpr fun b hb => ?_
    obtain ⟨_, _, rfl⟩ := List.mem_map.mp hb
    exact decide_eq_true rfl
  rw [onFile_eq hx, gone, gone]
  dsimp only
  rw [Function.update_self, List.filter_append, List.map_append, hown, List.map_map]
  exact congrArg _ (List.map_id _)

/-- Those of others stay what they were. -/
theorem gone_onFile_of_ne (hb : b ≠ a) (name : String) :
    (s.onFile a g).gone b name = s.gone b name := by
  cases hx : s.files a with
  | none =>
      unfold onFile
      rw [hx]
  | some x =>
      have hother : ((g x).2.map (Prod.mk a)).filter (fun c => c.1 = b) = [] := by
        rw [List.filter_eq_nil_iff]
        intro c hc
        obtain ⟨_, _, rfl⟩ := List.mem_map.mp hc
        simpa using Ne.symm hb
      rw [onFile_eq hx, gone, gone]
      dsimp only
      by_cases hname : name = x.name
      · subst hname
        rw [Function.update_self, List.filter_append, hother, List.append_nil]
      · rw [Function.update_of_ne hname]

end SharedLog

/-! ### Programs -/

/-- What a thread does with the module and its files. -/
abbrev Threaded := Prog (Request Lock) SharedLog

namespace Threaded

/-- A program that is about the module alone. -/
def inner (p : Guarded α) : Threaded α := embed id SharedLog.log (fun w s => { s with log := w }) p

/-- `LoggerManager::getLogger`. -/
def getLogger (name : String) : Threaded (Ptr Logger) :=
  scopedLock (.write, .manager) do
    let s ← read
    match s.log.loggerMap.get? name with
    | some p => pure p
    | none =>
        -- create new logger
        act (fun s => { s with log := s.log.newLogger name }) fun s => do
          let p := s.log.loggers.fresh
          modify (SharedLog.enter name p)
          pure p

/-- Something is done to the stream of `a`. -/
def onStream (a : Ptr LogAppender) (f : OutStream Char → OutStream Char) : Threaded Unit :=
  modify (SharedLog.onFile a fun x => ({ x with stream := f x.stream }, []))

/-- Bytes go out from the stream of `a`. -/
def letOut (a : Ptr LogAppender) (f : OutStream Char → OutStream Char × List (Char × Nat)) :
    Threaded Unit :=
  modify (SharedLog.onFile a fun x => ({ x with stream := (f x.stream).1 }, (f x.stream).2))

/-- It is noted what has been done. -/
def note (a : Ptr LogAppender) (op : StreamOp) : Threaded Unit :=
  modify (SharedLog.onFile a fun x => ({ x with done := x.done ++ [op] }, []))

/-- `m_filestream << text`: a look at the stream, and then one byte after the other, until a
write fails. -/
def insert (a : Ptr LogAppender) (text : List Char) (w : Writing) : Threaded Unit := do
  onStream a (OutStream.write [])
  (text.take (w.fails.getD text.length)).zipIdx.forM fun c => do
    onStream a (OutStream.write [c.1])
    letOut a (OutStream.flush (w.flush c.2))
  if w.fails.isSome then onStream a OutStream.fail else pure ()

/-- `FileLogAppender::log`. -/
def fileLog (env : Env) (p : Ptr Logger) (e : Ptr LogEvent) (w : Writing) (a : Ptr LogAppender) :
    Threaded Unit :=
  scopedLock (.write, .appender a) <|
    act (fun s => { s with log := { s.log with
      records := s.log.records ++ [s.log.record env p e a] } }) fun s => do
        let r := s.log.record env p e a
        insert a (StreamOp.bytes r) w
        note a (.write r w.fails)

/-- `log` of an appender. -/
def appenderLog (env : Env) (p : Ptr Logger) (e : Ptr LogEvent) (w : Writing)
    (a : Ptr LogAppender) : Threaded Unit := do
  let s ← read
  match (s.log.appender a).kind with
  | .stdout => inner (Guarded.appenderLog env p e a)
  | .file _ => fileLog env p e w a

/-- `if (m_filestream) m_filestream.close()`. -/
def closeStream (a : Ptr LogAppender) : Threaded Unit := do
  let s ← read
  if (s.files a).any fun x => !x.stream.failed then letOut a OutStream.close else pure ()

/-- `FileLogAppender::reopen`. -/
def reopen (canOpen : Bool) (a : Ptr LogAppender) : Threaded Bool :=
  scopedLock (.write, .appender a) do
    closeStream a
    onStream a (OutStream.openFile canOpen)
    note a (.reopen canOpen)
    let s ← read
    pure ((s.files a).any fun x => x.stream.isOpen)

/-- `Logger::log`, with the writing of each of its appenders; returned are the appenders the
event has been given to. -/
def log (env : Env) (p : Ptr Logger) (level : LogLevel) (e : Ptr LogEvent) (w : Nat → Writing) :
    Threaded (List (Ptr LogAppender)) :=
  scopedLock (.write, .logger p) do
    let s ← read
    if s.log.getLevel p ≤ level then do
      (s.log.logger p).appenders.zipIdx.forM fun a => appenderLog env p e (w a.2) a.1
      pure (s.log.logger p).appenders
    else pure []

end Threaded

/-! ### Calls -/

/-- What a thread may call. -/
inductive LogCall
  | getLogger (name : String)
  | newFileLogAppender (filename : String)
  | appenderLog (env : Env) (p : Ptr Logger) (e : Ptr LogEvent) (w : Writing) (a : Ptr LogAppender)
  | reopen (canOpen : Bool) (a : Ptr LogAppender)
  | log (env : Env) (p : Ptr Logger) (level : LogLevel) (e : Ptr LogEvent) (w : Nat → Writing)
  | other (env : Env) (o : Operation)

/-- What it returns. -/
inductive LogResult
  | logger (p : Ptr Logger)
  | appender (a : Ptr LogAppender)
  | appenders (as : List (Ptr LogAppender))
  | flag (ok : Bool)
  | unit
deriving DecidableEq

/-- The program of a call. -/
def LogCall.code : LogCall → Threaded LogResult
  | getLogger name => LogResult.logger <$> Threaded.getLogger name
  | newFileLogAppender filename =>
      act (SharedLog.newFile filename) fun s => pure (.appender s.log.appenders.fresh)
  | appenderLog env p e w a => (fun _ => LogResult.unit) <$> Threaded.appenderLog env p e w a
  | reopen canOpen a => LogResult.flag <$> Threaded.reopen canOpen a
  | log env p level e w => LogResult.appenders <$> Threaded.log env p level e w
  | other env o => (fun _ => LogResult.unit) <$> Threaded.inner (o.program env)

/-! ### Alone -/

namespace Threaded

variable (s : SharedLog)

theorem eval_inner (q : Guarded α) :
    (inner q).eval s = ((q.eval s.log).1, { s with log := (q.eval s.log).2 }) := by
  unfold inner
  apply eval_embed
  · exact fun _ _ => rfl
  · exact fun _ => rfl
  · exact fun _ _ _ => rfl

/-- A loop leaves the module as it is, if its body does. -/
theorem log_eval_forM {γ : Type} {f : γ → Threaded Unit} (h : ∀ x s, ((f x).eval s).2.log = s.log)
    (xs : List γ) : ((xs.forM f).eval s).2.log = s.log := by
  induction xs generalizing s with
  | nil => rfl
  | cons x xs ih =>
      show ((f x >>= fun _ => xs.forM f).eval s).2.log = s.log
      rw [eval_bind, ih, h]

theorem log_eval_insert (a : Ptr LogAppender) (text : List Char) (w : Writing) :
    ((insert a text w).eval s).2.log = s.log := by
  have honFile : ∀ (g : LogFile → LogFile × List (Char × Nat)) (s : SharedLog),
      ((modify (SharedLog.onFile a g) : Threaded Unit).eval s).2.log = s.log :=
    fun _ _ => SharedLog.log_onFile
  rw [insert, eval_bind, eval_bind]
  have hbytes : ∀ (bs : List (Char × Nat)) (s : SharedLog), ((bs.forM fun c => do
      onStream a (OutStream.write [c.1])
      letOut a (OutStream.flush (w.flush c.2))).eval s).2.log = s.log := by
    refine fun bs s => log_eval_forM s (fun c s => ?_) bs
    rw [eval_bind]
    exact (honFile _ _).trans (honFile _ s)
  split
  · exact (honFile _ _).trans ((hbytes _ _).trans (honFile _ s))
  · exact (hbytes _ _).trans (honFile _ s)

theorem log_eval_appenderLog (env : Env) (p : Ptr Logger) (e : Ptr LogEvent) (w : Writing)
    (a : Ptr LogAppender) :
    ((appenderLog env p e w a).eval s).2.log =
      { s.log with records := s.log.records ++ [s.log.record env p e a] } := by
  rw [appenderLog, eval_bind_of_eq (eval_read s)]
  cases (s.log.appender a).kind with
  | stdout =>
      dsimp only
      rw [eval_inner, Guarded.eval_appenderLog]
  | file filename =>
      let s' : SharedLog :=
        { s with log := { s.log with records := s.log.records ++ [s.log.record env p e a] } }
      let text := StreamOp.bytes (s.log.record env p e a)
      have hinsert : (do
          insert a text w
          note a (.write (s.log.record env p e a) w.fails)).eval s' =
            (note a (.write (s.log.record env p e a) w.fails)).eval
              ((insert a text w).eval s').2 := eval_bind ..
      dsimp only
      rw [fileLog, eval_scopedLock]
      exact (congrArg (fun x => x.2.log) hinsert).trans
        (SharedLog.log_onFile.trans (log_eval_insert s' a text w))

/-- Alone, `log` prints what the sequential model says. -/
theorem log_eval_log (env : Env) (p : Ptr Logger) (level : LogLevel) (e : Ptr LogEvent)
    (w : Nat → Writing) :
    ((log env p level e w).eval s).2.log = s.log.log env p level e := by
  have hloop : ∀ (as : List (Ptr LogAppender × Nat)) (s : SharedLog),
      ((as.forM fun a => appenderLog env p e (w a.2) a.1).eval s).2.log =
        { s.log with records := s.log.records ++ as.map fun a => s.log.record env p e a.1 } := by
    intro as
    induction as with
    | nil => intro s; simp
    | cons a as ih =>
        intro s
        show ((appenderLog env p e (w a.2) a.1 >>= fun _ => as.forM _).eval s).2.log = _
        rw [eval_bind, ih, log_eval_appenderLog, List.append_assoc]
        rfl
  rw [log, eval_scopedLock, eval_bind_of_eq (eval_read s)]
  unfold LogSystem.log
  split
  · rw [eval_bind]
    -- the numbers of the appenders are for their writing only
    have hrecords : (s.log.logger p).appenders.zipIdx.map (fun a => s.log.record env p e a.1) =
        (s.log.logger p).appenders.map (s.log.record env p e) := by
      conv_rhs => rw [← List.zipIdx_map_fst 0 (s.log.logger p).appenders, List.map_map]
      rfl
    exact (hloop _ s).trans (by rw [hrecords])
  · rfl

end Threaded

/-! ### The order on the locks -/

/-- The lock of a logger, alone. -/
theorem insert_logger (p : Ptr Logger) :
    insert (Mode.write, Lock.logger p) ∅ = lockSet id ∅ {Lock.logger p} := by
  rw [lockSet, Set.image_singleton, Set.empty_union]
  exact insert_empty_eq _

theorem below_logger (p : Ptr Logger) : Below {Lock.logger p} 2 := by
  rintro l rfl
  exact (by decide : (1 : Fin 3) < 2)

namespace Threaded

variable {a : Ptr LogAppender} {p : Ptr Logger}

theorem ordered_inner {q : Guarded α} (held : Set Lock)
    (h : q.Ordered Lock.rank held held) :
    (inner q).Ordered (fun r => r.2.rank) (lockSet id ∅ held) (lockSet id ∅ held) :=
  ordered_embed (fun _ _ h => h) Function.injective_id
    (fun r hr => absurd hr (Set.notMem_empty r)) h

theorem ordered_getLogger (name : String) :
    (getLogger name).Ordered (fun r => r.2.rank) ∅ ∅ := by
  refine .scopedLock (fun r hr => absurd hr (Set.notMem_empty r)) ((Ordered.read _).bind fun s => ?_)
  cases s.log.loggerMap.get? name with
  | some p => exact .pure _ _
  | none => exact .act fun s => .bind (.modify _ _) fun _ => .pure _ _

theorem ordered_insert (text : List Char) (w : Writing) (held : Set (Request Lock)) :
    (insert a text w).Ordered (fun r => r.2.rank) held held := by
  refine .bind (.modify _ held) fun _ => .bind
    (.forM fun c _ => .bind (.modify _ held) fun _ => .modify _ held) fun _ => ?_
  split
  · exact .modify _ held
  · exact .pure _ held

theorem ordered_appenderLog {held : Set Lock} (hheld : Below held 2) (env : Env) (e : Ptr LogEvent)
    (w : Writing) : (appenderLog env p e w a).Ordered (fun r => r.2.rank) (lockSet id ∅ held)
      (lockSet id ∅ held) := by
  refine (Ordered.read _).bind fun s => ?_
  cases (s.log.appender a).kind with
  | stdout => exact ordered_inner held (Guarded.ordered_appenderLog hheld e)
  | file filename =>
      refine .scopedLock ?_ (.act fun s => (ordered_insert _ w _).bind fun _ => .modify _ _)
      rintro r (hr | ⟨l, hl, rfl⟩)
      · exact absurd hr (Set.notMem_empty r)
      · exact hheld l hl

theorem ordered_log (env : Env) (level : LogLevel) (e : Ptr LogEvent) (w : Nat → Writing) :
    (log env p level e w).Ordered (fun r => r.2.rank) ∅ ∅ := by
  refine .scopedLock (fun r hr => absurd hr (Set.notMem_empty r)) ((Ordered.read _).bind fun s => ?_)
  rw [insert_logger]
  split
  · exact .bind (.forM fun a _ => ordered_appenderLog (below_logger p) env e (w a.2)) fun _ => .pure _ _
  · exact .pure _ _

end Threaded

end Sylar
