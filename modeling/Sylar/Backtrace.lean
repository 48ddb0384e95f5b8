/-
Sylar/Backtrace.lean

`BackTrace` and `BackTraceToString` (utils.cpp).

The loop of `BackTrace` has the number of its iterations right, from `skip` to the
number of frames, but what it appends is that number and not the symbol of the
frame; and the prefix of `BackTraceToString` is never used.  So the lists and texts
are the intended ones only where a symbol happens to read like the number of
frames, or no frame is left to list (`backTrace_contents_iff`).
-/
import Sylar.Lib.Lines
import Sylar.World

namespace Sylar

open Lines

variable {φ : Type*}

/-! ### The functions -/

/-- `execinfo.h`, as the running thread sees it. -/
structure ExecInfo (φ : Type*) where
  /-- `backtrace`: the frames that are stored in an array of this size. -/
  backtrace : Int32 → List φ
  /-- `backtrace_symbols`, which is null when there is no memory. -/
  backtraceSymbols : List φ → Option (List String)

/-- `(size_t) n`. -/
def toSize (n : Int32) : Nat := n.toInt64.toUInt64.toNat

namespace ExecInfo

/-- `BackTrace`: the state of the logging module and the vector after the call. -/
def backTrace (x : ExecInfo φ) (env : Env) (g_logger : Ptr Logger) (w : LogSystem)
    (bt : List String) (size skip : Int32) : LogSystem × List String :=
  let array := x.backtrace size
  let s := array.length
  match x.backtraceSymbols array with
  | none => (w.sylarLog env g_logger .error "src/utils.cpp" 20 "backtrace_symbols error", bt)
  | some _ =>
      let indices := List.range' (toSize skip) (s - toSize skip)
      (w, indices.foldl (fun bt _ => bt ++ [toString (Int32.ofNat s).toInt]) bt)

/-- `BackTraceToString`. -/
def backTraceToString (x : ExecInfo φ) (env : Env) (g_logger : Ptr Logger) (w : LogSystem)
    (size skip : Int32) (_pre : String) : LogSystem × String :=
  let (w, bt) := x.backTrace env g_logger w [] size skip
  (w, bt.foldl (fun ss str => ss ++ str ++ "\n") "")

/-- A call stack of which every frame is its own symbol. -/
def sample (stack : List String) : ExecInfo String where
  backtrace size := stack.take size.toInt.toNat
  backtraceSymbols := some

/-- The call stack consists of these frames, the innermost first, and a frame has this symbol. -/
structure Faithful (x : ExecInfo φ) (stack : List φ) (symbol : φ → String) : Prop where
  backtrace : ∀ size : Int32, 0 < size.toInt → x.backtrace size = stack.take size.toInt.toNat
  backtraceSymbols : ∀ frames, x.backtraceSymbols frames = some (frames.map symbol)

theorem sample_faithful (stack : List String) : (sample stack).Faithful stack id where
  backtrace _ _ := rfl
  backtraceSymbols frames := congrArg some (List.map_id frames).symm

/-! ### What they append -/

theorem toSize_of_nonneg {n : Int32} (h : 0 ≤ n.toInt) : toSize n = n.toInt.toNat := by
  have hle : 0 ≤ n.toInt64 := by
    rw [Int64.le_iff_toInt_le, Int32.toInt_toInt64]
    exact h
  rw [toSize, Int64.toNat_toUInt64_of_le hle, ← Int64.toNat_toInt, Int32.toInt_toInt64]

theorem foldl_append_const {α β : Type*} (b : β) (l : List α) (bt : List β) :
    l.foldl (fun bt _ => bt ++ [b]) bt = bt ++ List.replicate l.length b := by
  induction l generalizing bt with
  | nil => exact (List.append_nil bt).symm
  | cons a l ih => rw [List.foldl_cons, ih, List.append_assoc]; rfl

theorem foldl_lines (bt : List String) (ss : String) :
    (bt.foldl (fun ss str => ss ++ str ++ "\n") ss).toList =
      ss.toList ++ unlines '\n' (bt.map String.toList) := by
  induction bt generalizing ss with
  | nil => exact (List.append_nil ss.toList).symm
  | cons str bt ih =>
      rw [List.foldl_cons, ih, List.map_cons, unlines_cons, String.toList_append,
        String.toList_append, List.append_assoc, List.append_assoc]
      rfl

variable {x : ExecInfo φ} {stack : List φ} {symbol : φ → String} {size skip : Int32}

/-- Without memory for the symbols the vector stays as it is. -/
theorem backTrace_of_null (h : x.backtraceSymbols (x.backtrace size) = none) (env : Env)
    (g_logger : Ptr Logger) (w : LogSystem) (bt : List String) (skip : Int32) :
    (x.backTrace env g_logger w bt size skip).2 = bt := by
  rw [backTrace, h]

/-- The frames to list: the first `size`, without the first `skip` of them. -/
def listed (stack : List φ) (size skip : Int32) : List φ :=
  (stack.take size.toInt.toNat).drop skip.toInt.toNat

/-- The number of frames that were stored. -/
def stored (stack : List φ) (size : Int32) : Nat := (stack.take size.toInt.toNat).length

/-- The number fits an `int`. -/
theorem toInt_stored (stack : List φ) (size : Int32) :
    (Int32.ofNat (stored stack size)).toInt = stored stack size := by
  have hlt : size.toInt < 2 ^ 31 := size.toInt_lt
  apply Int32.toInt_ofNat_of_lt
  rw [stored, List.length_take]
  omega

/-- **What `BackTrace` appends**: the number of frames, once for each frame to list. -/
theorem Faithful.backTrace_eq (hx : x.Faithful stack symbol) (hsize : 0 < size.toInt)
    (hskip : 0 ≤ skip.toInt) (env : Env) (g_logger : Ptr Logger) (w : LogSystem)
    (bt : List String) :
    x.backTrace env g_logger w bt size skip =
      (w, bt ++ List.replicate (listed stack size skip).length (toString (stored stack size))) := by
  have harray : x.backtrace size = stack.take size.toInt.toNat := hx.backtrace size hsize
  have hs : toString (Int32.ofNat (stack.take size.toInt.toNat).length).toInt =
      toString (stored stack size) := congrArg toString (toInt_stored stack size)
  rw [backTrace, hx.backtraceSymbols]
  dsimp only
  rw [harray, foldl_append_const, List.length_range', hs, toSize_of_nonneg hskip, listed,
    List.length_drop]

theorem Faithful.backTraceToString_eq (hx : x.Faithful stack symbol) (hsize : 0 < size.toInt)
    (hskip : 0 ≤ skip.toInt) (env : Env) (g_logger : Ptr Logger) (w : LogSystem) (pre : String) :
    (x.backTraceToString env g_logger w size skip pre).2.toList =
      unlines '\n' (List.replicate (listed stack size skip).length
        (toString (stored stack size)).toList) := by
  rw [backTraceToString, hx.backTrace_eq hsize hskip]
  show (List.foldl _ "" _).toList = _
  rw [foldl_lines, List.nil_append, List.map_replicate]
  rfl

theorem newline_notMem_toString (n : Nat) : '\n' ∉ (toString n).toList := by
  intro h
  rw [show toString n = n.repr from rfl, Nat.toList_repr] at h
  exact absurd (Nat.isDigit_of_mem_toDigits (by decide) (by decide) h) (by decide)

end ExecInfo

open ExecInfo

/-- **The contents of a backtrace**: what `BackTrace` appends are the symbols of the frames to
list, in order, exactly if every one of these reads like the number of frames; and the text of
`BackTraceToString` has prefix, symbol and newline for each of them exactly if prefix and
symbol together read like it. -/
theorem backTrace_contents_iff {x : ExecInfo φ} {stack : List φ} {symbol : φ → String}
    {size skip : Int32} (hx : x.Faithful stack symbol) (hsize : 0 < size.toInt)
    (hskip : 0 ≤ skip.toInt) (env : Env) (g_logger : Ptr Logger) (w : LogSystem)
    (bt : List String) (pre : String) :
    ((x.backTrace env g_logger w bt size skip).2 = bt ++ (listed stack size skip).map symbol ↔
      ∀ f ∈ listed stack size skip, symbol f = toString (stored stack size)) ∧
    ((x.backTraceToString env g_logger w size skip pre).2 =
        String.join ((listed stack size skip).map fun f => pre ++ symbol f ++ "\n") ↔
      ∀ f ∈ listed stack size skip, pre ++ symbol f = toString (stored stack size)) := by
  constructor
  · rw [hx.backTrace_eq hsize hskip, List.append_cancel_left_eq, eq_comm, List.eq_replicate_iff,
      List.length_map, List.forall_mem_map]
    exact and_iff_right rfl
  · have htext :
        (String.join ((listed stack size skip).map fun f => pre ++ symbol f ++ "\n")).toList =
        unlines '\n' ((listed stack size skip).map fun f => (pre ++ symbol f).toList) := by
      rw [String.toList_join, unlines, List.flatMap_map, List.flatMap_map]
      simp only [String.toList_append]
      rfl
    have hlines : ∀ line ∈ List.replicate (listed stack size skip).length
        (toString (stored stack size)).toList, '\n' ∉ line := by
      intro line hline
      obtain rfl := List.eq_of_mem_replicate hline
      exact newline_notMem_toString _
    rw [← String.toList_inj, hx.backTraceToString_eq hsize hskip, htext,
      unlines_inj hlines (by simp), eq_comm, List.eq_replicate_iff, List.length_map,
      List.forall_mem_map]
    simp only [String.toList_inj, true_and]

/-- A stack of two frames of which one is skipped, and one that reads like their number. -/
theorem backTrace_contents_iff_skip :
    let x := ExecInfo.sample ["f", "2"]
    let env := Env.sample []
    let w := LogSystem.init
    ((x.backTrace env w.root w ["x"] 10 1).2 = ["x"] ++ (listed ["f", "2"] 10 1).map id ↔
      ∀ f ∈ listed ["f", "2"] 10 1, id f = toString (stored ["f", "2"] 10)) ∧
    ((x.backTraceToString env w.root w 10 1 "").2 =
        String.join ((listed ["f", "2"] 10 1).map fun f => "" ++ id f ++ "\n") ↔
      ∀ f ∈ listed ["f", "2"] 10 1, "" ++ id f = toString (stored ["f", "2"] 10)) :=
  backTrace_contents_iff (sample_faithful ["f", "2"]) (by decide) (by decide) _ _ _ _ _

/-- `BackTraceToString(10, 0, "    ")` with two frames on the stack: the number of frames
twice, without the prefix. -/
theorem backTrace_counts :
    let x := ExecInfo.sample ["main", "_start"]
    let env := Env.sample []
    let w := LogSystem.init
    (x.backTrace env w.root w [] 10 0).2 = ["2", "2"] ∧
      (x.backTraceToString env w.root w 10 0 "    ").2 = "2\n2\n" ∧
      (x.backTrace env w.root w [] 10 0).2 ≠ [] ++ (listed ["main", "_start"] 10 0).map id ∧
      (x.backTraceToString env w.root w 10 0 "    ").2 ≠
        String.join ((listed ["main", "_start"] 10 0).map fun f => "    " ++ id f ++ "\n") := by
  intro x env w
  have hlist : (x.backTrace env w.root w [] 10 0).2 = ["2", "2"] := by decide
  have htext : (x.backTraceToString env w.root w 10 0 "    ").2 = "2\n2\n" := by decide
  refine ⟨hlist, htext, ?_, ?_⟩
  · rw [hlist]
    decide
  · rw [htext]
    decide

end Sylar
