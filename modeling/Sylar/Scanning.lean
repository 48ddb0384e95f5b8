/-
Sylar/Scanning.lean

The loops of `LogFormatter::parse`, step by step (log.cpp).

Here nothing bounds the number of iterations, and every access to the pattern is
on record: a character that is read, the position of a `substr`, and the two
sides of a difference of indices, which are unsigned.  A step is an iteration of
the inner loop, or what stands around it in an iteration of the outer one.

The parser comes to an end, with the result of Sylar.Parse; the outer index
grows with every iteration, whatever the inner loop has left in it, and all
accesses are in range (`scanning_in_range`).
-/
import Sylar.Lib.Transition
import Sylar.Parse

namespace Sylar

open Transition

/-! ### The parser as a machine -/

/-- What is asked of the pattern and of its indices. -/
inductive Access
  /-- `m_pattern[pos]` -/
  | read (pos : Nat)
  /-- `m_pattern.substr(pos, …)` -/
  | substr (pos : Nat)
  /-- `a - b` -/
  | minus (a b : Nat)
  deriving DecidableEq, Repr

/-- The access is in order, for a pattern of this size. -/
def Access.InRange (size : Nat) : Access → Prop
  | read pos => pos < size
  | substr pos => pos ≤ size
  | minus a b => b ≤ a

/-- Where the parser stands. -/
inductive Scanner
  /-- At the condition of the outer loop. -/
  | outer (i : Nat) (s : ParseState)
  /-- At the condition of the inner loop. -/
  | inner (i : Nat) (s : ParseState) (n : Nat) (fmtStatus : Bool) (fmtBegin : Nat)
      (str : List Char)
  /-- Behind the inner loop. -/
  | leave (i : Nat) (s : ParseState) (r : Scan)
  /-- Behind the outer loop; the pending text has been moved. -/
  | done (s : ParseState)
  deriving DecidableEq, Repr

namespace Scanner

/-- `m_pattern.substr(i + 1, n - i - 1)` -/
def nameAccesses (i n : Nat) : List Access := [.minus n i, .minus (n - i) 1, .substr (i + 1)]

/-- From the condition of the outer loop. -/
def nextOuter (p : List Char) (i : Nat) (s : ParseState) : List Access × Scanner :=
  if h : i < p.length then
    if p[i] ≠ '%' then
      ([.read i, .read i], .outer (i + 1) { s with text := s.text ++ [p[i]] })
    else if hnext : i + 1 < p.length then
      if p[i + 1] = '%' then
        ([.read i, .read (i + 1)], .outer (i + 1) { s with text := s.text ++ ['%'] })
      else ([.read i, .read (i + 1)], .inner i s (i + 1) false 0 [])
    else ([.read i], .inner i s (i + 1) false 0 [])
  else ([], .done s.flush)

/-- From the condition of the inner loop. -/
def nextInner (p : List Char) (i : Nat) (s : ParseState) (n : Nat) (fmtStatus : Bool)
    (fmtBegin : Nat) (str : List Char) : List Access × Scanner :=
  if h : n < p.length then
    if !fmtStatus && (!p[n].isAlpha && p[n] ≠ '{' && p[n] ≠ '}') then
      (.read n :: nameAccesses i n, .leave i s ⟨n, fmtStatus, substr p (i + 1) (n - i - 1), []⟩)
    else if !fmtStatus && p[n] = '{' then
      (.read n :: nameAccesses i n, .inner i s (n + 1) true n (substr p (i + 1) (n - i - 1)))
    else if !fmtStatus && (n = p.length - 1 && str = []) then
      ([.read n, .minus p.length 1, .substr n],
        .inner i s (n + 1) fmtStatus fmtBegin (substr p n 1))
    else if fmtStatus && p[n] = '}' then
      ([.read n, .minus n fmtBegin, .minus (n - fmtBegin) 1, .substr (fmtBegin + 1)],
        .leave i s ⟨n + 1, false, str, substr p (fmtBegin + 1) (n - fmtBegin - 1)⟩)
    else
      (if fmtStatus then [.read n] else [.read n, .minus p.length 1],
        .inner i s (n + 1) fmtStatus fmtBegin str)
  else ([], .leave i s ⟨n, fmtStatus, str, []⟩)

/-- From behind the inner loop. -/
def nextLeave (i : Nat) (s : ParseState) (r : Scan) : List Access × Scanner :=
  if r.fmtStatus = false then
    let s := s.flush
    -- `i = n - 1`, and the `++i` of the loop
    ([.minus r.n 1], .outer (r.n - 1 + 1) { s with vec := s.vec ++ [⟨r.str, r.fmtStr, true⟩] })
  else
    -- the message quotes the rest of the pattern
    ([.substr i], .outer (i + 1) { s with
      vec := s.vec ++ [⟨"<<pattern_error>>".toList, r.fmtStr, false⟩]
      error := true })

/-- The accesses of a step, and where it leads. -/
def next (p : List Char) : Scanner → Option (List Access × Scanner)
  | outer i s => some (nextOuter p i s)
  | inner i s n fmtStatus fmtBegin str => some (nextInner p i s n fmtStatus fmtBegin str)
  | leave i s r => some (nextLeave i s r)
  | done _ => none

/-- The outer index. -/
def index : Scanner → Nat
  | outer i _ => i
  | inner i _ _ _ _ _ => i
  | leave i _ _ => i
  | done _ => 0

/-- An iteration of the outer loop begins, or the loop ends. -/
def atHead : Scanner → Bool
  | outer _ _ => true
  | _ => false

/-- Before the loops. -/
def start : Scanner := outer 0 ⟨[], [], false⟩

/-- A step of the parser of the pattern `p`. -/
def Step (p : List Char) (t : Scanner) (a : List Access) (u : Scanner) : Prop :=
  t.next p = some (a, u)

variable {p : List Char} {i n fmtBegin : Nat} {s : ParseState} {fmtStatus : Bool}
  {str : List Char}

/-! ### What a step does -/

theorem nameAccesses_inRange (hn : i < n) (hlt : n < p.length) :
    ∀ a ∈ nameAccesses i n, a.InRange p.length := by
  simp only [nameAccesses, List.forall_mem_cons, List.not_mem_nil, false_imp_iff, implies_true,
    and_true, Access.InRange]
  omega

/-- An iteration of the outer loop uses up one character, or finds a directive; there is none
behind the pattern. -/
theorem nextOuter_spec (p : List Char) (i : Nat) (s : ParseState) :
    (∀ a ∈ (nextOuter p i s).1, a.InRange p.length) ∧
      ((i < p.length ∧ ∃ s', (nextOuter p i s).2 = outer (i + 1) s') ∨
        (i < p.length ∧ (nextOuter p i s).2 = inner i s (i + 1) false 0 []) ∨
        (p.length ≤ i ∧ (nextOuter p i s).2 = done s.flush)) := by
  have hread : i < p.length → ∀ a ∈ [Access.read i], a.InRange p.length := by
    intro h
    exact List.forall_mem_singleton.mpr h
  have hreads : i + 1 < p.length → ∀ a ∈ [Access.read i, .read (i + 1)], a.InRange p.length := by
    intro h
    exact List.forall_mem_cons.mpr ⟨Nat.lt_of_succ_lt h, List.forall_mem_singleton.mpr h⟩
  rw [nextOuter]
  split_ifs with h hc hnext hpair
  · exact ⟨List.forall_mem_cons.mpr ⟨h, hread h⟩, Or.inl ⟨h, _, rfl⟩⟩
  · exact ⟨hreads hnext, Or.inl ⟨h, _, rfl⟩⟩
  · exact ⟨hreads hnext, Or.inr (Or.inl ⟨h, rfl⟩)⟩
  · exact ⟨hread h, Or.inr (Or.inl ⟨h, rfl⟩)⟩
  · exact ⟨List.forall_mem_nil _, Or.inr (Or.inr ⟨Nat.not_lt.mp h, rfl⟩)⟩

/-- An iteration of the inner loop goes on to the next character, or leaves the loop. -/
theorem nextInner_spec (s : ParseState) (str : List Char) (hn : i < n) (hle : n ≤ p.length)
    (hbegin : fmtStatus = true → fmtBegin < n) :
    (∀ a ∈ (nextInner p i s n fmtStatus fmtBegin str).1, a.InRange p.length) ∧
      ((n < p.length ∧ ∃ fmtStatus' fmtBegin' str', (fmtStatus' = true → fmtBegin' < n + 1) ∧
          (nextInner p i s n fmtStatus fmtBegin str).2 =
            inner i s (n + 1) fmtStatus' fmtBegin' str') ∨
        ∃ r, (nextInner p i s n fmtStatus fmtBegin str).2 = leave i s r ∧ n ≤ r.n ∧
          r.n ≤ p.length) := by
  by_cases h : n < p.length
  · have hname := nameAccesses_inRange hn h
    have hread : (Access.read n).InRange p.length := h
    have hminus : (Access.minus p.length 1).InRange p.length := Nat.one_le_of_lt h
    rw [nextInner, dif_pos h]
    split_ifs with hstop hbrace hlast hclose
    · exact ⟨List.forall_mem_cons.mpr ⟨hread, hname⟩, Or.inr ⟨_, rfl, le_rfl, hle⟩⟩
    · exact ⟨List.forall_mem_cons.mpr ⟨hread, hname⟩,
        Or.inl ⟨h, _, _, _, fun _ => Nat.lt_succ_self n, rfl⟩⟩
    · refine ⟨?_, Or.inl ⟨h, _, _, _, fun he => Nat.lt_succ_of_lt (hbegin he), rfl⟩⟩
      have hsubstr : (Access.substr n).InRange p.length := hle
      simp [hread, hminus, hsubstr]
    · refine ⟨?_, Or.inr ⟨_, rfl, Nat.le_succ n, h⟩⟩
      have hlt : fmtBegin < n := hbegin (Bool.and_eq_true_iff.mp hclose).1
      have hoption : ∀ a ∈ [Access.minus n fmtBegin, .minus (n - fmtBegin) 1,
          .substr (fmtBegin + 1)], a.InRange p.length := by
        simp only [List.forall_mem_cons, List.not_mem_nil, false_imp_iff, implies_true, and_true,
          Access.InRange]
        omega
      exact List.forall_mem_cons.mpr ⟨hread, hoption⟩
    · exact ⟨by simp [hread], Or.inl ⟨h, _, _, _, fun he => Nat.lt_succ_of_lt (hbegin he), rfl⟩⟩
    · exact ⟨by simp [hread, hminus],
        Or.inl ⟨h, _, _, _, fun he => Nat.lt_succ_of_lt (hbegin he), rfl⟩⟩
  · rw [nextInner, dif_neg h]
    exact ⟨List.forall_mem_nil _, Or.inr ⟨_, rfl, le_rfl, hle⟩⟩

/-- Behind the inner loop the outer index is set forward. -/
theorem nextLeave_spec (s : ParseState) {r : Scan} (hn : i < r.n) (hle : r.n ≤ p.length) :
    (∀ a ∈ (nextLeave i s r).1, a.InRange p.length) ∧
      ∃ i' s', (nextLeave i s r).2 = outer i' s' ∧ i < i' ∧ i' ≤ p.length := by
  rw [nextLeave]
  split_ifs with hstatus
  · have hminus : (Access.minus r.n 1).InRange p.length := Nat.one_le_of_lt hn
    refine ⟨List.forall_mem_singleton.mpr hminus, _, _, rfl, ?_⟩
    omega
  · have hsubstr : (Access.substr i).InRange p.length := (hn.trans_le hle).le
    exact ⟨List.forall_mem_singleton.mpr hsubstr, _, _, rfl, Nat.lt_succ_self i, hn.trans_le hle⟩

/-! ### Every run -/

/-- The indices are in order: after the outer one comes the inner one, with an open brace
between them. -/
def Fits (size : Nat) : Scanner → Prop
  | outer i _ => i ≤ size
  | inner i _ n fmtStatus fmtBegin _ => i < n ∧ n ≤ size ∧ (fmtStatus = true → fmtBegin < n)
  | leave i _ r => i < r.n ∧ r.n ≤ size
  | done _ => True

/-- How many steps there are ahead, at most. -/
def ahead (size : Nat) : Scanner → Nat
  | outer i _ => (size - i) * (size + 3) + 1
  | inner i _ n _ _ _ => (size - i - 1) * (size + 3) + (size - n) + 3
  | leave i _ _ => (size - i - 1) * (size + 3) + 2
  | done _ => 0

/-- How many iterations of the outer loop there are ahead, at most. -/
def iterationsAhead (size : Nat) : Scanner → Nat
  | outer i _ => size - i
  | inner i _ _ _ _ _ => size - i
  | leave i _ _ => size - i
  | done _ => 0

variable {t u : Scanner} {a : List Access}

theorem sub_mul_eq {size m : Nat} (h : i < size) :
    (size - i) * m = (size - i - 1) * m + m := by
  obtain ⟨k, hk⟩ := Nat.exists_eq_add_one_of_ne_zero (Nat.sub_ne_zero_of_lt h)
  rw [hk, Nat.add_sub_cancel, Nat.succ_mul]

/-- **Step lemma.** -/
theorem Fits.step (h : t.Fits p.length) (hs : Step p t a u) :
    u.Fits p.length ∧ (∀ x ∈ a, x.InRange p.length) ∧ u.ahead p.length < t.ahead p.length ∧
      (if u.atHead then 1 else 0) + u.iterationsAhead p.length ≤ t.iterationsAhead p.length ∧
      (u.atHead → t.index < u.index) := by
  cases t with
  | outer i s =>
      have hspec := nextOuter_spec p i s
      rw [show nextOuter p i s = (a, u) from Option.some.inj hs] at hspec
      obtain ⟨haccess, ⟨hlt, s', rfl⟩ | ⟨hlt, rfl⟩ | ⟨_, rfl⟩⟩ := hspec
      · have hahead := sub_mul_eq (m := p.length + 3) hlt
        refine ⟨hlt, haccess, ?_, ?_, fun _ => Nat.lt_succ_self i⟩
        · simp only [ahead, Nat.sub_add_eq]
          omega
        · simp only [atHead, iterationsAhead, if_true]
          omega
      · have hahead := sub_mul_eq (m := p.length + 3) hlt
        refine ⟨⟨Nat.lt_succ_self i, hlt, fun he => by cases he⟩, haccess, ?_, ?_,
          fun he => by cases he⟩
        · simp only [ahead]
          omega
        · simp only [atHead, iterationsAhead, Bool.false_eq_true, if_false, Nat.zero_add, le_refl]
      · exact ⟨trivial, haccess, Nat.succ_pos _, Nat.zero_le _, fun he => by cases he⟩
  | inner i s n fmtStatus fmtBegin str =>
      obtain ⟨hn, hle, hbegin⟩ := h
      have hspec := nextInner_spec s str hn hle hbegin
      rw [show nextInner p i s n fmtStatus fmtBegin str = (a, u) from Option.some.inj hs] at hspec
      obtain ⟨haccess, ⟨hlt, fmtStatus', fmtBegin', str', hbegin', rfl⟩ | ⟨r, rfl, hr, hr'⟩⟩ :=
        hspec
      · refine ⟨⟨Nat.lt_succ_of_lt hn, hlt, hbegin'⟩, haccess, ?_, ?_, fun he => by cases he⟩
        · simp only [ahead]
          omega
        · simp only [atHead, iterationsAhead, Bool.false_eq_true, if_false, Nat.zero_add, le_refl]
      · refine ⟨⟨hn.trans_le hr, hr'⟩, haccess, ?_, ?_, fun he => by cases he⟩
        · simp only [ahead]
          omega
        · simp only [atHead, iterationsAhead, Bool.false_eq_true, if_false, Nat.zero_add, le_refl]
  | leave i s r =>
      obtain ⟨hn, hle⟩ := h
      have hspec := nextLeave_spec s hn hle
      rw [show nextLeave i s r = (a, u) from Option.some.inj hs] at hspec
      obtain ⟨haccess, i', s', rfl, hi, hi'⟩ := hspec
      have hahead : (p.length - i') * (p.length + 3) ≤ (p.length - i - 1) * (p.length + 3) :=
        Nat.mul_le_mul_right _ (by omega)
      refine ⟨hi', haccess, ?_, ?_, fun _ => hi⟩
      · simp only [ahead]
        omega
      · simp only [atHead, iterationsAhead, if_true]
        omega
  | done s => cases hs

/-! ### The result -/

theorem le_scanDirective (p : List Char) (i fuel n : Nat) (fmtStatus : Bool) (fmtBegin : Nat)
    (str : List Char) : n ≤ (scanDirective p i fuel n fmtStatus fmtBegin str).n := by
  induction fuel generalizing n fmtStatus fmtBegin str with
  | zero => exact le_rfl
  | succ fuel ih =>
      rw [scanDirective]
      split_ifs
      · exact le_rfl
      · exact (Nat.le_succ n).trans (ih ..)
      · exact (Nat.le_succ n).trans (ih ..)
      · exact Nat.le_succ n
      · exact (Nat.le_succ n).trans (ih ..)
      · exact le_rfl

theorem le_parseStep (p : List Char) (i : Nat) (s : ParseState) : i ≤ (parseStep p i s).1 := by
  rw [parseStep]
  split_ifs
  · exact le_rfl
  · exact le_rfl
  · have hn := le_scanDirective p i p.length (i + 1) false 0 []
    dsimp only
    split_ifs
    · exact Nat.le_sub_of_add_le hn
    · exact le_rfl

/-- More iterations of the inner loop than there are characters change nothing. -/
theorem scanDirective_fuel {fuel fuel' : Nat} (h : p.length ≤ n + fuel)
    (h' : p.length ≤ n + fuel') :
    scanDirective p i fuel n fmtStatus fmtBegin str =
      scanDirective p i fuel' n fmtStatus fmtBegin str := by
  induction fuel generalizing fuel' n fmtStatus fmtBegin str with
  | zero =>
      cases fuel' with
      | zero => rfl
      | succ fuel' =>
          have hend : ¬ n < p.length := Nat.not_lt.mpr h
          rw [scanDirective, scanDirective, dif_neg hend]
  | succ fuel ih =>
      cases fuel' with
      | zero =>
          have hend : ¬ n < p.length := Nat.not_lt.mpr h'
          rw [scanDirective, scanDirective, dif_neg hend]
      | succ fuel' =>
          have hrest : ∀ fmtStatus fmtBegin str,
              scanDirective p i fuel (n + 1) fmtStatus fmtBegin str =
                scanDirective p i fuel' (n + 1) fmtStatus fmtBegin str :=
            fun _ _ _ => ih (by omega) (by omega)
          simp only [scanDirective, hrest]

/-- Nor do more iterations of the outer loop. -/
theorem parseLoop_fuel {fuel fuel' : Nat} (h : p.length ≤ i + fuel) (h' : p.length ≤ i + fuel') :
    parseLoop p fuel i s = parseLoop p fuel' i s := by
  induction fuel generalizing fuel' i s with
  | zero =>
      cases fuel' with
      | zero => rfl
      | succ fuel' =>
          have hend : ¬ i < p.length := Nat.not_lt.mpr h
          rw [parseLoop, parseLoop, if_neg hend]
  | succ fuel ih =>
      cases fuel' with
      | zero =>
          have hend : ¬ i < p.length := Nat.not_lt.mpr h'
          rw [parseLoop, parseLoop, if_neg hend]
      | succ fuel' =>
          have hle := le_parseStep p i s
          have hrest : parseLoop p fuel ((parseStep p i s).1 + 1) (parseStep p i s).2 =
              parseLoop p fuel' ((parseStep p i s).1 + 1) (parseStep p i s).2 :=
            ih (by omega) (by omega)
          simp only [parseLoop, hrest]

/-- What the loops of Sylar.Parse make of it from here on. -/
def result (p : List Char) : Scanner → ParseState
  | outer i s => (parseLoop p (p.length - i) i s).flush
  | inner i s n fmtStatus fmtBegin str =>
      finish i s (scanDirective p i (p.length - n) n fmtStatus fmtBegin str)
  | leave i s r => finish i s r
  | done s => s
where
  /-- From behind the inner loop. -/
  finish (i : Nat) (s : ParseState) (r : Scan) : ParseState :=
    match (nextLeave i s r).2 with
    | outer i s => (parseLoop p (p.length - i) i s).flush
    | _ => s

theorem result_inner (h : n < p.length) :
    (nextInner p i s n fmtStatus fmtBegin str).2.result p =
      (inner i s n fmtStatus fmtBegin str).result p := by
  have hfuel : p.length - n = p.length - (n + 1) + 1 := by omega
  rw [result, hfuel, scanDirective, dif_pos h, nextInner, dif_pos h]
  split_ifs <;> rfl

theorem result_leave (p : List Char) (i : Nat) (s : ParseState) (r : Scan) :
    (nextLeave i s r).2.result p = (leave i s r).result p := by
  rw [result, result.finish, nextLeave]
  split_ifs <;> rfl

/-- An iteration of the outer loop that runs the inner one. -/
theorem result_scan (h : i < p.length) (hc : p[i] = '%') (hnext : p[i + 1]? ≠ some '%') :
    (inner i s (i + 1) false 0 []).result p = (outer i s).result p := by
  have hfuel : p.length - i = p.length - (i + 1) + 1 := by omega
  have hget : p[i]? = some '%' := by rw [List.getElem?_eq_getElem h, hc]
  have hscan : scanDirective p i p.length (i + 1) false 0 [] =
      scanDirective p i (p.length - (i + 1)) (i + 1) false 0 [] :=
    scanDirective_fuel (by omega) (by omega)
  rw [result, result, hfuel, parseLoop, if_pos h, parseStep, if_neg (not_not_intro hget),
    if_neg hnext, hscan]
  have hle := le_scanDirective p i (p.length - (i + 1)) (i + 1) false 0 []
  generalize scanDirective p i (p.length - (i + 1)) (i + 1) false 0 [] = r at hle
  rw [result.finish, nextLeave]
  dsimp only
  split_ifs
  · exact congrArg ParseState.flush (parseLoop_fuel (by omega) (by omega))
  · rfl

theorem result_outer (p : List Char) (i : Nat) (s : ParseState) :
    (nextOuter p i s).2.result p = (outer i s).result p := by
  by_cases h : i < p.length
  · have hfuel : p.length - i = p.length - (i + 1) + 1 := by omega
    have hget : p[i]? = some p[i] := List.getElem?_eq_getElem h
    by_cases hc : p[i] = '%'
    · rw [hc] at hget
      by_cases hpair : p[i + 1]? = some '%'
      · obtain ⟨hnext, hnext'⟩ := List.getElem?_eq_some_iff.mp hpair
        rw [nextOuter, dif_pos h, if_neg (not_not_intro hc), dif_pos hnext, if_pos hnext', result,
          result, hfuel, parseLoop, if_pos h, parseStep, if_neg (not_not_intro hget), if_pos hpair]
      · rw [← result_scan h hc hpair, nextOuter, dif_pos h, if_neg (not_not_intro hc)]
        by_cases hnext : i + 1 < p.length
        · have hne : p[i + 1] ≠ '%' := by
            intro e
            exact hpair (by rw [List.getElem?_eq_getElem hnext, e])
          rw [dif_pos hnext, if_neg hne]
        · rw [dif_neg hnext]
    · have hne : p[i]? ≠ some '%' := by
        rw [hget]
        exact fun e => hc (Option.some.inj e)
      rw [nextOuter, dif_pos h, if_pos hc, result, result, hfuel, parseLoop, if_pos h, parseStep,
        if_pos hne, hget]
      rfl
  · have hfuel : p.length - i = 0 := by omega
    rw [result, hfuel, nextOuter, dif_neg h]
    rfl

/-- Every step keeps the result. -/
theorem result_step (h : t.Fits p.length) (hs : Step p t a u) : u.result p = t.result p := by
  cases t with
  | outer i s =>
      rw [← result_outer, show nextOuter p i s = (a, u) from Option.some.inj hs]
  | inner i s n fmtStatus fmtBegin str =>
      have hinner : (nextInner p i s n fmtStatus fmtBegin str).2.result p =
          (inner i s n fmtStatus fmtBegin str).result p := by
        by_cases hn : n < p.length
        · exact result_inner hn
        · have hfuel : p.length - n = 0 := by omega
          rw [nextInner, dif_neg hn, result, result, hfuel]
          rfl
      rw [← hinner, show nextInner p i s n fmtStatus fmtBegin str = (a, u) from Option.some.inj hs]
  | leave i s r =>
      rw [← result_leave, show nextLeave i s r = (a, u) from Option.some.inj hs]
  | done s => cases hs

theorem result_of_run {tr : List (Taken Scanner (List Access))} (hrun : Run (Step p) start tr t) :
    t.result p = tokens p := by
  have h : t.Fits p.length ∧ t.result p = tokens p := by
    apply hrun.invariant (I := fun t => t.Fits p.length ∧ t.result p = tokens p)
    · exact ⟨Nat.zero_le _, rfl⟩
    · rintro t a u ⟨h, hresult⟩ hs
      exact ⟨(h.step hs).1, (result_step h hs).trans hresult⟩
  exact h.2

/-- The parser stops only behind its loops. -/
theorem done_or_step (p : List Char) (t : Scanner) :
    (∃ s, t = done s) ∨ ∃ a u, Step p t a u := by
  cases t with
  | outer i s => exact Or.inr ⟨_, _, rfl⟩
  | inner i s n fmtStatus fmtBegin str => exact Or.inr ⟨_, _, rfl⟩
  | leave i s r => exact Or.inr ⟨_, _, rfl⟩
  | done s => exact Or.inl ⟨s, rfl⟩

end Scanner

open Scanner

/-- **Parsing comes to an end, with all its accesses in range**: for every pattern, well formed
or not, the machine stops behind its loops with the tokens of the pattern and nowhere else,
after a bounded number of steps, and of iterations of the outer loop one for a character at
most.  The outer index grows from iteration to iteration, and behind the inner loop the inner
index is past the outer one and not past the end. -/
theorem scanning_in_range (p : List Char) :
    (∃ tr, Run (Step p) start tr (.done (tokens p))) ∧
      ∀ tr t, Run (Step p) start tr t →
        (t = .done (tokens p) ∨ ∃ a u, Step p t a u) ∧
        tr.length ≤ p.length * (p.length + 3) + 1 ∧
        tr.countP (fun x => x.target.atHead) ≤ p.length ∧
        ∀ x ∈ tr, (∀ a ∈ x.label, a.InRange p.length) ∧
          (x.target.atHead → x.source.index < x.target.index) ∧
          ∀ i s r, x.target = .leave i s r → i + 1 ≤ r.n ∧ r.n ≤ p.length := by
  have h0 : start.Fits p.length := Nat.zero_le _
  have hkept : ∀ t a u, t.Fits p.length → Step p t a u → u.Fits p.length :=
    fun _ _ _ h hs => (h.step hs).1
  have hahead : ∀ t a u, t.Fits p.length → Step p t a u → u.ahead p.length < t.ahead p.length :=
    fun _ _ _ h hs => (h.step hs).2.2.1
  have hdone : ∀ {tr s}, Run (Step p) start tr (done s) → s = tokens p :=
    fun hrun => result_of_run hrun
  constructor
  · have hprogress : ∀ t, t.Fits p.length → (∃ s, t = done s) ∨ ∃ a u, Step p t a u :=
      fun t _ => done_or_step p t
    obtain ⟨tr, t, hrun, s, rfl⟩ := Run.exists_final hkept hahead hprogress h0
    obtain rfl := hdone hrun
    exact ⟨tr, hrun⟩
  intro tr t hrun
  refine ⟨?_, hrun.length_le h0 hkept hahead, ?_, ?_⟩
  · rcases done_or_step p t with ⟨s, rfl⟩ | hs
    · exact Or.inl (congrArg done (hdone hrun))
    · exact Or.inr hs
  · have hcount := hrun.countP_add_le (q := fun x => x.target.atHead)
      (μ := iterationsAhead p.length) h0 hkept fun _ _ _ h hs => (h.step hs).2.2.2.1
    exact (Nat.le_add_right _ _).trans hcount
  · refine Run.forall_taken h0 hkept ?_ hrun
    intro t a u h hs
    obtain ⟨hu, haccess, _, _, hindex⟩ := h.step hs
    refine ⟨haccess, hindex, ?_⟩
    rintro i s r rfl
    exact hu

end Sylar
