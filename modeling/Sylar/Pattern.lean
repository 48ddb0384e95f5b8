/-
Sylar/Pattern.lean

How `LogFormatter::parse` reads a pattern, without its indices.

The parser takes a pattern apart into *pieces*: characters of text, directives
with a name and an option, and directives whose option brace is never closed.
`Reads p ps` says so by a rule for each way a piece can begin.  Three of the
rules are not what one would expect of a pattern:

    percent   of a pair `%%` only the first `%` is used up
    last      a name that reaches the end of the pattern is its last letter
    name      a `}` is a letter, as far as names go

`parseLoop_eq` is the link to the loops: what they leave is what a fold over
the pieces leaves.  Every pattern has a reading (`exists_reads`), so that all
there is to say about parsing can be said about pieces.
-/
import Sylar.World

namespace Sylar

/-! ### Readings -/

/-- The characters that end a name. -/
def stops (c : Char) : Bool := !c.isAlpha && c ≠ '{' && c ≠ '}'

/-- The characters that a name runs over. -/
def InName (c : Char) : Prop := c.isAlpha = true ∨ c = '}'

theorem InName.stops {c : Char} (h : InName c) : stops c = false := by
  rcases h with h | rfl
  · simp [Sylar.stops, h]
  · rfl

theorem InName.ne_brace {c : Char} (h : InName c) : c ≠ '{' := by
  rintro rfl
  rcases h with h | h <;> simp at h

/-- A character is part of a name, ends it, or opens an option. -/
theorem inName_or_stops (c : Char) : InName c ∨ c = '{' ∨ stops c = true := by
  by_cases hbrace : c = '{'
  · exact Or.inr (Or.inl hbrace)
  by_cases hclose : c = '}'
  · exact Or.inl (Or.inr hclose)
  cases halpha : c.isAlpha with
  | true => exact Or.inl (Or.inl halpha)
  | false => exact Or.inr (Or.inr (by simp [stops, halpha, hbrace, hclose]))

/-- What the parser takes a pattern apart into. -/
inductive Piece
  | char (c : Char)
  | directive (str fmtStr : List Char)
  /-- A directive whose option brace is not closed; the parser goes on after its `%`. -/
  | unpaired
  deriving DecidableEq, Repr

/-- **The reading of a pattern.** -/
inductive Reads : List Char → List Piece → Prop
  | nil : Reads [] []
  | char {c p ps} (hc : c ≠ '%') (h : Reads p ps) : Reads (c :: p) (.char c :: ps)
  | percent {p ps} (h : Reads ('%' :: p) ps) : Reads ('%' :: '%' :: p) (.char '%' :: ps)
  | name {str c p ps} (hstr : ∀ x ∈ str, InName x) (hc : stops c = true)
      (hne : str = [] → c ≠ '%') (h : Reads (c :: p) ps) :
      Reads ('%' :: (str ++ c :: p)) (.directive str [] :: ps)
  | option {str fmtStr p ps} (hstr : ∀ x ∈ str, InName x) (hfmt : '}' ∉ fmtStr)
      (h : Reads p ps) :
      Reads ('%' :: (str ++ '{' :: (fmtStr ++ '}' :: p))) (.directive str fmtStr :: ps)
  | last {str} (hstr : ∀ x ∈ str, InName x) :
      Reads ('%' :: str) [.directive str.getLast?.toList []]
  | unpaired {str p ps} (hstr : ∀ x ∈ str, InName x) (hp : '}' ∉ p)
      (h : Reads (str ++ '{' :: p) ps) :
      Reads ('%' :: (str ++ '{' :: p)) (.unpaired :: ps)

/-- What a piece does to the variables of the outer loop. -/
def ParseState.push (s : ParseState) : Piece → ParseState
  | .char c => { s with text := s.text ++ [c] }
  | .directive str fmtStr => { s.flush with vec := s.flush.vec ++ [⟨str, fmtStr, true⟩] }
  | .unpaired => { s with
      vec := s.vec ++ [⟨"<<pattern_error>>".toList, [], false⟩]
      error := true }

/-! ### The inner loop -/

section Scan

variable {p pre : List Char} {i : Nat}

theorem substr_mid (pre mid post : List Char) :
    substr (pre ++ (mid ++ post)) pre.length mid.length = mid := by
  rw [substr, List.drop_left, List.take_left]

/-- One iteration, at a character with `rest` behind it. -/
theorem scanDirective_cons {c : Char} {rest : List Char} (hp : p = pre ++ c :: rest)
    (fuel : Nat) (fmtStatus : Bool) (fmtBegin : Nat) (str : List Char) :
    scanDirective p i (fuel + 1) pre.length fmtStatus fmtBegin str =
      if !fmtStatus && stops c then
        ⟨pre.length, fmtStatus, substr p (i + 1) (pre.length - i - 1), []⟩
      else if !fmtStatus && c = '{' then
        scanDirective p i fuel (pre.length + 1) true pre.length
          (substr p (i + 1) (pre.length - i - 1))
      else if !fmtStatus && (rest = [] && str = []) then
        scanDirective p i fuel (pre.length + 1) fmtStatus fmtBegin [c]
      else if fmtStatus && c = '}' then
        ⟨pre.length + 1, false, str, substr p (fmtBegin + 1) (pre.length - fmtBegin - 1)⟩
      else
        scanDirective p i fuel (pre.length + 1) fmtStatus fmtBegin str := by
  have hlt : pre.length < p.length := by
    rw [hp, List.length_append, List.length_cons]
    omega
  have hget : p[pre.length] = c := by simp [hp]
  have hsub : substr p pre.length 1 = [c] := by rw [hp]; exact substr_mid pre [c] rest
  have hlast : pre.length = p.length - 1 ↔ rest = [] := by
    rw [hp, List.length_append, List.length_cons, ← List.length_eq_zero_iff]
    omega
  rw [scanDirective, dif_pos hlt, hget, hsub, decide_eq_decide.mpr hlast]
  rfl

/-- At the end of the pattern. -/
theorem scanDirective_end (hp : p.length ≤ pre.length) (fuel : Nat) (fmtStatus : Bool)
    (fmtBegin : Nat) (str : List Char) :
    scanDirective p i fuel pre.length fmtStatus fmtBegin str = ⟨pre.length, fmtStatus, str, []⟩ := by
  cases fuel with
  | zero => rfl
  | succ fuel => rw [scanDirective, dif_neg (Nat.not_lt.mpr hp)]

/-- An option brace that is not closed. -/
theorem scanDirective_unpaired {more : List Char} (hp : p = pre ++ more) (hmore : '}' ∉ more)
    {fuel : Nat} (hfuel : more.length ≤ fuel) (fmtBegin : Nat) (str : List Char) :
    scanDirective p i fuel pre.length true fmtBegin str = ⟨p.length, true, str, []⟩ := by
  induction more generalizing pre fuel with
  | nil =>
      rw [List.append_nil] at hp
      rw [hp, scanDirective_end le_rfl]
  | cons c more ih =>
      obtain ⟨fuel, rfl⟩ := Nat.exists_eq_add_one_of_ne_zero (Nat.ne_zero_of_lt hfuel)
      have hc : c ≠ '}' := fun e => hmore (e ▸ List.mem_cons_self)
      have hstep : scanDirective p i (fuel + 1) pre.length true fmtBegin str =
          scanDirective p i fuel (pre.length + 1) true fmtBegin str := by
        rw [scanDirective_cons hp]
        simp [hc]
      have hp' : p = (pre ++ [c]) ++ more := by rw [hp, List.append_assoc]; rfl
      have hrest := ih hp' (fun h => hmore (List.mem_cons_of_mem c h))
        (Nat.le_of_succ_le_succ hfuel)
      rw [List.length_append] at hrest
      rw [hstep]
      exact hrest

/-- An option up to its closing brace. -/
theorem scanDirective_option {fmtStr rest : List Char} (hp : p = pre ++ (fmtStr ++ '}' :: rest))
    (hfmt : '}' ∉ fmtStr) {fuel : Nat} (hfuel : fmtStr.length < fuel) (fmtBegin : Nat)
    (str : List Char) :
    scanDirective p i fuel pre.length true fmtBegin str =
      ⟨pre.length + fmtStr.length + 1, false, str,
        substr p (fmtBegin + 1) (pre.length + fmtStr.length - fmtBegin - 1)⟩ := by
  induction fmtStr generalizing pre fuel with
  | nil =>
      obtain ⟨fuel, rfl⟩ := Nat.exists_eq_add_one_of_ne_zero (Nat.ne_zero_of_lt hfuel)
      rw [scanDirective_cons hp]
      simp
  | cons c fmtStr ih =>
      obtain ⟨fuel, rfl⟩ := Nat.exists_eq_add_one_of_ne_zero (Nat.ne_zero_of_lt hfuel)
      have hc : c ≠ '}' := fun e => hfmt (e ▸ List.mem_cons_self)
      have hstep : scanDirective p i (fuel + 1) pre.length true fmtBegin str =
          scanDirective p i fuel (pre.length + 1) true fmtBegin str := by
        rw [scanDirective_cons hp]
        simp [hc]
      have hp' : p = (pre ++ [c]) ++ (fmtStr ++ '}' :: rest) := by
        rw [hp, List.append_assoc]
        rfl
      have hrest := ih hp' (fun h => hfmt (List.mem_cons_of_mem c h))
        (Nat.lt_of_succ_lt_succ hfuel)
      have hlen : pre.length + (c :: fmtStr).length = (pre ++ [c]).length + fmtStr.length := by
        simp only [List.length_append, List.length_cons, List.length_nil]
        omega
      rw [hstep, hlen]
      rw [List.length_append] at hrest ⊢
      exact hrest

/-- A name, as long as the pattern goes on behind it. -/
theorem scanDirective_name {str rest : List Char} (hp : p = pre ++ (str ++ rest))
    (hstr : ∀ x ∈ str, InName x) (hrest : rest ≠ []) (fuel fmtBegin : Nat) :
    scanDirective p i (fuel + str.length) pre.length false fmtBegin [] =
      scanDirective p i fuel (pre ++ str).length false fmtBegin [] := by
  induction str generalizing pre with
  | nil => rw [List.append_nil]; rfl
  | cons c str ih =>
      have hc : InName c := hstr c List.mem_cons_self
      have hstep : scanDirective p i (fuel + str.length + 1) pre.length false fmtBegin [] =
          scanDirective p i (fuel + str.length) (pre.length + 1) false fmtBegin [] := by
        rw [scanDirective_cons (show p = pre ++ c :: (str ++ rest) from hp)]
        simp [hc.stops, hc.ne_brace, hrest]
      have hp' : p = (pre ++ [c]) ++ (str ++ rest) := by rw [hp, List.append_assoc]; rfl
      have hih := ih hp' fun x hx => hstr x (List.mem_cons_of_mem c hx)
      rw [List.append_assoc, List.length_append] at hih
      exact hstep.trans hih

/-! ### One directive -/

variable {str rest : List Char}

/-- From the `%` to what follows the name, if something does. -/
theorem scanDirective_start (hp : p = pre ++ '%' :: (str ++ rest)) (hstr : ∀ x ∈ str, InName x)
    (hrest : rest ≠ []) :
    scanDirective p i p.length (pre.length + 1) false 0 [] =
      scanDirective p i (p.length - str.length) (pre ++ '%' :: str).length false 0 [] := by
  have hp' : p = (pre ++ ['%']) ++ (str ++ rest) := by rw [hp, List.append_assoc]; rfl
  have hle : str.length ≤ p.length := by
    rw [hp]
    simp only [List.length_append, List.length_cons]
    omega
  have hname := scanDirective_name (i := i) hp' hstr hrest (p.length - str.length) 0
  rw [Nat.sub_add_cancel hle, List.length_append, List.append_assoc] at hname
  exact hname

theorem substr_name (hp : p = pre ++ '%' :: (str ++ rest)) :
    substr p (pre.length + 1) ((pre ++ '%' :: str).length - pre.length - 1) = str := by
  have hp' : p = (pre ++ ['%']) ++ (str ++ rest) := by rw [hp, List.append_assoc]; rfl
  have hpos : pre.length + 1 = (pre ++ ['%']).length := by simp
  have hlen : (pre ++ '%' :: str).length - pre.length - 1 = str.length := by
    rw [List.length_append, List.length_cons]
    omega
  rw [hlen, hpos, hp']
  exact substr_mid _ str rest

theorem scan_name {c : Char} (hp : p = pre ++ '%' :: (str ++ c :: rest))
    (hstr : ∀ x ∈ str, InName x) (hc : stops c = true) :
    scanDirective p pre.length p.length (pre.length + 1) false 0 [] =
      ⟨(pre ++ '%' :: str).length, false, str, []⟩ := by
  have hp' : p = (pre ++ '%' :: str) ++ c :: rest := by rw [hp, List.append_assoc]; rfl
  obtain ⟨fuel, hfuel⟩ : ∃ k, p.length - str.length = k + 1 := by
    refine ⟨p.length - str.length - 1, ?_⟩
    rw [hp]
    simp only [List.length_append, List.length_cons]
    omega
  rw [scanDirective_start hp hstr (List.cons_ne_nil c rest), hfuel, scanDirective_cons hp',
    substr_name hp]
  simp [hc]

theorem scan_brace (hp : p = pre ++ '%' :: (str ++ '{' :: rest)) (hstr : ∀ x ∈ str, InName x) :
    scanDirective p pre.length p.length (pre.length + 1) false 0 [] =
      scanDirective p pre.length (p.length - str.length - 1) (pre ++ '%' :: (str ++ ['{'])).length
        true (pre ++ '%' :: str).length str := by
  have hp' : p = (pre ++ '%' :: str) ++ '{' :: rest := by rw [hp, List.append_assoc]; rfl
  have hfuel : p.length - str.length = p.length - str.length - 1 + 1 := by
    rw [hp]
    simp only [List.length_append, List.length_cons]
    omega
  have hlen : (pre ++ '%' :: str).length + 1 = (pre ++ '%' :: (str ++ ['{'])).length := by
    simp only [List.length_append, List.length_cons, List.length_nil]
    omega
  rw [scanDirective_start hp hstr (List.cons_ne_nil '{' rest), hfuel, scanDirective_cons hp',
    substr_name hp, hlen]
  simp [stops]

theorem scan_option {fmtStr : List Char}
    (hp : p = pre ++ '%' :: (str ++ '{' :: (fmtStr ++ '}' :: rest)))
    (hstr : ∀ x ∈ str, InName x) (hfmt : '}' ∉ fmtStr) :
    scanDirective p pre.length p.length (pre.length + 1) false 0 [] =
      ⟨(pre ++ '%' :: (str ++ '{' :: (fmtStr ++ ['}']))).length, false, str, fmtStr⟩ := by
  have hp' : p = (pre ++ '%' :: (str ++ ['{'])) ++ (fmtStr ++ '}' :: rest) := by
    rw [hp]
    simp only [List.append_assoc, List.cons_append, List.nil_append]
  have hfuel : fmtStr.length < p.length - str.length - 1 := by
    rw [hp]
    simp only [List.length_append, List.length_cons]
    omega
  have hend : (pre ++ '%' :: (str ++ ['{'])).length + fmtStr.length + 1 =
      (pre ++ '%' :: (str ++ '{' :: (fmtStr ++ ['}']))).length := by
    simp only [List.length_append, List.length_cons, List.length_nil]
    omega
  have hpos : (pre ++ '%' :: str).length + 1 = (pre ++ '%' :: (str ++ ['{'])).length := by
    simp only [List.length_append, List.length_cons, List.length_nil]
    omega
  have hlen : (pre ++ '%' :: (str ++ ['{'])).length + fmtStr.length -
      (pre ++ '%' :: str).length - 1 = fmtStr.length := by
    rw [← hpos]
    omega
  rw [scan_brace hp hstr, scanDirective_option hp' hfmt hfuel, hend, hlen, hpos]
  rw [hp', substr_mid]

theorem scan_unpaired (hp : p = pre ++ '%' :: (str ++ '{' :: rest)) (hstr : ∀ x ∈ str, InName x)
    (hrest : '}' ∉ rest) :
    scanDirective p pre.length p.length (pre.length + 1) false 0 [] =
      ⟨p.length, true, str, []⟩ := by
  have hp' : p = (pre ++ '%' :: (str ++ ['{'])) ++ rest := by
    rw [hp]
    simp only [List.append_assoc, List.cons_append, List.nil_append]
  have hfuel : rest.length ≤ p.length - str.length - 1 := by
    rw [hp]
    simp only [List.length_append, List.length_cons]
    omega
  rw [scan_brace hp hstr, scanDirective_unpaired hp' hrest hfuel]

/-- **The end of the pattern**: of a name that reaches it, the last letter is left. -/
theorem scan_last (hp : p = pre ++ '%' :: str) (hstr : ∀ x ∈ str, InName x) :
    scanDirective p pre.length p.length (pre.length + 1) false 0 [] =
      ⟨p.length, false, str.getLast?.toList, []⟩ := by
  rcases List.eq_nil_or_concat str with rfl | ⟨init, x, rfl⟩
  · have hlen : pre.length + 1 = p.length := by rw [hp, List.length_append]; rfl
    rw [hlen]
    exact scanDirective_end le_rfl p.length false 0 []
  · rw [List.concat_eq_append] at hp hstr ⊢
    have hinit : ∀ y ∈ init, InName y := fun y hy => hstr y (List.mem_append_left _ hy)
    have hx : InName x := hstr x (List.mem_append_right _ List.mem_cons_self)
    have hp' : p = (pre ++ '%' :: init) ++ x :: [] := by rw [hp, List.append_assoc]; rfl
    obtain ⟨fuel, hfuel⟩ : ∃ k, p.length - init.length = k + 1 := by
      refine ⟨p.length - init.length - 1, ?_⟩
      rw [hp]
      simp only [List.length_append, List.length_cons, List.length_nil]
      omega
    have hlen : (pre ++ '%' :: init).length + 1 = p.length := by
      rw [hp']
      simp only [List.length_append, List.length_cons, List.length_nil]
    rw [scanDirective_start hp hinit (List.cons_ne_nil x []), hfuel, scanDirective_cons hp']
    simp only [hx.stops, hx.ne_brace, Bool.not_false, Bool.and_false, decide_false, decide_true,
      Bool.and_self, if_true, if_false, Bool.false_eq_true, List.getLast?_concat,
      Option.toList_some]
    rw [hlen]
    exact scanDirective_end le_rfl fuel false 0 [x]

end Scan

/-! ### The outer loop -/

section Loop

variable {p pre str rest : List Char} (s : ParseState)

theorem parseStep_char {c : Char} (hp : p = pre ++ c :: rest) (hc : c ≠ '%') :
    parseStep p pre.length s = (pre.length, s.push (.char c)) := by
  have hget : p[pre.length]? = some c := by simp [hp]
  rw [parseStep, hget, if_pos fun e => hc (Option.some.inj e)]
  rfl

theorem parseStep_percent (hp : p = pre ++ '%' :: '%' :: rest) :
    parseStep p pre.length s = (pre.length, s.push (.char '%')) := by
  have hget : p[pre.length]? = some '%' := by simp [hp]
  have hnext : p[pre.length + 1]? = some '%' := by simp [hp]
  rw [parseStep, if_neg (not_not_intro hget), if_pos hnext]
  rfl

/-- The inner loop runs at a `%` that is not followed by another one. -/
theorem parseStep_scan (hp : p = pre ++ '%' :: rest) (hrest : rest.head? ≠ some '%') {r : Scan}
    (hr : scanDirective p pre.length p.length (pre.length + 1) false 0 [] = r) :
    parseStep p pre.length s =
      if r.fmtStatus = false then
        (r.n - 1, s.push (.directive r.str r.fmtStr))
      else
        (pre.length, { s with
          vec := s.vec ++ [⟨"<<pattern_error>>".toList, r.fmtStr, false⟩]
          error := true }) := by
  have hget : p[pre.length]? = some '%' := by simp [hp]
  have hnext : p[pre.length + 1]? = rest.head? := by
    rw [hp, List.getElem?_append_right (Nat.le_succ _), Nat.succ_sub le_rfl, Nat.sub_self,
      List.head?_eq_getElem?]
    rfl
  rw [parseStep, if_neg (not_not_intro hget), hnext, if_neg hrest, hr]
  rfl

theorem one_le_length (pre : List Char) (c : Char) (used : List Char) :
    1 ≤ (pre ++ c :: used).length := by
  rw [List.length_append, List.length_cons]
  omega

theorem head?_append_ne_percent {after : List Char} (hstr : ∀ x ∈ str, InName x)
    (hafter : str = [] → after.head? ≠ some '%') : (str ++ after).head? ≠ some '%' := by
  cases str with
  | nil => exact hafter rfl
  | cons x str =>
      intro e
      obtain rfl : x = '%' := Option.some.inj e
      rcases hstr '%' List.mem_cons_self with h | h <;> simp at h

/-- An iteration that uses up `c :: used` takes the loop from in front of it to behind it. -/
theorem parseLoop_step (c : Char) (used : List Char) {s s' : ParseState} {n fuel : Nat}
    (hp : p = pre ++ c :: (used ++ rest)) (hstep : parseStep p pre.length s = (n, s'))
    (hn : n + 1 = (pre ++ c :: used).length) :
    parseLoop p (fuel + 1) pre.length s = parseLoop p fuel (pre ++ c :: used).length s' := by
  have hlt : pre.length < p.length := by
    rw [hp, List.length_append, List.length_cons]
    omega
  rw [parseLoop, if_pos hlt, hstep]
  dsimp only
  rw [hn]

/-- **The loop reads the pattern.** -/
theorem parseLoop_eq {ps : List Piece} (h : Reads rest ps) (hp : p = pre ++ rest) {fuel : Nat}
    (hfuel : rest.length ≤ fuel) :
    parseLoop p fuel pre.length s = ps.foldl ParseState.push s := by
  induction h generalizing pre fuel s with
  | nil =>
      rw [List.append_nil] at hp
      cases fuel with
      | zero => rfl
      | succ fuel => rw [parseLoop, if_neg (by rw [hp]; exact lt_irrefl _)]; rfl
  | @char c rest ps hc _ ih =>
      obtain ⟨fuel, rfl⟩ := Nat.exists_eq_add_one_of_ne_zero (Nat.ne_zero_of_lt hfuel)
      have hp' : p = (pre ++ [c]) ++ rest := by rw [hp, List.append_assoc]; rfl
      rw [parseLoop_step c [] hp (parseStep_char s hp hc) (by simp)]
      exact ih _ hp' (Nat.le_of_succ_le_succ hfuel)
  | @percent rest ps _ ih =>
      obtain ⟨fuel, rfl⟩ := Nat.exists_eq_add_one_of_ne_zero (Nat.ne_zero_of_lt hfuel)
      have hp' : p = (pre ++ ['%']) ++ '%' :: rest := by rw [hp, List.append_assoc]; rfl
      rw [parseLoop_step '%' [] hp (parseStep_percent s hp) (by simp)]
      exact ih _ hp' (Nat.le_of_succ_le_succ hfuel)
  | @name str c rest ps hstr hc hne _ ih =>
      obtain ⟨fuel, rfl⟩ := Nat.exists_eq_add_one_of_ne_zero (Nat.ne_zero_of_lt hfuel)
      have hp' : p = (pre ++ '%' :: str) ++ c :: rest := by rw [hp, List.append_assoc]; rfl
      have hhead : (str ++ c :: rest).head? ≠ some '%' :=
        head?_append_ne_percent hstr fun hnil e => hne hnil (Option.some.inj e)
      have hstep := parseStep_scan s hp hhead (scan_name hp hstr hc)
      rw [if_pos rfl] at hstep
      rw [parseLoop_step '%' str hp hstep (Nat.sub_add_cancel (one_le_length _ _ _))]
      apply ih _ hp'
      simp only [List.length_cons, List.length_append] at hfuel ⊢
      omega
  | @option str fmtStr rest ps hstr hfmt _ ih =>
      obtain ⟨fuel, rfl⟩ := Nat.exists_eq_add_one_of_ne_zero (Nat.ne_zero_of_lt hfuel)
      have hsplit : str ++ '{' :: (fmtStr ++ '}' :: rest) =
          (str ++ '{' :: (fmtStr ++ ['}'])) ++ rest := by
        simp only [List.append_assoc, List.cons_append, List.nil_append]
      have hp' : p = (pre ++ '%' :: (str ++ '{' :: (fmtStr ++ ['}']))) ++ rest := by
        rw [hp]
        simp only [List.append_assoc, List.cons_append, List.nil_append]
      have hhead : (str ++ '{' :: (fmtStr ++ '}' :: rest)).head? ≠ some '%' :=
        head?_append_ne_percent hstr fun _ e => by simp at e
      have hstep := parseStep_scan s hp hhead (scan_option hp hstr hfmt)
      rw [if_pos rfl] at hstep
      rw [parseLoop_step '%' _ (hsplit ▸ hp) hstep (Nat.sub_add_cancel (one_le_length _ _ _))]
      apply ih _ hp'
      simp only [List.length_cons, List.length_append] at hfuel
      omega
  | @last str hstr =>
      obtain ⟨fuel, rfl⟩ := Nat.exists_eq_add_one_of_ne_zero (Nat.ne_zero_of_lt hfuel)
      have hp' : p = pre ++ '%' :: (str ++ []) := by rw [hp, List.append_nil]
      have hhead : str.head? ≠ some '%' := by
        have h : (str ++ []).head? ≠ some '%' :=
          head?_append_ne_percent hstr fun _ e => by simp at e
        rwa [List.append_nil] at h
      have hstep := parseStep_scan s hp hhead (scan_last hp hstr)
      rw [if_pos rfl] at hstep
      have hlen : p.length - 1 + 1 = (pre ++ '%' :: str).length := by
        rw [hp]
        exact Nat.sub_add_cancel (one_le_length _ _ _)
      rw [parseLoop_step '%' str hp' hstep hlen, ← hp]
      cases fuel with
      | zero => rfl
      | succ fuel => rw [parseLoop, if_neg (lt_irrefl _)]; rfl
  | @unpaired str rest ps hstr hrest _ ih =>
      obtain ⟨fuel, rfl⟩ := Nat.exists_eq_add_one_of_ne_zero (Nat.ne_zero_of_lt hfuel)
      have hp' : p = (pre ++ ['%']) ++ (str ++ '{' :: rest) := by
        rw [hp, List.append_assoc]
        rfl
      have hhead : (str ++ '{' :: rest).head? ≠ some '%' :=
        head?_append_ne_percent hstr fun _ e => by simp at e
      have hstep := parseStep_scan s hp hhead (scan_unpaired hp hstr hrest)
      rw [if_neg (show ¬ true = false by decide)] at hstep
      -- the index stays, and the rest is read from behind the `%`
      rw [parseLoop_step '%' [] hp hstep (by simp)]
      exact ih _ hp' (Nat.le_of_succ_le_succ hfuel)

end Loop

/-- What may follow a `%`: a name, and then the end, an option or a character that stops
it. -/
theorem exists_name (p : List Char) : ∃ str rest, p = str ++ rest ∧ (∀ x ∈ str, InName x) ∧
    ∀ c ∈ rest.head?, c = '{' ∨ stops c = true := by
  induction p with
  | nil => exact ⟨[], [], rfl, List.forall_mem_nil _, fun c hc => by cases hc⟩
  | cons c p ih =>
      rcases inName_or_stops c with hc | hc
      · obtain ⟨str, rest, rfl, hstr, hrest⟩ := ih
        exact ⟨c :: str, rest, rfl, List.forall_mem_cons.mpr ⟨hc, hstr⟩, hrest⟩
      · refine ⟨[], c :: p, rfl, List.forall_mem_nil _, fun d hd => ?_⟩
        obtain rfl := Option.some.inj hd
        exact hc

/-- **Every pattern has a reading.** -/
theorem exists_reads (p : List Char) : ∃ ps, Reads p ps := by
  induction hn : p.length using Nat.strong_induction_on generalizing p with
  | _ n ih =>
      have hread : ∀ q : List Char, q.length < p.length → ∃ ps, Reads q ps :=
        fun q hq => ih q.length (hn ▸ hq) q rfl
      rcases p with - | ⟨c, p⟩
      · exact ⟨[], .nil⟩
      by_cases hc : c = '%'
      · subst hc
        obtain ⟨str, rest, rfl, hstr, hrest⟩ := exists_name p
        rcases rest with - | ⟨d, rest⟩
        · rw [List.append_nil]
          exact ⟨_, .last hstr⟩
        simp only [List.length_cons, List.length_append] at hread
        rcases hrest d rfl with rfl | hd
        · by_cases hclose : '}' ∈ rest
          · obtain ⟨fmtStr, rest, rfl, hfmt⟩ := List.eq_append_cons_of_mem hclose
            obtain ⟨ps, hps⟩ := hread rest (by simp only [List.length_append, List.length_cons]; omega)
            exact ⟨_, .option hstr hfmt hps⟩
          · obtain ⟨ps, hps⟩ := hread (str ++ '{' :: rest) (by simp)
            exact ⟨_, .unpaired hstr hclose hps⟩
        · by_cases hpair : str = [] ∧ d = '%'
          · obtain ⟨rfl, rfl⟩ := hpair
            obtain ⟨ps, hps⟩ := hread ('%' :: rest) (by simp)
            exact ⟨_, .percent hps⟩
          · obtain ⟨ps, hps⟩ := hread (d :: rest) (by rw [List.length_cons]; omega)
            exact ⟨_, .name hstr hd (fun hnil e => hpair ⟨hnil, e⟩) hps⟩
      · obtain ⟨ps, hps⟩ := hread p (Nat.lt_succ_self _)
        exact ⟨_, .char hc hps⟩

/-- The entries of `vec` are those of the pieces. -/
theorem tokens_eq {p : List Char} {ps : List Piece} (h : Reads p ps) :
    tokens p = (ps.foldl ParseState.push ⟨[], [], false⟩).flush := by
  rw [tokens]
  exact congrArg ParseState.flush (parseLoop_eq _ h (List.nil_append p).symm le_rfl)

/-! ### What comes of the pieces -/

/-- Does the piece raise the error flag? -/
def Piece.bad : Piece → Bool
  | .char _ => false
  | .directive str _ => (formatItems.lookup (String.ofList str)).isNone
  | .unpaired => true

/-- The entry of the pending text, if there is one. -/
def pendingEntry (text : List Char) : List Token := if text = [] then [] else [⟨text, [], false⟩]

namespace ParseState

/-- What `flush` does, with nothing to look at. -/
theorem flush_mk (text : List Char) (vec : List Token) (error : Bool) :
    flush ⟨text, vec, error⟩ = ⟨[], vec ++ pendingEntry text, error⟩ := by
  by_cases h : text = []
  · subst h
    rw [pendingEntry, if_pos rfl, List.append_nil]
    rfl
  · rw [pendingEntry, if_neg h, flush, if_neg h]

variable (s : ParseState) (ps : List Piece)

@[simp] theorem flush_error : s.flush.error = s.error := by
  cases s
  rw [flush_mk]

theorem flush_text : s.flush.text = [] := by
  cases s
  rw [flush_mk]

theorem flush_any_bad : s.flush.vec.any Token.bad = s.vec.any Token.bad := by
  cases s
  rw [flush_mk, List.any_append, pendingEntry]
  split_ifs
  · exact Bool.or_false _
  · exact Bool.or_false _

theorem mem_flush {t : Token} (h : t ∈ s.vec) : t ∈ s.flush.vec := by
  cases s
  rw [flush_mk]
  exact List.mem_append_left _ h

theorem mem_push {t : Token} (h : t ∈ s.vec) (q : Piece) : t ∈ (s.push q).vec := by
  cases q with
  | char c => exact h
  | directive str fmtStr => exact List.mem_append_left _ (s.mem_flush h)
  | unpaired => exact List.mem_append_left _ h

/-- A directive is among the entries of `vec`. -/
theorem mem_foldl_push {str fmtStr : List Char} (h : .directive str fmtStr ∈ ps) :
    (⟨str, fmtStr, true⟩ : Token) ∈ (ps.foldl push s).vec := by
  have hkept : ∀ (ps : List Piece) (s : ParseState) {t : Token}, t ∈ s.vec →
      t ∈ (ps.foldl push s).vec := by
    intro ps
    induction ps with
    | nil => exact fun _ _ ht => ht
    | cons q ps ih => exact fun s t ht => ih (s.push q) (s.mem_push ht q)
  induction ps generalizing s with
  | nil => cases h
  | cons q ps ih =>
      rcases List.mem_cons.mp h with rfl | h
      · exact hkept ps _ (List.mem_append_right _ List.mem_cons_self)
      · exact ih (s.push q) h

/-- Something is pending, or there already. -/
def Started : Prop := s.text ≠ [] ∨ s.vec ≠ []

theorem started_push (q : Piece) : (s.push q).Started := by
  cases q with
  | char c => exact Or.inl (List.append_ne_nil_of_right_ne_nil _ (List.cons_ne_nil c []))
  | directive str fmtStr =>
      exact Or.inr (List.append_ne_nil_of_right_ne_nil _ (List.cons_ne_nil _ []))
  | unpaired => exact Or.inr (List.append_ne_nil_of_right_ne_nil _ (List.cons_ne_nil _ []))

variable {s} in
theorem Started.flush_vec (h : s.Started) : s.flush.vec ≠ [] := by
  unfold flush
  split_ifs with htext
  · exact h.resolve_left (not_not_intro htext)
  · exact List.append_ne_nil_of_right_ne_nil _ (List.cons_ne_nil _ [])

theorem started_foldl_push {q : Piece} : ((q :: ps).foldl push s).Started := by
  induction ps generalizing s q with
  | nil => exact s.started_push q
  | cons r ps ih => exact ih (s.push q)

theorem push_fails (q : Piece) :
    ((s.push q).error || (s.push q).vec.any Token.bad) =
      (s.error || s.vec.any Token.bad || q.bad) := by
  cases q with
  | char c => exact (Bool.or_false _).symm
  | directive str fmtStr =>
      show (s.flush.error || (s.flush.vec ++ [(⟨str, fmtStr, true⟩ : Token)]).any Token.bad) = _
      rw [List.any_append, flush_error, flush_any_bad, Bool.or_assoc]
      simp [Token.bad, Token.directive?, Piece.bad]
  | unpaired => simp [push, Piece.bad]

theorem foldl_push_fails :
    ((ps.foldl push s).error || (ps.foldl push s).vec.any Token.bad) =
      (s.error || s.vec.any Token.bad || ps.any Piece.bad) := by
  induction ps generalizing s with
  | nil => exact (Bool.or_false _).symm
  | cons q ps ih => rw [List.foldl_cons, ih, push_fails, List.any_cons, Bool.or_assoc _ q.bad]

end ParseState

/-! ### Formatters -/

namespace LogFormatter

variable {pattern : String} {ps : List Piece}

theorem parseFails_eq (h : Reads pattern.toList ps) : parseFails pattern = ps.any Piece.bad := by
  rw [parseFails, tokens_eq h, ParseState.flush_error, ParseState.flush_any_bad,
    ParseState.foldl_push_fails]
  rfl

theorem parsedItems_eq (h : Reads pattern.toList ps) :
    parsedItems pattern = (ps.foldl ParseState.push ⟨[], [], false⟩).flush.vec.map Token.item := by
  rw [parsedItems, tokens_eq h]

theorem new_items (hne : pattern ≠ "") : (new pattern).items = parsedItems pattern := by
  simp [new, parse, hne]

theorem new_error_eq (hne : pattern ≠ "") (h : Reads pattern.toList ps) :
    (new pattern).error = ps.any Piece.bad := by
  rw [new_error hne, parseFails_eq h]

/-- A pattern that is not empty makes items. -/
theorem parsedItems_ne_nil (hne : pattern ≠ "") : parsedItems pattern ≠ [] := by
  obtain ⟨ps, hps⟩ := exists_reads pattern.toList
  rw [parsedItems_eq hps, Ne, List.map_eq_nil_iff]
  apply ParseState.Started.flush_vec
  cases ps with
  | cons q ps => exact ParseState.started_foldl_push _ ps
  | nil =>
      generalize hlist : pattern.toList = p at hps
      cases hps
      exact absurd (String.toList_eq_nil_iff.mp hlist) hne

/-- The item of a directive. -/
theorem mem_new_items (hne : pattern ≠ "") (h : Reads pattern.toList ps) {str fmtStr : List Char}
    (hmem : .directive str fmtStr ∈ ps) :
    (⟨str, fmtStr, true⟩ : Token).item ∈ (new pattern).items := by
  rw [new_items hne, parsedItems_eq h]
  exact List.mem_map_of_mem (ParseState.mem_flush _ (ParseState.mem_foldl_push _ ps hmem))

end LogFormatter

end Sylar
