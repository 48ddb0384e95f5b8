/-
Sylar/Parse.lean

`LogFormatter::parse` (log.cpp): from a pattern to the list of format items.

The outer loop walks an index `i` over the pattern and the inner loop an index
`n` from just after a `%`; the outer index is overwritten from the inner one.
Both loops are transcribed with their indices and with a fuel that bounds the
number of iterations by the length of the pattern.

The parser is a function of the pattern alone: what it appends to the items,
and whether it raises the error flag, do not depend on what the formatter held
before (`LogFormatter.parse`).
-/
import Sylar.Model

namespace Sylar

/-- `std::string::substr`. -/
def substr (p : List Char) (pos len : Nat) : List Char := (p.drop pos).take len

/-! ### One directive -/

/-- What the inner loop leaves behind: the index `n`, whether an option brace is
still open, the directive's name and its option. -/
structure Scan where
  n : Nat
  fmtStatus : Bool
  str : List Char
  fmtStr : List Char
  deriving DecidableEq, Repr

/-- The inner loop of `parse`, for the `%` at index `i`. -/
def scanDirective (p : List Char) (i : Nat) :
    (fuel n : Nat) → (fmtStatus : Bool) → (fmtBegin : Nat) → (str : List Char) → Scan
  | 0, n, fmtStatus, _, str => ⟨n, fmtStatus, str, []⟩
  | fuel + 1, n, fmtStatus, fmtBegin, str =>
      if h : n < p.length then
        if !fmtStatus && (!p[n].isAlpha && p[n] ≠ '{' && p[n] ≠ '}') then
          ⟨n, fmtStatus, substr p (i + 1) (n - i - 1), []⟩
        else if !fmtStatus && p[n] = '{' then
          scanDirective p i fuel (n + 1) true n (substr p (i + 1) (n - i - 1))
        else if !fmtStatus && (n = p.length - 1 && str = []) then
          -- the last character of the pattern: only it becomes the name
          scanDirective p i fuel (n + 1) fmtStatus fmtBegin (substr p n 1)
        else if fmtStatus && p[n] = '}' then
          ⟨n + 1, false, str, substr p (fmtBegin + 1) (n - fmtBegin - 1)⟩
        else
          scanDirective p i fuel (n + 1) fmtStatus fmtBegin str
      else
        ⟨n, fmtStatus, str, []⟩

/-! ### The whole pattern -/

/-- One entry of `vec`: a text, or a directive with its option. -/
structure Token where
  str : List Char
  fmtStr : List Char
  isDirective : Bool
  deriving DecidableEq, Repr

/-- The variables of the outer loop. -/
structure ParseState where
  text : List Char
  vec : List Token
  error : Bool
  deriving DecidableEq, Repr

/-- Move the pending text to `vec`. -/
def ParseState.flush (s : ParseState) : ParseState :=
  if s.text = [] then s else { s with vec := s.vec ++ [⟨s.text, [], false⟩], text := [] }

/-- One iteration of the outer loop: the index it leaves in `i` (before `++i`) and
the variables. -/
def parseStep (p : List Char) (i : Nat) (s : ParseState) : Nat × ParseState :=
  if p[i]? ≠ some '%' then
    (i, { s with text := s.text ++ (p[i]?).toList })
  else if p[i + 1]? = some '%' then
    (i, { s with text := s.text ++ ['%'] })
  else
    let r := scanDirective p i p.length (i + 1) false 0 []
    if r.fmtStatus = false then
      let s := s.flush
      (r.n - 1, { s with vec := s.vec ++ [⟨r.str, r.fmtStr, true⟩] })
    else
      -- no paired brace: the index is not advanced, the text stays pending
      (i, { s with vec := s.vec ++ [⟨"<<pattern_error>>".toList, r.fmtStr, false⟩], error := true })

/-- The outer loop of `parse`. -/
def parseLoop (p : List Char) : (fuel i : Nat) → ParseState → ParseState
  | 0, _, s => s
  | fuel + 1, i, s =>
      if i < p.length then
        let r := parseStep p i s
        parseLoop p fuel (r.1 + 1) r.2
      else s

/-- The entries of `vec`, and whether an option brace was left open. -/
def tokens (p : List Char) : ParseState :=
  (parseLoop p p.length 0 ⟨[], [], false⟩).flush

/-! ### From tokens to items -/

/-- The constructor of `DateTimeFormatItem`. -/
def FormatItem.newDateTime (format : String) : FormatItem :=
  .dateTime (if format = "" then "%Y-%m-%d %H:%M:%S" else format)

/-- `s_format_items`. -/
def formatItems : List (String × (String → FormatItem)) :=
  [("m", fun _ => .message), ("p", fun _ => .level), ("r", fun _ => .elapse),
   ("t", fun _ => .threadID), ("n", fun _ => .newLine), ("d", .newDateTime),
   ("f", fun _ => .fileName), ("l", fun _ => .lineNumber), ("T", fun _ => .tab)]

/-- The directive's entry in `s_format_items`. -/
def Token.directive? (t : Token) : Option (String → FormatItem) :=
  formatItems.lookup (String.ofList t.str)

/-- The item made of a token. -/
def Token.item (t : Token) : FormatItem :=
  if t.isDirective then
    match t.directive? with
    | some make => make (String.ofList t.fmtStr)
    | none => .string ("<<error_format %" ++ String.ofList t.str ++ ">>")
  else .string (String.ofList t.str)

/-- Does the token raise the error flag? -/
def Token.bad (t : Token) : Bool := t.isDirective && t.directive?.isNone

/-- What parsing `pattern` appends to the items. -/
def parsedItems (pattern : String) : List FormatItem :=
  (tokens pattern.toList).vec.map Token.item

/-- Whether parsing `pattern` raises the error flag. -/
def parseFails (pattern : String) : Bool :=
  (tokens pattern.toList).error || (tokens pattern.toList).vec.any Token.bad

namespace LogFormatter

/-- `LogFormatter::parse`. -/
def parse (f : LogFormatter) : LogFormatter :=
  { f with
    items := f.items ++ parsedItems f.pattern
    error := f.error || parseFails f.pattern }

/-- The pattern used when none is given. -/
def defaultPattern : String := "%d{%Y-%m-%d %H:%M:%S}%T[%p]%T<%f:%l>%T%t%T%m %n"

/-- `LogFormatter::LogFormatter`. -/
def new (pattern : String) : LogFormatter :=
  parse ⟨if pattern = "" then defaultPattern else pattern, [], false⟩

/-- `LogFormatter::setPattern`. -/
def setPattern (f : LogFormatter) (pattern : String) : LogFormatter :=
  parse { f with pattern := pattern }

@[simp] theorem parse_pattern (f : LogFormatter) : f.parse.pattern = f.pattern := rfl

@[simp] theorem parse_error (f : LogFormatter) :
    f.parse.error = (f.error || parseFails f.pattern) := rfl

theorem new_pattern {pattern : String} (h : pattern ≠ "") : (new pattern).pattern = pattern := by
  simp [new, h]

theorem new_error {pattern : String} (h : pattern ≠ "") :
    (new pattern).error = parseFails pattern := by
  simp [new, h]

@[simp] theorem new_empty_pattern : (new "").pattern = defaultPattern := rfl

@[simp] theorem setPattern_pattern (f : LogFormatter) (pattern : String) :
    (f.setPattern pattern).pattern = pattern := rfl

@[simp] theorem setPattern_error (f : LogFormatter) (pattern : String) :
    (f.setPattern pattern).error = (f.error || parseFails pattern) := rfl

end LogFormatter

end Sylar
