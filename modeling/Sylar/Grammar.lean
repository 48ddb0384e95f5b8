/-
Sylar/Grammar.lean

What a pattern means to `LogFormatter` (log.hpp, log.cpp).

A pattern put together from texts and directives with care parses to exactly
what it says (`Template.parses_as_written`).  Care is needed at three places, because the
parser goes its own way there:

    a doubled `%`             is not an escape: only texts without `%` can be
                              escaped (`escape_literal_iff`)
    a name at the very end    may have any letters before the last one, and is
                              taken for that (`rejects_malformed_iff`)
    a second `setPattern`     adds to the items there are (`setPattern_never_fresh`)
-/
import Mathlib.Data.List.Chain
import Sylar.Lib.Lines
import Sylar.Pattern
import Sylar.Usable

namespace Sylar

/-! ### The table of directives -/

/-- The names in `s_format_items`. -/
def directives : List Char := ['m', 'p', 'r', 't', 'n', 'd', 'f', 'l', 'T']

/-- What a directive stands for. -/
def directiveItem (x : Char) (fmt : String) : FormatItem :=
  if x = 'm' then .message
  else if x = 'p' then .level
  else if x = 'r' then .elapse
  else if x = 't' then .threadID
  else if x = 'n' then .newLine
  else if x = 'd' then .newDateTime fmt
  else if x = 'f' then .fileName
  else if x = 'l' then .lineNumber
  else .tab

theorem directive_isAlpha {x : Char} (hx : x ∈ directives) : x.isAlpha = true := by
  have hall : directives.all Char.isAlpha = true := rfl
  exact List.all_eq_true.mp hall x hx

theorem directive_inName {x : Char} (hx : x ∈ directives) : InName x :=
  Or.inl (directive_isAlpha hx)

theorem directive_ne_percent {x : Char} (hx : x ∈ directives) : x ≠ '%' := by
  rintro rfl
  exact absurd hx (by decide)

theorem lookup_directive {x : Char} (hx : x ∈ directives) :
    ∃ make, formatItems.lookup (String.ofList [x]) = some make ∧
      ∀ fmt, make fmt = directiveItem x fmt := by
  simp only [directives, List.mem_cons, List.not_mem_nil, or_false] at hx
  rcases hx with rfl | rfl | rfl | rfl | rfl | rfl | rfl | rfl | rfl <;>
    exact ⟨_, rfl, fun fmt => rfl⟩

/-- A name is in the table if it is one of its letters. -/
theorem lookup_isNone_iff (str : List Char) :
    (formatItems.lookup (String.ofList str)).isNone = false ↔ ∃ x ∈ directives, str = [x] := by
  constructor
  · intro h
    rw [Option.isNone_eq_false_iff, List.lookup_isSome_iff] at h
    obtain ⟨e, he, heq⟩ := h
    have hkeys : (formatItems.all fun e => directives.any fun x => e.1.toList == [x]) = true := rfl
    obtain ⟨x, hx, hkey⟩ := List.any_eq_true.mp (List.all_eq_true.mp hkeys e he)
    refine ⟨x, hx, ?_⟩
    rw [← eq_of_beq hkey, ← eq_of_beq heq, String.toList_ofList]
  · rintro ⟨x, hx, rfl⟩
    obtain ⟨make, hmake, _⟩ := lookup_directive hx
    rw [hmake]
    rfl

theorem Token.item_directive {x : Char} (hx : x ∈ directives) (fmtStr : List Char) :
    (⟨[x], fmtStr, true⟩ : Token).item = directiveItem x (String.ofList fmtStr) := by
  obtain ⟨make, hmake, heq⟩ := lookup_directive hx
  rw [Token.item, if_pos rfl, Token.directive?, hmake]
  exact heq _

theorem directiveItem_ne_string (x : Char) (fmt t : String) : directiveItem x fmt ≠ .string t := by
  unfold directiveItem
  split_ifs <;> simp [FormatItem.newDateTime]

/-- The character ends a directive's name and opens no option. -/
def EndsName (c : Char) : Prop := c.isAlpha = false ∧ c ≠ '{' ∧ c ≠ '}'

theorem endsName_iff {c : Char} : EndsName c ↔ stops c = true := by
  simp [EndsName, stops, and_assoc]

theorem InName.not_endsName {c : Char} (h : InName c) : ¬ EndsName c := by
  rw [endsName_iff, h.stops]
  exact Bool.false_ne_true

/-! ### Patterns put together from parts -/

/-- A text, or a directive with or without an option. -/
inductive Part
  | text (t : List Char)
  | directive (x : Char) (fmt : Option (List Char))
  deriving DecidableEq, Repr

namespace Part

/-- How it is written. -/
def source : Part → List Char
  | text t => t
  | directive x none => ['%', x]
  | directive x (some fmt) => '%' :: x :: '{' :: (fmt ++ ['}'])

/-- The item it stands for; a directive without an option has the empty one. -/
def item : Part → FormatItem
  | text t => .string (String.ofList t)
  | directive x fmt => directiveItem x (String.ofList (fmt.getD []))

/-- What the parser makes of it. -/
def pieces : Part → List Piece
  | text t => t.map .char
  | directive x fmt => [.directive [x] (fmt.getD [])]

/-- Texts are not empty and have no `%`, directives are those of the table, and options
have no `}`. -/
def WF : Part → Prop
  | text t => t ≠ [] ∧ '%' ∉ t
  | directive x fmt => x ∈ directives ∧ ∀ f ∈ fmt, '}' ∉ f

/-- A directive without an option is not followed by a text that begins with a letter or
a brace. -/
def Spaced : Part → Part → Prop
  | directive _ none, text t => ∀ c ∈ t.head?, EndsName c
  | _, _ => True

end Part

/-- A text in front of the parts. -/
def prependText (t : List Char) : List Part → List Part
  | .text u :: qs => .text (t ++ u) :: qs
  | qs => .text t :: qs

/-- The parts with every run of adjacent texts made one. -/
def joinTexts : List Part → List Part
  | [] => []
  | .text t :: qs => prependText t (joinTexts qs)
  | .directive x fmt :: qs => .directive x fmt :: joinTexts qs

/-- A pattern written with care. -/
structure Template where
  parts : List Part
  parts_ne_nil : parts ≠ []
  wf : ∀ q ∈ parts, q.WF
  spaced : parts.IsChain Part.Spaced

/-- The pattern. -/
def Template.pattern (T : Template) : String := String.ofList (T.parts.flatMap Part.source)

/-! #### Joining texts -/

theorem prependText_append (t u : List Char) (qs : List Part) :
    prependText (t ++ u) qs = prependText t (prependText u qs) := by
  rcases qs with - | ⟨(v | ⟨x, fmt⟩), qs⟩ <;> simp [prependText]

/-- The parts are not both texts. -/
def Part.Apart (a b : Part) : Prop := ∀ t u, a = .text t → b ≠ .text u

/-- No two texts are left side by side. -/
theorem isChain_joinTexts (qs : List Part) : (joinTexts qs).IsChain Part.Apart := by
  induction qs with
  | nil => exact .nil
  | cons q qs ih =>
      cases q with
      | text t =>
          show List.IsChain _ (prependText t (joinTexts qs))
          rcases hqs : joinTexts qs with - | ⟨(v | ⟨x, fmt⟩), rest⟩
          · exact .singleton _
          · rw [hqs] at ih
            obtain ⟨hv, hrest⟩ := List.isChain_cons.mp ih
            refine List.isChain_cons.mpr ⟨fun b hb w u _ => hv b hb v u rfl, hrest⟩
          · rw [hqs] at ih
            refine List.isChain_cons.mpr ⟨fun b hb w u _ => ?_, ih⟩
            obtain rfl := Option.some.inj hb
            exact fun e => by cases e
      | directive x fmt =>
          refine List.isChain_cons.mpr ⟨fun b _ t u e => ?_, ih⟩
          cases e

section Format

variable (env : Env) (level : LogLevel) (event : LogEvent)

theorem format_prependText (t : List Char) (qs : List Part) :
    String.join ((prependText t qs).map fun q => q.item.format env level event) =
      String.ofList t ++ String.join (qs.map fun q => q.item.format env level event) := by
  rcases qs with - | ⟨(v | ⟨x, fmt⟩), qs⟩
  · simp [prependText, Part.item, FormatItem.format]
  · simp [prependText, Part.item, FormatItem.format, String.append_assoc]
  · simp [prependText, Part.item, FormatItem.format]

/-- Joined texts print as the texts. -/
theorem format_joinTexts (qs : List Part) :
    String.join ((joinTexts qs).map fun q => q.item.format env level event) =
      String.join (qs.map fun q => q.item.format env level event) := by
  induction qs with
  | nil => rfl
  | cons q qs ih =>
      cases q with
      | text t =>
          rw [joinTexts, format_prependText, ih, List.map_cons, String.join_cons]
          rfl
      | directive x fmt => rw [joinTexts, List.map_cons, List.map_cons, String.join_cons, ih,
          String.join_cons]

end Format

/-! #### Reading them -/

theorem reads_text {t p : List Char} (ht : '%' ∉ t) {ps : List Piece} (h : Reads p ps) :
    Reads (t ++ p) (t.map .char ++ ps) := by
  induction t with
  | nil => exact h
  | cons c t ih =>
      exact .char (fun e => ht (e ▸ List.mem_cons_self)) (ih fun hc => ht (List.mem_cons_of_mem c hc))

/-- **Parts are read one by one.** -/
theorem reads_parts {qs : List Part} (hwf : ∀ q ∈ qs, q.WF) (hspaced : qs.IsChain Part.Spaced) :
    Reads (qs.flatMap Part.source) (qs.flatMap Part.pieces) := by
  induction qs with
  | nil => exact .nil
  | cons q qs ih =>
      obtain ⟨hnext, hchain⟩ := List.isChain_cons.mp hspaced
      obtain ⟨hq, hqs⟩ := List.forall_mem_cons.mp hwf
      have hrest := ih hqs hchain
      rw [List.flatMap_cons, List.flatMap_cons]
      match q with
      | .text t => exact reads_text hq.2 hrest
      | .directive x (some fmt) =>
          have hoption : Reads ('%' :: ([x] ++ '{' :: (fmt ++ '}' :: qs.flatMap Part.source))) _ :=
            .option (List.forall_mem_singleton.mpr (directive_inName hq.1)) (hq.2 fmt rfl) hrest
          simp only [Part.source, List.cons_append, List.append_assoc, List.nil_append]
          exact hoption
      | .directive x none =>
          have hx : ∀ y ∈ [x], InName y := List.forall_mem_singleton.mpr (directive_inName hq.1)
          have hplain : ∀ c p, qs.flatMap Part.source = c :: p → stops c = true →
              Reads ('%' :: ([x] ++ qs.flatMap Part.source))
                (.directive [x] [] :: qs.flatMap Part.pieces) := by
            intro c p hp hc
            rw [hp] at hrest ⊢
            exact .name hx hc (fun e => by cases e) hrest
          -- what follows stops the name
          rcases qs with - | ⟨(t | ⟨y, fmt⟩), qs⟩
          · exact .last hx
          · obtain ⟨c, t, rfl⟩ := List.exists_cons_of_ne_nil (hqs _ List.mem_cons_self).1
            exact hplain c _ rfl (endsName_iff.mp (hnext _ rfl c rfl))
          · cases fmt with
            | none => exact hplain '%' _ rfl rfl
            | some fmt => exact hplain '%' _ rfl rfl

/-- The token that is made of a part. -/
def Part.token : Part → Token
  | text t => ⟨t, [], false⟩
  | directive x fmt => ⟨[x], fmt.getD [], true⟩

theorem Part.WF.item_token {q : Part} (h : q.WF) : q.token.item = q.item := by
  cases q with
  | text t => rfl
  | directive x fmt => exact Token.item_directive h.1 (fmt.getD [])

/-- The parts, with the pending text of the loop in front. -/
def withText (t : List Char) (qs : List Part) : List Part :=
  if t = [] then qs else prependText t qs

theorem foldl_push_text (s : ParseState) (t : List Char) :
    (t.map Piece.char).foldl ParseState.push s = { s with text := s.text ++ t } := by
  induction t generalizing s with
  | nil => simp
  | cons c t ih => simp [ih, ParseState.push]

/-- **What the loop leaves of parts**, from whatever it has pending. -/
theorem foldl_push_parts {qs : List Part} (hwf : ∀ q ∈ qs, q.WF) (s : ParseState) :
    ((qs.flatMap Part.pieces).foldl ParseState.push s).flush.vec =
      s.vec ++ (withText s.text (joinTexts qs)).map Part.token := by
  induction qs generalizing s with
  | nil =>
      show s.flush.vec = _
      unfold ParseState.flush withText
      split_ifs <;> simp [joinTexts, prependText, Part.token]
  | cons q qs ih =>
      obtain ⟨hq, hqs⟩ := List.forall_mem_cons.mp hwf
      rw [List.flatMap_cons, List.foldl_append]
      cases q with
      | text t =>
          have hne : s.text ++ t ≠ [] := fun e => hq.1 (List.append_eq_nil_iff.mp e).2
          rw [Part.pieces, foldl_push_text, ih hqs]
          dsimp only
          rw [withText, if_neg hne, joinTexts]
          by_cases hs : s.text = []
          · rw [withText, if_pos hs, hs, List.nil_append]
          · rw [withText, if_neg hs, prependText_append]
      | directive x fmt =>
          show ((qs.flatMap Part.pieces).foldl ParseState.push
            (s.push (.directive [x] (fmt.getD [])))).flush.vec = _
          rw [ih hqs]
          have htext : (s.push (.directive [x] (fmt.getD []))).text = [] := s.flush_text
          rw [htext, withText, if_pos rfl]
          show (s.flush.vec ++ [⟨[x], fmt.getD [], true⟩]) ++ _ = _
          unfold ParseState.flush withText
          split_ifs <;> simp [joinTexts, prependText, Part.token]

theorem wf_joinTexts {qs : List Part} (hwf : ∀ q ∈ qs, q.WF) : ∀ q ∈ joinTexts qs, q.WF := by
  induction qs with
  | nil => exact hwf
  | cons q qs ih =>
      obtain ⟨hq, hqs⟩ := List.forall_mem_cons.mp hwf
      replace ih := ih hqs
      cases q with
      | text t =>
          rw [joinTexts]
          rcases hjoin : joinTexts qs with - | ⟨(u | ⟨x, fmt⟩), rest⟩
          · exact List.forall_mem_singleton.mpr hq
          · rw [hjoin] at ih
            obtain ⟨hu, hrest⟩ := List.forall_mem_cons.mp ih
            refine List.forall_mem_cons.mpr ⟨⟨fun e => hu.1 (List.append_eq_nil_iff.mp e).2, ?_⟩, hrest⟩
            rw [List.mem_append, not_or]
            exact ⟨hq.2, hu.2⟩
          · rw [hjoin] at ih
            exact List.forall_mem_cons.mpr ⟨hq, ih⟩
      | directive x fmt => exact List.forall_mem_cons.mpr ⟨hq, ih⟩

namespace Template

variable (T : Template)

theorem reads : Reads T.pattern.toList (T.parts.flatMap Part.pieces) := by
  rw [pattern, String.toList_ofList]
  exact reads_parts T.wf T.spaced

theorem pattern_ne_empty : T.pattern ≠ "" := by
  obtain ⟨q, qs, hqs⟩ := List.exists_cons_of_ne_nil T.parts_ne_nil
  have hq := T.wf q (hqs ▸ List.mem_cons_self)
  intro e
  have hlist := congrArg String.toList e
  rw [pattern, String.toList_ofList, hqs, List.flatMap_cons] at hlist
  obtain ⟨hsource, _⟩ := List.append_eq_nil_iff.mp hlist
  match q with
  | .text t => exact hq.1 hsource
  | .directive x none => cases hsource
  | .directive x (some fmt) => cases hsource

theorem error_eq : (LogFormatter.new T.pattern).error = false := by
  rw [LogFormatter.new_error_eq T.pattern_ne_empty T.reads, List.any_eq_false]
  intro piece hpiece
  obtain ⟨q, hq, hpiece⟩ := List.mem_flatMap.mp hpiece
  cases q with
  | text t =>
      obtain ⟨c, _, rfl⟩ := List.mem_map.mp hpiece
      exact Bool.false_ne_true
  | directive x fmt =>
      obtain rfl := List.mem_singleton.mp hpiece
      have hx := (lookup_isNone_iff [x]).mpr ⟨x, (T.wf _ hq).1, rfl⟩
      rw [Piece.bad, hx]
      exact Bool.false_ne_true

theorem items_eq : (LogFormatter.new T.pattern).items = (joinTexts T.parts).map Part.item := by
  rw [LogFormatter.new_items T.pattern_ne_empty, LogFormatter.parsedItems_eq T.reads,
    foldl_push_parts T.wf]
  show ((joinTexts T.parts).map Part.token).map Token.item = _
  rw [List.map_map]
  exact List.map_congr_left fun q hq => (wf_joinTexts T.wf q hq).item_token

theorem format_eq (env : Env) (level : LogLevel) (event : LogEvent) :
    (LogFormatter.new T.pattern).format env level event =
      String.join (T.parts.map fun q => q.item.format env level event) := by
  rw [LogFormatter.format, T.items_eq, List.map_map]
  exact format_joinTexts env level event T.parts

/-- **Patterns parse to what they say**: without error, to one item for each directive and
each longest run of texts, in order; a record is what the parts print. -/
theorem parses_as_written :
    (LogFormatter.new T.pattern).error = false ∧
      (LogFormatter.new T.pattern).items = (joinTexts T.parts).map Part.item ∧
      (joinTexts T.parts).IsChain Part.Apart ∧
      ∀ env level event, (LogFormatter.new T.pattern).format env level event =
        String.join (T.parts.map fun q => q.item.format env level event) :=
  ⟨T.error_eq, T.items_eq, isChain_joinTexts T.parts, T.format_eq⟩

/-- The time of day, the level in brackets, the message and the end of the line. -/
def sample : Template where
  parts := [.directive 'd' (some ['%', 'H', ':', '%', 'M']), .text [' ', '['], .directive 'p' none,
    .text [']', ' '], .directive 'm' none, .directive 'n' none]
  parts_ne_nil := List.cons_ne_nil _ _
  wf := by simp [Part.WF, directives]
  spaced := by simp [Part.Spaced, EndsName, show Char.isAlpha ']' = false from rfl]

example : sample.pattern = "%d\x7b%H:%M\x7d [%p] %m%n" ∧
    (LogFormatter.new sample.pattern).items =
      [.dateTime "%H:%M", .string " [", .level, .string "] ", .message, .newLine] := by
  decide +kernel

end Template

/-! ### Escaping -/

/-- Every `%` is doubled. -/
def escape (s : String) : String :=
  String.ofList (s.toList.flatMap fun c => if c = '%' then ['%', '%'] else [c])

/-- The formatter has nothing but texts, and prints `s` whatever it is given. -/
structure Literal (f : LogFormatter) (s : String) : Prop where
  error : f.error = false
  items : ∀ i ∈ f.items, ∃ t, i = .string t
  format : ∀ env level event, f.format env level event = s

/-- A pattern with a `%` has a directive, or one that is not closed. -/
theorem Reads.exists_directive {p : List Char} {ps : List Piece} (h : Reads p ps) (hp : '%' ∈ p) :
    (∃ str fmtStr, .directive str fmtStr ∈ ps) ∨ .unpaired ∈ ps := by
  have hcons : ∀ {q : Piece} {ps : List Piece},
      (∃ str fmtStr, .directive str fmtStr ∈ ps) ∨ .unpaired ∈ ps →
      (∃ str fmtStr, .directive str fmtStr ∈ q :: ps) ∨ .unpaired ∈ q :: ps := by
    rintro q ps (⟨str, fmtStr, hmem⟩ | hmem)
    · exact Or.inl ⟨str, fmtStr, List.mem_cons_of_mem q hmem⟩
    · exact Or.inr (List.mem_cons_of_mem q hmem)
  induction h with
  | nil => cases hp
  | char hc _ ih => exact hcons (ih ((List.mem_cons.mp hp).resolve_left (Ne.symm hc)))
  | percent _ ih => exact hcons (ih List.mem_cons_self)
  | name => exact Or.inl ⟨_, _, List.mem_cons_self⟩
  | option => exact Or.inl ⟨_, _, List.mem_cons_self⟩
  | last => exact Or.inl ⟨_, _, List.mem_cons_self⟩
  | unpaired => exact Or.inr List.mem_cons_self

theorem escape_of_notMem {s : String} (h : '%' ∉ s.toList) : escape s = s := by
  have hone : ∀ c ∈ s.toList, (if c = '%' then ['%', '%'] else [c]) = [c] := by
    intro c hc
    have hne : c ≠ '%' := fun e => h (e ▸ hc)
    exact if_neg hne
  rw [escape, List.flatMap_congr hone, List.flatMap_singleton', String.ofList_toList]

theorem percent_mem_escape {s : String} (h : '%' ∈ s.toList) : '%' ∈ (escape s).toList := by
  rw [escape, String.toList_ofList]
  exact List.mem_flatMap.mpr ⟨'%', h, List.mem_cons_self⟩

/-- **Doubling is no escape**: of the non-empty texts those without a `%` come out as they
are, and no others. -/
theorem escape_literal_iff {s : String} (hs : s ≠ "") :
    Literal (LogFormatter.new (escape s)) s ↔ '%' ∉ s.toList := by
  constructor
  · intro hlit hmem
    have hesc := percent_mem_escape hmem
    have hne : escape s ≠ "" := by
      intro e
      rw [e] at hesc
      cases hesc
    obtain ⟨ps, hps⟩ := exists_reads (escape s).toList
    have hgood : ∀ q ∈ ps, q.bad = false := by
      have herr := hlit.error
      rw [LogFormatter.new_error_eq hne hps, List.any_eq_false] at herr
      exact fun q hq => Bool.eq_false_iff.mpr (herr q hq)
    rcases hps.exists_directive hesc with ⟨str, fmtStr, hdir⟩ | hunpaired
    · -- a directive that is known is not a text
      obtain ⟨x, hx, rfl⟩ := (lookup_isNone_iff str).mp (hgood _ hdir)
      obtain ⟨t, ht⟩ := hlit.items _ (LogFormatter.mem_new_items hne hps hdir)
      rw [Token.item_directive hx] at ht
      exact directiveItem_ne_string x _ t ht
    · cases hgood _ hunpaired
  · intro hmem
    have hlist : s.toList ≠ [] := fun e => hs (String.toList_eq_nil_iff.mp e)
    let T : Template := ⟨[.text s.toList], List.cons_ne_nil _ _,
      List.forall_mem_singleton.mpr ⟨hlist, hmem⟩, .singleton _⟩
    have hT : T.pattern = s := by
      show String.ofList (s.toList ++ []) = s
      rw [List.append_nil, String.ofList_toList]
    rw [escape_of_notMem hmem, ← hT]
    refine ⟨T.error_eq, fun i hi => ?_, fun env level event => ?_⟩
    · rw [T.items_eq] at hi
      exact ⟨_, List.mem_singleton.mp hi⟩
    · rw [T.format_eq, hT]
      simp [T, Part.item, FormatItem.format]

theorem escape_literal_iff_word :
    "done" ≠ "" ∧ (Literal (LogFormatter.new (escape "done")) "done" ↔ '%' ∉ "done".toList) :=
  ⟨by decide, escape_literal_iff (by decide)⟩

/-- `50%` is escaped as `50%%`, which does not parse, and `%m` as `%%m`, which prints a `%`
and the message. -/
theorem escape_fails :
    ¬ Literal (LogFormatter.new (escape "50%")) "50%" ∧
      (LogFormatter.new (escape "50%")).error = true ∧
      (LogFormatter.new (escape "%m")).items = [.string "%", .message] ∧
      ¬ Literal (LogFormatter.new (escape "%m")) "%m" := by
  have herr : (LogFormatter.new (escape "50%")).error = true := by decide +kernel
  have hitems : (LogFormatter.new (escape "%m")).items = [.string "%", .message] := by
    decide +kernel
  refine ⟨fun h => ?_, herr, hitems, fun h => ?_⟩
  · rw [h.error] at herr
    cases herr
  · obtain ⟨t, ht⟩ := h.items .message (by rw [hitems]; exact List.mem_cons_of_mem _ List.mem_cons_self)
    cases ht

/-! ### What is accepted -/

/-- **Well-formed patterns**: every `%` that is not part of a pair is followed by one letter
of the table, and that by the end, a character that ends the name, or an option. -/
inductive WellFormed : List Char → Prop
  | nil : WellFormed []
  | char {c p} (hc : c ≠ '%') (h : WellFormed p) : WellFormed (c :: p)
  | pair {p} (h : WellFormed p) : WellFormed ('%' :: '%' :: p)
  | directive {x p} (hx : x ∈ directives) (hp : ∀ c ∈ p.head?, EndsName c) (h : WellFormed p) :
      WellFormed ('%' :: x :: p)
  | option {x fmt p} (hx : x ∈ directives) (hfmt : '}' ∉ fmt) (h : WellFormed p) :
      WellFormed ('%' :: x :: '{' :: (fmt ++ '}' :: p))

/-- The patterns that parse without error. -/
inductive Accepted : List Char → Prop
  | nil : Accepted []
  | char {c p} (hc : c ≠ '%') (h : Accepted p) : Accepted (c :: p)
  /-- The second `%` of a pair is looked at again. -/
  | percent {p} (h : Accepted ('%' :: p)) : Accepted ('%' :: '%' :: p)
  | directive {x p} (hx : x ∈ directives) (hp : ∀ c ∈ p.head?, EndsName c) (h : Accepted p) :
      Accepted ('%' :: x :: p)
  | option {x fmt p} (hx : x ∈ directives) (hfmt : '}' ∉ fmt) (h : Accepted p) :
      Accepted ('%' :: x :: '{' :: (fmt ++ '}' :: p))
  /-- Of a name at the end only the last letter counts. -/
  | last {str x} (hstr : ∀ y ∈ str, InName y) (hx : x ∈ directives) :
      Accepted ('%' :: (str ++ [x]))

theorem accepted_of_reads {p : List Char} {ps : List Piece} (h : Reads p ps)
    (hgood : ∀ q ∈ ps, q.bad = false) : Accepted p := by
  induction h with
  | nil => exact .nil
  | char hc _ ih => exact .char hc (ih (List.forall_mem_cons.mp hgood).2)
  | percent _ ih => exact .percent (ih (List.forall_mem_cons.mp hgood).2)
  | name _ hc _ _ ih =>
      obtain ⟨hname, hps⟩ := List.forall_mem_cons.mp hgood
      obtain ⟨x, hx, rfl⟩ := (lookup_isNone_iff _).mp hname
      refine .directive hx (fun d hd => ?_) (ih hps)
      obtain rfl := Option.some.inj hd
      exact endsName_iff.mpr hc
  | option _ hfmt _ ih =>
      obtain ⟨hname, hps⟩ := List.forall_mem_cons.mp hgood
      obtain ⟨x, hx, rfl⟩ := (lookup_isNone_iff _).mp hname
      exact .option hx hfmt (ih hps)
  | @last str hstr =>
      have hbad := hgood _ List.mem_cons_self
      obtain ⟨x, hx, hlast⟩ := (lookup_isNone_iff _).mp hbad
      rcases List.eq_nil_or_concat str with rfl | ⟨init, y, rfl⟩
      · cases hlast
      · rw [List.concat_eq_append] at hlast hstr ⊢
        rw [List.getLast?_concat] at hlast
        obtain rfl : y = x := List.singleton_injective hlast
        exact .last (fun z hz => hstr z (List.mem_append_left _ hz)) hx
  | unpaired => cases hgood _ List.mem_cons_self

theorem Accepted.exists_reads {p : List Char} (h : Accepted p) :
    ∃ ps, Reads p ps ∧ ∀ q ∈ ps, q.bad = false := by
  have hdir : ∀ {x : Char} {fmtStr : List Char} {ps : List Piece}, x ∈ directives →
      (∀ q ∈ ps, q.bad = false) → ∀ q ∈ Piece.directive [x] fmtStr :: ps, q.bad = false :=
    fun hx hps => List.forall_mem_cons.mpr ⟨(lookup_isNone_iff _).mpr ⟨_, hx, rfl⟩, hps⟩
  have hone : ∀ {x : Char}, x ∈ directives → ∀ y ∈ [x], InName y :=
    fun hx => List.forall_mem_singleton.mpr (directive_inName hx)
  induction h with
  | nil => exact ⟨[], .nil, List.forall_mem_nil _⟩
  | char hc _ ih =>
      obtain ⟨ps, hps, hgood⟩ := ih
      exact ⟨_, .char hc hps, List.forall_mem_cons.mpr ⟨rfl, hgood⟩⟩
  | percent _ ih =>
      obtain ⟨ps, hps, hgood⟩ := ih
      exact ⟨_, .percent hps, List.forall_mem_cons.mpr ⟨rfl, hgood⟩⟩
  | @directive x p hx hp _ ih =>
      obtain ⟨ps, hps, hgood⟩ := ih
      cases p with
      | nil => exact ⟨_, .last (hone hx), hdir hx (List.forall_mem_nil _)⟩
      | cons c p =>
          have hc : stops c = true := endsName_iff.mp (hp c rfl)
          have hread : Reads ('%' :: ([x] ++ c :: p)) (.directive [x] [] :: ps) :=
            .name (hone hx) hc (fun e => by cases e) hps
          exact ⟨_, hread, hdir hx hgood⟩
  | @option x fmt p hx hfmt _ ih =>
      obtain ⟨ps, hps, hgood⟩ := ih
      have hread : Reads ('%' :: ([x] ++ '{' :: (fmt ++ '}' :: p))) (.directive [x] fmt :: ps) :=
        .option (hone hx) hfmt hps
      exact ⟨_, hread, hdir hx hgood⟩
  | @last str x hstr hx =>
      refine ⟨_, .last (List.forall_mem_append.mpr ⟨hstr, hone hx⟩), ?_⟩
      rw [List.getLast?_concat]
      exact hdir hx (List.forall_mem_nil _)

/-- **What the parser accepts.** -/
theorem new_error_iff {pattern : String} (hne : pattern ≠ "") :
    (LogFormatter.new pattern).error = false ↔ Accepted pattern.toList := by
  constructor
  · intro h
    obtain ⟨ps, hps⟩ := Sylar.exists_reads pattern.toList
    rw [LogFormatter.new_error_eq hne hps, List.any_eq_false] at h
    exact accepted_of_reads hps fun q hq => Bool.eq_false_iff.mpr (h q hq)
  · intro h
    obtain ⟨ps, hps, hgood⟩ := h.exists_reads
    rw [LogFormatter.new_error_eq hne hps, List.any_eq_false]
    exact fun q hq => Bool.eq_false_iff.mp (hgood q hq)

/-! #### Well-formed patterns, by their first characters -/

namespace WellFormed

variable {x c : Char} {p q fmt : List Char}

theorem char_iff (hc : c ≠ '%') : WellFormed (c :: p) ↔ WellFormed p := by
  refine ⟨fun h => ?_, .char hc⟩
  cases h with
  | char _ h => exact h
  | pair => exact absurd rfl hc
  | directive => exact absurd rfl hc
  | option => exact absurd rfl hc

theorem pair_iff : WellFormed ('%' :: '%' :: p) ↔ WellFormed p := by
  refine ⟨fun h => ?_, .pair⟩
  cases h with
  | char hc => exact absurd rfl hc
  | pair h => exact h
  | directive hx => exact absurd rfl (directive_ne_percent hx)
  | option hx => exact absurd rfl (directive_ne_percent hx)

/-- A `%` that is no pair begins a directive. -/
theorem directive_cases (hx : x ≠ '%') (h : WellFormed ('%' :: x :: p)) : x ∈ directives ∧
    ((∀ c ∈ p.head?, EndsName c) ∧ WellFormed p ∨
      ∃ fmt q, p = '{' :: (fmt ++ '}' :: q) ∧ '}' ∉ fmt ∧ WellFormed q) := by
  cases h with
  | char hc => exact absurd rfl hc
  | pair => exact absurd rfl hx
  | directive hx hp h => exact ⟨hx, Or.inl ⟨hp, h⟩⟩
  | option hx hfmt h => exact ⟨hx, Or.inr ⟨_, _, rfl, hfmt, h⟩⟩

theorem directive_iff (hx : x ∈ directives) (hp : ∀ c ∈ p.head?, EndsName c) :
    WellFormed ('%' :: x :: p) ↔ WellFormed p := by
  refine ⟨fun h => ?_, .directive hx hp⟩
  rcases (directive_cases (directive_ne_percent hx) h).2 with ⟨_, h⟩ | ⟨fmt, q, rfl, _, _⟩
  · exact h
  · exact absurd rfl (hp '{' rfl).2.1

/-- An option ends at the first `}`. -/
theorem option_end {fmt' : List Char} (hfmt : '}' ∉ fmt) (hfmt' : '}' ∉ fmt')
    (h : fmt ++ '}' :: p = fmt' ++ '}' :: q) : p = q := by
  obtain ⟨_, _, hrest⟩ := Lines.append_cons_inj (E := (· = '}')) (fun c hc e => hfmt (e ▸ hc))
    (fun c hc e => hfmt' (e ▸ hc)) rfl rfl h
  exact hrest

theorem option_iff (hx : x ∈ directives) (hfmt : '}' ∉ fmt) :
    WellFormed ('%' :: x :: '{' :: (fmt ++ '}' :: p)) ↔ WellFormed p := by
  refine ⟨fun h => ?_, .option hx hfmt⟩
  rcases (directive_cases (directive_ne_percent hx) h).2 with ⟨hend, _⟩ | ⟨fmt', q, hq, hfmt', h⟩
  · exact absurd rfl (hend '{' rfl).2.1
  · obtain ⟨_, hq⟩ := List.cons.inj hq
    obtain rfl := option_end hfmt hfmt' hq
    exact h

/-- A letter or a `}` behind the name of a directive. -/
theorem not_directive (hx : x ≠ '%') (hc : InName c) : ¬ WellFormed ('%' :: x :: c :: p) := by
  intro h
  rcases (directive_cases hx h).2 with ⟨hend, _⟩ | ⟨fmt, q, hq, _, _⟩
  · exact hc.not_endsName (hend c rfl)
  · exact hc.ne_brace (List.cons.inj hq).1

theorem of_notMem (hp : '%' ∉ p) : WellFormed p := by
  induction p with
  | nil => exact .nil
  | cons c p ih =>
      have hc : c ≠ '%' := fun e => hp (e ▸ List.mem_cons_self)
      exact .char hc (ih fun h => hp (List.mem_cons_of_mem c h))

/-- **The end of an option divides a text.** -/
theorem append_iff (hfmt : '}' ∉ fmt) :
    WellFormed (fmt ++ '}' :: p) ↔ WellFormed (fmt ++ ['}']) ∧ WellFormed p := by
  induction hn : fmt.length using Nat.strong_induction_on generalizing fmt with
  | _ n ih =>
      subst hn
      have hshort : ∀ {rest : List Char}, rest.length < fmt.length → '}' ∉ rest →
          (WellFormed (rest ++ '}' :: p) ↔ WellFormed (rest ++ ['}']) ∧ WellFormed p) :=
        fun hlt hrest => ih _ hlt hrest rfl
      clear ih
      have hclose : '}' ≠ '%' := by decide
      rcases fmt with - | ⟨c, rest⟩
      · show WellFormed ('}' :: p) ↔ WellFormed ['}'] ∧ WellFormed p
        rw [char_iff hclose, char_iff hclose]
        exact ⟨fun h => ⟨.nil, h⟩, And.right⟩
      have hrest : '}' ∉ rest := fun h => hfmt (List.mem_cons_of_mem c h)
      by_cases hc : c = '%'
      · subst hc
        rcases rest with - | ⟨x, rest⟩
        · -- the `}` itself would be the directive
          have hno : ∀ q, ¬ WellFormed ('%' :: '}' :: q) := fun q h =>
            absurd (directive_cases hclose h).1 (by decide)
          exact ⟨fun h => absurd h (hno p), fun h => absurd h.1 (hno [])⟩
        have hrest' : '}' ∉ rest := fun h => hrest (List.mem_cons_of_mem x h)
        have hlen : rest.length < ('%' :: x :: rest).length := by
          simp only [List.length_cons]
          omega
        by_cases hx : x = '%'
        · subst hx
          show WellFormed ('%' :: '%' :: (rest ++ '}' :: p)) ↔
            WellFormed ('%' :: '%' :: (rest ++ ['}'])) ∧ WellFormed p
          rw [pair_iff, pair_iff]
          exact hshort hlen hrest'
        rcases rest with - | ⟨d, rest⟩
        · -- and here it would go on with the name
          have hno : ∀ q, ¬ WellFormed ('%' :: x :: '}' :: q) :=
            fun q => not_directive hx (Or.inr rfl)
          exact ⟨fun h => absurd h (hno p), fun h => absurd h.1 (hno [])⟩
        show WellFormed ('%' :: x :: d :: (rest ++ '}' :: p)) ↔
          WellFormed ('%' :: x :: d :: (rest ++ ['}'])) ∧ WellFormed p
        by_cases hd : d = '{'
        · subst hd
          have hopen : '}' ∉ rest := fun h => hrest' (List.mem_cons_of_mem _ h)
          constructor
          · intro h
            have hxd := (directive_cases hx h).1
            exact ⟨.option hxd hopen .nil, (option_iff hxd hopen).mp h⟩
          · rintro ⟨h, hp⟩
            exact .option (directive_cases hx h).1 hopen hp
        · have hone : ∀ q, WellFormed ('%' :: x :: d :: q) ↔
              x ∈ directives ∧ EndsName d ∧ WellFormed (d :: q) := by
            intro q
            constructor
            · intro h
              obtain ⟨hxd, ⟨hend, h⟩ | ⟨fmt, q', hq, _⟩⟩ := directive_cases hx h
              · exact ⟨hxd, hend d rfl, h⟩
              · exact absurd (List.cons.inj hq).1 hd
            · rintro ⟨hxd, hend, h⟩
              refine .directive hxd (fun e he => ?_) h
              obtain rfl := Option.some.inj he
              exact hend
          have htail : WellFormed (d :: (rest ++ '}' :: p)) ↔
              WellFormed (d :: (rest ++ ['}'])) ∧ WellFormed p := hshort hlen hrest'
          rw [hone, hone, htail, and_assoc, and_assoc]
      · show WellFormed (c :: (rest ++ '}' :: p)) ↔
          WellFormed (c :: (rest ++ ['}'])) ∧ WellFormed p
        rw [char_iff hc, char_iff hc]
        exact hshort (Nat.lt_succ_self _) hrest

end WellFormed

/-! #### Where the parser is mistaken -/

/-- **The two slips.**  A name of more than one letter, at the end, of which the last letter
is a directive; and a `%` that goes unseen in the braces behind a pair, which are an option
to the parser.  The flag says that the first `%` is the second one of a pair. -/
inductive Slip : Bool → List Char → Prop
  | char {c p} (hc : c ≠ '%') (h : Slip false p) : Slip false (c :: p)
  | percent {b p} (h : Slip (!b) ('%' :: p)) : Slip b ('%' :: '%' :: p)
  | directive {b x p} (hx : x ∈ directives) (hp : ∀ c ∈ p.head?, EndsName c)
      (h : Slip false p) : Slip b ('%' :: x :: p)
  | option {b x fmt p} (hx : x ∈ directives) (hfmt : '}' ∉ fmt) (h : Slip false p) :
      Slip b ('%' :: x :: '{' :: (fmt ++ '}' :: p))
  | last {str x} (hne : str ≠ []) (hstr : ∀ y ∈ str, InName y) (hx : x ∈ directives) :
      Slip false ('%' :: (str ++ [x]))
  | unseen {x fmt p} (hx : x ∈ directives) (hfmt : '}' ∉ fmt) (hbad : ¬ WellFormed (fmt ++ ['}']))
      (h : Accepted p) : Slip true ('%' :: x :: '{' :: (fmt ++ '}' :: p))

namespace Slip

theorem accepted {b : Bool} {p : List Char} (h : Slip b p) : Accepted p := by
  induction h with
  | char hc _ ih => exact .char hc ih
  | percent _ ih => exact .percent ih
  | directive hx hp _ ih => exact .directive hx hp ih
  | option hx hfmt _ ih => exact .option hx hfmt ih
  | last _ hstr hx => exact .last hstr hx
  | unseen hx hfmt _ h => exact .option hx hfmt h

theorem wellFormed_braces_iff {x : Char} {fmt p : List Char} (hx : x ∈ directives)
    (hfmt : '}' ∉ fmt) :
    WellFormed (x :: '{' :: (fmt ++ '}' :: p)) ↔ WellFormed (fmt ++ ['}']) ∧ WellFormed p := by
  rw [WellFormed.char_iff (directive_ne_percent hx), WellFormed.char_iff (by decide),
    WellFormed.append_iff hfmt]

theorem not_wellFormed {b : Bool} {p : List Char} (h : Slip b p) :
    ¬ WellFormed (cond b p.tail p) := by
  induction h with
  | @char c p hc _ ih =>
      show ¬ WellFormed (c :: p)
      rw [WellFormed.char_iff hc]
      exact ih
  | @percent b p _ ih =>
      cases b with
      | false =>
          show ¬ WellFormed ('%' :: '%' :: p)
          rw [WellFormed.pair_iff]
          exact ih
      | true => exact ih
  | @directive b x p hx hp _ ih =>
      cases b with
      | false =>
          show ¬ WellFormed ('%' :: x :: p)
          rw [WellFormed.directive_iff hx hp]
          exact ih
      | true =>
          show ¬ WellFormed (x :: p)
          rw [WellFormed.char_iff (directive_ne_percent hx)]
          exact ih
  | @option b x fmt p hx hfmt _ ih =>
      cases b with
      | false =>
          show ¬ WellFormed ('%' :: x :: '{' :: (fmt ++ '}' :: p))
          rw [WellFormed.option_iff hx hfmt]
          exact ih
      | true =>
          show ¬ WellFormed (x :: '{' :: (fmt ++ '}' :: p))
          rw [wellFormed_braces_iff hx hfmt]
          exact fun h => ih h.2
  | @last str x hne hstr hx =>
      show ¬ WellFormed ('%' :: (str ++ [x]))
      obtain ⟨y, str, rfl⟩ := List.exists_cons_of_ne_nil hne
      obtain ⟨hy, hstr⟩ := List.forall_mem_cons.mp hstr
      have hpercent : y ≠ '%' := by
        rintro rfl
        rcases hy with h | h <;> simp at h
      cases str with
      | nil => exact WellFormed.not_directive hpercent (directive_inName hx)
      | cons z str => exact WellFormed.not_directive hpercent (hstr z List.mem_cons_self)
  | @unseen x fmt p hx hfmt hbad _ =>
      show ¬ WellFormed (x :: '{' :: (fmt ++ '}' :: p))
      rw [wellFormed_braces_iff hx hfmt]
      exact fun h => hbad h.1

end Slip

/-- What is accepted is well-formed but for a slip, whether its first `%` is the second one
of a pair or not. -/
theorem Accepted.wellFormed_or_slip {p : List Char} (h : Accepted p) :
    (WellFormed p ∨ Slip false p) ∧ ∀ q, p = '%' :: q → WellFormed q ∨ Slip true p := by
  induction h with
  | nil => exact ⟨Or.inl .nil, fun q e => by cases e⟩
  | char hc _ ih =>
      refine ⟨ih.1.imp (.char hc) (.char hc), fun q e => ?_⟩
      exact absurd (List.cons.inj e).1 hc
  | @percent p _ ih =>
      refine ⟨(ih.2 p rfl).imp .pair .percent, fun q e => ?_⟩
      obtain ⟨_, rfl⟩ := List.cons.inj e
      exact ih.1.imp id .percent
  | directive hx hp _ ih =>
      refine ⟨ih.1.imp (.directive hx hp) (.directive hx hp), fun q e => ?_⟩
      obtain ⟨_, rfl⟩ := List.cons.inj e
      exact ih.1.imp (.char (directive_ne_percent hx)) (.directive hx hp)
  | @option x fmt p hx hfmt hp ih =>
      refine ⟨ih.1.imp (.option hx hfmt) (.option hx hfmt), fun q e => ?_⟩
      obtain ⟨_, rfl⟩ := List.cons.inj e
      by_cases hbad : WellFormed (fmt ++ ['}'])
      · exact ih.1.imp (fun h => (Slip.wellFormed_braces_iff hx hfmt).mpr ⟨hbad, h⟩)
          (.option hx hfmt)
      · exact Or.inr (.unseen hx hfmt hbad hp)
  | @last str x hstr hx =>
      constructor
      · by_cases hne : str = []
        · subst hne
          exact Or.inl (.directive hx (fun c hc => by cases hc) .nil)
        · exact Or.inr (.last hne hstr hx)
      · intro q e
        obtain ⟨_, rfl⟩ := List.cons.inj e
        refine Or.inl (WellFormed.of_notMem fun hmem => ?_)
        rcases List.mem_append.mp hmem with hmem | hmem
        · rcases hstr '%' hmem with h | h <;> simp at h
        · exact directive_ne_percent hx (List.mem_singleton.mp hmem).symm

/-- **Malformed patterns are rejected but for the two slips.** -/
theorem rejects_malformed_iff (pattern : String) :
    ((LogFormatter.new pattern).error = false → WellFormed pattern.toList) ↔
      ¬ Slip false pattern.toList := by
  by_cases hne : pattern = ""
  · -- the default pattern is taken, and there is no `%` in this one
    subst hne
    refine ⟨fun _ h => ?_, fun _ _ => .nil⟩
    generalize hp : "".toList = p at h
    cases h <;> cases hp
  · rw [new_error_iff hne]
    constructor
    · intro h hslip
      exact hslip.not_wellFormed (h hslip.accepted)
    · intro hslip h
      exact h.wellFormed_or_slip.1.resolve_right hslip

/-- `%abcm` and `%%d{%q}` are accepted. -/
theorem accepts_malformed :
    (LogFormatter.new "%abcm").error = false ∧ ¬ WellFormed "%abcm".toList ∧
      (LogFormatter.new "%%d{%q}").error = false ∧ ¬ WellFormed "%%d{%q}".toList := by
  refine ⟨by decide +kernel, ?_, by decide +kernel, ?_⟩
  · exact WellFormed.not_directive (by decide) (Or.inl rfl)
  · show ¬ WellFormed ('%' :: '%' :: 'd' :: '{' :: '%' :: 'q' :: ['}'])
    rw [WellFormed.pair_iff, WellFormed.char_iff (by decide), WellFormed.char_iff (by decide)]
    exact WellFormed.not_directive (by decide) (Or.inr rfl)

/-! ### Another pattern -/

/-- The formatter is what a new one for the pattern would be. -/
structure Fresh (f : LogFormatter) (pattern : String) : Prop where
  items : f.items = (LogFormatter.new pattern).items
  error : f.error = (LogFormatter.new pattern).error
  format : ∀ env level event,
    f.format env level event = (LogFormatter.new pattern).format env level event

theorem new_items_ne_nil (pattern : String) : (LogFormatter.new pattern).items ≠ [] := by
  have hne : (if pattern = "" then LogFormatter.defaultPattern else pattern) ≠ "" := by
    split_ifs with h
    · decide
    · exact h
  rw [LogFormatter.new]
  exact LogFormatter.parsedItems_ne_nil hne

theorem prefix_foldl_setPattern (ps : List String) (f : LogFormatter) :
    f.items <+: (ps.foldl LogFormatter.setPattern f).items := by
  induction ps generalizing f with
  | nil => exact List.prefix_refl _
  | cons p ps ih => exact (List.prefix_append f.items (parsedItems p)).trans (ih (f.setPattern p))

/-- **A formatter that is given another pattern is never like a new one**: it keeps the
items it had, in front of the new ones. -/
theorem setPattern_never_fresh (first : String) (ps : List String) {p : String} (hp : p ≠ "") :
    ¬ Fresh ((ps ++ [p]).foldl LogFormatter.setPattern (LogFormatter.new first)) p := by
  intro h
  have hitems := h.items
  rw [List.foldl_append, List.foldl_cons, List.foldl_nil, LogFormatter.new_items hp] at hitems
  have hnil : (ps.foldl LogFormatter.setPattern (LogFormatter.new first)).items = [] :=
    List.append_left_eq_self.mp hitems
  have hpre := prefix_foldl_setPattern ps (LogFormatter.new first)
  rw [hnil, List.prefix_nil] at hpre
  exact new_items_ne_nil first hpre

theorem setPattern_never_fresh_message :
    ¬ Fresh ((["%t"] ++ ["%m"]).foldl LogFormatter.setPattern (LogFormatter.new "%p")) "%m" :=
  setPattern_never_fresh "%p" ["%t"] (by decide)

/-- After `%m` a formatter that is given `%p` prints the message and the level. -/
theorem setPattern_keeps_items :
    ((LogFormatter.new "%m").setPattern "%p").items = [.message, .level] ∧
      (LogFormatter.new "%p").items = [.level] ∧
      ¬ Fresh ((LogFormatter.new "%m").setPattern "%p") "%p" := by
  have hitems : ((LogFormatter.new "%m").setPattern "%p").items = [.message, .level] := by
    decide +kernel
  have hfresh : (LogFormatter.new "%p").items = [.level] := by decide +kernel
  refine ⟨hitems, hfresh, fun h => ?_⟩
  have heq := hitems.symm.trans (h.items.trans hfresh)
  cases heq

end Sylar
