/-
Sylar/Placement.lean

Where the items of a pattern stand, and what they print there.

A directive divides the entries of `vec` as it divides the pattern
(`entries_directive`), so that its item prints between what the two sides of the
pattern print.  For a `%d` this is the date, but only while the date fits the
64-byte buffer: the return value of `strftime` is not looked at
(`date_in_full_iff`).

An option brace that is not closed divides nothing.  Its error marker goes to `vec`
at once, while the text in front of it is still pending, and ends up behind it
(`text_before_marker_iff`).

As everywhere, a character of a `String` stands for a byte of the `std::string`.
-/
import Sylar.Grammar
import Sylar.Rendering

namespace Sylar

/-! ### The entries of pieces -/

/-- What is left of pieces in `vec`. -/
def entries (ps : List Piece) : List Token := (ps.foldl ParseState.push ⟨[], [], false⟩).flush.vec

theorem items_eq_entries {pattern : String} {ps : List Piece}
    (h : Reads (LogFormatter.new pattern).pattern.toList ps) :
    (LogFormatter.new pattern).items = (entries ps).map Token.item :=
  LogFormatter.parsedItems_eq h

theorem push_directive (text : List Char) (vec : List Token) (e : Bool)
    (str fmtStr : List Char) :
    (ParseState.mk text vec e).push (.directive str fmtStr) =
      ⟨[], vec ++ (pendingEntry text ++ [⟨str, fmtStr, true⟩]), e⟩ := by
  rw [ParseState.push, ParseState.flush_mk, ← List.append_assoc]

/-- The loop looks neither at what is in `vec` nor at the error flag. -/
theorem foldl_push_vec (v : List Token) (ps : List Piece) (text : List Char) (vec : List Token)
    (e e' : Bool) :
    (ps.foldl ParseState.push ⟨text, v ++ vec, e⟩).flush.vec =
      v ++ (ps.foldl ParseState.push ⟨text, vec, e'⟩).flush.vec := by
  induction ps generalizing text vec e e' with
  | nil =>
      show (ParseState.mk text (v ++ vec) e).flush.vec = v ++ (ParseState.mk text vec e').flush.vec
      rw [ParseState.flush_mk, ParseState.flush_mk]
      exact List.append_assoc v vec _
  | cons q ps ih =>
      rw [List.foldl_cons, List.foldl_cons]
      cases q with
      | char c => exact ih _ _ _ _
      | directive str fmtStr =>
          rw [push_directive, push_directive, List.append_assoc]
          exact ih _ _ _ _
      | unpaired =>
          rw [ParseState.push, ParseState.push]
          dsimp only
          rw [List.append_assoc]
          exact ih _ _ _ _

/-- The entries of texts. -/
theorem entries_text (t : List Char) : entries (t.map .char) = pendingEntry t := by
  rw [entries, foldl_push_text, ParseState.flush_mk]
  rfl

/-- **A directive divides the entries.** -/
theorem entries_directive (l r : List Piece) (str fmtStr : List Char) :
    entries (l ++ .directive str fmtStr :: r) = entries l ++ ⟨str, fmtStr, true⟩ :: entries r := by
  rw [entries, List.foldl_append, List.foldl_cons]
  show (r.foldl ParseState.push ⟨(l.foldl ParseState.push _).flush.text,
    entries l ++ [⟨str, fmtStr, true⟩], _⟩).flush.vec = _
  rw [ParseState.flush_text, ← List.append_nil (entries l ++ _),
    foldl_push_vec _ r [] [] _ false, List.append_assoc]
  rfl

/-- An error marker goes to the front of what is pending. -/
theorem entries_unpaired (t : List Char) (r : List Piece) :
    entries (t.map .char ++ .unpaired :: r) =
      ⟨"<<pattern_error>>".toList, [], false⟩ :: entries (t.map .char ++ r) := by
  rw [entries, entries, List.foldl_append, List.foldl_append, foldl_push_text, List.foldl_cons]
  exact foldl_push_vec [⟨"<<pattern_error>>".toList, [], false⟩] r _ [] _ false

/-! ### Dates -/

/-- The format of a `%d` with this option. -/
def dateFormat (fmt : List Char) : String :=
  if fmt = [] then "%Y-%m-%d %H:%M:%S" else String.ofList fmt

theorem item_date (fmt : List Char) :
    (⟨['d'], fmt, true⟩ : Token).item = .dateTime (dateFormat fmt) := by
  rw [Token.item_directive (by decide), dateFormat]
  show FormatItem.newDateTime (String.ofList fmt) = _
  rw [FormatItem.newDateTime]
  by_cases h : fmt = []
  · subst h
    rfl
  · rw [if_neg h, if_neg fun e => h (String.ofList_eq_empty_iff.mp e)]

/-- What items print. -/
def printed (env : Env) (level : LogLevel) (event : LogEvent) (items : List FormatItem) : String :=
  String.join (items.map (FormatItem.format env level event))

theorem printed_append_cons (env : Env) (level : LogLevel) (event : LogEvent)
    (before : List FormatItem) (i : FormatItem) (after : List FormatItem) :
    printed env level event (before ++ i :: after) =
      printed env level event before ++ i.format env level event ++
        printed env level event after := by
  rw [printed, List.map_append, List.map_cons, String.join_append, String.join_cons,
    ← String.append_assoc]
  rfl

/-- **Dates in full.**  The item of a `%d` prints between what comes of the two sides of the
pattern, and it prints the expansion of its format, whatever the buffer held before, exactly
if that is at most 63 bytes long. -/
theorem date_in_full_iff {pattern : String} {l r : List Piece} {fmt : List Char}
    (h : Reads (LogFormatter.new pattern).pattern.toList (l ++ .directive ['d'] fmt :: r))
    (env : Env) (level : LogLevel) (event : LogEvent) :
    let before := (entries l).map Token.item
    let after := (entries r).map Token.item
    let expansion := env.strftime (dateFormat fmt) event.time
    (LogFormatter.new pattern).items = before ++ .dateTime (dateFormat fmt) :: after ∧
      ((∀ stackBuf, let env := { env with stackBuf := stackBuf }
        (LogFormatter.new pattern).format env level event =
          printed env level event before ++ expansion ++ printed env level event after) ↔
        expansion.length < 64) := by
  intro before after expansion
  have hitems : (LogFormatter.new pattern).items =
      before ++ .dateTime (dateFormat fmt) :: after := by
    rw [items_eq_entries h, entries_directive, List.map_append, List.map_cons, item_date]
  refine ⟨hitems, ?_⟩
  have hprinted : ∀ env, (LogFormatter.new pattern).format env level event =
      printed env level event before ++
        (FormatItem.dateTime (dateFormat fmt)).format env level event ++
        printed env level event after := by
    intro env
    rw [← printed_append_cons, ← hitems]
    rfl
  constructor
  · intro hfull
    by_contra hlong
    -- an empty buffer prints nothing, and the expansion is not empty
    have hempty := hfull ""
    dsimp only at hempty
    rw [hprinted, FormatItem.format_dateTime_long { env with stackBuf := "" } hlong] at hempty
    have hlen := congrArg String.length hempty
    simp only [String.length_append, String.length_empty] at hlen
    omega
  · intro hshort stackBuf
    dsimp only
    rw [hprinted, FormatItem.format_dateTime_short { env with stackBuf := stackBuf } hshort]

/-- The year, behind a text. -/
theorem date_in_full_iff_year :
    let env := { Env.sample [] with strftime := fun format _ =>
      if format = "%Y" then "1970" else format }
    let f := LogFormatter.new "at %d{%Y}"
    let event : LogEvent := default
    f.items = [.string "at "] ++ .dateTime "%Y" :: [] ∧
      (f.format env .info event = "at 1970") ∧
      ((∀ stackBuf, let env := { env with stackBuf := stackBuf }
        f.format env .info event = printed env .info event [.string "at "] ++ "1970" ++
          printed env .info event []) ↔ "1970".length < 64) := by
  intro env f event
  have hpattern : (LogFormatter.new "at %d{%Y}").pattern.toList =
      ['a', 't', ' '] ++ '%' :: (['d'] ++ '{' :: (['%', 'Y'] ++ '}' :: [])) := by decide
  have hreads : Reads (LogFormatter.new "at %d{%Y}").pattern.toList
      (['a', 't', ' '].map .char ++ .directive ['d'] ['%', 'Y'] :: []) := by
    rw [hpattern]
    exact reads_text (by decide) (.option (by simp [InName]) (by decide) .nil)
  obtain ⟨hitems, hiff⟩ := date_in_full_iff hreads env .info default
  exact ⟨hitems, hiff.mpr (show "1970".length < 64 by decide) "", hiff⟩

/-- An option of 64 letters: the item prints what the buffer held before. -/
theorem date_not_in_full :
    let fmt := String.ofList (List.replicate 64 'x')
    let f := LogFormatter.new ("%d\x7b" ++ fmt ++ "\x7d")
    let env := Env.sample []
    let event : LogEvent := default
    f.error = false ∧ f.items = [.dateTime fmt] ∧ env.strftime fmt event.time = fmt ∧
      (∀ stackBuf, f.format { env with stackBuf := stackBuf } .info event = stackBuf) ∧
      ¬ ∀ stackBuf, f.format { env with stackBuf := stackBuf } .info event = fmt := by
  intro fmt f env event
  have hpattern : ("%d\x7b" ++ fmt ++ "\x7d").toList =
      '%' :: (['d'] ++ '{' :: (List.replicate 64 'x' ++ '}' :: [])) := by
    have hfmt : fmt.toList = List.replicate 64 'x' := String.toList_ofList
    rw [String.toList_append, String.toList_append, hfmt]
    rfl
  have hne : "%d\x7b" ++ fmt ++ "\x7d" ≠ "" := by
    intro e
    rw [e] at hpattern
    cases hpattern
  have hreads : Reads ("%d\x7b" ++ fmt ++ "\x7d").toList
      [.directive ['d'] (List.replicate 64 'x')] := by
    rw [hpattern]
    exact .option (by simp [InName]) (by decide) .nil
  have herror : f.error = false := LogFormatter.new_error_eq hne hreads
  have hitems : f.items = [.dateTime fmt] := by
    rw [LogFormatter.new_items hne, LogFormatter.parsedItems_eq hreads]
    exact congrArg (fun i => [i]) (item_date (List.replicate 64 'x'))
  have hlong : ¬ (env.strftime fmt event.time).length < 64 := by
    have hlen : fmt.length = 64 := String.length_ofList.trans List.length_replicate
    exact hlen.ge.not_gt
  have hprinted : ∀ stackBuf,
      f.format { env with stackBuf := stackBuf } .info event = stackBuf := by
    intro stackBuf
    have hitem : (FormatItem.dateTime fmt).format { env with stackBuf := stackBuf } .info event =
        stackBuf := FormatItem.format_dateTime_long _ hlong
    rw [LogFormatter.format, hitems, List.map_singleton, hitem, String.join_cons,
      String.join_nil, String.append_empty]
  refine ⟨herror, hitems, rfl, hprinted, ?_⟩
  intro hfull
  have hempty : "" = fmt := (hprinted "").symm.trans (hfull "")
  have hshort : fmt.length < 64 := by
    rw [← hempty]
    decide
  exact hlong hshort

/-! ### Unclosed options -/

/-- The first `%` of the text that is not followed by another one has letters and an opening
brace behind it. -/
inductive Reopens : List Char → Prop
  | brace {str p} (hstr : ∀ x ∈ str, x.isAlpha = true) : Reopens ('%' :: (str ++ '{' :: p))
  | char {c p} (hc : c ≠ '%') (h : Reopens p) : Reopens (c :: p)
  | pair {p} (h : Reopens ('%' :: p)) : Reopens ('%' :: '%' :: p)

namespace Reopens

variable {c : Char} {p str : List Char}

theorem char_iff (hc : c ≠ '%') : Reopens (c :: p) ↔ Reopens p := by
  refine ⟨fun h => ?_, .char hc⟩
  cases h with
  | brace => exact absurd rfl hc
  | char _ h => exact h
  | pair => exact absurd rfl hc

/-- Behind a `%` that is no pair. -/
theorem exists_name (h : Reopens ('%' :: p)) (hp : p.head? ≠ some '%') :
    ∃ str q, p = str ++ '{' :: q ∧ ∀ x ∈ str, x.isAlpha = true := by
  cases h with
  | brace hstr => exact ⟨_, _, rfl, hstr⟩
  | char hc => exact absurd rfl hc
  | pair => exact absurd rfl hp

theorem pair_iff : Reopens ('%' :: '%' :: p) ↔ Reopens ('%' :: p) := by
  refine ⟨fun h => ?_, .pair⟩
  generalize hq : '%' :: '%' :: p = q at h
  cases h with
  | @brace str q hstr =>
      have hhead : (str ++ '{' :: q).head? ≠ some '%' :=
        head?_append_ne_percent (fun x hx => Or.inl (hstr x hx)) fun _ e => by simp at e
      exact absurd ((List.cons.inj hq).2 ▸ rfl) hhead
  | char hc => exact absurd (List.cons.inj hq).1.symm hc
  | pair h => exact (List.cons.inj (List.cons.inj hq).2).2 ▸ h

theorem not_nil : ¬ Reopens [] := by
  intro h
  cases h

/-- A name that ends otherwise. -/
theorem not_name (hstr : ∀ x ∈ str, InName x) (hc : stops c = true) (hne : str = [] → c ≠ '%') :
    ¬ Reopens ('%' :: (str ++ c :: p)) := by
  intro h
  have hhead : (str ++ c :: p).head? ≠ some '%' :=
    head?_append_ne_percent hstr fun hnil e => hne hnil (Option.some.inj e)
  obtain ⟨str', q, hq, hstr'⟩ := h.exists_name hhead
  obtain ⟨_, rfl, _⟩ := Lines.append_cons_inj (E := fun c => ¬ InName c)
    (fun x hx => not_not_intro (hstr x hx)) (fun x hx => not_not_intro (Or.inl (hstr' x hx)))
    (fun hname => by simp [hname.stops] at hc) (fun hname => hname.ne_brace rfl) hq
  exact absurd hc (by decide)

/-- A name that does not end. -/
theorem not_last (hstr : ∀ x ∈ str, InName x) : ¬ Reopens ('%' :: str) := by
  intro h
  have hhead : (str ++ []).head? ≠ some '%' :=
    head?_append_ne_percent hstr fun _ e => by simp at e
  rw [List.append_nil] at hhead
  obtain ⟨str', q, rfl, _⟩ := h.exists_name hhead
  exact (hstr '{' (List.mem_append_right _ List.mem_cons_self)).ne_brace rfl

end Reopens

/-- `<<pattern_error>>`, as an entry. -/
def markerEntry : Token := ⟨"<<pattern_error>>".toList, [], false⟩

theorem item_markerEntry : markerEntry.item = .string "<<pattern_error>>" :=
  congrArg FormatItem.string String.ofList_toList

/-- The first entry of a text that has `p` behind it, with the reading `ps`: another error
marker, or the text with more behind it. -/
structure FirstEntry (t p : List Char) (ps : List Piece) : Prop where
  marker : Reopens p → ∃ more, entries (t.map .char ++ ps) = markerEntry :: more
  text : ¬ Reopens p → ∃ u more, entries (t.map .char ++ ps) = ⟨t ++ u, [], false⟩ :: more

namespace FirstEntry

variable {c : Char} {t p q : List Char} {ps : List Piece}

/-- A character that is read goes to the text. -/
theorem char (hiff : Reopens q ↔ Reopens p) (h : FirstEntry (t ++ [c]) p ps) :
    FirstEntry t q (.char c :: ps) := by
  have hsplit : t.map Piece.char ++ .char c :: ps = (t ++ [c]).map .char ++ ps := by
    rw [List.map_append, List.append_assoc]
    rfl
  constructor
  · intro hq
    rw [hsplit]
    exact h.marker (hiff.mp hq)
  · intro hq
    obtain ⟨u, more, heq⟩ := h.text fun hp => hq (hiff.mpr hp)
    rw [hsplit, heq, List.append_assoc]
    exact ⟨c :: u, more, rfl⟩

/-- The text is over when the reading is, or has a directive. -/
theorem of_text (ht : t ≠ []) (hno : ¬ Reopens p)
    (hps : ps = [] ∨ ∃ str fmtStr qs, ps = .directive str fmtStr :: qs) : FirstEntry t p ps := by
  have htext : entries (t.map .char) = [⟨t ++ [], [], false⟩] := by
    rw [entries_text, pendingEntry, if_neg ht, List.append_nil]
  refine ⟨fun h => absurd h hno, fun _ => ?_⟩
  rcases hps with rfl | ⟨str, fmtStr, qs, rfl⟩
  · rw [List.append_nil]
    exact ⟨[], [], htext⟩
  · rw [entries_directive, htext]
    exact ⟨[], _, rfl⟩

end FirstEntry

/-- **The first entry**, by what is read behind the text. -/
theorem firstEntry_of_reads {p : List Char} {ps : List Piece} (h : Reads p ps) (hp : '}' ∉ p)
    {t : List Char} (ht : t ≠ []) : FirstEntry t p ps := by
  have hpush : ∀ (t : List Char) (c : Char), t ++ [c] ≠ [] := fun t c =>
    List.append_ne_nil_of_right_ne_nil t (List.cons_ne_nil c [])
  induction h generalizing t with
  | nil => exact .of_text ht Reopens.not_nil (Or.inl rfl)
  | @char c p ps hc _ ih =>
      exact .char (Reopens.char_iff hc) (ih (fun h => hp (List.mem_cons_of_mem c h)) (hpush t c))
  | @percent p ps _ ih =>
      exact .char Reopens.pair_iff (ih (fun h => hp (List.mem_cons_of_mem '%' h)) (hpush t '%'))
  | name hstr hc hne => exact .of_text ht (Reopens.not_name hstr hc hne) (Or.inr ⟨_, _, _, rfl⟩)
  | option => exact absurd (by simp) hp
  | last hstr => exact .of_text ht (Reopens.not_last hstr) (Or.inr ⟨_, _, _, rfl⟩)
  | @unpaired str p ps hstr hrest _ =>
      have hletters : ∀ x ∈ str, x.isAlpha = true := by
        intro x hx
        refine (hstr x hx).resolve_right fun e => hp ?_
        exact List.mem_cons_of_mem '%' (List.mem_append_left _ (e ▸ hx))
      exact ⟨fun _ => ⟨_, entries_unpaired t ps⟩, fun hno => absurd (.brace hletters) hno⟩

/-- **The error marker comes first**: the entries of a text and of an option that is not
closed are the marker and then the text, with what was thought to be a directive behind it. -/
theorem entries_unclosed {t name rest : List Char} (ht : '%' ∉ t)
    (hname : ∀ c ∈ name, c.isAlpha = true) (hrest : '}' ∉ rest) :
    ∃ ps, Reads rest ps ∧ (tokens (t ++ '%' :: (name ++ '{' :: rest))).vec =
      markerEntry :: entries ((t ++ (name ++ ['{'])).map .char ++ ps) := by
  obtain ⟨ps, hps⟩ := exists_reads rest
  have hopen : '%' ∉ name ++ ['{'] := by
    intro h
    rcases List.mem_append.mp h with h | h
    · exact absurd (hname '%' h) (by decide)
    · exact absurd (List.mem_singleton.mp h) (by decide)
  have hagain : Reads (name ++ '{' :: rest) ((name ++ ['{']).map .char ++ ps) := by
    have h := reads_text hopen hps
    rwa [List.append_assoc] at h
  have hreads : Reads (t ++ '%' :: (name ++ '{' :: rest))
      (t.map .char ++ .unpaired :: ((name ++ ['{']).map .char ++ ps)) :=
    reads_text ht (.unpaired (fun c hc => Or.inl (hname c hc)) hrest hagain)
  refine ⟨ps, hps, ?_⟩
  rw [tokens_eq hreads]
  show entries _ = _
  rw [entries_unpaired, ← List.append_assoc, ← List.map_append]
  rfl

/-- **The order of text and marker.**  The items of a text with an unclosed option behind it
begin with the text and the error marker only if the text itself reads `<<pattern_error>>`,
and then only if a second brace is left open before anything else. -/
theorem text_before_marker_iff {t name rest : List Char} (ht : t ≠ []) (htext : '%' ∉ t)
    (hname : ∀ c ∈ name, c.isAlpha = true) (hrest : '}' ∉ rest) :
    [.string (String.ofList t), .string "<<pattern_error>>"] <+:
        (LogFormatter.new (String.ofList (t ++ '%' :: (name ++ '{' :: rest)))).items ↔
      String.ofList t = "<<pattern_error>>" ∧ Reopens rest := by
  obtain ⟨ps, hps, hvec⟩ := entries_unclosed htext hname hrest
  have hpattern : String.ofList (t ++ '%' :: (name ++ '{' :: rest)) ≠ "" := by
    rw [Ne, String.ofList_eq_empty_iff]
    exact List.append_ne_nil_of_left_ne_nil ht _
  have hpending : t ++ (name ++ ['{']) ≠ [] := List.append_ne_nil_of_left_ne_nil ht _
  rw [LogFormatter.new_items hpattern, parsedItems, String.toList_ofList, hvec]
  have hfirst := firstEntry_of_reads hps hrest hpending
  constructor
  · intro h
    rw [List.map_cons, List.cons_prefix_cons, item_markerEntry] at h
    obtain ⟨hmarker, hsecond⟩ := h
    refine ⟨FormatItem.string.inj hmarker, ?_⟩
    by_contra hno
    -- the second item is the text and more
    obtain ⟨u, more, heq⟩ := hfirst.text hno
    rw [heq, List.map_cons, List.cons_prefix_cons, ← hmarker] at hsecond
    have hlen := congrArg List.length (String.ofList_injective (FormatItem.string.inj hsecond.1))
    simp only [List.length_append, List.length_singleton] at hlen
    omega
  · rintro ⟨hmarker, hagain⟩
    obtain ⟨more, heq⟩ := hfirst.marker hagain
    rw [heq, List.map_cons, List.map_cons, item_markerEntry, hmarker]
    exact List.prefix_append _ _

/-- The text `a` before an unclosed `%m`. -/
theorem text_before_marker_iff_message :
    [.string (String.ofList ['a']), .string "<<pattern_error>>"] <+:
        (LogFormatter.new (String.ofList (['a'] ++ '%' :: (['m'] ++ '{' :: ['x'])))).items ↔
      String.ofList ['a'] = "<<pattern_error>>" ∧ Reopens ['x'] :=
  text_before_marker_iff (by decide) (by decide) (List.forall_mem_singleton.mpr rfl) (by decide)

/-- The pattern `a%m` with an open brace and an `x` behind it: the marker, and then the text. -/
theorem marker_before_text :
    let f := LogFormatter.new "a%m\x7bx"
    f.items = [.string "<<pattern_error>>", .string "am\x7bx"] ∧
      ¬ [.string "a", .string "<<pattern_error>>"] <+: f.items := by
  intro f
  have hitems : f.items = [.string "<<pattern_error>>", .string "am\x7bx"] := by decide
  rw [hitems]
  exact ⟨rfl, by decide⟩

end Sylar
