/-
What is read on a line. Whatever is not a string is read from the rest of the line at hand
(`scan_lineOf`). The kinds of the tokens that lines are laid out with depend on the lexemes and on
the widths of the margins (`Alike`).
-/
import TypeInfer.Proofs.TokenLines

namespace TypeInfer.Token

open List

variable {c quote : Char} {cs x text : List Char} {kind : TokenKind} {p : Char → Bool}

/-- The text up to the end of the line. -/
def lineOf (cs : List Char) : List Char := cs.takeWhile (!isLineEnd ·)

/-! ### Parts of a line -/

theorem lineOf_cons (h : isLineEnd c = false) (cs : List Char) : lineOf (c :: cs) = c :: lineOf cs :=
  takeWhile_cons_of_pos (by simp [h])

theorem lineOf_of_isLineEnd (h : isLineEnd c) (cs : List Char) : lineOf (c :: cs) = [] :=
  takeWhile_cons_of_neg (by simp [h])

/-- What holds of no line end holds of characters on the line only. -/
theorem not_isLineEnd (hfeed : p '\n' = false) (hreturn : p '\r' = false) (h : p c) :
    isLineEnd c = false := by
  cases hc : isLineEnd c with
  | false => rfl
  | true => rcases Bool.or_eq_true_iff.1 hc with hc | hc <;> (obtain rfl := eq_of_beq hc; simp_all)

theorem takeWhile_lineOf (hfeed : p '\n' = false) (hreturn : p '\r' = false) (cs : List Char) :
    (lineOf cs).takeWhile p = cs.takeWhile p := by
  induction cs with
  | nil => rfl
  | cons c cs ih =>
    by_cases hc : p c
    · rw [lineOf_cons (not_isLineEnd hfeed hreturn hc), takeWhile_cons_of_pos hc, takeWhile_cons_of_pos hc, ih]
    · rw [takeWhile_cons_of_neg hc]
      cases hend : isLineEnd c with
      | true => rw [lineOf_of_isLineEnd hend, takeWhile_nil]
      | false => rw [lineOf_cons hend, takeWhile_cons_of_neg hc]

theorem drop_lineOf (h : x <+: lineOf cs) : (lineOf cs).drop x.length = lineOf (cs.drop x.length) := by
  induction x generalizing cs with
  | nil => rfl
  | cons d x ih =>
    cases cs with
    | nil => simp [lineOf] at h
    | cons c cs =>
      cases hc : isLineEnd c with
      | true => simp [lineOf_of_isLineEnd hc] at h
      | false =>
        rw [lineOf_cons hc] at h ⊢
        exact ih (cons_prefix_cons.1 h).2

/-- What is known on lines that go on, and takes a line end for the end, is known on all lines. -/
theorem apply_lineOf {α : Type} {f : List Char → α} (hfeed : ∀ r, f ('\n' :: r) = f [])
    (hreturn : ∀ r, f ('\r' :: r) = f []) (hcons : ∀ c r, f (c :: lineOf r) = f (c :: r)) (cs : List Char) :
    f (lineOf cs) = f cs := by
  cases cs with
  | nil => rfl
  | cons c cs =>
    cases hc : isLineEnd c with
    | false => rw [lineOf_cons hc, hcons]
    | true =>
      rw [lineOf_of_isLineEnd hc]
      rcases Bool.or_eq_true_iff.1 hc with hc | hc <;> obtain rfl := eq_of_beq hc
      · exact (hfeed cs).symm
      · exact (hreturn cs).symm

theorem head?_lineOf (hfeed : p '\n' = false) (hreturn : p '\r' = false) :
    ∀ cs, (lineOf cs).head?.any p = cs.head?.any p :=
  apply_lineOf (f := fun cs => cs.head?.any p) (by simp [hfeed]) (by simp [hreturn]) fun _ _ => rfl

/-! ### Numbers -/

theorem fractionPart_lineOf : ∀ cs, fractionPart (lineOf cs) = fractionPart cs :=
  apply_lineOf (fun _ => rfl) (fun _ => rfl) fun c r => by
    by_cases hc : c = '.'
    · simp [fractionPart, hc, takeWhile_lineOf (p := isDigitOrBar) rfl rfl]
    · simp [fractionPart, hc]

theorem signPart_lineOf : ∀ cs, signPart (lineOf cs) = signPart cs :=
  apply_lineOf (fun _ => rfl) (fun _ => rfl) fun _ _ => rfl

theorem exponentPart_lineOf : ∀ cs, exponentPart (lineOf cs) = exponentPart cs :=
  apply_lineOf (fun _ => rfl) (fun _ => rfl) fun c r => by
    have hsign : (lineOf r).drop (signPart r).length = lineOf (r.drop (signPart r).length) :=
      drop_lineOf (signPart_lineOf r ▸ signPart_starts (lineOf r))
    simp only [exponentPart, signPart_lineOf, hsign, takeWhile_lineOf (p := Char.isDigit) rfl rfl]

theorem imaginaryPart_lineOf : ∀ cs, imaginaryPart (lineOf cs) = imaginaryPart cs :=
  apply_lineOf (fun _ => rfl) (fun _ => rfl) fun _ _ => rfl

theorem decimalNumber_lineOf (cs : List Char) : decimalNumber (lineOf cs) = decimalNumber cs := by
  have hwhole : cs.takeWhile isDigitOrBar <+: lineOf cs :=
    takeWhile_lineOf (p := isDigitOrBar) rfl rfl cs ▸ takeWhile_prefix _
  simp only [decimalNumber, takeWhile_lineOf (p := isDigitOrBar) rfl rfl, drop_lineOf hwhole, fractionPart_lineOf]
  generalize cs.takeWhile isDigitOrBar = whole at hwhole ⊢
  have hmantissa : whole ++ fractionPart (cs.drop whole.length) <+: lineOf cs := by
    refine prefix_append_of_drop hwhole ?_
    rw [drop_lineOf hwhole, ← fractionPart_lineOf]
    exact fractionPart_starts _
  generalize whole ++ fractionPart (cs.drop whole.length) = mantissa at hmantissa ⊢
  rw [drop_lineOf hmantissa, exponentPart_lineOf]
  have hreal : mantissa ++ exponentPart (cs.drop mantissa.length) <+: lineOf cs := by
    refine prefix_append_of_drop hmantissa ?_
    rw [drop_lineOf hmantissa, ← exponentPart_lineOf]
    exact exponentPart_starts _
  rw [drop_lineOf hreal, imaginaryPart_lineOf]

theorem basedNumber?_lineOf : ∀ cs, basedNumber? (lineOf cs) = basedNumber? cs := by
  refine apply_lineOf (fun _ => rfl) (fun _ => rfl) fun c r => ?_
  by_cases hc : c = '0'
  · subst hc
    refine apply_lineOf (f := fun r => basedNumber? ('0' :: r)) (fun _ => rfl) (fun _ => rfl) (fun letter r => ?_) r
    simp only [basedNumber?]
    cases hletter : baseDigit? letter with
    | none => rfl
    | some isDigit =>
      have hends : isDigit '\n' = false ∧ isDigit '\r' = false := by
        rcases eq_of_baseDigit? hletter with rfl | rfl | rfl | rfl | rfl | rfl <;>
          (obtain rfl := Option.some.inj hletter; decide)
      simp only [Option.bind_eq_bind, Option.bind_some, takeWhile_lineOf hends.1 hends.2]
  · simp [basedNumber?, hc]

theorem number_lineOf (cs : List Char) : number (lineOf cs) = number cs := by
  rw [number, number, basedNumber?_lineOf, decimalNumber_lineOf]

/-! ### Lexemes -/

theorem word_lineOf (cs : List Char) : word (lineOf cs) = word cs := by
  rw [word, word, takeWhile_lineOf (p := isWordChar) rfl rfl]

theorem lineOf_append (hx : ∀ c ∈ x, isLineEnd c = false) (cs : List Char) : lineOf (x ++ cs) = x ++ lineOf cs :=
  takeWhile_append_of_pos (by simpa using hx)

/-- A text without line ends starts the line just if it starts the text. -/
theorem prefix_lineOf (hx : ∀ c ∈ x, isLineEnd c = false) : x <+: lineOf cs ↔ x <+: cs := by
  refine ⟨fun h => h.trans ( takeWhile_prefix _), fun h => ?_⟩
  obtain ⟨rest, rfl⟩ := h
  exact lineOf_append hx rest ▸ prefix_append ..

theorem marks_on_line : marks.all (·.1.all (!isLineEnd ·)) = true := by decide +kernel

theorem mark?_lineOf (cs : List Char) : mark? (lineOf cs) = mark? cs := by
  have hfilter : marks.filter (·.1.isPrefixOf (lineOf cs)) = marks.filter (·.1.isPrefixOf cs) := by
    refine filter_congr fun m hm => ?_
    have hm : ∀ c ∈ m.1, isLineEnd c = false := by simpa using all_eq_true.1 marks_on_line m hm
    rw [Bool.eq_iff_iff, isPrefixOf_iff_prefix, isPrefixOf_iff_prefix, prefix_lineOf hm]
  rw [mark?, mark?, hfilter]

theorem on_line_of_isMarks {marks quote} (hmarks : IsMarks marks) (hquote : isQuote quote) :
    ∀ c ∈ marks ++ [quote], isLineEnd c = false := by
  refine forall_mem_append.2 ⟨fun c hc => ?_, forall_mem_singleton.2 ?_⟩
  · exact not_isLineEnd (p := isMarkLetter) rfl rfl (hmarks.2 c hc)
  · exact not_isLineEnd (p := isQuote) rfl rfl hquote

theorem quote_ne_feed (hquote : isQuote quote) : quote ≠ '\n' := by
  rintro rfl
  contradiction

/-- A string starts on the line, if one does. -/
theorem stringStart?_lineOf : stringStart? (lineOf cs) = none ↔ stringStart? cs = none := by
  constructor <;> intro h
  · cases hcs : stringStart? cs with
    | none => rfl
    | some s =>
      obtain ⟨hstart, hmarks, hquote⟩ := stringStart?_eq_some hcs
      rw [hstart, append_cons, lineOf_append (on_line_of_isMarks hmarks hquote), append_assoc, singleton_append,
        stringStart?_append hmarks hquote] at h
      contradiction
  · cases hline : stringStart? (lineOf cs) with
    | none => rfl
    | some s =>
      obtain ⟨hstart, hmarks, hquote⟩ := stringStart?_eq_some hline
      obtain ⟨rest, hrest⟩ : lineOf cs <+: cs := takeWhile_prefix _
      rw [← hrest, hstart, append_assoc, cons_append, stringStart?_append hmarks hquote] at h
      contradiction

section

attribute [local simp] scan

/-- Where no string starts, a lexeme is read from the line. -/
theorem scan_lineOf (hc : isLineEnd c = false) (hslash : c ≠ '\\') (h : stringStart? (c :: cs) = none) :
    scan c (lineOf cs) = scan c cs := by
  obtain ⟨hfeed, hreturn⟩ : c ≠ '\n' ∧ c ≠ '\r' := by simpa [isLineEnd] using hc
  have hline := (lineOf_cons hc cs).symm
  simp only [scan, takeWhile_lineOf (p := isBlank) rfl rfl, takeWhile_lineOf (p := (!isLineEnd ·)) rfl rfl,
    head?_lineOf (p := Char.isDigit) rfl rfl, beq_false_of_ne hfeed, beq_false_of_ne hreturn, beq_false_of_ne hslash,
    Bool.false_eq_true, if_false, hline, h, stringStart?_lineOf.2 h, number_lineOf, word_lineOf, mark?_lineOf]

/-- Where no string starts, texts with the same line are read alike. -/
theorem scan_eq_of_lineOf {cs'} (hc : isLineEnd c = false) (hslash : c ≠ '\\')
    (h : stringStart? (c :: cs) = none) (hline : lineOf cs' = lineOf cs) :
    scan c cs' = scan c cs := by
  have h' : stringStart? (c :: cs') = none := by
    rwa [← stringStart?_lineOf, lineOf_cons hc, hline, ← lineOf_cons hc, stringStart?_lineOf]
  rw [← scan_lineOf hc hslash h, ← hline, scan_lineOf hc hslash h']

/-- Where a string starts, one is read. -/
theorem scan_of_stringStart? {marks rest} (h : stringStart? (c :: cs) = some (marks, quote, rest)) :
    scan c cs = string marks quote rest := by
  have hc : c ∈ "rRbBuUfF".toList ++ ['"', '\''] := by
    obtain ⟨heq, hmarks, hquote⟩ := stringStart?_eq_some h
    cases marks with
    | nil =>
      obtain ⟨rfl, -⟩ := List.cons.inj heq
      exact mem_append_right _ (by simpa [isQuote] using hquote)
    | cons d marks =>
      obtain ⟨rfl, -⟩ := List.cons.inj heq
      exact mem_append_left _ (contains_iff_mem.1 (hmarks.2 c (mem_cons_self ..)))
  have hall : ("rRbBuUfF".toList ++ ['"', '\'']).all (fun c => !isBlank c && c != '#' && c != '\n' && c != '\r' && c != '\\' &&
      !c.isDigit && c != '.') = true := by decide
  have hc := all_eq_true.1 hall c hc
  simp only [Bool.and_eq_true, Bool.not_eq_true', bne_iff_ne] at hc
  simp [h, hc]

/-- A lexeme takes a character, and no more of them than there are. -/
theorem length_scan (c : Char) (cs : List Char) : 0 < (scan c cs).2 ∧ (scan c cs).2 ≤ cs.length + 1 := by
  cases hscan : scan c cs with
  | mk lexeme n =>
    by_cases htoken : ∃ kind, lexeme = .token kind
    · obtain ⟨kind, rfl⟩ := htoken
      obtain ⟨text, hmatch, rfl⟩ := longestMatch_scan hscan
      exact ⟨length_pos_iff.2 hmatch.spells.ne_nil, hmatch.starts.length_le⟩
    cases hstring : stringStart? (c :: cs) with
    | none =>
      have hblank := ( takeWhile_prefix (l := cs) isBlank).length_le
      have hcomment := ( takeWhile_prefix (l := cs) (!isLineEnd ·)).length_le
      have hfeed : cs.head? = some '\n' → 0 < cs.length := by cases cs <;> simp
      simp only [scan, hstring] at hscan
      grind
    | some found =>
      obtain ⟨marks, quote, rest⟩ := found
      have hlength := congrArg List.length (stringStart?_eq_some hstring).1
      have hbody := (isLineBody_lineBody quote rest).2.length_le
      rw [scan_of_stringStart? hstring] at hscan
      simp only [length_append, length_cons] at hlength
      simp only [string] at hscan
      grind

end

/-- Where no string starts, the text of a lexeme is on the line. -/
theorem take_scan_on_line (hc : isLineEnd c = false) (hslash : c ≠ '\\') (h : stringStart? (c :: cs) = none) :
    ∀ d ∈ cs.take ((scan c cs).2 - 1), isLineEnd d = false := by
  have hle := (length_scan c (lineOf cs)).2
  rw [scan_lineOf hc hslash h] at hle
  generalize (scan c cs).2 = n at hle ⊢
  obtain ⟨rest, hrest⟩ : lineOf cs <+: cs := takeWhile_prefix _
  intro d hd
  rw [← hrest, take_append_of_le_length (by omega)] at hd
  simpa using all_eq_true.1 all_takeWhile d (mem_of_mem_take hd)

/-! ### Layout -/

/-- The kind of the token that an event brings in. -/
def kindOf? (e : Event) : Option TokenKind := e.getLeft?.map Token.kind

/-- The kinds of the tokens of a text, if it has tokens. -/
def kinds? (source : Source) : Option (List TokenKind) := (tokenize source).toOption.map (·.map Token.kind)

theorem kinds?_eq (source : Source) :
    kinds? source = (layout source {} (lexemes source.text.toList)).mapM kindOf? := by
  unfold kinds? tokenize
  generalize layout source {} (lexemes source.text.toList) = events
  induction events with
  | nil => rfl
  | cons e events ih =>
    rw [mapM_cons, ← ih]
    cases e with
    | inr fault => rfl
    | inl t =>
      have hfaults : faultsOf (.inl t :: events) = faultsOf events := rfl
      simp only [hfaults]
      cases (faultsOf events).isEmpty <;> rfl

/-- Two states that differ in their places in the text only. -/
structure Alike (s t : LayoutState) : Prop where
  width : s.margin.width = t.margin.width
  depth : s.depth = t.depth
  atLineStart : s.atLineStart = t.atLineStart
  indents : s.indents = t.indents

def Lexeme.map (φ : TokenKind → TokenKind) : Lexeme → Lexeme
  | .token kind => .token (φ kind)
  | lexeme => lexeme

/-- Tokens and texts are written in another way that lays them out alike. -/
structure Recasts (φ : TokenKind → TokenKind) (f : List Char → List Char) : Prop where
  depth : ∀ depth kind, depthAfter depth (φ kind) = depthAfter depth kind
  layout : ∀ kind, kind.isLayout → φ kind = kind
  width : ∀ (m m' : Margin) (i i' : Nat) (text : List Char), m.width = m'.width →
    (m.advance i (f text)).width = (m'.advance i' text).width

section

variable {φ : TokenKind → TokenKind} {f : List Char → List Char} {source source' : Source} {s t : LayoutState}

theorem Alike.indentTo (h : Alike s t) (hφ : Recasts φ f) (span span' : Span) :
    (Token.indentTo source s span).1 = (Token.indentTo source' t span').1 ∧
      (Token.indentTo source s span).2.map kindOf? =
        (Token.indentTo source' t span').2.map fun e => (kindOf? e).map φ := by
  have hindent := hφ.layout .indent rfl
  have hdedent := hφ.layout .dedent rfl
  simp only [Token.indentTo, h.width, h.indents]
  split
  · simp [kindOf?, hindent]
  · split <;> simp [kindOf?, hdedent]

theorem Alike.layoutStep (h : Alike s t) (hφ : Recasts φ f) (lexeme : Lexeme) (text : List Char) :
    Alike (Token.layoutStep source s (lexeme.map φ) (f text)).1 (Token.layoutStep source' t lexeme text).1 ∧
      (Token.layoutStep source s (lexeme.map φ) (f text)).2.map kindOf? =
        (Token.layoutStep source' t lexeme text).2.map fun e => (kindOf? e).map φ := by
  have hwidth := hφ.width s.margin t.margin s.offset t.offset text h.width
  cases lexeme with
  | blank => exact ⟨{ h with width := hwidth }, rfl⟩
  | lineEnd =>
    have hnewline := hφ.layout .newline rfl
    simp only [Token.layoutStep, Lexeme.map, h.depth, h.atLineStart]
    split
    · exact ⟨⟨hwidth, rfl, rfl, h.indents⟩, by simp [kindOf?, hnewline]⟩
    · exact ⟨⟨hwidth, rfl, rfl, h.indents⟩, rfl⟩
  | token kind =>
    have hdepth : depthAfter s.depth (φ kind) = depthAfter t.depth kind := by rw [hφ.depth, h.depth]
    obtain ⟨hindents, hmargin⟩ := @Alike.indentTo φ f source source' s t h hφ (s.spanOf source (f text))
      (t.spanOf source' text)
    simp only [Token.layoutStep, Lexeme.map, h.atLineStart]
    cases t.atLineStart with
    | true => exact ⟨⟨hwidth, hdepth, rfl, hindents⟩, by rw [map_append, map_append]; exact congrArg (· ++ _) hmargin⟩
    | false => exact ⟨⟨hwidth, hdepth, rfl, h.indents⟩, rfl⟩
  | unterminated => exact ⟨⟨hwidth, h.depth, rfl, h.indents⟩, rfl⟩
  | stray => exact ⟨⟨hwidth, h.depth, rfl, h.indents⟩, rfl⟩

theorem Alike.layout (h : Alike s t) (hφ : Recasts φ f) (ls : List (Lexeme × List Char)) :
    (Token.layout source s (ls.map fun l => (l.1.map φ, f l.2))).map kindOf? =
      (Token.layout source' t ls).map fun e => (kindOf? e).map φ := by
  induction ls generalizing s t with
  | nil =>
    have hnewline := hφ.layout .newline rfl
    have hdedent := hφ.layout .dedent rfl
    have heof := hφ.layout .eof rfl
    simp only [map_nil, Token.layout, layoutEnd, h.atLineStart, h.indents]
    cases t.atLineStart <;> simp [kindOf?, hnewline, hdedent, heof]
  | cons l ls ih =>
    obtain ⟨hnext, hkinds⟩ := @Alike.layoutStep φ f source source' s t h hφ l.1 l.2
    simp only [map_cons, Token.layout, map_append, hkinds, ih hnext]

theorem mapM_kindOf? {es es' : List Event} (h : es.map kindOf? = es'.map fun e => (kindOf? e).map φ) :
    es.mapM kindOf? = (es'.mapM kindOf?).map (List.map φ) := by
  induction es' generalizing es with
  | nil =>
    obtain rfl := map_eq_nil_iff.1 h
    rfl
  | cons e' es' ih =>
    obtain ⟨e, es, rfl, he, hes⟩ := map_eq_cons_iff.1 h
    simp only [mapM_cons, he, ih hes]
    cases kindOf? e' <;> cases es'.mapM kindOf? <;> rfl

end

end TypeInfer.Token
