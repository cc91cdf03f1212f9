/-
The tokens of a text form lines. `Laid` says how tokens come about from lexemes when no fault is
found. By induction over it each logical line is a change of the margin, tokens and a line end
(`LogicalLine`), and blocks close as often as they open.
-/
import TypeInfer.Proofs.Lexemes
import TypeInfer.Token.Layout

namespace TypeInfer.Token

open List

variable {source : Source} {s : LayoutState} {ls : List (Lexeme × List Char)}
  {ts before : List Token} {t : Token} {depth : Nat} {kind : TokenKind}

namespace LayoutState

/-- The state after a text that brings in no token. -/
def after (s : LayoutState) (text : List Char) : LayoutState :=
  { s with offset := s.offset + Text.utf8Length text, margin := s.margin.advance s.offset text }

/-- The state after a token, with the given open blocks. -/
def afterToken (s : LayoutState) (indents : List Nat) (kind : TokenKind) (text : List Char) : LayoutState :=
  { s.after text with atLineStart := false, indents, depth := depthAfter s.depth kind }

/-- The span of a text that comes next. -/
def spanOf (s : LayoutState) (source : Source) (text : List Char) : Span :=
  source.span s.offset (s.offset + Text.utf8Length text)

/-- The tokens that the end of the text brings in. -/
def closing (s : LayoutState) (source : Source) : List Token :=
  (if s.atLineStart then [] else [⟨.newline, source.endSpan⟩]) ++
    List.replicate s.indents.length ⟨.dedent, source.endSpan⟩ ++ [⟨.eof, source.endSpan⟩]

end LayoutState

/-- How lexemes are laid out as tokens, from a state on. -/
inductive Laid (source : Source) : LayoutState → List (Lexeme × List Char) → List Token → Prop where
  | stop (s : LayoutState) : Laid source s [] (s.closing source)
  | blank {s text ls ts} (rest : Laid source (s.after text) ls ts) : Laid source s ((.blank, text) :: ls) ts
  /-- A line end inside brackets, or on a line without a token. -/
  | idle {s text ls ts} (idle : s.depth ≠ 0 ∨ s.atLineStart = true) (rest : Laid source (s.after text) ls ts) :
    Laid source s ((.lineEnd, text) :: ls) ts
  | newline {s text ls ts} (depth : s.depth = 0) (start : s.atLineStart = false)
    (rest : Laid source { s.after text with atLineStart := true } ls ts) :
    Laid source s ((.lineEnd, text) :: ls) (⟨.newline, s.spanOf source text⟩ :: ts)
  | word {s kind text ls ts} (start : s.atLineStart = false)
    (rest : Laid source (s.afterToken s.indents kind text) ls ts) :
    Laid source s ((.token kind, text) :: ls) (⟨kind, s.spanOf source text⟩ :: ts)
  /-- The first token of a line that opens a block. -/
  | indent {s kind text ls ts} (start : s.atLineStart = true) (wider : s.indents.headD 0 < s.margin.width)
    (rest : Laid source (s.afterToken (s.margin.width :: s.indents) kind text) ls ts) :
    Laid source s ((.token kind, text) :: ls)
      (⟨.indent, source.span s.margin.lineStart s.offset⟩ :: ⟨kind, s.spanOf source text⟩ :: ts)
  /-- The first token of a line closes the blocks within its margin. -/
  | dedent {s kind text ls ts closed kept} (start : s.atLineStart = true) (indents : s.indents = closed ++ kept)
    (wider : ∀ width ∈ closed, s.margin.width < width) (margin : s.margin.width = kept.headD 0)
    (rest : Laid source (s.afterToken kept kind text) ls ts) :
    Laid source s ((.token kind, text) :: ls)
      (List.replicate closed.length ⟨.dedent, s.spanOf source text⟩ ++ ⟨kind, s.spanOf source text⟩ :: ts)

theorem forall_fits_token {kind text} (h : ∀ l ∈ (Lexeme.token kind, text) :: ls, l.1.Fits l.2) :
    kind.isLayout = false ∧ ∀ l ∈ ls, l.1.Fits l.2 :=
  (forall_mem_cons.1 h).imp_left Spells.not_isLayout

/-! ### Tokens are laid out -/

@[simp] theorem tokensOf_append (a b : List Event) : tokensOf (a ++ b) = tokensOf a ++ tokensOf b :=
  filterMap_append

@[simp] theorem faultsOf_append (a b : List Event) : faultsOf (a ++ b) = faultsOf a ++ faultsOf b :=
  filterMap_append

@[simp] theorem tokensOf_map_inl (ts : List Token) : tokensOf (ts.map Sum.inl) = ts := by
  simp [tokensOf, filterMap_map, Function.comp_def]

theorem tokensOf_layoutEnd (source : Source) (s : LayoutState) : tokensOf (layoutEnd source s) = s.closing source := by
  have h : layoutEnd source s = (s.closing source).map Sum.inl := by
    cases hs : s.atLineStart <;> simp [layoutEnd, LayoutState.closing, hs]
  rw [h, tokensOf_map_inl]

theorem indentTo_cases {span} (h : faultsOf (indentTo source s span).2 = []) :
    s.indents.headD 0 < s.margin.width ∧ indentTo source s span =
        (s.margin.width :: s.indents, [.inl ⟨.indent, source.span s.margin.lineStart s.offset⟩]) ∨
      ∃ closed kept, s.indents = closed ++ kept ∧ (∀ width ∈ closed, s.margin.width < width) ∧
        s.margin.width = kept.headD 0 ∧
        indentTo source s span = (kept, (List.replicate closed.length ⟨.dedent, span⟩).map Sum.inl) := by
  by_cases hwider : s.indents.headD 0 < s.margin.width
  · left
    simp only [indentTo, hwider, if_true]
    trivial
  · right
    refine ⟨s.indents.takeWhile (s.margin.width < ·), s.indents.dropWhile (s.margin.width < ·),
      takeWhile_append_dropWhile.symm, fun width hmem => ?_, ?_⟩
    · simpa using all_eq_true.1 all_takeWhile width hmem
    have hlength : s.indents.length - (s.indents.dropWhile (s.margin.width < ·)).length =
        (s.indents.takeWhile (s.margin.width < ·)).length := by
      have happend := congrArg List.length
        (takeWhile_append_dropWhile (p := (s.margin.width < ·)) (l := s.indents))
      rw [length_append] at happend
      omega
    simp only [indentTo, hwider, if_false, hlength] at h ⊢
    split at h
    · rename_i hmargin
      rw [if_pos hmargin]
      exact ⟨hmargin, by simp⟩
    · simp [faultsOf] at h

theorem laid_layout (h : faultsOf (layout source s ls) = []) : Laid source s ls (tokensOf (layout source s ls)) := by
  induction ls generalizing s with
  | nil =>
    rw [layout, tokensOf_layoutEnd]
    exact .stop s
  | cons l ls ih =>
    obtain ⟨lexeme, text⟩ := l
    rw [layout] at h ⊢
    cases lexeme with
    | blank => exact .blank (ih h)
    | lineEnd =>
      by_cases hends : (s.depth = 0 && !s.atLineStart) = true
      · simp only [layoutStep, hends, if_true, faultsOf_append, append_eq_nil_iff] at h ⊢
        obtain ⟨hdepth, hstart⟩ : s.depth = 0 ∧ s.atLineStart = false := by simpa using hends
        exact .newline hdepth hstart (ih h.2)
      · simp only [layoutStep, hends] at h ⊢
        refine .idle ?_ (ih h)
        by_cases hdepth : s.depth = 0
        · exact .inr (by simpa [hdepth] using hends)
        · exact .inl hdepth
    | token kind =>
      cases hstart : s.atLineStart with
      | false =>
        simp only [layoutStep, hstart] at h ⊢
        exact .word hstart (ih h)
      | true =>
        simp only [layoutStep, hstart, if_true, faultsOf_append, append_eq_nil_iff, append_assoc] at h ⊢
        rcases indentTo_cases h.1 with ⟨hwider, heq⟩ | ⟨closed, kept, hindents, hwider, hmargin, heq⟩
        · rw [heq] at h ⊢
          exact .indent hstart hwider (ih h.2.2)
        · rw [heq] at h ⊢
          simp only [tokensOf_append, tokensOf_map_inl]
          exact .dedent hstart hindents hwider hmargin (ih h.2.2)
    | unterminated => simp [layoutStep, faultsOf] at h
    | stray => simp [layoutStep, faultsOf] at h

theorem eq_ok_of_toOption {ε α : Type} {r : Except ε α} {a : α} (h : r.toOption = some a) : r = .ok a := by
  cases r with
  | error e => contradiction
  | ok b => exact congrArg Except.ok (Option.some.inj h)

theorem laid_of_tokenize {tokens} (h : tokenize source = .ok tokens) :
    Laid source {} (lexemes source.text.toList) tokens := by
  simp only [tokenize] at h
  split at h
  · rename_i hfaults
    rw [← Except.ok.inj h]
    exact laid_layout (List.isEmpty_iff.1 hfaults)
  · contradiction

/-! ### Logical lines -/

/-- A logical line: a change of the margin, tokens, and the line end. -/
structure LogicalLine where
  margin : List Token
  words : List Token
  newline : Token
  /-- One block opens, or any number of them close. -/
  margin_kind : (∃ t, margin = [t] ∧ t.kind = .indent) ∨ ∀ t ∈ margin, t.kind = .dedent
  words_ne_nil : words ≠ []
  words_kind : ∀ t ∈ words, t.kind.isLayout = false
  newline_kind : newline.kind = .newline

def LogicalLine.tokens (line : LogicalLine) : List Token := line.margin ++ line.words ++ [line.newline]

/-- Whole lines, then the blocks that the end of the text closes, and its end. -/
def IsLines (ts : List Token) : Prop :=
  ∃ (lines : List LogicalLine) (dedents : List Token) (eof : Token),
    ts = lines.flatMap LogicalLine.tokens ++ dedents ++ [eof] ∧ (∀ t ∈ dedents, t.kind = .dedent) ∧ eof.kind = .eof

/-- The rest of a line that has begun, then lines. -/
def IsLineTail (ts : List Token) : Prop :=
  ∃ (words : List Token) (newline : Token) (rest : List Token),
    ts = words ++ newline :: rest ∧ (∀ t ∈ words, t.kind.isLayout = false) ∧ newline.kind = .newline ∧ IsLines rest

theorem IsLineTail.word (ht : t.kind.isLayout = false) (h : IsLineTail ts) : IsLineTail (t :: ts) := by
  obtain ⟨words, newline, rest, rfl, hwords, hnewline, hrest⟩ := h
  exact ⟨t :: words, newline, rest, rfl, forall_mem_cons.2 ⟨ht, hwords⟩, hnewline, hrest⟩

/-- A margin and a first token begin a line. -/
theorem IsLineTail.begin {margin}
    (hmargin : (∃ u, margin = [u] ∧ u.kind = .indent) ∨ ∀ u ∈ margin, u.kind = .dedent)
    (ht : t.kind.isLayout = false) (h : IsLineTail ts) : IsLines (margin ++ t :: ts) := by
  obtain ⟨words, newline, rest, rfl, hwords, hnewline, lines, dedents, eof, rfl, hend⟩ := h
  let line : LogicalLine :=
    ⟨margin, t :: words, newline, hmargin, cons_ne_nil _ _, forall_mem_cons.2 ⟨ht, hwords⟩, hnewline⟩
  exact ⟨line :: lines, dedents, eof, by simp [line, LogicalLine.tokens], hend⟩

theorem isLines_closing : if s.atLineStart then IsLines (s.closing source) else IsLineTail (s.closing source) := by
  have hend : IsLines (List.replicate s.indents.length ⟨.dedent, source.endSpan⟩ ++ [⟨.eof, source.endSpan⟩]) :=
    ⟨[], _, _, rfl, fun t ht => by rw [eq_of_mem_replicate ht], rfl⟩
  cases hs : s.atLineStart with
  | true => simpa [LayoutState.closing, hs] using hend
  | false =>
    exact ⟨[], ⟨.newline, source.endSpan⟩, _, by simp [LayoutState.closing, hs], forall_mem_nil _, rfl, hend⟩

/-- From the start of a line on there are whole lines, from elsewhere the rest of one first. -/
theorem Laid.isLines (h : Laid source s ls ts) (hfits : ∀ l ∈ ls, l.1.Fits l.2) :
    if s.atLineStart then IsLines ts else IsLineTail ts := by
  induction h with
  | stop s => exact isLines_closing
  | blank _ ih => exact ih (forall_mem_cons.1 hfits).2
  | idle _ _ ih => exact ih (forall_mem_cons.1 hfits).2
  | newline _ start _ ih =>
    rw [start]
    exact ⟨[], _, _, rfl, forall_mem_nil _, rfl, ih (forall_mem_cons.1 hfits).2⟩
  | word start _ ih =>
    obtain ⟨hkind, hfits⟩ := forall_fits_token hfits
    rw [start]
    exact (ih hfits).word hkind
  | indent start _ _ ih =>
    obtain ⟨hkind, hfits⟩ := forall_fits_token hfits
    rw [start]
    exact IsLineTail.begin (.inl ⟨_, rfl, rfl⟩) hkind (ih hfits)
  | dedent start _ _ _ _ ih =>
    obtain ⟨hkind, hfits⟩ := forall_fits_token hfits
    rw [start]
    exact IsLineTail.begin (.inr fun u hu => by rw [eq_of_mem_replicate hu]) hkind (ih hfits)

/-! ### Blocks -/

/-- How many blocks the tokens open. -/
def opened (ts : List Token) : Nat := ts.countP (·.kind = .indent)

/-- How many blocks the tokens close. -/
def closed (ts : List Token) : Nat := ts.countP (·.kind = .dedent)

/-- No more blocks are closed than are open, and at the end none is open. -/
structure Balanced (ts : List Token) : Prop where
  within : ∀ before, before <+: ts → closed before ≤ opened before
  settled : closed ts = opened ts

/-- With `depth` open blocks, only open blocks are closed, and in the end all are. -/
def Closes : Nat → List Token → Prop
  | depth, [] => depth = 0
  | depth, t :: ts =>
    if t.kind = .indent then Closes (depth + 1) ts
    else if t.kind = .dedent then 0 < depth ∧ Closes (depth - 1) ts
    else Closes depth ts

section

attribute [local simp] Closes

theorem Closes.dedents (h : Closes depth ts) (n : Nat) (span : Span) :
    Closes (n + depth) (List.replicate n ⟨.dedent, span⟩ ++ ts) := by
  induction n with
  | zero => simpa using h
  | succ n ih =>
    rw [replicate_succ, cons_append, Closes]
    refine ⟨by omega, ?_⟩
    rwa [show n + 1 + depth - 1 = n + depth by omega]

theorem Closes.word (ht : t.kind.isLayout = false) (h : Closes depth ts) : Closes depth (t :: ts) := by
  rw [Closes, if_neg, if_neg]
  · exact h
  · rintro hk
    simp [hk, TokenKind.isLayout] at ht
  · rintro hk
    simp [hk, TokenKind.isLayout] at ht

theorem Laid.closes (h : Laid source s ls ts) (hfits : ∀ l ∈ ls, l.1.Fits l.2) : Closes s.indents.length ts := by
  induction h with
  | stop s =>
    have hend : Closes 0 [⟨.eof, source.endSpan⟩] := by simp
    have hdedents := hend.dedents s.indents.length source.endSpan
    cases hs : s.atLineStart with
    | true => simpa [LayoutState.closing, hs] using hdedents
    | false => simpa [LayoutState.closing, hs] using hdedents
  | blank _ ih => exact ih (forall_mem_cons.1 hfits).2
  | idle _ _ ih => exact ih (forall_mem_cons.1 hfits).2
  | newline _ _ _ ih => exact ih (forall_mem_cons.1 hfits).2
  | word _ _ ih =>
    obtain ⟨hkind, hfits⟩ := forall_fits_token hfits
    exact (ih hfits).word hkind
  | indent _ _ _ ih =>
    obtain ⟨hkind, hfits⟩ := forall_fits_token hfits
    rw [Closes, if_pos rfl]
    exact (ih hfits).word hkind
  | dedent _ indents _ _ _ ih =>
    obtain ⟨hkind, hfits⟩ := forall_fits_token hfits
    rw [indents, length_append]
    exact Closes.dedents ((ih hfits).word hkind) _ _

theorem Closes.within (h : Closes depth ts) {before} (hbefore : before <+: ts) :
    closed before ≤ depth + opened before := by
  induction ts generalizing depth before with
  | nil => simp [prefix_nil.1 hbefore, closed]
  | cons t ts ih =>
    cases before with
    | nil => simp [closed]
    | cons u before =>
      obtain ⟨rfl, hbefore⟩ := cons_prefix_cons.1 hbefore
      rw [Closes] at h
      simp only [closed, opened, countP_cons] at ih ⊢
      split at h
      · grind
      · split at h <;> grind

theorem Closes.settled (h : Closes depth ts) : closed ts = depth + opened ts := by
  induction ts generalizing depth with
  | nil => simpa [closed, opened] using h.symm
  | cons t ts ih =>
    rw [Closes] at h
    simp only [closed, opened, countP_cons] at ih ⊢
    split at h
    · grind
    · split at h <;> grind

end

theorem Closes.balanced (h : Closes 0 ts) : Balanced ts :=
  ⟨fun _ hbefore => by simpa using h.within hbefore, by simpa using h.settled⟩

/-! ### Brackets -/

/-- The bracket depth after the tokens. -/
def depthOf (depth : Nat) (ts : List Token) : Nat := ts.foldl (fun depth t => depthAfter depth t.kind) depth

/-- The line end that the end of the text brings in: blocks are closed after it, and nothing else
comes. -/
def EndsText (source : Source) (t : Token) (after : List Token) : Prop :=
  t.span = source.endSpan ∧ ∀ u ∈ after, u.kind = .dedent ∨ u.kind = .eof

/-- Lines end outside brackets, except where the text ends. -/
def EndsOutside (source : Source) : Nat → List Token → Prop
  | _, [] => True
  | depth, t :: ts =>
    (t.kind = .newline → depth = 0 ∨ EndsText source t ts) ∧ EndsOutside source (depthAfter depth t.kind) ts

theorem EndsOutside.cons (ht : t.kind ≠ .newline) (h : EndsOutside source (depthAfter depth t.kind) ts) :
    EndsOutside source depth (t :: ts) :=
  ⟨fun hk => absurd hk ht, h⟩

theorem EndsOutside.dedents (h : EndsOutside source depth ts) (n : Nat) (span : Span) :
    EndsOutside source depth (List.replicate n ⟨.dedent, span⟩ ++ ts) := by
  induction n with
  | zero => exact h
  | succ n ih => exact ih.cons nofun

theorem EndsOutside.of_append {after} (h : EndsOutside source depth (before ++ t :: after))
    (ht : t.kind = .newline) : depthOf depth before = 0 ∨ EndsText source t after := by
  induction before generalizing depth with
  | nil => exact h.1 ht
  | cons u before ih => exact ih h.2

theorem ne_newline_of_not_isLayout (h : kind.isLayout = false) : kind ≠ .newline := by
  rintro rfl
  simp [TokenKind.isLayout] at h

theorem Laid.endsOutside (h : Laid source s ls ts) (hfits : ∀ l ∈ ls, l.1.Fits l.2) :
    EndsOutside source s.depth ts := by
  induction h with
  | stop s =>
    have hend : EndsOutside source s.depth [⟨.eof, source.endSpan⟩] := ⟨nofun, trivial⟩
    have hdedents := hend.dedents s.indents.length source.endSpan
    cases hs : s.atLineStart with
    | true => simpa [LayoutState.closing, hs] using hdedents
    | false =>
      simp only [LayoutState.closing, hs]
      refine ⟨fun _ => .inr ⟨rfl, fun u hu => ?_⟩, hdedents⟩
      rcases mem_append.1 hu with hu | hu
      · exact .inl (by rw [eq_of_mem_replicate hu])
      · exact .inr (by rw [mem_singleton.1 hu])
  | blank _ ih => exact ih (forall_mem_cons.1 hfits).2
  | idle _ _ ih => exact ih (forall_mem_cons.1 hfits).2
  | newline depth _ _ ih => exact ⟨fun _ => .inl depth, ih (forall_mem_cons.1 hfits).2⟩
  | word _ _ ih =>
    obtain ⟨hkind, hfits⟩ := forall_fits_token hfits
    exact (ih hfits).cons (ne_newline_of_not_isLayout hkind)
  | indent _ _ _ ih =>
    obtain ⟨hkind, hfits⟩ := forall_fits_token hfits
    exact EndsOutside.cons nofun ((ih hfits).cons (ne_newline_of_not_isLayout hkind))
  | dedent _ _ _ _ _ ih =>
    obtain ⟨hkind, hfits⟩ := forall_fits_token hfits
    exact EndsOutside.dedents ((ih hfits).cons (ne_newline_of_not_isLayout hkind)) _ _

/-! ### Well-formed layout -/

/-- The tokens of a text are logical lines up to its end. Blocks close as they open, and each
line end stands outside brackets but for the one that the end of the text brings in. -/
theorem tokens_form_lines {source : Source} {tokens : List Token} (h : tokenize source = .ok tokens) :
    IsLines tokens ∧ Balanced tokens ∧
      ∀ before t after, tokens = before ++ t :: after → t.kind = .newline →
        depthOf 0 before = 0 ∨ EndsText source t after := by
  have hlaid := laid_of_tokenize h
  have hfits := fits_lexemes source.text.toList
  refine ⟨hlaid.isLines hfits, (hlaid.closes hfits).balanced, fun before t after heq ht => ?_⟩
  have houtside := hlaid.endsOutside hfits
  rw [heq] at houtside
  exact houtside.of_append ht

/-- A block whose last line ends inside a bracket. -/
def openCall : Source := .ofText ⟨"m.py"⟩ "if x:\n    f(\n"

def openCallTokens : List Token :=
  [⟨.keyword .ifKw, openCall.span 0 2⟩, ⟨.ident "x", openCall.span 3 4⟩, ⟨.symbol .colon, openCall.span 4 5⟩,
    ⟨.newline, openCall.span 5 6⟩, ⟨.indent, openCall.span 6 10⟩, ⟨.ident "f", openCall.span 10 11⟩,
    ⟨.symbol .leftParen, openCall.span 11 12⟩, ⟨.newline, openCall.endSpan⟩, ⟨.dedent, openCall.endSpan⟩,
    ⟨.eof, openCall.endSpan⟩]

theorem tokenize_openCall : tokenize openCall = .ok openCallTokens :=
  eq_ok_of_toOption (by decide +kernel)

theorem tokens_form_lines_openCall :
    tokenize openCall = .ok openCallTokens ∧ IsLines openCallTokens ∧ Balanced openCallTokens ∧
      EndsText openCall ⟨.newline, openCall.endSpan⟩ [⟨.dedent, openCall.endSpan⟩, ⟨.eof, openCall.endSpan⟩] := by
  obtain ⟨hlines, hbalanced, houtside⟩ := tokens_form_lines tokenize_openCall
  refine ⟨tokenize_openCall, hlines, hbalanced, ?_⟩
  -- the depth after `f(` is 1, so this line end can only be the one of the text's end
  exact (houtside (openCallTokens.take 7) _ _ rfl rfl).resolve_left (by decide)

end TypeInfer.Token
