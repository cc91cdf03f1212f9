/-
The tokens of a text leave out nothing of it and add nothing: each is the longest that is spelled
where its span says, and what stands outside them is blank, a comment, a continued line, or a line
end that ends no logical line. `Laid.reach` cuts a walk over lexemes in two at any of them.
-/
import TypeInfer.Proofs.TokenLines

namespace TypeInfer

open List

/-! ### Bytes -/

@[simp] theorem Text.utf8Length_nil : Text.utf8Length [] = 0 := rfl

theorem Text.utf8Length_cons (c : Char) (cs : List Char) :
    Text.utf8Length (c :: cs) = c.utf8Size + Text.utf8Length cs := rfl

@[simp] theorem Text.utf8Length_append (a b : List Char) :
    Text.utf8Length (a ++ b) = Text.utf8Length a + Text.utf8Length b := by
  induction a with
  | nil => simp
  | cons c a ih => simp only [cons_append, Text.utf8Length_cons, ih, Nat.add_assoc]

theorem Text.utf8Length_pos {cs : List Char} (h : cs ≠ []) : 0 < Text.utf8Length cs := by
  cases cs with
  | nil => contradiction
  | cons c cs =>
    have hc := Char.utf8Size_pos c
    rw [Text.utf8Length_cons]
    omega

theorem Text.utf8ByteSize_ofList (cs : List Char) : (String.ofList cs).utf8ByteSize = Text.utf8Length cs := by
  induction cs with
  | nil => rfl
  | cons c cs ih =>
    rw [String.ofList_cons, String.utf8ByteSize_append, String.utf8ByteSize_singleton, ih, Text.utf8Length_cons]

namespace Source

variable (source : Source)

theorem length_eq (source : Source) : source.length = Text.utf8Length source.text.toList := by
  rw [← Text.utf8ByteSize_ofList, String.ofList_toList, length]

@[simp] theorem span_start (start stop : Nat) : (source.span start stop).start = start := rfl

@[simp] theorem span_stop (start stop : Nat) : (source.span start stop).stop = stop := rfl

/-- `text` stands at the given offset, with `rest` after it. -/
def HasAt (source : Source) (start : Nat) (text rest : List Char) : Prop :=
  ∃ before, source.text.toList = before ++ (text ++ rest) ∧ start = Text.utf8Length before

theorem HasAt.le_length {source : Source} {start : Nat} {text rest : List Char} (h : source.HasAt start text rest) :
    start + Text.utf8Length text ≤ source.length := by
  obtain ⟨before, htext, rfl⟩ := h
  rw [length_eq, htext, Text.utf8Length_append, Text.utf8Length_append]
  omega

end Source

namespace Token

open Text (utf8Length)

variable {source : Source} {s s' : LayoutState} {l : Lexeme × List Char}
  {ls more : List (Lexeme × List Char)} {ts us : List Token} {t : Token} {lexeme : Lexeme}
  (m : Margin) (offset : Nat) {text : List Char} {kind : TokenKind}

/-- The bytes that the lexemes take. -/
def extent (ls : List (Lexeme × List Char)) : Nat := utf8Length (ls.flatMap Prod.snd)

@[simp] theorem extent_nil : extent [] = 0 := rfl

@[simp] theorem extent_cons (l : Lexeme × List Char) (ls : List (Lexeme × List Char)) :
    extent (l :: ls) = utf8Length l.2 + extent ls :=
  Text.utf8Length_append l.2 _

@[simp] theorem extent_append (ls more : List (Lexeme × List Char)) : extent (ls ++ more) = extent ls + extent more := by
  show utf8Length ((ls ++ more).flatMap Prod.snd) = _
  rw [flatMap_append, Text.utf8Length_append]
  rfl

/-! ### The margin -/

theorem lineStart_advance (text : List Char) (h : m.lineStart ≤ offset) :
    m.lineStart ≤ (m.advance offset text).lineStart ∧ (m.advance offset text).lineStart ≤ offset + utf8Length text := by
  induction text generalizing m offset with
  | nil => exact ⟨Nat.le_refl _, h⟩
  | cons c cs ih =>
    rw [Margin.advance, Text.utf8Length_cons]
    by_cases hc : (c == '\n') = true
    · have hnext := ih ⟨offset + c.utf8Size, 0⟩ (offset + c.utf8Size) (Nat.le_refl _)
      simp only [hc, if_true] at hnext ⊢
      omega
    · have hnext := ih { m with width := Margin.widen m.width c } (offset + c.utf8Size) (by simp only; omega)
      simp only [hc] at hnext ⊢
      simp only [Bool.false_eq_true, if_false]
      omega

/-- After a line end the margin is that of a new line. -/
theorem lineStart_lineEnd (h : IsLineEnd text) :
    (m.advance offset text).lineStart = offset + utf8Length text := by
  rcases h with rfl | rfl <;> rfl

/-! ### Walks -/

/-- What lexemes have done on the way from one state to another, with the tokens they brought in. -/
structure Reached (s : LayoutState) (ls : List (Lexeme × List Char)) (ts : List Token) (s' : LayoutState) : Prop where
  offset : s'.offset = s.offset + extent ls
  depth : s'.depth = depthOf s.depth ts
  /-- A line has just begun only if it had at first, or the last token ended one. -/
  start : s'.atLineStart = true → ts = [] ∧ s.atLineStart = true ∨ ∃ t ∈ ts.getLast?, t.kind = .newline
  stops : ∀ t ∈ ts, t.span.stop ≤ s'.offset
  margin : s.margin.lineStart ≤ s.offset →
    s.margin.lineStart ≤ s'.margin.lineStart ∧ s'.margin.lineStart ≤ s'.offset

theorem Reached.refl (s : LayoutState) : Reached s [] [] s where
  offset := rfl
  depth := rfl
  start h := .inl ⟨rfl, h⟩
  stops := by simp
  margin h := ⟨Nat.le_refl _, h⟩

@[simp] theorem depthOf_append (depth : Nat) (ts us : List Token) :
    depthOf depth (ts ++ us) = depthOf (depthOf depth ts) us :=
  foldl_append

theorem Reached.trans {s''} (h : Reached s ls ts s') (h' : Reached s' more us s'') :
    Reached s (ls ++ more) (ts ++ us) s'' where
  offset := by rw [h'.offset, h.offset, extent_append, Nat.add_assoc]
  depth := by rw [h'.depth, h.depth, depthOf_append]
  start hs := by
    rcases h'.start hs with ⟨rfl, hs'⟩ | ⟨t, ht, hkind⟩
    · simpa using h.start hs'
    · refine .inr ⟨t, ?_, hkind⟩
      rw [getLast?_append, Option.mem_def.1 ht]
      rfl
  stops t ht := by
    have hoffset := h'.offset
    rcases mem_append.1 ht with ht | ht
    · have hstop := h.stops t ht
      omega
    · exact h'.stops t ht
  margin hm := by
    obtain ⟨hle, hm⟩ := h.margin hm
    obtain ⟨hle', hm⟩ := h'.margin hm
    exact ⟨Nat.le_trans hle hle', hm⟩

@[simp] theorem depthOf_dedents (depth n : Nat) (span : Span) :
    depthOf depth (List.replicate n ⟨.dedent, span⟩) = depth := by
  induction n with
  | zero => rfl
  | succ n ih => exact ih

theorem reached_after (s : LayoutState) (lexeme : Lexeme) (text : List Char) :
    Reached s [(lexeme, text)] [] (s.after text) where
  offset := by simp [LayoutState.after]
  depth := rfl
  start h := .inl ⟨rfl, h⟩
  stops := by simp
  margin := lineStart_advance s.margin s.offset text

/-- A token with the layout tokens before it. -/
theorem reached_token (margin : List Token) (indents : List Nat) (kind : TokenKind) (text : List Char)
    (hdepth : depthOf s.depth margin = s.depth) (hstops : ∀ t ∈ margin, t.span.stop ≤ s.offset + utf8Length text) :
    Reached s [(.token kind, text)] (margin ++ [⟨kind, s.spanOf source text⟩]) (s.afterToken indents kind text) where
  offset := by simp [LayoutState.afterToken, LayoutState.after]
  depth := by
    rw [depthOf_append, hdepth]
    rfl
  start h := by contradiction
  stops t ht := by
    rcases mem_append.1 ht with ht | ht
    · exact hstops t ht
    · rw [mem_singleton.1 ht]
      exact Nat.le_refl _
  margin := lineStart_advance s.margin s.offset text

/-- What a token that a lexeme brings in is: the lexeme itself, or a layout token at its place. -/
structure Brought (source : Source) (s : LayoutState) (l : Lexeme × List Char) (t : Token) : Prop where
  word : t.kind.isLayout = false → l.1 = .token t.kind ∧ t.span = s.spanOf source l.2
  newline : t.kind = .newline → l.1 = .lineEnd ∧ t.span = s.spanOf source l.2
  start : t.span.start = if t.kind = .indent then s.margin.lineStart else s.offset

theorem brought_word (text : List Char) (h : kind.isLayout = false) :
    Brought source s (.token kind, text) ⟨kind, s.spanOf source text⟩ where
  word _ := ⟨rfl, rfl⟩
  newline hk := absurd hk (ne_newline_of_not_isLayout h)
  start := by
    rw [if_neg]
    · rfl
    · rintro rfl
      contradiction

/-- One lexeme, and what it brings in. -/
theorem Laid.step (h : Laid source s (l :: ls) ts) (hfits : l.1.Fits l.2) :
    ∃ before after s', ts = before ++ after ∧ Reached s [l] before s' ∧ (∀ t ∈ before, Brought source s l t) ∧
      Laid source s' ls after := by
  cases h with
  | blank rest => exact ⟨[], _, _, rfl, reached_after s _ _, by simp, rest⟩
  | idle _ rest => exact ⟨[], _, _, rfl, reached_after s _ _, by simp, rest⟩
  | @newline _ text _ _ _ _ rest =>
    refine ⟨[_], _, _, rfl, ?_, ?_, rest⟩
    · have hafter := reached_after s .lineEnd text
      exact ⟨hafter.offset, rfl, fun _ => .inr ⟨_, rfl, rfl⟩, by simp [LayoutState.spanOf, LayoutState.after],
        hafter.margin⟩
    · intro t ht
      rw [mem_singleton.1 ht]
      exact ⟨fun hk => by contradiction, fun _ => ⟨rfl, rfl⟩, rfl⟩
  | word _ rest =>
    refine ⟨[_], _, _, rfl, reached_token [] s.indents _ _ rfl (by simp), ?_, rest⟩
    intro t ht
    rw [mem_singleton.1 ht]
    exact brought_word _ (Spells.not_isLayout hfits)
  | indent _ _ rest =>
    refine ⟨[_] ++ [_], _, _, rfl, reached_token [_] _ _ _ rfl ?_, ?_, rest⟩
    · intro t ht
      rw [mem_singleton.1 ht]
      exact Nat.le_add_right _ _
    · intro t ht
      rcases mem_append.1 ht with ht | ht
      · rw [mem_singleton.1 ht]
        exact ⟨fun hk => by contradiction, fun hk => by contradiction, rfl⟩
      · rw [mem_singleton.1 ht]
        exact brought_word _ (Spells.not_isLayout hfits)
  | dedent _ _ _ _ rest =>
    refine ⟨_ ++ [_], _, _, by rw [append_assoc]; rfl, reached_token _ _ _ _ (depthOf_dedents _ _ _) ?_, ?_, rest⟩
    · intro t ht
      rw [eq_of_mem_replicate ht]
      exact Nat.le_refl _
    · intro t ht
      rcases mem_append.1 ht with ht | ht
      · rw [eq_of_mem_replicate ht]
        exact ⟨fun hk => by contradiction, fun hk => by contradiction, rfl⟩
      · rw [mem_singleton.1 ht]
        exact brought_word _ (Spells.not_isLayout hfits)

theorem Laid.reach (h : Laid source s (ls ++ more) ts) (hfits : ∀ l ∈ ls, l.1.Fits l.2) :
    ∃ before after s', ts = before ++ after ∧ Reached s ls before s' ∧ Laid source s' more after := by
  induction ls generalizing s ts with
  | nil => exact ⟨[], ts, s, rfl, .refl s, h⟩
  | cons l ls ih =>
    obtain ⟨hl, hfits⟩ := forall_mem_cons.1 hfits
    obtain ⟨first, rest, s₁, rfl, hfirst, -, hrest⟩ := h.step hl
    obtain ⟨before, after, s', rfl, hbefore, hafter⟩ := ih hrest hfits
    exact ⟨first ++ before, after, s', by rw [append_assoc], hfirst.trans hbefore, hafter⟩

/-! ### Where tokens stand -/

theorem Laid.eq_closing (h : Laid source s [] ts) : ts = s.closing source := by
  cases h
  rfl

theorem mem_closing (h : t ∈ s.closing source) :
    t.span = source.endSpan ∧ t.kind.isLayout = true ∧ t.kind ≠ .indent := by
  rcases mem_append.1 h with h | h
  · rcases mem_append.1 h with h | h
    · cases hs : s.atLineStart with
      | true => simp [hs] at h
      | false =>
        obtain rfl : t = ⟨.newline, source.endSpan⟩ := by simpa [hs] using h
        exact ⟨rfl, rfl, by simp⟩
    · rw [eq_of_mem_replicate h]
      exact ⟨rfl, rfl, by simp⟩
  · rw [mem_singleton.1 h]
    exact ⟨rfl, rfl, by simp⟩

/-- Every token starts where the walk is or later. -/
theorem Laid.starts (h : Laid source s ls ts) (hfits : ∀ l ∈ ls, l.1.Fits l.2)
    (hlength : s.offset + extent ls = source.length) (hmargin : s.margin.lineStart ≤ s.offset) :
    ∀ t ∈ ts, s.margin.lineStart ≤ t.span.start ∧ (t.kind ≠ .indent → s.offset ≤ t.span.start) := by
  induction ls generalizing s ts with
  | nil =>
    intro t ht
    rw [h.eq_closing] at ht
    rw [(mem_closing ht).1, Source.endSpan, Source.span_start]
    rw [extent_nil] at hlength
    exact ⟨by omega, fun _ => by omega⟩
  | cons l ls ih =>
    obtain ⟨hl, hfits⟩ := forall_mem_cons.1 hfits
    obtain ⟨first, rest, s', rfl, hreached, hbrought, hrest⟩ := h.step hl
    have hoffset := hreached.offset
    rw [extent_cons] at hoffset hlength
    rw [extent_nil] at hoffset
    obtain ⟨hle, hmargin'⟩ := hreached.margin hmargin
    intro t ht
    rcases mem_append.1 ht with ht | ht
    · rw [(hbrought t ht).start]
      split
      · exact ⟨Nat.le_refl _, fun hk => absurd (by assumption) hk⟩
      · exact ⟨hmargin, fun _ => Nat.le_refl _⟩
    · obtain ⟨hstart, hstart'⟩ := ih hrest hfits (by omega) hmargin' t ht
      refine ⟨by omega, fun hk => ?_⟩
      have hstart' := hstart' hk
      omega

/-- The token takes the text of a lexeme. -/
def Takes (source : Source) (offset : Nat) (ls : List (Lexeme × List Char)) (lexeme : Lexeme) (t : Token) : Prop :=
  ∃ before text after, ls = before ++ (lexeme, text) :: after ∧
    t.span = source.span (offset + extent before) (offset + extent before + utf8Length text)

theorem Takes.head (h : l.1 = lexeme ∧ t.span = s.spanOf source l.2) : Takes source s.offset (l :: ls) lexeme t := by
  obtain ⟨rfl, hspan⟩ := h
  exact ⟨[], l.2, ls, rfl, hspan⟩

theorem Takes.cons {offset} (h : Takes source (offset + utf8Length l.2) ls lexeme t) :
    Takes source offset (l :: ls) lexeme t := by
  obtain ⟨before, text, after, rfl, hspan⟩ := h
  refine ⟨l :: before, text, after, rfl, ?_⟩
  rw [hspan, extent_cons]
  simp only [Nat.add_assoc]

/-- A token that is no layout token takes the text of its lexeme, and a line end that of one, but for the
line end that the end of the text brings in. -/
theorem Laid.takes (h : Laid source s ls ts) (hfits : ∀ l ∈ ls, l.1.Fits l.2) :
    ∀ t ∈ ts, (t.kind.isLayout = false → Takes source s.offset ls (.token t.kind) t) ∧
      (t.kind = .newline → Takes source s.offset ls .lineEnd t ∨ t.span = source.endSpan) := by
  induction ls generalizing s ts with
  | nil =>
    intro t ht
    rw [h.eq_closing] at ht
    obtain ⟨hspan, hlayout, -⟩ := mem_closing ht
    refine ⟨fun hk => ?_, fun _ => .inr hspan⟩
    rw [hlayout] at hk
    contradiction
  | cons l ls ih =>
    obtain ⟨hl, hfits⟩ := forall_mem_cons.1 hfits
    obtain ⟨first, rest, s', rfl, hreached, hbrought, hrest⟩ := h.step hl
    have hoffset : s'.offset = s.offset + utf8Length l.2 := by simpa using hreached.offset
    intro t ht
    rcases mem_append.1 ht with ht | ht
    · exact ⟨fun hk => .head ((hbrought t ht).word hk), fun hk => .inl (.head ((hbrought t ht).newline hk))⟩
    · obtain ⟨hword, hnewline⟩ := ih hrest hfits t ht
      rw [hoffset] at hword hnewline
      exact ⟨fun hk => (hword hk).cons, fun hk => (hnewline hk).imp_left .cons⟩

theorem hasAt_lexeme {before after text}
    (h : lexemes source.text.toList = before ++ (lexeme, text) :: after) :
    source.HasAt (extent before) text (after.flatMap Prod.snd) := by
  refine ⟨before.flatMap Prod.snd, ?_, rfl⟩
  rw [← flatMap_lexemes source.text.toList, h, flatMap_append, flatMap_cons]

/-- The tokens that are no layout tokens. -/
def words (ts : List Token) : List Token := ts.filter (!·.kind.isLayout)

theorem mem_words : t ∈ words ts ↔ t ∈ ts ∧ t.kind.isLayout = false := by
  simp [words]

theorem words_append (ts us : List Token) : words (ts ++ us) = words ts ++ words us := filter_append ..

theorem words_cons_of_word (h : t.kind.isLayout = false) (ts : List Token) : words (t :: ts) = t :: words ts :=
  filter_cons_of_pos (by simp [h])

theorem words_cons_of_layout (h : t.kind.isLayout = true) (ts : List Token) : words (t :: ts) = words ts :=
  filter_cons_of_neg (by simp [h])

theorem words_closing (source : Source) (s : LayoutState) : words (s.closing source) = [] :=
  filter_eq_nil_iff.2 fun t ht => by simp [(mem_closing ht).2.1]

theorem words_dedents (n : Nat) (span : Span) (ts : List Token) :
    words (List.replicate n ⟨.dedent, span⟩ ++ ts) = words ts := by
  induction n with
  | zero => rfl
  | succ n ih => exact ih

theorem ordered_word {indents kind text} (hkind : kind.isLayout = false)
    (h : Laid source (s.afterToken indents kind text) ls ts) (hfits : ∀ l ∈ ls, l.1.Fits l.2)
    (ih : (words ts).Pairwise (·.span.stop ≤ ·.span.start)) :
    (words (⟨kind, s.spanOf source text⟩ :: ts)).Pairwise (·.span.stop ≤ ·.span.start) := by
  rw [words_cons_of_word (t := ⟨kind, _⟩) hkind]
  refine pairwise_cons.2 ⟨fun t ht => ?_, ih⟩
  obtain ⟨ht, hk⟩ := mem_words.1 ht
  obtain ⟨before, text', after, -, hspan⟩ := (h.takes hfits t ht).1 hk
  rw [hspan]
  exact Nat.le_add_right _ _

theorem Laid.ordered (h : Laid source s ls ts) (hfits : ∀ l ∈ ls, l.1.Fits l.2) :
    (words ts).Pairwise (·.span.stop ≤ ·.span.start) := by
  induction h with
  | stop s =>
    rw [words_closing]
    exact .nil
  | blank _ ih => exact ih (forall_mem_cons.1 hfits).2
  | idle _ _ ih => exact ih (forall_mem_cons.1 hfits).2
  | newline _ _ _ ih => exact ih (forall_mem_cons.1 hfits).2
  | word _ rest ih =>
    obtain ⟨hkind, hfits⟩ := forall_fits_token hfits
    exact ordered_word hkind rest hfits (ih hfits)
  | indent _ _ rest ih =>
    obtain ⟨hkind, hfits⟩ := forall_fits_token hfits
    exact ordered_word hkind rest hfits (ih hfits)
  | dedent _ _ _ _ rest ih =>
    obtain ⟨hkind, hfits⟩ := forall_fits_token hfits
    rw [words_dedents]
    exact ordered_word hkind rest hfits (ih hfits)

/-! ### What stands outside the tokens -/

/-- No token but the margin of a block reaches into the stretch. -/
def Clear (tokens : List Token) (start stop : Nat) : Prop :=
  ∀ t ∈ tokens, t.kind ≠ .indent → t.span.stop ≤ start ∨ stop ≤ t.span.start

/-- It stands in brackets, or on a line without a token. -/
def EndsNoLine (tokens : List Token) (start stop : Nat) : Prop :=
  ∃ before after, tokens = before ++ after ∧ (∀ t ∈ before, t.span.stop ≤ start) ∧ (∀ t ∈ after, stop ≤ t.span.start) ∧
    (depthOf 0 before ≠ 0 ∨ before = [] ∨ ∃ t ∈ before.getLast?, t.kind = .newline)

/-- Some text that stands for no token. -/
def IsGap (tokens : List Token) (start : Nat) (text : List Char) : Prop :=
  Clear tokens start (start + utf8Length text) ∧
    (IsSkipped text ∨ IsLineEnd text ∧ EndsNoLine tokens start (start + utf8Length text))

theorem exists_lexeme_at {i} (h : i < extent ls) :
    ∃ before lexeme text after, ls = before ++ (lexeme, text) :: after ∧ extent before ≤ i ∧
      i < extent before + utf8Length text := by
  induction ls generalizing i with
  | nil => simp at h
  | cons l ls ih =>
    rw [extent_cons] at h
    by_cases hi : i < utf8Length l.2
    · exact ⟨[], l.1, l.2, ls, rfl, Nat.zero_le _, by simpa using hi⟩
    · obtain ⟨before, lexeme, text, after, rfl, hle, hlt⟩ := ih (i := i - utf8Length l.2) (by omega)
      refine ⟨l :: before, lexeme, text, after, rfl, ?_, ?_⟩ <;> rw [extent_cons] <;> omega

theorem clear_after (hstops : ∀ t ∈ ts, t.span.stop ≤ s.offset)
    (hstarts : ∀ t ∈ us, t.kind ≠ .indent → (s.after text).offset ≤ t.span.start) :
    Clear (ts ++ us) s.offset (s.offset + utf8Length text) := by
  intro t ht hk
  rcases mem_append.1 ht with ht | ht
  · exact .inl (hstops t ht)
  · exact .inr (hstarts t ht hk)

/-- What a lexeme is for the bytes it takes. -/
theorem covers_lexeme {tokens before after text}
    (h : Laid source {} (before ++ (lexeme, text) :: after) tokens)
    (hfits : ∀ l ∈ before ++ (lexeme, text) :: after, l.1.Fits l.2)
    (hlength : extent (before ++ (lexeme, text) :: after) = source.length) :
    (∃ t ∈ tokens, (t.kind.isLayout = false ∨ t.kind = .newline) ∧
      t.span = source.span (extent before) (extent before + utf8Length text)) ∨
    IsGap tokens (extent before) text := by
  obtain ⟨hbefore, hfits⟩ := forall_mem_append.1 hfits
  obtain ⟨hfit, hafter⟩ := forall_mem_cons.1 hfits
  obtain ⟨ts, us, s, rfl, hreached, hlaid⟩ := h.reach hbefore
  have hoffset : s.offset = extent before := by simpa using hreached.offset
  have hmargin := (lineStart_advance s.margin s.offset text (hreached.margin (Nat.le_refl _)).2).2
  have hrest : (s.after text).offset + extent after = source.length := by
    simp only [extent_append, extent_cons] at hlength
    simp only [LayoutState.after]
    omega
  rw [← hoffset]
  cases hlaid with
  | blank rest =>
    have hstarts := rest.starts hafter hrest hmargin
    exact .inr ⟨clear_after hreached.stops fun t ht => (hstarts t ht).2, .inl hfit⟩
  | idle idle rest =>
    have hstarts := rest.starts hafter hrest hmargin
    have hclear := clear_after hreached.stops fun t ht => (hstarts t ht).2
    refine .inr ⟨hclear, .inr ⟨hfit, ts, us, rfl, hreached.stops, ?_, ?_⟩⟩
    · -- a new line starts here, so that the margin of a block comes later too
      have hline : (s.after text).margin.lineStart = s.offset + utf8Length text := lineStart_lineEnd _ _ hfit
      intro t ht
      rw [← hline]
      exact (hstarts t ht).1
    · rcases idle with hdepth | hstart
      · exact .inl (hreached.depth ▸ hdepth)
      · exact .inr ((hreached.start hstart).imp_left And.left)
  | newline _ _ rest => exact .inl ⟨_, mem_append_right _ (mem_cons_self ..), .inr rfl, rfl⟩
  | word _ rest =>
    exact .inl ⟨_, mem_append_right _ (mem_cons_self ..), .inl (Spells.not_isLayout hfit), rfl⟩
  | indent _ _ rest =>
    refine .inl ⟨_, mem_append_right _ (mem_cons_of_mem _ (mem_cons_self ..)), .inl ?_, rfl⟩
    exact Spells.not_isLayout hfit
  | dedent _ _ _ _ rest =>
    refine .inl ⟨_, mem_append_right _ (mem_append_right _ (mem_cons_self ..)), .inl ?_, rfl⟩
    exact Spells.not_isLayout hfit

/-- The token stands where its span says, is spelled there, and is the longest that is. -/
def IsSpelledAt (source : Source) (t : Token) : Prop :=
  ∃ text rest, source.HasAt t.span.start text rest ∧ t.span = source.span t.span.start (t.span.start + utf8Length text) ∧
    LongestMatch (text ++ rest) t.kind text

theorem IsSpelledAt.in_bounds (h : IsSpelledAt source t) :
    t.span.start < t.span.stop ∧ t.span.stop ≤ source.length := by
  obtain ⟨text, rest, hat, hspan, hmatch⟩ := h
  have hstop : t.span.stop = t.span.start + utf8Length text := by
    rw [hspan, Source.span_start, Source.span_stop]
  have hpos := Text.utf8Length_pos hmatch.spells.ne_nil
  have hle := hat.le_length
  omega

theorem Takes.hasAt (h : Takes source 0 (lexemes source.text.toList) lexeme t) :
    ∃ before text after, lexemes source.text.toList = before ++ (lexeme, text) :: after ∧
      source.HasAt t.span.start text (after.flatMap Prod.snd) ∧
      t.span = source.span t.span.start (t.span.start + utf8Length text) := by
  obtain ⟨before, text, after, hls, hspan⟩ := h
  rw [Nat.zero_add] at hspan
  have hstart : t.span.start = extent before := by rw [hspan, Source.span_start]
  refine ⟨before, text, after, hls, ?_, ?_⟩
  · rw [hstart]
    exact hasAt_lexeme hls
  · rw [hstart, hspan]

theorem Takes.isSpelledAt (h : Takes source 0 (lexemes source.text.toList) (.token t.kind) t) :
    IsSpelledAt source t := by
  obtain ⟨before, text, after, hls, hat, hspan⟩ := h.hasAt
  exact ⟨text, after.flatMap Prod.snd, hat, hspan, longestMatch_lexemes hls⟩

theorem Takes.isLineEnd (h : Takes source 0 (lexemes source.text.toList) .lineEnd t) :
    ∃ text rest, source.HasAt t.span.start text rest ∧ IsLineEnd text ∧
      t.span = source.span t.span.start (t.span.start + utf8Length text) := by
  obtain ⟨before, text, after, hls, hat, hspan⟩ := h.hasAt
  exact ⟨text, _, hat, fits_lexemes source.text.toList (.lineEnd, text) (by simp [hls]), hspan⟩

/-- Each token is spelled at its place, and the tokens follow one another. -/
theorem words_of_tokenize {tokens} (h : tokenize source = .ok tokens) :
    (∀ t ∈ words tokens, IsSpelledAt source t) ∧ (words tokens).Pairwise (fun a b => a.span.stop ≤ b.span.start) := by
  have hlaid := laid_of_tokenize h
  have hfits := fits_lexemes source.text.toList
  refine ⟨fun t ht => ?_, hlaid.ordered hfits⟩
  obtain ⟨ht, hk⟩ := mem_words.1 ht
  exact ((hlaid.takes hfits t ht).1 hk).isSpelledAt

/-- Each token is spelled at its place, and is the longest token there; tokens are not empty, lie in the
text and follow one another; line ends are line ends of the text; and every other byte belongs to
text that stands for nothing. -/
theorem tokens_cover_text {source : Source} {tokens : List Token} (h : tokenize source = .ok tokens) :
    (∀ t ∈ words tokens, IsSpelledAt source t ∧ t.span.start < t.span.stop ∧ t.span.stop ≤ source.length) ∧
    (words tokens).Pairwise (fun a b => a.span.stop ≤ b.span.start) ∧
    (∀ t ∈ tokens, t.kind = .newline → t.span = source.endSpan ∨
      ∃ text rest, source.HasAt t.span.start text rest ∧ IsLineEnd text ∧
        t.span = source.span t.span.start (t.span.start + utf8Length text)) ∧
    ∀ i < source.length,
      (∃ t ∈ tokens, (t.kind.isLayout = false ∨ t.kind = .newline) ∧ t.span.start ≤ i ∧ i < t.span.stop) ∨
      ∃ start text rest, source.HasAt start text rest ∧ IsGap tokens start text ∧ start ≤ i ∧
        i < start + utf8Length text := by
  have hlaid := laid_of_tokenize h
  have hfits := fits_lexemes source.text.toList
  have hlength : extent (lexemes source.text.toList) = source.length := by
    rw [extent, flatMap_lexemes, Source.length_eq]
  obtain ⟨hspelled, hordered⟩ := words_of_tokenize h
  refine ⟨fun t ht => ⟨hspelled t ht, (hspelled t ht).in_bounds⟩, hordered, fun t ht hk => ?_, fun i hi => ?_⟩
  · rcases (hlaid.takes hfits t ht).2 hk with htakes | hend
    · exact .inr htakes.isLineEnd
    · exact .inl hend
  · rw [← hlength] at hi
    obtain ⟨before, lexeme, text, after, hls, hle, hlt⟩ := exists_lexeme_at hi
    have hat := hasAt_lexeme hls
    rw [hls] at hlaid hfits hlength
    rcases covers_lexeme hlaid hfits hlength with ⟨t, ht, hk, hspan⟩ | hgap
    · exact .inl ⟨t, ht, hk, by rw [hspan]; exact hle, by rw [hspan]; exact hlt⟩
    · exact .inr ⟨extent before, text, _, hat, hgap, hle, hlt⟩

/-- A call over two lines, with a comment after the first. -/
def splitCall : Source := .ofText ⟨"m.py"⟩ "f(  # a\n1)\n"

def splitCallTokens : List Token :=
  [⟨.ident "f", splitCall.span 0 1⟩, ⟨.symbol .leftParen, splitCall.span 1 2⟩, ⟨.int "1", splitCall.span 8 9⟩,
    ⟨.symbol .rightParen, splitCall.span 9 10⟩, ⟨.newline, splitCall.span 10 11⟩, ⟨.eof, splitCall.endSpan⟩]

theorem tokenize_splitCall : tokenize splitCall = .ok splitCallTokens :=
  eq_ok_of_toOption (by decide +kernel)

theorem tokens_cover_text_splitCall :
    tokenize splitCall = .ok splitCallTokens ∧ (∀ t ∈ words splitCallTokens, IsSpelledAt splitCall t) ∧
      (words splitCallTokens).Pairwise (fun a b => a.span.stop ≤ b.span.start) ∧
      -- the line end in the brackets
      ∃ start text rest, splitCall.HasAt start text rest ∧ IsGap splitCallTokens start text ∧ start ≤ 7 ∧
        7 < start + utf8Length text := by
  obtain ⟨hspelled, hordered, -, hcovered⟩ := tokens_cover_text tokenize_splitCall
  refine ⟨tokenize_splitCall, fun t ht => (hspelled t ht).1, hordered, ?_⟩
  exact (hcovered 7 (by decide)).resolve_left (by decide)

end Token

end TypeInfer
