/-
Blank lines and lines with a comment alone are invisible. At the start of a line outside of
strings, what was read so far does not depend on what comes next (`lexemes_append`), and
such a line leaves the layout as it was (`layout_skipped`).
-/
import TypeInfer.Proofs.OnLine

namespace TypeInfer.Token

open List

variable {c quote : Char} {cs w x y text before after : List Char} {kind : TokenKind} {lexeme : Lexeme}
  {ls more : List (Lexeme × List Char)}

def Lexeme.isFault : Lexeme → Bool
  | .unterminated | .stray => true
  | _ => false

/-- A line starts after `before`, outside of strings, and no backslash takes the line end before it
away. -/
structure FreshLine (before after : List Char) : Prop where
  start : before = [] ∨ before.getLast? = some '\n'
  outside : ∀ ls value isBytes text more,
    lexemes (before ++ after) = ls ++ (.token (.str value isBytes), text) :: more →
      before.length ≤ (ls.flatMap Prod.snd).length ∨ (ls.flatMap Prod.snd ++ text).length ≤ before.length
  ended : ∀ ls text more, lexemes (before ++ after) = ls ++ (.blank, text) :: more → IsContinuation text →
    before ≠ ls.flatMap Prod.snd ++ text

/-! ### Line feeds in lexemes -/

theorem IsNumber.on_line (h : IsNumber text) : ∀ c ∈ text, isLineEnd c = false := by
  have hle := length_le_number h (prefix_refl text)
  rw [← number_lineOf] at hle
  have hline : lineOf text = text :=
    ( takeWhile_prefix _).eq_of_length_le (Nat.le_trans hle (number_starts (lineOf text)).length_le)
  intro c hc
  rw [← hline] at hc
  simpa using all_eq_true.1 all_takeWhile c hc

theorem IsWord.on_line (h : IsWord text) : ∀ c ∈ text, isLineEnd c = false :=
  fun c hc => not_isLineEnd (p := isWordChar) rfl rfl (h.all c hc)

theorem IsMark.on_line (h : IsMark text) : ∀ c ∈ text, isLineEnd c = false := by
  obtain ⟨kind, h⟩ := h
  simpa using all_eq_true.1 marks_on_line _ h

/-- Only strings go over several lines. -/
theorem Spells.on_line (h : Spells kind text) (hkind : ∀ value isBytes, kind ≠ .str value isBytes) :
    ∀ c ∈ text, isLineEnd c = false := by
  cases h with
  | str => exact absurd rfl (hkind _ _)
  | keyword word => exact (isWord_keyword word).on_line
  | ident h => exact h.on_line
  | based h => exact IsNumber.on_line (.inl h)
  | int h => exact IsNumber.on_line (.inr ⟨text, [], [], [], by simp, .inl ⟨h, .inl rfl⟩, .inl rfl, .inl rfl⟩)
  | float hmantissa hexponent =>
    exact IsNumber.on_line (.inr ⟨_, _, _, [], by simp, hmantissa, hexponent, .inl rfl⟩)
  | imaginary hmantissa hexponent hunit =>
    exact IsNumber.on_line (.inr ⟨_, _, _, _, rfl, hmantissa, hexponent, .inr ⟨_, rfl, hunit⟩⟩)
  | symbol mark => exact (isMark_symbol mark).on_line
  | augAssign op => exact (isMark_augAssign op).on_line

/-- The last character of a string is its quote. -/
theorem getLast?_of_spells_str {value isBytes} (h : Spells (.str value isBytes) text) :
    text.getLast? ≠ some '\n' := by
  cases h with
  | str hmarks hquote hquoted =>
    have hfeed : _ ≠ '\n' := quote_ne_feed hquote
    cases hquoted <;> simpa [getLast?_append, getLast?_cons] using hfeed

theorem IsLineEnd.feed (h : IsLineEnd (x ++ '\n' :: y)) : y = [] := by
  rcases h with h | h <;> rcases x with _ | ⟨a, _ | ⟨b, x⟩⟩ <;> simp_all

/-- A line feed is the last character of a line end or a continuation, or it stands within a
string. -/
theorem Lexeme.Fits.feed (h : lexeme.Fits (x ++ '\n' :: y)) (hfault : lexeme.isFault = false) :
    (lexeme = .lineEnd ∨ lexeme = .blank ∧ IsContinuation (x ++ '\n' :: y)) ∧ y = [] ∨
      (∃ value isBytes, lexeme = .token (.str value isBytes)) ∧ y ≠ [] := by
  have hmem : '\n' ∈ x ++ '\n' :: y := by simp
  cases lexeme with
  | blank =>
    rcases h with h | ⟨cs, heq, h⟩ | ⟨cs, heq, h⟩
    · exact absurd (h _ hmem) (by decide)
    · rw [heq] at hmem
      exact absurd (h _ ((mem_cons.1 hmem).resolve_left (by decide))) (by decide)
    · refine .inl ⟨.inr ⟨rfl, cs, heq, h⟩, ?_⟩
      cases x with
      | nil => exact absurd (List.cons.inj heq).1 (by decide)
      | cons d x => exact IsLineEnd.feed ((List.cons.inj heq).2 ▸ h)
  | lineEnd => exact .inl ⟨.inl rfl, IsLineEnd.feed h⟩
  | token kind =>
    by_cases hkind : ∃ value isBytes, kind = .str value isBytes
    · obtain ⟨value, isBytes, rfl⟩ := hkind
      refine .inr ⟨⟨value, isBytes, rfl⟩, ?_⟩
      rintro rfl
      exact absurd (getLast?_of_spells_str h) (by simp)
    · have hline := Spells.on_line h (fun value isBytes heq => hkind ⟨value, isBytes, heq⟩) _ hmem
      contradiction
  | unterminated => contradiction
  | stray => contradiction

/-! ### What comes after a line -/

theorem lineOf_feed (w y z : List Char) : lineOf (w ++ '\n' :: z) = lineOf (w ++ '\n' :: y) := by
  induction w with
  | nil => rfl
  | cons c w ih =>
    cases hc : isLineEnd c with
    | true => rw [cons_append, cons_append, lineOf_of_isLineEnd hc, lineOf_of_isLineEnd hc]
    | false => rw [cons_append, cons_append, lineOf_cons hc, lineOf_cons hc, ih]

theorem prefix_feed (h : x <+: w ++ '\n' :: y) (hlength : x.length ≤ w.length + 1) (z : List Char) :
    x <+: w ++ '\n' :: z := by
  have hline : x <+: w ++ ['\n'] :=
    prefix_of_prefix_length_le h ⟨y, by simp⟩ (by simpa using hlength)
  exact hline.trans ⟨z, by simp⟩

section

variable {marks : List Char} {n : Nat}

/-- A string that ends before a line feed is read whatever comes after it. -/
theorem string_feed {value isBytes} (hmarks : IsMarks marks) (hquote : isQuote quote)
    (h : string marks quote (w ++ '\n' :: y) = (.token (.str value isBytes), n))
    (hn : n ≤ marks.length + w.length + 2) (z : List Char) :
    string marks quote (w ++ '\n' :: z) = (.token (.str value isBytes), n) := by
  have hon : ∀ c ∈ [quote, quote], isLineEnd c = false := by
    simpa using not_isLineEnd (p := isQuote) rfl rfl hquote
  have hopens : [quote, quote] <+: w ++ '\n' :: z ↔ [quote, quote] <+: w ++ '\n' :: y := by
    rw [← prefix_lineOf hon, lineOf_feed w y z, prefix_lineOf hon]
  simp only [string, isPrefixOf_iff_prefix, hopens] at h ⊢
  split at h
  · rename_i hopen
    rw [if_pos hopen]
    cases hbody : blockBody? quote ((w ++ '\n' :: y).drop 2) with
    | none => simp [hbody] at h
    | some body =>
      rw [hbody] at h
      obtain ⟨rfl, rfl, rfl⟩ : String.ofList body = value ∧ _ = isBytes ∧ marks.length + body.length + 6 = n := by
        simpa [and_assoc] using h
      have hstart : _ <+: quote :: (w ++ '\n' :: z) := prefix_feed (w := quote :: w) (takenAsString_block hmarks hquote hopen hbody).starts
        (by simp only [length_cons, length_append, length_nil]; omega) z
      rw [(blockBody?_of_starts hquote (isBlockBody_of_blockBody? hbody).1 hstart).2]
  · rename_i hopen
    rw [if_neg hopen]
    split at h
    · rename_i hclose
      obtain ⟨rfl, rfl, rfl⟩ : _ = value ∧ _ = isBytes ∧ marks.length + (lineBody quote (w ++ '\n' :: y)).length + 2 = n := by
        simpa [and_assoc] using h
      have htaken := takenAsString_line hmarks hquote (mt isPrefixOf_iff_prefix.1 hopen) (eq_of_beq hclose)
      have hstart : _ <+: quote :: (w ++ '\n' :: z) := prefix_feed (w := quote :: w) htaken.starts
        (by simp only [length_cons, length_append, length_nil]; omega) z
      obtain ⟨hbody, hclose⟩ := lineBody_of_starts hquote (isLineBody_lineBody quote (w ++ '\n' :: y)).1 hstart
      rw [hbody, hclose, if_pos (beq_self_eq_true _)]
    · split at h <;> simp at h

/-- Marks before a quote that opens nothing are a word, and what follows them is no token. -/
theorem string_cases_token (h : string marks quote cs = (.token kind, n)) :
    (∃ value isBytes, kind = .str value isBytes) ∨
      n = marks.length ∧ ∃ m, string [] quote cs = (.unterminated, m) := by
  simp only [string] at h ⊢
  split at h
  · split at h
    · exact .inl ⟨_, _, by simpa [eq_comm] using (Prod.mk.inj h).1⟩
    · simp at h
  · rename_i hopen
    split at h
    · exact .inl ⟨_, _, by simpa [eq_comm] using (Prod.mk.inj h).1⟩
    · rename_i hclose
      split at h
      · exact .inr ⟨(Prod.mk.inj h).2.symm, _, by rw [if_neg hopen, if_neg hclose, if_neg (by simp)]⟩
      · simp at h

/-- Where a text without line ends is read off a text, the first line feed comes after it. -/
theorem exists_feed {z} (hx : ∀ c ∈ x, isLineEnd c = false) (h : x ++ z = w ++ '\n' :: y) :
    ∃ v, w = x ++ v ∧ z = v ++ '\n' :: y := by
  rcases append_eq_append_iff.1 h with ⟨v, hw, hz⟩ | ⟨v, hv, hz⟩
  · exact ⟨v, hw, hz⟩
  · cases v with
    | nil => exact ⟨[], by simpa using hv.symm, by simpa using hz.symm⟩
    | cons d v =>
      obtain ⟨rfl, -⟩ := List.cons.inj hz
      exact absurd (hx '\n' (by simp [hv])) (by decide)

theorem scan_slash_feed (w y z : List Char) : scan '\\' (w ++ '\n' :: z) = scan '\\' (w ++ '\n' :: y) := by
  rcases w with _ | ⟨d, w⟩
  · rfl
  by_cases hd : d = '\n'
  · rw [hd]
    rfl
  by_cases hd' : d = '\r'
  · subst hd'
    rcases w with _ | ⟨e, w⟩
    · rfl
    by_cases he : e = '\n'
    · rw [he]
      rfl
    · simp [scan, isBlank, he]
  · simp [scan, isBlank, hd, hd']

/-- A lexeme that ends before a line feed is read whatever comes after it, where no fault is. -/
theorem scan_feed (hscan : scan c (w ++ '\n' :: y) = (lexeme, n)) (hn : n ≤ w.length + 2)
    (hfault : lexeme.isFault = false) (hnext : ∀ l ∈ lexemes ((w ++ '\n' :: y).drop (n - 1)), l.1.isFault = false)
    (z : List Char) : scan c (w ++ '\n' :: z) = (lexeme, n) := by
  by_cases hc : isLineEnd c
  · rw [← hscan]
    rcases Bool.or_eq_true_iff.1 hc with hc | hc <;> obtain rfl := eq_of_beq hc
    · rfl
    · cases w <;> rfl
  by_cases hslash : c = '\\'
  · rw [hslash] at hscan ⊢
    rw [← hscan, scan_slash_feed]
  cases hstring : stringStart? (c :: (w ++ '\n' :: y)) with
  | none => exact hscan ▸ scan_eq_of_lineOf (by simpa using hc) hslash hstring (lineOf_feed w y z)
  | some found =>
    obtain ⟨marks, quote, rest⟩ := found
    obtain ⟨heq, hmarks, hquote⟩ := stringStart?_eq_some hstring
    obtain ⟨v, hv, rfl⟩ : ∃ v, c :: w = marks ++ [quote] ++ v ∧ rest = v ++ '\n' :: y :=
      exists_feed (on_line_of_isMarks hmarks hquote) (by simpa using heq.symm)
    have hlength : w.length + 1 = marks.length + (v.length + 1) := by simpa using congrArg List.length hv
    have hstring' : stringStart? (c :: (w ++ '\n' :: z)) = some (marks, quote, v ++ '\n' :: z) := by
      rw [← cons_append, hv, append_assoc, append_assoc, singleton_append,
        stringStart?_append hmarks hquote]
    have hpos : 0 < n := by simpa [hscan] using (length_scan c (w ++ '\n' :: y)).1
    rw [scan_of_stringStart? hstring] at hscan
    rw [scan_of_stringStart? hstring']
    rcases string_cases marks quote (v ++ '\n' :: y) with ⟨kind, m, h⟩ | ⟨m, h⟩
    · obtain ⟨rfl, rfl⟩ := Prod.mk.inj (hscan.symm.trans h)
      rcases string_cases_token h with ⟨value, isBytes, rfl⟩ | ⟨hmarks', m, hopens⟩
      · exact string_feed hmarks hquote h (by omega) z
      · -- the quote after the marks opens no string
        obtain ⟨d, marks, rfl⟩ : ∃ d ds, marks = d :: ds := exists_cons_of_ne_nil (by rintro rfl; simp_all)
        have hdrop : (w ++ '\n' :: y).drop (n - 1) = quote :: (v ++ '\n' :: y) := by
          simp [(List.cons.inj heq).2, hmarks']
        have hstart : stringStart? ([] ++ quote :: (v ++ '\n' :: y)) = _ :=
          stringStart?_append ⟨by simp, by simp⟩ hquote _
        rw [hdrop, lexemes, scan_of_stringStart? hstart, hopens] at hnext
        exact absurd (hnext _ (mem_cons_self ..)) (by simp [Lexeme.isFault])
    · obtain ⟨rfl, -⟩ := Prod.mk.inj (hscan.symm.trans h)
      contradiction

end

theorem lexemes_of_scan (h : scan c (x ++ y) = (lexeme, x.length + 1)) :
    lexemes (c :: (x ++ y)) = (lexeme, c :: x) :: lexemes y := by
  rw [lexemes, h]
  simp only [Nat.add_sub_cancel, take_left, drop_left]

theorem exists_scan_of_lexemes {l} (h : lexemes cs = l :: ls) :
    ∃ c x y, cs = c :: (x ++ y) ∧ scan c (x ++ y) = (l.1, x.length + 1) ∧ l.2 = c :: x ∧ lexemes y = ls := by
  cases cs with
  | nil =>
    rw [lexemes] at h
    contradiction
  | cons c cs =>
    obtain ⟨hpos, hle⟩ := length_scan c cs
    cases hscan : scan c cs with
    | mk lexeme n =>
      rw [hscan] at hpos hle
      rw [lexemes, hscan] at h
      obtain ⟨rfl, hrest⟩ := List.cons.inj h
      refine ⟨c, _, _, congrArg _ (take_append_drop (n - 1) cs).symm, ?_, rfl, hrest⟩
      rw [take_append_drop, hscan, length_take_of_le (Nat.sub_le_of_le_add hle), Nat.sub_add_cancel hpos]

/-- What is read before the start of a line does not depend on what comes after. -/
theorem lexemes_append (h : lexemes (x ++ y) = ls ++ more) (hls : ls.flatMap Prod.snd = x)
    (hx : x = [] ∨ x.getLast? = some '\n') (hfault : ∀ l ∈ lexemes (x ++ y), l.1.isFault = false) (z : List Char) :
    lexemes (x ++ z) = ls ++ lexemes z := by
  induction ls generalizing x with
  | nil =>
    obtain rfl : [] = x := hls
    rfl
  | cons l ls ih =>
    rw [h] at hfault
    obtain ⟨hlexeme, hfault⟩ := forall_mem_cons.1 hfault
    obtain ⟨c, t, r, hcs, hscan, hl, hrest⟩ := exists_scan_of_lexemes h
    rw [flatMap_cons, hl] at hls
    subst hls
    generalize hv : ls.flatMap Prod.snd = v at *
    obtain rfl : v ++ y = r := by simpa using hcs
    have hv' : v = [] ∨ v.getLast? = some '\n' := by
      rcases eq_nil_or_concat v with rfl | ⟨w, d, rfl⟩
      · exact .inl rfl
      · exact .inr (by simpa [getLast?_cons] using hx)
    have hread : scan c (t ++ (v ++ z)) = (l.1, t.length + 1) := by
      rcases eq_nil_or_concat (t ++ v) with hnil | ⟨w, d, hw⟩
      · obtain ⟨rfl, rfl⟩ := append_eq_nil_iff.1 hnil
        obtain rfl : c = '\n' := by simpa using hx
        exact hscan
      · rw [cons_append, hw] at hx
        obtain rfl : d = '\n' := by simpa [getLast?_cons] using hx
        have hlength : t.length + v.length = w.length + 1 := by simpa using congrArg List.length hw
        have htext (z : List Char) : t ++ (v ++ z) = w ++ '\n' :: z := by rw [← append_assoc, hw]; simp
        rw [htext] at hscan ⊢
        refine scan_feed hscan (by omega) hlexeme ?_ z
        rw [Nat.add_sub_cancel, ← htext, drop_left, hrest]
        exact hfault
    rw [append_assoc, cons_append, lexemes_of_scan hread, ih hrest rfl hv' (hrest ▸ hfault), ← hl]
    rfl

/-! ### The start of a line -/

theorem exists_lexeme_of_flatMap (h : ls.flatMap Prod.snd = x ++ c :: y) :
    ∃ a l d u v, ls = a ++ l :: d ∧ l.2 = u ++ c :: v ∧ x = a.flatMap Prod.snd ++ u := by
  induction ls generalizing x with
  | nil => simp at h
  | cons l ls ih =>
    rw [flatMap_cons] at h
    rcases append_eq_append_iff.1 h with ⟨x', rfl, hrest⟩ | ⟨v, hv, hrest⟩
    · obtain ⟨a, l', d, u, v, rfl, hu, rfl⟩ := ih hrest
      exact ⟨l :: a, l', d, u, v, rfl, hu, by simp⟩
    · cases v with
      | nil =>
        obtain ⟨a, l', d, u, v, rfl, hu, hx⟩ := ih (x := []) hrest.symm
        exact ⟨l :: a, l', d, u, v, rfl, hu, by simpa [← hx] using hv.symm⟩
      | cons d v =>
        obtain ⟨rfl, -⟩ := List.cons.inj hrest
        exact ⟨[], l, ls, x, v, rfl, hv, rfl⟩

/-- The lexemes before a line that starts there end with a line end. -/
theorem FreshLine.exists_lexemes (h : FreshLine before after)
    (hfault : ∀ l ∈ lexemes (before ++ after), l.1.isFault = false) :
    ∃ ls more, lexemes (before ++ after) = ls ++ more ∧ ls.flatMap Prod.snd = before ∧
      (ls = [] ∨ ∃ ls' text, ls = ls' ++ [(.lineEnd, text)] ∧ IsLineEnd text) := by
  rcases h.start with rfl | hlast
  · exact ⟨[], _, rfl, rfl, .inl rfl⟩
  obtain ⟨b, rfl⟩ : ∃ b, before = b ++ ['\n'] := getLast?_eq_some_iff.1 hlast
  have htext : (lexemes (b ++ ['\n'] ++ after)).flatMap Prod.snd = b ++ '\n' :: after := by simp [flatMap_lexemes]
  obtain ⟨a, ⟨lexeme, text⟩, d, u, v, hls, rfl, rfl⟩ := exists_lexeme_of_flatMap htext
  have hmem : (lexeme, u ++ '\n' :: v) ∈ lexemes (a.flatMap Prod.snd ++ u ++ ['\n'] ++ after) :=
    hls ▸ mem_append_right _ (mem_cons_self ..)
  have hfits := fits_lexemes _ _ hmem
  rcases hfits.feed (hfault _ hmem) with ⟨rfl | ⟨rfl, hcontinued⟩, rfl⟩ | ⟨⟨value, isBytes, rfl⟩, hv⟩
  · exact ⟨a ++ [(.lineEnd, u ++ ['\n'])], d, by rw [hls]; simp, by simp, .inr ⟨a, _, rfl, hfits⟩⟩
  · exact absurd (by simp) (h.ended _ _ _ hls hcontinued)
  · rcases h.outside _ _ _ _ _ hls with hle | hle
    · simp only [length_append, length_cons, length_nil] at hle
      omega
    · refine absurd (length_eq_zero_iff.1 ?_) hv
      simp only [length_append, length_cons, length_nil] at hle
      omega

/-! ### Layout -/

section

variable {source source' : Source} {s t : LayoutState}

theorem Laid.no_fault {ts : List Token} (h : Laid source s ls ts) : ∀ l ∈ ls, l.1.isFault = false := by
  induction h with
  | stop => exact forall_mem_nil _
  | blank _ ih | idle _ _ ih | newline _ _ _ ih | word _ _ ih | indent _ _ _ ih | dedent _ _ _ _ _ ih =>
    exact forall_mem_cons.2 ⟨rfl, ih⟩

theorem width_advance (m m' : Margin) (i i' : Nat) (text : List Char) (h : m.width = m'.width) :
    (m.advance i text).width = (m'.advance i' text).width := by
  induction text generalizing m m' i i' with
  | nil => exact h
  | cons c text ih => exact ih _ _ _ _ (by split <;> simp [h])

theorem recasts_id : Recasts id id := ⟨fun _ _ => rfl, fun _ _ => rfl, width_advance⟩

theorem Lexeme.map_id (lexeme : Lexeme) : lexeme.map id = lexeme := by
  cases lexeme <;> rfl

/-- Where a line end says nothing, a blank line leaves the layout of the next line as it was. -/
theorem layout_skipped (hdepth : s.depth = t.depth) (hstart : s.atLineStart = t.atLineStart)
    (hindents : s.indents = t.indents) (hwidth : t.margin.width = 0) (hidle : t.depth = 0 → t.atLineStart = true)
    {skipped : List (Lexeme × List Char)} (hskipped : ∀ l ∈ skipped, l.1 = .blank) :
    (layout source s (skipped ++ (.lineEnd, ['\n']) :: more)).map kindOf? = (layout source' t more).map kindOf? := by
  induction skipped generalizing s with
  | nil =>
    have hsilent : (s.depth = 0 && !s.atLineStart) = false := by
      rw [hdepth, hstart]
      by_cases h : t.depth = 0 <;> simp [h, hidle]
    have halike : Alike (layoutStep source s .lineEnd ['\n']).1 t := by
      simp only [layoutStep, hsilent]
      exact ⟨hwidth.symm, hdepth, hstart, hindents⟩
    have hlayout := @Alike.layout id id source source' _ _ halike recasts_id more
    simpa [layout, layoutStep, hsilent, Lexeme.map_id] using hlayout
  | cons l skipped ih =>
    obtain ⟨lexeme, text⟩ := l
    obtain ⟨rfl, hrest⟩ : lexeme = .blank ∧ ∀ l ∈ skipped, l.1 = .blank := forall_mem_cons.1 hskipped
    exact ih (s := (layoutStep source s .blank text).1) hdepth hstart hindents hrest

/-- After a line end the next line may start, if no bracket is open. -/
theorem idle_after_lineEnd (source : Source) (s : LayoutState) (h : IsLineEnd text) :
    let next := (layoutStep source s .lineEnd text).1
    next.margin.width = 0 ∧ (next.depth = 0 → next.atLineStart = true) := by
  have hwidth : (s.margin.advance s.offset text).width = 0 := by rcases h with rfl | rfl <;> rfl
  simp only [layoutStep]
  split
  · exact ⟨hwidth, fun _ => rfl⟩
  · rename_i hidle
    exact ⟨hwidth, fun hdepth => by simpa [show s.depth = 0 from hdepth] using hidle⟩

theorem Alike.step (h : Alike s t) (lexeme : Lexeme) (text : List Char) :
    Alike (Token.layoutStep source s lexeme text).1 (Token.layoutStep source' t lexeme text).1 ∧
      (Token.layoutStep source s lexeme text).2.map kindOf? = (Token.layoutStep source' t lexeme text).2.map kindOf? := by
  simpa [Lexeme.map_id] using @Alike.layoutStep id id source source' s t h recasts_id lexeme text

/-- Lexemes are laid out alike wherever they stand in a text. -/
theorem Alike.layout_append (h : Alike s t) {more' : List (Lexeme × List Char)}
    (hmore : ∀ s t, Alike s t → (Token.layout source s more).map kindOf? = (Token.layout source' t more').map kindOf?)
    (ls : List (Lexeme × List Char)) :
    (Token.layout source s (ls ++ more)).map kindOf? = (Token.layout source' t (ls ++ more')).map kindOf? := by
  induction ls generalizing s t with
  | nil => exact hmore s t h
  | cons l ls ih =>
    obtain ⟨hnext, hkinds⟩ := @Alike.step source source' s t h l.1 l.2
    simp only [cons_append, Token.layout, map_append, hkinds, ih hnext]

/-- After the end of a line a blank line is invisible. -/
theorem layout_skipped_line (htext : IsLineEnd text) {skipped : List (Lexeme × List Char)}
    (hskipped : ∀ l ∈ skipped, l.1 = .blank) (s t : LayoutState) (h : Alike s t) :
    (layout source s ((.lineEnd, text) :: (skipped ++ (.lineEnd, ['\n']) :: more))).map kindOf? =
      (layout source' t ((.lineEnd, text) :: more)).map kindOf? := by
  obtain ⟨hnext, hkinds⟩ := @Alike.step source source' s t h .lineEnd text
  obtain ⟨hwidth, hidle⟩ := idle_after_lineEnd source' t htext
  simp only [layout, map_append, hkinds]
  exact congrArg _ (layout_skipped hnext.depth hnext.atLineStart hnext.indents hwidth hidle hskipped)

theorem mapM_kindOf?_congr {es es' : List Event} (h : es.map kindOf? = es'.map kindOf?) :
    es.mapM kindOf? = es'.mapM kindOf? := by
  simpa using mapM_kindOf? (φ := id) (by simpa using h)

end

theorem lexemes_blank_line {blanks comment : List Char} (hblanks : IsBlanks blanks)
    (hcomment : comment = [] ∨ IsComment comment) (cs : List Char) :
    ∃ skipped, (∀ l ∈ skipped, l.1 = .blank) ∧
      lexemes (blanks ++ comment ++ '\n' :: cs) = skipped ++ (.lineEnd, ['\n']) :: lexemes cs := by
  have hfeed : lexemes ('\n' :: cs) = (.lineEnd, ['\n']) :: lexemes cs := lexemes_of_scan (x := []) rfl
  obtain ⟨d, rest, hd, hdark, skipped, hskipped, hrest⟩ : ∃ d rest, comment ++ '\n' :: cs = d :: rest ∧ isBlank d = false ∧
      ∃ skipped, (∀ l ∈ skipped, l.1 = .blank) ∧ lexemes (d :: rest) = skipped ++ (.lineEnd, ['\n']) :: lexemes cs := by
    rcases hcomment with rfl | ⟨text, rfl, htext⟩
    · exact ⟨_, _, rfl, rfl, [], by simp, hfeed⟩
    · have hline : (text ++ '\n' :: cs).takeWhile (!isLineEnd ·) = text :=
        takeWhile_eq_of_starts (by simpa using htext) rfl (prefix_refl _)
      have hscan : scan '#' (text ++ '\n' :: cs) = (.blank, text.length + 1) := by simp [scan, isBlank, hline, Nat.add_comm]
      exact ⟨'#', text ++ '\n' :: cs, rfl, rfl, [(.blank, '#' :: text)], by simp, by rw [lexemes_of_scan hscan, hfeed]; rfl⟩
  rw [append_assoc, hd]
  cases blanks with
  | nil => exact ⟨skipped, hskipped, hrest⟩
  | cons b blanks =>
    obtain ⟨hb, hblanks⟩ := forall_mem_cons.1 hblanks
    have hrun : (blanks ++ d :: rest).takeWhile isBlank = blanks :=
      takeWhile_eq_of_starts hblanks hdark (prefix_refl _)
    have hscan : scan b (blanks ++ d :: rest) = (.blank, blanks.length + 1) := by simp [scan, hb, hrun, Nat.add_comm]
    refine ⟨(.blank, b :: blanks) :: skipped, forall_mem_cons.2 ⟨rfl, hskipped⟩, ?_⟩
    rw [cons_append, lexemes_of_scan hscan, hrest]
    rfl

/-- A line of blanks, with a comment or without, may be put in wherever a line starts outside of strings, in brackets and
at any margin: the tokens stay the same. -/
theorem blank_lines_are_invisible (path : Path) {before after blanks comment : List Char} {tokens : List Token}
    (h : tokenize (.ofText path (String.ofList (before ++ after))) = .ok tokens) (hline : FreshLine before after)
    (hblanks : IsBlanks blanks) (hcomment : comment = [] ∨ IsComment comment) :
    ∃ tokens', tokenize (.ofText path (String.ofList (before ++ (blanks ++ comment ++ '\n' :: after)))) = .ok tokens' ∧
      tokens'.map Token.kind = tokens.map Token.kind := by
  have hfault := (laid_of_tokenize h).no_fault
  simp only [Source.ofText, String.toList_ofList] at hfault
  obtain ⟨ls, more, hls, htext, hend⟩ := hline.exists_lexemes hfault
  obtain ⟨skipped, hskipped, hblank⟩ := lexemes_blank_line hblanks hcomment after
  have hread := lexemes_append hls htext hline.start hfault
  have hkinds : kinds? (.ofText path (String.ofList (before ++ (blanks ++ comment ++ '\n' :: after)))) =
      kinds? (.ofText path (String.ofList (before ++ after))) := by
    rw [kinds?_eq, kinds?_eq]
    simp only [Source.ofText, String.toList_ofList, hread, hblank]
    refine mapM_kindOf?_congr ?_
    rcases hend with rfl | ⟨ls, text, rfl, hfeed⟩
    · exact layout_skipped rfl rfl rfl rfl (fun _ => rfl) hskipped
    · simp only [List.append_assoc, List.singleton_append]
      exact Alike.layout_append ⟨rfl, rfl, rfl, rfl⟩ (layout_skipped_line hfeed hskipped) ls
  have hsome : kinds? (.ofText path (String.ofList (before ++ after))) = some (tokens.map Token.kind) := by
    rw [kinds?, h]
    rfl
  obtain ⟨tokens', htokens', hsame⟩ := Option.map_eq_some_iff.1 (hkinds.trans hsome)
  exact ⟨tokens', eq_ok_of_toOption htokens', hsame⟩

/-- A call over two lines. -/
def twoLineCall : List Char × List Char := ("f(\n".toList, "1)\n".toList)

theorem lexemes_twoLineCall : lexemes (twoLineCall.1 ++ twoLineCall.2) =
    [(.token (.ident "f"), ['f']), (.token (.symbol .leftParen), ['(']), (.lineEnd, ['\n']),
      (.token (.int "1"), ['1']), (.token (.symbol .rightParen), [')']), (.lineEnd, ['\n'])] := by
  decide +kernel

theorem freshLine_twoLineCall : FreshLine twoLineCall.1 twoLineCall.2 where
  start := by decide
  outside ls value isBytes text more h := by
    have hmem : (Lexeme.token (.str value isBytes), text) ∈ lexemes (twoLineCall.1 ++ twoLineCall.2) :=
      h ▸ mem_append_right _ (mem_cons_self ..)
    simp [lexemes_twoLineCall] at hmem
  ended ls text more h := by
    have hmem : (Lexeme.blank, text) ∈ lexemes (twoLineCall.1 ++ twoLineCall.2) :=
      h ▸ mem_append_right _ (mem_cons_self ..)
    simp [lexemes_twoLineCall] at hmem

theorem blank_lines_are_invisible_twoLineCall :
    ∃ tokens, tokenize (.ofText ⟨"m.py"⟩ (String.ofList "f(\n\t  # c\n1)\n".toList)) = .ok tokens ∧
      tokens.map Token.kind = [.ident "f", .symbol .leftParen, .int "1", .symbol .rightParen, .newline, .eof] := by
  have hkinds : kinds? (.ofText ⟨"m.py"⟩ (String.ofList (twoLineCall.1 ++ twoLineCall.2))) =
      some [.ident "f", .symbol .leftParen, .int "1", .symbol .rightParen, .newline, .eof] := by decide +kernel
  obtain ⟨tokens, htokens, hkinds⟩ := Option.map_eq_some_iff.1 hkinds
  obtain ⟨tokens', htokens', hsame⟩ := blank_lines_are_invisible ⟨"m.py"⟩ (eq_ok_of_toOption htokens)
    freshLine_twoLineCall (show IsBlanks ['\t', ' ', ' '] by simp [IsBlanks, isBlank])
    (.inr ⟨[' ', 'c'], rfl, by simp [isLineEnd]⟩)
  exact ⟨tokens', htokens', hsame.trans hkinds⟩

end TypeInfer.Token
