/-
Line endings do not matter. Where each line feed of a text is written with a carriage return before
it, the lexemes are the same, with their line ends written so (`lexemes_crlf`); margins are counted
from the line feed on.
-/
import TypeInfer.Proofs.OnLine

namespace TypeInfer.Token

open List

variable {c quote : Char} {cs x : List Char}

/-- The text with a carriage return before each line feed. -/
def crlf (cs : List Char) : List Char := cs.flatMap fun c => if c = '\n' then ['\r', '\n'] else [c]

/-- The token with the line ends in its value written so. -/
def crlfKind : TokenKind → TokenKind
  | .str value isBytes => .str (String.ofList (crlf value.toList)) isBytes
  | kind => kind

@[simp] theorem crlf_nil : crlf [] = [] := rfl

@[simp] theorem crlf_feed (cs : List Char) : crlf ('\n' :: cs) = '\r' :: '\n' :: crlf cs := rfl

@[simp] theorem crlf_cons (h : c ≠ '\n') (cs : List Char) : crlf (c :: cs) = c :: crlf cs := by simp [crlf, h]

theorem crlf_append (x cs : List Char) : crlf (x ++ cs) = crlf x ++ crlf cs := flatMap_append ..

theorem crlf_of_on_line (h : ∀ c ∈ x, isLineEnd c = false) : crlf x = x := by
  induction x with
  | nil => rfl
  | cons c x ih =>
    obtain ⟨hc, hx⟩ := forall_mem_cons.1 h
    rw [crlf_cons (by rintro rfl; contradiction), ih hx]

theorem crlf_marks {marks} (h : IsMarks marks) : crlf marks = marks :=
  crlf_of_on_line fun c hc => not_isLineEnd (p := isMarkLetter) rfl rfl (h.2 c hc)

theorem lineOf_crlf (cs : List Char) : lineOf (crlf cs) = lineOf cs := by
  induction cs with
  | nil => rfl
  | cons c cs ih =>
    by_cases hc : c = '\n'
    · subst hc
      rfl
    · rw [crlf_cons hc]
      cases hend : isLineEnd c with
      | true => rw [lineOf_of_isLineEnd hend, lineOf_of_isLineEnd hend]
      | false => rw [lineOf_cons hend, lineOf_cons hend, ih]

theorem prefix_crlf (hx : ∀ c ∈ x, isLineEnd c = false) : x <+: crlf cs ↔ x <+: cs := by
  rw [← prefix_lineOf hx, lineOf_crlf, prefix_lineOf hx]

/-! ### Strings -/

theorem lineBody_crlf (hcs : '\r' ∉ cs) : lineBody quote (crlf cs) = crlf (lineBody quote cs) := by
  fun_induction lineBody quote cs with
  | case1 cs ih => simp at hcs
  | case2 c cs _ hreturn => simp_all
  | case3 c cs _ hreturn ih =>
    have ih := ih (by simp_all)
    by_cases hc : c = '\n'
    · simp [hc, lineBody, ih]
    · simp [hc, lineBody_escaped (by simpa using hreturn : c ≠ '\r'), ih]
  | case4 c cs _ hslash hend =>
    by_cases hc : c = '\n'
    · simp [hc, lineBody, isLineEnd]
    rw [crlf_cons hc, crlf_nil]
    by_cases hc' : c = '\\'
    · cases cs with
      | nil => simp [hc', lineBody]
      | cons d cs => exact (hslash d cs hc' rfl).elim
    · simp_all [lineBody_cons hc']
  | case5 c cs _ _ hend ih =>
    have hfeed : c ≠ '\n' := by
      rintro rfl
      simp [isLineEnd] at hend
    simp_all [lineBody_cons]
  | case6 => rfl

theorem blockBody?_crlf (hquote : isQuote quote) (hcs : '\r' ∉ cs) :
    blockBody? quote (crlf cs) = (blockBody? quote cs).map crlf := by
  have hline : isLineEnd quote = false := not_isLineEnd (p := isQuote) rfl rfl hquote
  obtain ⟨hfeed, hreturn⟩ : quote ≠ '\n' ∧ quote ≠ '\r' := by simpa [isLineEnd] using hline
  have hopens (cs : List Char) : [quote, quote, quote].isPrefixOf (crlf cs) = [quote, quote, quote].isPrefixOf cs := by
    rw [Bool.eq_iff_iff, isPrefixOf_iff_prefix, isPrefixOf_iff_prefix, prefix_crlf (by simpa using hline)]
  have hskip (cs : List Char) : blockBody? quote ('\n' :: cs) = (blockBody? quote cs).map ('\n' :: ·) := by
    simp [blockBody?_cons, hfeed]
  fun_induction blockBody? quote cs with
  | case1 => rfl
  | case2 c hc =>
    obtain rfl := eq_of_beq hc
    rfl
  | case3 c hc d cs ih =>
    obtain rfl := eq_of_beq hc
    have ih := ih (by simp_all)
    by_cases hd : d = '\n'
    · simp [hd, blockBody?, hskip, ih, Function.comp_def]
    · simp [hd, blockBody?, ih, Function.comp_def]
  | case4 c cs hc hopen =>
    have hopen := hopens (c :: cs) ▸ hopen
    have hfirst : c ≠ '\n' := by
      rintro rfl
      simp [hreturn] at hopen
    rw [crlf_cons hfirst] at hopen ⊢
    rw [blockBody?_cons (by simpa using hc), if_pos hopen]
    rfl
  | case5 c cs hc hopen ih =>
    have ih := ih (by simp_all)
    rw [← hopens] at hopen
    by_cases hfirst : c = '\n'
    · simp [hfirst, blockBody?_cons (show '\r' ≠ '\\' by decide), hskip, hreturn, ih, Function.comp_def]
    · rw [crlf_cons hfirst] at hopen ⊢
      rw [blockBody?_cons (by simpa using hc), if_neg hopen, ih]
      simp [hfirst, Function.comp_def]

theorem head?_crlf (hquote : isLineEnd quote = false) (cs : List Char) :
    ((crlf cs).head? == some quote) = (cs.head? == some quote) := by
  cases cs with
  | nil => rfl
  | cons c cs =>
    by_cases hc : c = '\n'
    · obtain ⟨hfeed, hreturn⟩ : quote ≠ '\n' ∧ quote ≠ '\r' := by simpa [isLineEnd] using hquote
      simp [hc, beq_false_of_ne hfeed.symm, beq_false_of_ne hreturn.symm]
    · simp [hc]

/-- A string is read from the same text, with its line ends written the other way. -/
theorem string_crlf {marks rest} (hmarks : IsMarks marks) (hquote : isQuote quote)
    (hrest : '\r' ∉ rest) :
    ∃ text more, marks ++ quote :: rest = text ++ more ∧ text ≠ [] ∧ text.length = (string marks quote rest).2 ∧
      string marks quote (crlf rest) = ((string marks quote rest).1.map crlfKind, (crlf text).length) := by
  have hline : isLineEnd quote = false := not_isLineEnd (p := isQuote) rfl rfl hquote
  have hfeed := quote_ne_feed hquote
  have hwritten := crlf_marks hmarks
  by_cases hopen : [quote, quote] <+: rest
  · obtain ⟨r, rfl⟩ := hopen
    have hbody : blockBody? quote (crlf r) = _ := blockBody?_crlf hquote (by simp_all)
    cases hblock : blockBody? quote r with
    | none =>
      refine ⟨marks ++ quote :: quote :: quote :: r, [], by simp, by simp, ?_, ?_⟩
      · simp +arith [string, hblock]
      · simp +arith [string, hblock, hbody, hfeed, crlf_append, hwritten, Lexeme.map]
    | some body =>
      obtain ⟨-, more, hmore⟩ := isBlockBody_of_blockBody? hblock
      refine ⟨marks ++ quote :: quote :: quote :: (body ++ [quote, quote, quote]), more, by simp [← hmore], by simp, ?_, ?_⟩
      · simp +arith [string, hblock]
      · simp +arith [string, hblock, hbody, hfeed, crlf_append, hwritten, Lexeme.map, crlfKind]
  · have hopen' : ¬ [quote, quote] <+: crlf rest := by rwa [prefix_crlf (by simpa using hline)]
    obtain ⟨-, r, hr⟩ := isLineBody_lineBody quote rest
    simp only [string, isPrefixOf_iff_prefix, hopen, hopen', if_false, lineBody_crlf hrest]
    generalize lineBody quote rest = body at hr ⊢
    subst hr
    have hempty : (crlf body).isEmpty = body.isEmpty := by
      cases body with
      | nil => rfl
      | cons d body => by_cases hd : d = '\n' <;> simp [hd]
    simp only [crlf_append, drop_left, head?_crlf hline, hempty]
    split
    · rename_i hclose
      obtain ⟨more, rfl⟩ := head?_eq_some_iff.1 (eq_of_beq hclose)
      refine ⟨marks ++ quote :: (body ++ [quote]), more, by simp, by simp, ?_, ?_⟩
      · simp +arith
      · simp +arith [hfeed, crlf_append, hwritten, Lexeme.map, crlfKind]
    · split
      · rename_i hword
        obtain ⟨-, hne⟩ := Bool.and_eq_true_iff.1 hword
        exact ⟨marks, quote :: (body ++ r), rfl, by simpa using hne, rfl, by simp [hwritten, Lexeme.map, crlfKind]⟩
      · refine ⟨marks ++ quote :: body, r, by simp, by simp, ?_, ?_⟩
        · simp +arith
        · simp +arith [hfeed, crlf_append, hwritten, Lexeme.map]

/-! ### Lexemes -/

/-- Where no string starts, what is read is no string token. -/
theorem map_crlfKind_scan (h : stringStart? (c :: cs) = none) : (scan c cs).1.map crlfKind = (scan c cs).1 := by
  cases hscan : scan c cs with
  | mk lexeme n =>
    cases lexeme with
    | token kind =>
      obtain ⟨text, hmatch, -⟩ := longestMatch_scan hscan
      cases kind with
      | str value isBytes =>
        cases hmatch.spells with
        | str hmarks hquote hquoted =>
          exact absurd h (stringStart?_of_isString ⟨_, _, _, _, rfl, hmarks, hquote, hquoted⟩ hmatch.starts)
      | _ => rfl
    | _ => rfl

/-- A lexeme that does not start with a line end is read alike with either line ends. -/
theorem scan_crlf (hc : isLineEnd c = false) (hcs : '\r' ∉ cs) :
    ∃ x more, cs = x ++ more ∧ x.length = (scan c cs).2 - 1 ∧
      scan c (crlf cs) = ((scan c cs).1.map crlfKind, (crlf x).length + 1) := by
  have hfeed : c ≠ '\n' := by
    rintro rfl
    contradiction
  by_cases hslash : c = '\\'
  · subst hslash
    cases cs with
    | nil => exact ⟨[], [], rfl, rfl, rfl⟩
    | cons d cs =>
      obtain ⟨hd, -⟩ : d ≠ '\r' ∧ _ := by simpa [eq_comm] using hcs
      by_cases hd' : d = '\n'
      · subst hd'
        exact ⟨['\n'], cs, rfl, rfl, rfl⟩
      · refine ⟨[], d :: cs, rfl, ?_, ?_⟩ <;> simp [scan, isBlank, hd, hd', Lexeme.map]
  cases hstring : stringStart? (c :: cs) with
  | none =>
    have hon := take_scan_on_line hc hslash hstring
    obtain ⟨hpos, hle⟩ := length_scan c cs
    refine ⟨_, _, (take_append_drop ((scan c cs).2 - 1) cs).symm, length_take_of_le (by omega), ?_⟩
    rw [scan_eq_of_lineOf hc hslash hstring (lineOf_crlf cs), map_crlfKind_scan hstring, crlf_of_on_line hon,
      length_take_of_le (by omega), Nat.sub_add_cancel hpos]
  | some found =>
    obtain ⟨marks, quote, rest⟩ := found
    obtain ⟨heq, hmarks, hquote⟩ := stringStart?_eq_some hstring
    have hrest : '\r' ∉ rest := by
      intro h
      have hmem : '\r' ∈ c :: cs := heq ▸ mem_append_right _ (mem_cons_of_mem _ h)
      rcases mem_cons.1 hmem with rfl | hmem
      · contradiction
      · exact hcs hmem
    obtain ⟨text, more, htext, hne, hlength, hstring'⟩ := string_crlf hmarks hquote hrest
    have hstart : stringStart? (c :: crlf cs) = some (marks, quote, crlf rest) := by
      rw [← crlf_cons hfeed, heq, crlf_append, crlf_marks hmarks, crlf_cons (quote_ne_feed hquote),
        stringStart?_append hmarks hquote]
    rw [← heq] at htext
    obtain ⟨d, x, rfl⟩ := exists_cons_of_ne_nil hne
    obtain ⟨rfl, rfl⟩ := List.cons.inj htext
    rw [scan_of_stringStart? hstart, scan_of_stringStart? hstring, hstring', crlf_cons hfeed]
    exact ⟨x, more, rfl, by rw [← hlength]; rfl, rfl⟩

theorem lexemes_crlf (hcs : '\r' ∉ cs) :
    lexemes (crlf cs) = (lexemes cs).map fun l => (l.1.map crlfKind, crlf l.2) := by
  fun_induction lexemes cs with
  | case1 => rw [crlf_nil, lexemes]; rfl
  | case2 c cs lexeme length hscan ih =>
    have ih := ih fun h => hcs (mem_cons_of_mem _ (mem_of_mem_drop h))
    by_cases hc : c = '\n'
    · subst hc
      obtain ⟨rfl, rfl⟩ := Prod.mk.inj hscan
      rw [crlf_feed, lexemes]
      exact congrArg (List.cons _) ih
    · have hend : isLineEnd c = false := by
        simp only [mem_cons, not_or] at hcs
        simp [isLineEnd, hc, Ne.symm hcs.1]
      obtain ⟨x, more, rfl, hx, hcrlf⟩ := scan_crlf hend fun h => hcs (mem_cons_of_mem _ h)
      rw [hscan] at hx hcrlf
      dsimp only at hx
      rw [← hx] at ih ⊢
      rw [drop_left] at ih
      rw [crlf_cons hc, lexemes, hcrlf, crlf_append]
      simp [ih, hc]

/-! ### Layout -/

theorem width_advance_crlf (m m' : Margin) (i i' : Nat) (text : List Char) (h : m.width = m'.width) :
    (m.advance i (crlf text)).width = (m'.advance i' text).width := by
  induction text generalizing m m' i i' with
  | nil => exact h
  | cons c text ih =>
    by_cases hc : c = '\n'
    · rw [hc, crlf_feed]
      exact ih _ _ _ _ rfl
    · rw [crlf_cons hc]
      exact ih _ _ _ _ (by simp [hc, h])

theorem recasts_crlf : Recasts crlfKind crlf where
  depth _ kind := by cases kind <;> rfl
  layout kind h := by cases kind <;> first | rfl | contradiction
  width := width_advance_crlf

/-- A text and the same text with a carriage return before each line feed have the same tokens, but for the line ends
in the values of strings, or neither has tokens. -/
theorem line_endings_do_not_matter (path : Path) (text : String) (h : '\r' ∉ text.toList) :
    kinds? (.ofText path (String.ofList (crlf text.toList))) =
      (kinds? (.ofText path text)).map (List.map crlfKind) := by
  have hlexemes := lexemes_crlf h
  rw [kinds?_eq, kinds?_eq]
  simp only [Source.ofText, String.toList_ofList, hlexemes]
  exact mapM_kindOf? (Alike.layout ⟨rfl, rfl, rfl, rfl⟩ recasts_crlf _)

/-- A block with a string over two lines. -/
def twoLines : String := "if x:\n\t'''a\nb''' # c\n"

theorem line_endings_do_not_matter_twoLines : '\r' ∉ twoLines.toList ∧
    kinds? (.ofText ⟨"m.py"⟩ (String.ofList (crlf twoLines.toList))) =
      some [.keyword .ifKw, .ident "x", .symbol .colon, .newline, .indent, .str "a\r\nb" false, .newline, .dedent, .eof] := by
  have hreturn : '\r' ∉ twoLines.toList := by decide
  refine ⟨hreturn, (line_endings_do_not_matter ⟨"m.py"⟩ twoLines hreturn).trans ?_⟩
  decide +kernel

end TypeInfer.Token
