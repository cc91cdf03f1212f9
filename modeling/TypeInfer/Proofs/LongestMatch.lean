/-
The longest spelling is the one that is read. What a token starts with tells whether it is a word, a
number, a string or a mark, so each is compared with those of its own class only; marks before a
quote are the one place where two classes meet.
-/
import TypeInfer.Proofs.Spelling

namespace TypeInfer.Token

open List

variable {c quote : Char} {cs text rest body : List Char} {kind : TokenKind}

/-! ### Words -/

theorem isWordChar_of_isWordStart (h : isWordStart c) : isWordChar c := by
  simp only [isWordStart, isWordChar, Char.isAlphanum, Bool.or_eq_true] at h ⊢
  exact h.imp_left .inl

theorem IsWord.all (h : IsWord text) : ∀ c ∈ text, isWordChar c := by
  obtain ⟨c, cs, rfl, hc, hcs⟩ := h
  exact forall_mem_cons.2 ⟨isWordChar_of_isWordStart hc, hcs⟩

theorem eq_text_of_ofText? {s word} (h : Keyword.ofText? s = some word) : s = word.text := by
  have htext := find?_some h
  exact (eq_of_beq htext).symm

theorem isWord_keyword (word : Keyword) : IsWord word.text.toList := by
  have h : (word.text.toList.head?.any isWordStart && word.text.toList.all isWordChar) = true := by
    cases word <;> decide
  generalize word.text.toList = text at h
  cases text with
  | nil => contradiction
  | cons c cs =>
    simp only [head?_cons, Option.any_some, all_cons, Bool.and_eq_true, all_eq_true] at h
    exact ⟨c, cs, rfl, h.1, h.2.2⟩

theorem isWord_word (h : isWordStart c) (cs : List Char) : IsWord (word (c :: cs)).1 := by
  simp only [word, takeWhile_cons_of_pos (isWordChar_of_isWordStart h)]
  exact ⟨c, _, rfl, h, fun d hd => all_eq_true.1 all_takeWhile d hd⟩

theorem spells_word (h : isWordStart c) : Spells (word (c :: cs)).2 (word (c :: cs)).1 := by
  have hword := isWord_word h cs
  simp only [word] at hword ⊢
  generalize (c :: cs).takeWhile isWordChar = text at hword ⊢
  split
  · rename_i k hk
    have htext : k.text.toList = text := by rw [← eq_text_of_ofText? hk, String.toList_ofList]
    exact htext ▸ .keyword k
  · rename_i hk
    exact .ident hword hk

/-! ### Marks -/

def IsMark (text : List Char) : Prop := ∃ kind, (text, kind) ∈ marks

/-- No mark starts like a word, a string or a number; a point may, but no digit follows it. -/
theorem head_of_isMark (h : IsMark text) : ∃ c cs, text = c :: cs ∧ c.isDigit = false ∧
    isWordStart c = false ∧ isQuote c = false ∧ cs.head?.any Char.isDigit = false := by
  obtain ⟨kind, h⟩ := h
  have hall : marks.all (fun m => m.1.head?.any (fun c => !c.isDigit && !isWordStart c && !isQuote c) &&
      !m.1.tail.head?.any Char.isDigit) = true := by decide +kernel
  have hm := all_eq_true.1 hall _ h
  cases text with
  | nil => contradiction
  | cons c cs =>
    simp only [head?_cons, Option.any_some, tail_cons, Bool.and_eq_true, Bool.not_eq_true'] at hm
    exact ⟨c, cs, rfl, hm.1.1.1, hm.1.1.2, hm.1.2, hm.2⟩

theorem longer_mem {ms : List (List Char × TokenKind)} {best : Option (List Char × TokenKind)}
    {m : List Char × TokenKind} (hbest : ∀ b ∈ best, b ∈ ms) (hm : m ∈ ms) : ∀ b ∈ longer best m, b ∈ ms := by
  intro b hb
  cases best with
  | none =>
    obtain rfl : m = b := by simpa [longer] using hb
    exact hm
  | some best =>
    simp only [longer] at hb
    split at hb
    · obtain rfl : m = b := by simpa using hb
      exact hm
    · obtain rfl : best = b := by simpa using hb
      exact hbest best rfl

theorem foldl_longer_mem {found : List (List Char × TokenKind)} (ms : List (List Char × TokenKind))
    {best : Option (List Char × TokenKind)} (hbest : ∀ b ∈ best, b ∈ ms) (hfound : ∀ m ∈ found, m ∈ ms) : ∀ b ∈ found.foldl longer best, b ∈ ms := by
  induction found generalizing best with
  | nil => exact hbest
  | cons m found ih =>
    obtain ⟨hm, hfound⟩ := forall_mem_cons.1 hfound
    exact ih (longer_mem hbest hm) hfound

theorem longer_eq_some (best : Option (List Char × TokenKind)) (m : List Char × TokenKind) :
    ∃ b, longer best m = some b ∧ m.1.length ≤ b.1.length ∧ ∀ b' ∈ best, b'.1.length ≤ b.1.length := by
  cases best with
  | none => exact ⟨m, rfl, Nat.le_refl _, by simp⟩
  | some b =>
    simp only [longer]
    split
    · rename_i hlt
      refine ⟨m, rfl, Nat.le_refl _, ?_⟩
      rintro _ ⟨rfl⟩
      omega
    · refine ⟨b, rfl, by omega, ?_⟩
      rintro _ ⟨rfl⟩
      omega

theorem foldl_longer_eq_some {found} (best : Option (List Char × TokenKind))
    (h : best ≠ none ∨ found ≠ []) : ∃ m, found.foldl longer best = some m ∧
      (∀ b ∈ best, b.1.length ≤ m.1.length) ∧ ∀ other ∈ found, other.1.length ≤ m.1.length := by
  induction found generalizing best with
  | nil =>
    obtain ⟨m, rfl⟩ := Option.ne_none_iff_exists'.1 (h.resolve_right (by simp))
    exact ⟨m, rfl, by simp, by simp⟩
  | cons other found ih =>
    obtain ⟨b, hb, hother, hbest⟩ := longer_eq_some best other
    obtain ⟨m, hm, hle, hfound⟩ := ih (longer best other) (.inl (by simp [hb]))
    have hbm := hle b hb
    refine ⟨m, hm, fun b' hb' => Nat.le_trans (hbest b' hb') hbm, forall_mem_cons.2 ⟨?_, hfound⟩⟩
    omega

/-- A mark is found, and the longest one. -/
theorem mark?_of_isMark (h : IsMark text) (hstart : text <+: cs) :
    ∃ m, mark? cs = some m ∧ text.length ≤ m.1.length := by
  obtain ⟨kind, h⟩ := h
  have hmem : (text, kind) ∈ marks.filter (·.1.isPrefixOf cs) :=
    mem_filter.2 ⟨h, isPrefixOf_iff_prefix.2 hstart⟩
  obtain ⟨m, hm, -, hle⟩ := foldl_longer_eq_some none (.inr (ne_nil_of_mem hmem))
  exact ⟨m, hm, hle _ hmem⟩

theorem mem_of_mark? {m : List Char × TokenKind} (h : mark? cs = some m) : m ∈ marks ∧ m.1 <+: cs := by
  have hmem := foldl_longer_mem (marks.filter (·.1.isPrefixOf cs)) (fun _ hb => by simp at hb)
    (fun _ hm => hm) m h
  obtain ⟨hmark, hstart⟩ := mem_filter.1 hmem
  exact ⟨hmark, isPrefixOf_iff_prefix.1 hstart⟩

theorem spells_of_mem_marks {m} (h : m ∈ marks) : Spells m.2 m.1 := by
  rcases mem_append.1 h with h | h
  · obtain ⟨s, -, rfl⟩ := mem_map.1 h
    exact .symbol s
  · obtain ⟨op, -, rfl⟩ := mem_map.1 h
    exact .augAssign op

theorem isMark_symbol (s : Symbol) : IsMark s.text.toList :=
  ⟨.symbol s, mem_append_left _ (mem_map.2 ⟨s, by cases s <;> decide, rfl⟩)⟩

theorem isMark_augAssign (op : Operator) : IsMark (op.symbol.toList ++ ['=']) :=
  ⟨.augAssign op, mem_append_right _ (mem_map.2 ⟨op, by cases op <;> decide, rfl⟩)⟩

/-! ### Strings -/

def IsString (text : List Char) : Prop :=
  ∃ marks quote body quoted, text = marks ++ quoted ∧ IsMarks marks ∧ isQuote quote ∧ IsQuoted quote body quoted

theorem IsQuoted.exists_cons (h : IsQuoted quote body text) : ∃ cs, text = quote :: cs := by
  cases h with
  | line => exact ⟨_, rfl⟩
  | block => exact ⟨_, rfl⟩

theorem not_isQuote_of_isMarkLetter (h : isMarkLetter c) : isQuote c = false := by
  have hall : "rRbBuUfF".toList.all (!isQuote ·) = true := by decide
  simpa using all_eq_true.1 hall c (contains_iff_mem.1 h)

theorem isWordStart_of_isMarkLetter (h : isMarkLetter c) : isWordStart c := by
  have hall : "rRbBuUfF".toList.all isWordStart = true := by decide
  exact all_eq_true.1 hall c (contains_iff_mem.1 h)

theorem not_isWordChar_of_isQuote (h : isQuote c) : isWordChar c = false := by
  rcases Bool.or_eq_true_iff.1 h with h | h <;> (rw [eq_of_beq h]; decide)

theorem stringStart?_append {marks} (hmarks : IsMarks marks) (hquote : isQuote quote)
    (rest : List Char) : stringStart? (marks ++ quote :: rest) = some (marks, quote, rest) := by
  obtain ⟨hlength, hmarks⟩ := hmarks
  match marks with
  | [] => simp [stringStart?, hquote]
  | [a] =>
    have ha := hmarks a (by simp)
    simp [stringStart?, ha, hquote, not_isQuote_of_isMarkLetter ha]
  | [a, b] =>
    have ha := hmarks a (by simp)
    have hb := hmarks b (by simp)
    simp [stringStart?, ha, hb, hquote, not_isQuote_of_isMarkLetter ha, not_isQuote_of_isMarkLetter hb]
  | _ :: _ :: _ :: _ => simp at hlength

theorem stringStart?_eq_some {marks} (h : stringStart? cs = some (marks, quote, rest)) :
    cs = marks ++ quote :: rest ∧ IsMarks marks ∧ isQuote quote := by
  cases cs with
  | nil => contradiction
  | cons a cs =>
    by_cases ha : isQuote a
    · obtain ⟨rfl, rfl, rfl⟩ : [] = marks ∧ a = quote ∧ cs = rest := by simpa [stringStart?, ha] using h
      exact ⟨rfl, ⟨by simp, by simp⟩, ha⟩
    cases cs with
    | nil => simp [stringStart?, ha] at h
    | cons b cs =>
      by_cases hab : (isMarkLetter a && isQuote b) = true
      · obtain ⟨rfl, rfl, rfl⟩ : [a] = marks ∧ b = quote ∧ cs = rest := by
          simpa only [stringStart?, ha, hab, Bool.false_eq_true, if_true, if_false, Option.some.injEq,
            Prod.mk.injEq] using h
        obtain ⟨ha, hb⟩ := Bool.and_eq_true_iff.1 hab
        exact ⟨rfl, ⟨by simp, by simpa using ha⟩, hb⟩
      cases cs with
      | nil => simp only [stringStart?, ha, hab] at h; contradiction
      | cons c cs =>
        by_cases habc : (isMarkLetter a && isMarkLetter b && isQuote c) = true
        · obtain ⟨rfl, rfl, rfl⟩ : [a, b] = marks ∧ c = quote ∧ cs = rest := by
            simpa only [stringStart?, ha, hab, habc, Bool.false_eq_true, if_true, if_false, Option.some.injEq,
              Prod.mk.injEq] using h
          obtain ⟨hab, hc⟩ := Bool.and_eq_true_iff.1 habc
          exact ⟨rfl, ⟨by simp, by simpa using hab⟩, hc⟩
        · simp only [stringStart?, ha, hab, habc] at h
          contradiction

section

-- The equations are made here, once for the lemmas that open the two readers.
attribute [local simp] lineBody blockBody?

theorem lineBody_cons (h : c ≠ '\\') (cs : List Char) :
    lineBody quote (c :: cs) = if c == quote || isLineEnd c then [] else c :: lineBody quote cs := by
  rw [lineBody]
  · simp [h]
  · exact fun _ hc => absurd hc h
  · exact fun _ _ hc => absurd hc h

theorem lineBody_escaped (h : c ≠ '\r') (cs : List Char) :
    lineBody quote ('\\' :: c :: cs) = '\\' :: c :: lineBody quote cs := by
  rw [lineBody]
  · simp [h]
  · exact fun _ hc => absurd hc h

theorem lineBody_append (hquote : isQuote quote) (h : IsLineBody quote body) (rest : List Char) :
    lineBody quote (body ++ quote :: rest) = body := by
  have hslash : quote ≠ '\\' := by
    rintro rfl
    contradiction
  induction h with
  | nil => simp [lineBody_cons hslash]
  | plain hc hslash hline _ ih => simp [lineBody_cons hslash, hc, hline, ih]
  | escaped hc _ ih => simp [lineBody_escaped hc, ih]
  | escapedLine _ ih => simp [ih]

theorem isLineBody_lineBody (quote : Char) (cs : List Char) :
    IsLineBody quote (lineBody quote cs) ∧ lineBody quote cs <+: cs := by
  fun_induction lineBody quote cs with
  | case1 cs ih => exact ⟨.escapedLine ih.1, by simpa using ih.2⟩
  | case2 c cs _ hreturn => exact ⟨.nil, nil_prefix⟩
  | case3 c cs _ hreturn ih => exact ⟨.escaped (by simpa using hreturn) ih.1, by simpa using ih.2⟩
  | case4 c cs _ _ hend => exact ⟨.nil, nil_prefix⟩
  | case5 c cs _ _ hend ih =>
    simp only [Bool.or_eq_true, not_or, beq_iff_eq, Bool.not_eq_true] at hend
    exact ⟨.plain hend.1.1 hend.1.2 hend.2 ih.1, by simpa using ih.2⟩
  | case6 => exact ⟨.nil, nil_prefix⟩

theorem blockBody?_cons (h : c ≠ '\\') (cs : List Char) :
    blockBody? quote (c :: cs) =
      if [quote, quote, quote].isPrefixOf (c :: cs) then some [] else (blockBody? quote cs).map (c :: ·) := by
  rw [blockBody?.eq_def]
  simp [h]

theorem blockBody?_append (hquote : isQuote quote) (h : IsBlockBody quote body) (rest : List Char) :
    blockBody? quote (body ++ [quote, quote, quote] ++ rest) = some body := by
  induction h with
  | nil =>
    have hslash : quote ≠ '\\' := by
      rintro rfl
      contradiction
    simp [blockBody?_cons hslash]
  | @plain c cs hc hopen _ ih =>
    rw [cons_append, cons_append, blockBody?_cons hc, if_neg, ih]
    · rfl
    · intro h
      exact hopen (prefix_of_prefix_length_le ( isPrefixOf_iff_prefix.1 h) (prefix_append _ rest)
        (by simp))
  | escaped _ ih =>
    simp only [cons_append, blockBody?, ih]
    rfl

end

theorem isBlockBody_of_blockBody? (h : blockBody? quote cs = some body) :
    IsBlockBody quote body ∧ body ++ [quote, quote, quote] <+: cs := by
  fun_induction blockBody? quote cs generalizing body with
  | case1 => contradiction
  | case2 => contradiction
  | case3 c hc d cs ih =>
    obtain ⟨body, hbody, rfl⟩ := Option.map_eq_some_iff.1 h
    obtain ⟨hbody, hstart⟩ := ih hbody
    obtain rfl : c = '\\' := eq_of_beq hc
    exact ⟨.escaped hbody, by simpa using hstart⟩
  | case4 c cs hc hopen =>
    obtain rfl := Option.some.inj h
    exact ⟨.nil, isPrefixOf_iff_prefix.1 hopen⟩
  | case5 c cs hc hopen ih =>
    obtain ⟨body, hbody, rfl⟩ := Option.map_eq_some_iff.1 h
    obtain ⟨hbody, hstart⟩ := ih hbody
    have hstart : c :: body ++ [quote, quote, quote] <+: c :: cs := by simpa using hstart
    refine ⟨.plain (by simpa using hc) (fun h => hopen ?_) hbody, hstart⟩
    exact isPrefixOf_iff_prefix.2 (h.trans hstart)

theorem exists_quoted_of_isString {marks} (hmarks : IsMarks marks) (hquote : isQuote quote)
    (h : IsString text) (hstart : text <+: marks ++ quote :: rest) :
    ∃ body quoted, text = marks ++ quoted ∧ IsQuoted quote body quoted ∧ quoted <+: quote :: rest := by
  obtain ⟨marks', quote', body, quoted, rfl, hmarks', hquote', hquoted⟩ := h
  obtain ⟨cs, rfl⟩ := hquoted.exists_cons
  obtain ⟨more, hmore⟩ := hstart
  have heq := stringStart?_append hmarks hquote rest
  rw [← hmore, append_assoc, cons_append, stringStart?_append hmarks' hquote'] at heq
  obtain ⟨rfl, rfl, rfl⟩ : marks' = marks ∧ quote' = quote ∧ cs ++ more = rest := by simpa using heq
  exact ⟨body, _, rfl, hquoted, ⟨more, by simp⟩⟩

/-- A string on one line is the one that is found there. -/
theorem lineBody_of_starts (hquote : isQuote quote) (h : IsLineBody quote body)
    (hstart : quote :: body ++ [quote] <+: quote :: rest) :
    lineBody quote rest = body ∧ (rest.drop body.length).head? = some quote := by
  obtain ⟨more, hmore⟩ := hstart
  obtain rfl : body ++ quote :: more = rest := by simpa using hmore
  exact ⟨lineBody_append hquote h more, by simp⟩

theorem blockBody?_of_starts (hquote : isQuote quote) (h : IsBlockBody quote body)
    (hstart : quote :: quote :: quote :: body ++ [quote, quote, quote] <+: quote :: rest) :
    [quote, quote].isPrefixOf rest ∧ blockBody? quote (rest.drop 2) = some body := by
  obtain ⟨more, hmore⟩ := hstart
  obtain rfl : quote :: quote :: (body ++ [quote, quote, quote] ++ more) = rest := by simpa using hmore
  exact ⟨by simp, blockBody?_append hquote h more⟩

/-- Marks alone are a word, and not a keyword. -/
theorem spells_marks {marks} (h : IsMarks marks) (hne : marks ≠ []) :
    Spells (.ident (String.ofList marks)) marks := by
  refine .ident ?_ ?_
  · cases marks with
    | nil => contradiction
    | cons c cs =>
      obtain ⟨hc, hcs⟩ := forall_mem_cons.1 h.2
      exact ⟨c, cs, rfl, isWordStart_of_isMarkLetter hc,
        fun d hd => isWordChar_of_isWordStart (isWordStart_of_isMarkLetter (hcs d hd))⟩
  · cases hword : Keyword.ofText? (String.ofList marks) with
    | none => rfl
    | some word =>
      have hmarks : word.text.toList.all isMarkLetter = true := by
        rw [← eq_text_of_ofText? hword, String.toList_ofList]
        exact all_eq_true.2 h.2
      have hword : word.text.toList.all isMarkLetter = false := by cases word <;> decide
      rw [hmarks] at hword
      contradiction

/-- After the marks, `read` spells the token, and no string that starts there is longer. -/
structure TakenAsString (marks : List Char) (quote : Char) (rest : List Char) (kind : TokenKind) (read : List Char) :
    Prop where
  spells : Spells kind (marks ++ read)
  starts : read <+: quote :: rest
  longest : ∀ body quoted, IsQuoted quote body quoted → quoted <+: quote :: rest → quoted.length ≤ read.length

theorem takenAsString_block {marks} (hmarks : IsMarks marks) (hquote : isQuote quote)
    (hopen : [quote, quote] <+: rest) (hbody : blockBody? quote (rest.drop 2) = some body) :
    TakenAsString marks quote rest (.str (String.ofList body) (marks.any fun c => c == 'b' || c == 'B'))
      (quote :: quote :: quote :: body ++ [quote, quote, quote]) := by
  obtain ⟨hblock, more, hmore⟩ := isBlockBody_of_blockBody? hbody
  obtain ⟨r, rfl⟩ := hopen
  refine ⟨.str hmarks hquote (.block hblock), ⟨more, by simpa using hmore⟩, fun body' quoted hquoted hstart => ?_⟩
  cases hquoted with
  | line hline =>
    -- of the three quotes the first two are a string on one line, an empty one
    have hslash : quote ≠ '\\' := by
      rintro rfl
      contradiction
    obtain rfl : [] = body' := by
      simpa [lineBody_cons hslash] using (lineBody_of_starts hquote hline hstart).1
    simp
  | block hblock' =>
    obtain rfl : body = body' := Option.some.inj (hbody.symm.trans (blockBody?_of_starts hquote hblock' hstart).2)
    exact Nat.le_refl _

theorem line_of_isQuoted {quoted} (hquote : isQuote quote)
    (hopen : ¬ [quote, quote].isPrefixOf rest) (h : IsQuoted quote body quoted)
    (hstart : quoted <+: quote :: rest) :
    lineBody quote rest = body ∧ (rest.drop body.length).head? = some quote ∧ quoted = quote :: body ++ [quote] := by
  cases h with
  | line hline =>
    obtain ⟨hbody, hclose⟩ := lineBody_of_starts hquote hline hstart
    exact ⟨hbody, hclose, rfl⟩
  | block hblock => exact absurd (blockBody?_of_starts hquote hblock hstart).1 hopen

theorem takenAsString_line {marks} (hmarks : IsMarks marks) (hquote : isQuote quote)
    (hopen : ¬ [quote, quote].isPrefixOf rest)
    (hclose : (rest.drop (lineBody quote rest).length).head? = some quote) :
    TakenAsString marks quote rest
      (.str (String.ofList (lineBody quote rest)) (marks.any fun c => c == 'b' || c == 'B'))
      (quote :: lineBody quote rest ++ [quote]) := by
  obtain ⟨hline, r, hr⟩ := isLineBody_lineBody quote rest
  refine ⟨.str hmarks hquote (.line hline), ?_, fun body quoted hquoted hstart => ?_⟩
  · have hdrop : rest.drop (lineBody quote rest).length = r := by
      have hdrop := congrArg (List.drop (lineBody quote rest).length) hr
      rwa [drop_left, eq_comm] at hdrop
    rw [hdrop] at hclose
    obtain ⟨r', rfl⟩ := head?_eq_some_iff.1 hclose
    exact ⟨r', by simpa using hr⟩
  · obtain ⟨rfl, -, rfl⟩ := line_of_isQuoted hquote hopen hquoted hstart
    exact Nat.le_refl _

theorem takenAsString_marks {marks} (hmarks : IsMarks marks) (hquote : isQuote quote)
    (hne : marks ≠ []) (hopen : ¬ [quote, quote].isPrefixOf rest)
    (hclose : (rest.drop (lineBody quote rest).length).head? ≠ some quote) :
    TakenAsString marks quote rest (.ident (String.ofList marks)) [] := by
  refine ⟨by simpa using spells_marks hmarks hne, nil_prefix, fun body quoted hquoted hstart => ?_⟩
  obtain ⟨rfl, hclose', -⟩ := line_of_isQuoted hquote hopen hquoted hstart
  contradiction

/-- Where a string starts, a string is read, or a word of marks before a lone quote. -/
theorem exists_takenAsString {marks n} (hmarks : IsMarks marks) (hquote : isQuote quote)
    (h : string marks quote rest = (.token kind, n)) :
    ∃ read, TakenAsString marks quote rest kind read ∧ n = marks.length + read.length := by
  simp only [string] at h
  split at h
  · rename_i hopen
    cases hbody : blockBody? quote (rest.drop 2) with
    | none =>
      rw [hbody] at h
      cases h
    | some body =>
      rw [hbody] at h
      cases h
      refine ⟨_, takenAsString_block hmarks hquote ( isPrefixOf_iff_prefix.1 hopen) hbody, ?_⟩
      simp only [length_append, length_cons, length_nil]
      omega
  · rename_i hopen
    split at h
    · rename_i hclose
      cases h
      refine ⟨_, takenAsString_line hmarks hquote hopen (eq_of_beq hclose), ?_⟩
      simp only [length_append, length_cons, length_nil]
      omega
    · rename_i hclose
      split at h
      · rename_i hempty
        cases h
        obtain ⟨-, hne⟩ := Bool.and_eq_true_iff.1 hempty
        exact ⟨_, takenAsString_marks hmarks hquote (by simpa using hne) hopen (by simpa using hclose), rfl⟩
      · cases h

/-! ### The longest match -/

theorem Spells.cases_class (h : Spells kind text) : IsWord text ∨ IsNumber text ∨ IsString text ∨ IsMark text := by
  cases h with
  | keyword word => exact .inl (isWord_keyword word)
  | ident h => exact .inl h
  | based h => exact .inr (.inl (.inl h))
  | int h => exact .inr (.inl (.inr ⟨text, [], [], [], by simp, .inl ⟨h, .inl rfl⟩, .inl rfl, .inl rfl⟩))
  | float hmantissa hexponent => exact .inr (.inl (.inr ⟨_, _, _, [], by simp, hmantissa, hexponent, .inl rfl⟩))
  | imaginary hmantissa hexponent hunit =>
    exact .inr (.inl (.inr ⟨_, _, _, _, rfl, hmantissa, hexponent, .inr ⟨_, rfl, hunit⟩⟩))
  | str hmarks hquote h => exact .inr (.inr (.inl ⟨_, _, _, _, rfl, hmarks, hquote, h⟩))
  | symbol mark => exact .inr (.inr (.inr (isMark_symbol mark)))
  | augAssign op => exact .inr (.inr (.inr (isMark_augAssign op)))

theorem Spells.ne_nil (h : Spells kind text) : text ≠ [] := by
  rintro rfl
  rcases h.cases_class with ⟨c, cs, hword, -⟩ | hnumber | ⟨marks, quote, body, quoted, heq, -, -, hquoted⟩ | hmark
  · contradiction
  · exact absurd (startsNumber_of_isNumber hnumber (prefix_refl [])) (by decide)
  · obtain ⟨cs, rfl⟩ := hquoted.exists_cons
    simp at heq
  · obtain ⟨c, cs, hmark, -⟩ := head_of_isMark hmark
    contradiction

theorem isWordStart_of_isWord (h : IsWord text) (hstart : text <+: c :: cs) : isWordStart c := by
  obtain ⟨d, ds, rfl, hd, -⟩ := h
  obtain ⟨rfl, -⟩ := cons_prefix_cons.1 hstart
  exact hd

theorem stringStart?_of_isString (h : IsString text) (hstart : text <+: cs) : stringStart? cs ≠ none := by
  obtain ⟨marks, quote, body, quoted, rfl, hmarks, hquote, hquoted⟩ := h
  obtain ⟨r, rfl⟩ := hquoted.exists_cons
  obtain ⟨more, rfl⟩ := hstart
  simp [stringStart?_append hmarks hquote]

theorem not_isWordStart_of_isDigit (h : c.isDigit) : isWordStart c = false := by
  have hdigit := of_decide_eq_true (Bool.and_eq_true_iff.1 h).2
  cases hc : isWordStart c with
  | false => rfl
  | true =>
    rcases Bool.or_eq_true_iff.1 hc with hc | hc
    · -- letters come after the digits
      rcases Bool.or_eq_true_iff.1 hc with hc | hc
      · have hletter := (of_decide_eq_true hc).1
        exact absurd (UInt32.le_trans hletter hdigit) (by decide)
      · have hletter := of_decide_eq_true (Bool.and_eq_true_iff.1 hc).1
        exact absurd (UInt32.le_trans hletter hdigit) (by decide)
    · rw [eq_of_beq hc] at h
      contradiction

theorem not_isWordStart_of_startsNumber (h : startsNumber (c :: cs)) : isWordStart c = false := by
  rcases Bool.or_eq_true_iff.1 h with h | h
  · exact not_isWordStart_of_isDigit h
  · obtain ⟨rfl, -⟩ : c = '.' ∧ _ := by simpa using h
    rfl

theorem stringStart?_of_not_start (hword : isWordStart c = false) (hquote : isQuote c = false) :
    stringStart? (c :: cs) = none := by
  cases h : stringStart? (c :: cs) with
  | none => rfl
  | some found =>
    obtain ⟨marks, quote, rest⟩ := found
    obtain ⟨heq, hmarks, hquote'⟩ := stringStart?_eq_some h
    cases marks with
    | nil =>
      obtain ⟨rfl, -⟩ := List.cons.inj heq
      rw [hquote] at hquote'
      contradiction
    | cons d marks =>
      obtain ⟨rfl, -⟩ := List.cons.inj heq
      rw [isWordStart_of_isMarkLetter (hmarks.2 c (mem_cons_self ..))] at hword
      contradiction

theorem stringStart?_of_startsNumber (h : startsNumber cs) : stringStart? cs = none := by
  cases cs with
  | nil => rfl
  | cons c cs =>
    refine stringStart?_of_not_start (not_isWordStart_of_startsNumber h) ?_
    cases hquote : isQuote c with
    | false => rfl
    | true => rcases Bool.or_eq_true_iff.1 hquote with hc | hc <;> (obtain rfl := eq_of_beq hc; contradiction)

theorem stringStart?_of_isMark (h : IsMark text) (hstart : text <+: cs) : stringStart? cs = none := by
  obtain ⟨c, ds, rfl, -, hword, hquote, -⟩ := head_of_isMark h
  obtain ⟨rest, rfl⟩ := hstart
  exact stringStart?_of_not_start hword hquote

theorem length_le_one_of_isMark (h : IsMark text) (hstart : text <+: c :: cs) (hnumber : startsNumber (c :: cs)) :
    text.length ≤ 1 := by
  obtain ⟨d, ds, rfl, hdigit, -, -, hds⟩ := head_of_isMark h
  obtain ⟨rfl, htail⟩ := cons_prefix_cons.1 hstart
  have hcs : cs.head?.any Char.isDigit = true := by
    simp only [startsNumber, head?_cons, Option.any_some, hdigit, tail_cons, Bool.false_or,
      Bool.and_eq_true] at hnumber
    exact hnumber.2
  cases ds with
  | nil => exact Nat.le_refl 1
  | cons e ds =>
    rw [head?_eq_of_starts htail] at hcs
    rw [head?_cons, hcs] at hds
    contradiction

theorem longestMatch_number (h : startsNumber (c :: cs)) :
    LongestMatch (c :: cs) (number (c :: cs)).2 (number (c :: cs)).1 := by
  refine ⟨spells_number h, number_starts _, fun other text hother hstart => ?_⟩
  rcases hother.cases_class with hword | hnumber | hstring | hmark
  · have hc := isWordStart_of_isWord hword hstart
    rw [not_isWordStart_of_startsNumber h] at hc
    contradiction
  · exact length_le_number hnumber hstart
  · exact absurd (stringStart?_of_startsNumber h) (stringStart?_of_isString hstring hstart)
  · have hle := length_le_one_of_isMark hmark hstart h
    have hpos := length_pos_iff.2 (spells_number h).ne_nil
    omega

theorem longestMatch_string {marks n} (hstring : stringStart? cs = some (marks, quote, rest))
    (h : string marks quote rest = (.token kind, n)) :
    ∃ text, LongestMatch cs kind text ∧ text.length = n := by
  obtain ⟨rfl, hmarks, hquote⟩ := stringStart?_eq_some hstring
  obtain ⟨read, hread, rfl⟩ := exists_takenAsString hmarks hquote h
  obtain ⟨more, hmore⟩ := hread.starts
  refine ⟨marks ++ read, ⟨hread.spells, ⟨more, by simp [hmore]⟩, fun other text hother hstart => ?_⟩, by simp⟩
  rw [length_append]
  rcases hother.cases_class with hword | hnumber | hquoted | hmark
  · have htake : (marks ++ quote :: rest).takeWhile isWordChar = marks :=
      takeWhile_eq_of_starts (fun c hc => isWordChar_of_isWordStart (isWordStart_of_isMarkLetter (hmarks.2 c hc)))
        (not_isWordChar_of_isQuote hquote) (prefix_refl _)
    have hle := length_le_takeWhile hword.all hstart
    rw [htake] at hle
    omega
  · rw [stringStart?_of_startsNumber (startsNumber_of_isNumber hnumber hstart)] at hstring
    contradiction
  · obtain ⟨body, quoted, rfl, hquoted, hstart⟩ := exists_quoted_of_isString hmarks hquote hquoted hstart
    have hle := hread.longest body quoted hquoted hstart
    rw [length_append]
    omega
  · rw [stringStart?_of_isMark hmark hstart] at hstring
    contradiction

theorem longestMatch_word (hc : isWordStart c) (hstring : stringStart? (c :: cs) = none) :
    LongestMatch (c :: cs) (word (c :: cs)).2 (word (c :: cs)).1 := by
  refine ⟨spells_word hc, takeWhile_prefix _, fun other text hother hstart => ?_⟩
  rcases hother.cases_class with hword | hnumber | hquoted | hmark
  · exact length_le_takeWhile hword.all hstart
  · have hnumber := not_isWordStart_of_startsNumber (startsNumber_of_isNumber hnumber hstart)
    rw [hc] at hnumber
    contradiction
  · exact absurd hstring (stringStart?_of_isString hquoted hstart)
  · obtain ⟨d, ds, rfl, -, hd, -⟩ := head_of_isMark hmark
    obtain ⟨rfl, -⟩ := cons_prefix_cons.1 hstart
    rw [hc] at hd
    contradiction

theorem longestMatch_mark {m} (hnumber : ¬ startsNumber (c :: cs))
    (hstring : stringStart? (c :: cs) = none) (hword : ¬ isWordStart c)
    (h : mark? (c :: cs) = some m) : LongestMatch (c :: cs) m.2 m.1 := by
  obtain ⟨hm, hstarts⟩ := mem_of_mark? h
  refine ⟨spells_of_mem_marks hm, hstarts, fun other text hother hstart => ?_⟩
  rcases hother.cases_class with hword' | hnumber' | hquoted | hmark
  · exact absurd (isWordStart_of_isWord hword' hstart) hword
  · exact absurd (startsNumber_of_isNumber hnumber' hstart) hnumber
  · exact absurd hstring (stringStart?_of_isString hquoted hstart)
  · obtain ⟨m', hm', hle⟩ := mark?_of_isMark hmark hstart
    rw [Option.some.inj (h.symm.trans hm')]
    exact hle

/-- The token that is found spells the text it takes, and no longer text spells a token there. -/
theorem longestMatch_scan {n} (h : scan c cs = (.token kind, n)) :
    ∃ text, LongestMatch (c :: cs) kind text ∧ text.length = n := by
  unfold scan at h
  split at h
  · cases h
  split at h
  · cases h
  split at h
  · cases h
  split at h
  · split at h <;> cases h
  split at h
  · split at h <;> cases h
  split at h
  · rename_i hnumber
    cases h
    exact ⟨_, longestMatch_number hnumber, rfl⟩
  rename_i hnumber
  split at h
  · rename_i hstring
    exact longestMatch_string hstring h
  rename_i hstring
  split at h
  · rename_i hword
    cases h
    exact ⟨_, longestMatch_word hword hstring, rfl⟩
  rename_i hword
  split at h
  · rename_i hmark
    cases h
    exact ⟨_, longestMatch_mark hnumber hstring hword hmark, rfl⟩
  · cases h

end TypeInfer.Token
