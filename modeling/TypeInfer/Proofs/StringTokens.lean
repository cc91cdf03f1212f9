/-
String tokens are exact: marks, a delimiter, the value, and the delimiter again. A scan of the value
stands at some of its characters, since a backslash takes the next one with it (`stands`), and the
delimiter is met at none of them.
-/
import TypeInfer.Proofs.TokenCover

namespace TypeInfer.Token

open List Text

variable {q value rest body : List Char} {quote : Char}

/-- What is left of a text at each place where a scan stands. -/
def stands : List Char → List (List Char)
  | [] => []
  | '\\' :: c :: cs => ('\\' :: c :: cs) :: stands cs
  | c :: cs => (c :: cs) :: stands cs

/-- What a scan passes before it meets the delimiter for the first time. -/
def upTo? (q : List Char) : List Char → Option (List Char)
  | [] => none
  | '\\' :: c :: cs => (upTo? q cs).map ('\\' :: c :: ·)
  | c :: cs => if q.isPrefixOf (c :: cs) then some [] else (upTo? q cs).map (c :: ·)

def delimiters : List (List Char) := ["'", "\"", "'''", "\"\"\""].map String.toList

/-- A string between delimiters, its marks before them and the rest after them. -/
structure Encloses (marks q value rest : List Char) (isBytes : Bool) : Prop where
  few : marks.length ≤ 2
  letters : ∀ c ∈ marks, c.toLower ∈ ['r', 'b', 'u', 'f']
  delimiter : q ∈ delimiters
  bytes : isBytes = true ↔ 'b' ∈ marks ∨ 'B' ∈ marks
  unmet : ∀ r ∈ stands value, ¬ q <+: r
  first : upTo? q (value ++ q ++ rest) = some value
  /-- Between single quotes, a backslash at which the scan stands comes right before each line end. -/
  lines : q.length = 1 → ∀ a b, value = a ++ '\n' :: b → ∃ e, IsLineEnd e ∧ '\\' :: (e ++ b) ∈ stands value

/-! ### Where strings end -/

section

attribute [local simp] stands upTo?

theorem stands_cons {c} (h : c ≠ '\\') (cs : List Char) :
    stands (c :: cs) = (c :: cs) :: stands cs := by
  rw [stands]
  exact fun _ _ hc => absurd hc h

theorem upTo?_cons {c} (h : c ≠ '\\') (cs : List Char) :
    upTo? q (c :: cs) = if q.isPrefixOf (c :: cs) then some [] else (upTo? q cs).map (c :: ·) := by
  rw [upTo?]
  exact fun _ _ hc => absurd hc h

theorem quote_ne_slash (hquote : isQuote quote) : quote ≠ '\\' := by
  rintro rfl
  contradiction

theorem IsLineBody.upTo? (hquote : isQuote quote) (h : IsLineBody quote body) (rest : List Char) :
    (∀ r ∈ stands body, ¬ [quote] <+: r) ∧ Token.upTo? [quote] (body ++ [quote] ++ rest) = some body := by
  have hslash := quote_ne_slash hquote
  have hline : quote ≠ '\n' := by
    rintro rfl
    contradiction
  induction h with
  | nil => simp [upTo?_cons hslash]
  | plain hc hslash' _ _ ih => simp_all [Ne.symm]
  | escaped _ _ ih => simp_all
  | escapedLine _ ih => simp_all

theorem IsBlockBody.upTo? (hquote : isQuote quote) (h : IsBlockBody quote body) (rest : List Char) :
    (∀ r ∈ stands body, ¬ [quote, quote, quote] <+: r) ∧
      Token.upTo? [quote, quote, quote] (body ++ [quote, quote, quote] ++ rest) = some body := by
  have hslash := quote_ne_slash hquote
  induction h with
  | nil => simp [upTo?_cons hslash]
  | @plain c cs hc hopen _ ih =>
    have hnone : ¬ [quote, quote, quote] <+: c :: cs := fun h => hopen (h.trans (prefix_append ..))
    have hpast : ¬ [quote, quote, quote] <+: c :: (cs ++ [quote, quote, quote] ++ rest) := fun h =>
      hopen (prefix_of_prefix_length_le h (prefix_append _ rest) (by simp))
    rw [stands_cons hc, cons_append, cons_append, upTo?_cons hc,
      if_neg (mt isPrefixOf_iff_prefix.1 hpast), ih.2]
    exact ⟨forall_mem_cons.2 ⟨hnone, ih.1⟩, rfl⟩
  | escaped _ ih => simp_all

end

/-- A line end in a string on one line belongs to a backslash. -/
theorem IsLineBody.lines (h : IsLineBody quote body) :
    ∀ a b, body = a ++ '\n' :: b → ∃ e, IsLineEnd e ∧ '\\' :: (e ++ b) ∈ stands body := by
  induction h with
  | nil => simp
  | plain _ hslash hline _ ih =>
    rintro (_ | ⟨x, a⟩) b heq
    · obtain ⟨rfl, -⟩ := List.cons.inj heq
      contradiction
    · obtain ⟨e, he, hmem⟩ := ih a b (List.cons.inj heq).2
      exact ⟨e, he, stands_cons hslash _ ▸ mem_cons_of_mem _ hmem⟩
  | @escaped c cs _ _ ih =>
    rintro (_ | ⟨x, _ | ⟨y, a⟩⟩) b heq
    · simp at heq
    · obtain ⟨rfl, rfl⟩ : c = '\n' ∧ cs = b := by simpa using (List.cons.inj heq).2
      exact ⟨_, .inl rfl, mem_cons_self ..⟩
    · obtain ⟨e, he, hmem⟩ := ih a b (List.cons.inj (List.cons.inj heq).2).2
      exact ⟨e, he, mem_cons_of_mem _ hmem⟩
  | @escapedLine cs _ ih =>
    rintro (_ | ⟨x, _ | ⟨y, _ | ⟨z, a⟩⟩⟩) b heq
    · simp at heq
    · simp at heq
    · obtain ⟨-, rfl⟩ : '\r' = y ∧ cs = b := by simpa using (List.cons.inj heq).2
      exact ⟨_, .inr rfl, mem_cons_self ..⟩
    · obtain ⟨e, he, hmem⟩ := ih a b (List.cons.inj (List.cons.inj (List.cons.inj heq).2).2).2
      exact ⟨e, he, mem_cons_of_mem _ (mem_cons_of_mem _ hmem)⟩

/-! ### The text of a string token -/

theorem IsMarks.letters {marks} (h : IsMarks marks) :
    ∀ c ∈ marks, c.toLower ∈ ['r', 'b', 'u', 'f'] := by
  have hall : "rRbBuUfF".toList.all (fun c => decide (c.toLower ∈ ['r', 'b', 'u', 'f'])) = true := by decide
  exact fun c hc => of_decide_eq_true (all_eq_true.1 hall c (contains_iff_mem.1 (h.2 c hc)))

/-- The spelling of a string is a value between delimiters, whatever comes after it. -/
theorem exists_encloses {value isBytes text} (h : Spells (.str value isBytes) text)
    (rest : List Char) :
    ∃ marks q, text = marks ++ q ++ value.toList ++ q ∧ Encloses marks q value.toList rest isBytes := by
  cases h with
  | @str marks quote body text hmarks hquote h =>
    rw [String.toList_ofList]
    have hquotes : quote = '"' ∨ quote = '\'' := by simpa [isQuote] using hquote
    have hbytes : (marks.any fun c => c == 'b' || c == 'B') = true ↔ 'b' ∈ marks ∨ 'B' ∈ marks := by
      simp [any_eq_true, and_or_left, exists_or]
    cases h with
    | line h =>
      obtain ⟨hunmet, hfirst⟩ := h.upTo? hquote rest
      have hdelimiter : [quote] ∈ delimiters := by rcases hquotes with rfl | rfl <;> decide
      exact ⟨marks, [quote], by simp, hmarks.1, hmarks.letters, hdelimiter, hbytes, hunmet, hfirst, fun _ => h.lines⟩
    | block h =>
      obtain ⟨hunmet, hfirst⟩ := h.upTo? hquote rest
      have hdelimiter : [quote, quote, quote] ∈ delimiters := by rcases hquotes with rfl | rfl <;> decide
      exact ⟨marks, [quote, quote, quote], by simp, hmarks.1, hmarks.letters, hdelimiter, hbytes, hunmet, hfirst, nofun⟩

/-- A string of bytes with an escaped quote and an escaped line end. -/
def escapes : Source := .ofText ⟨"m.py"⟩ "Rb'\\'\\\n'"

theorem tokenize_escapes : tokenize escapes = .ok
    [⟨.str "\\'\\\n" true, escapes.span 0 8⟩, ⟨.newline, escapes.endSpan⟩, ⟨.eof, escapes.endSpan⟩] :=
  eq_ok_of_toOption (by decide +kernel)

end TypeInfer.Token
