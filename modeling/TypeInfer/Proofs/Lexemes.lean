/-
What the lexemes of a text are. Their texts put together are the whole text. What is passed over is
a run of blanks, a comment or a continued line; a token is the longest one that is spelled where it
stands.
-/
import TypeInfer.Proofs.LongestMatch

namespace TypeInfer.Token

open List

variable (cs : List Char) {kind : TokenKind} {text : List Char}

/-! ### Kinds of text -/

/-- Spaces, tabs and form feeds. -/
def IsBlanks (text : List Char) : Prop := ∀ c ∈ text, isBlank c

def IsComment (text : List Char) : Prop := ∃ cs, text = '#' :: cs ∧ ∀ c ∈ cs, isLineEnd c = false

def IsLineEnd (text : List Char) : Prop := text = ['\n'] ∨ text = ['\r', '\n']

/-- A backslash and the line end that it takes away. -/
def IsContinuation (text : List Char) : Prop := ∃ cs, text = '\\' :: cs ∧ IsLineEnd cs

/-- Text that stands for nothing. -/
def IsSkipped (text : List Char) : Prop := IsBlanks text ∨ IsComment text ∨ IsContinuation text

/-- The text is of the kind that the lexeme says. -/
def Lexeme.Fits : Lexeme → List Char → Prop
  | .blank, text => IsSkipped text
  | .lineEnd, text => IsLineEnd text
  | .token kind, text => Spells kind text
  | .unterminated, _ | .stray, _ => True

/-! ### Lexemes -/

theorem take_length_takeWhile (p : Char → Bool) (cs : List Char) : cs.take (cs.takeWhile p).length = cs.takeWhile p :=
  (prefix_iff_eq_take.1 ( takeWhile_prefix p)).symm

theorem LongestMatch.eq_take {c cs} (h : LongestMatch (c :: cs) kind text) :
    c :: cs.take (text.length - 1) = text := by
  obtain ⟨d, text, rfl⟩ := exists_cons_of_ne_nil h.spells.ne_nil
  obtain ⟨rfl, hstart⟩ := cons_prefix_cons.1 h.starts
  rw [length_cons, Nat.add_sub_cancel, ← prefix_iff_eq_take.1 hstart]

theorem LongestMatch.fits {c cs} (h : LongestMatch (c :: cs) kind text) :
    (Lexeme.token kind).Fits (c :: cs.take (text.length - 1)) := by
  rw [h.eq_take]
  exact h.spells

theorem string_cases (marks : List Char) (quote : Char) (cs : List Char) :
    (∃ kind n, string marks quote cs = (.token kind, n)) ∨ ∃ n, string marks quote cs = (.unterminated, n) := by
  simp only [string]
  split
  · split
    · exact .inl ⟨_, _, rfl⟩
    · exact .inr ⟨_, rfl⟩
  · split
    · exact .inl ⟨_, _, rfl⟩
    · split
      · exact .inl ⟨_, _, rfl⟩
      · exact .inr ⟨_, rfl⟩

/-- The text that a lexeme takes is of its kind. -/
theorem fits_scan (c : Char) (cs : List Char) : (scan c cs).1.Fits (c :: cs.take ((scan c cs).2 - 1)) := by
  unfold scan
  split
  · rename_i hc
    left
    simp only [Nat.add_sub_cancel_left, take_length_takeWhile]
    exact forall_mem_cons.2 ⟨hc, fun d hd => all_eq_true.1 all_takeWhile d hd⟩
  split
  · rename_i hc
    obtain rfl : c = '#' := by simpa using hc
    simp only [Nat.add_sub_cancel_left, take_length_takeWhile]
    exact .inr (.inl ⟨_, rfl, fun d hd => by simpa using all_eq_true.1 all_takeWhile d hd⟩)
  split
  · rename_i hc
    obtain rfl : c = '\n' := by simpa using hc
    exact .inl rfl
  split
  · rename_i hc
    obtain rfl : c = '\r' := by simpa using hc
    split
    · rename_i hnext
      cases cs with
      | nil => simp at hnext
      | cons d cs =>
        obtain rfl : d = '\n' := by simpa using hnext
        exact .inr rfl
    · trivial
  split
  · rename_i hc
    obtain rfl : c = '\\' := by simpa using hc
    split
    · exact .inr (.inr ⟨_, rfl, .inl rfl⟩)
    · exact .inr (.inr ⟨_, rfl, .inr rfl⟩)
    · trivial
  split
  · rename_i hnumber
    exact (longestMatch_number hnumber).fits
  rename_i hnumber
  split
  · rename_i marks quote rest hstring
    rcases string_cases marks quote rest with ⟨kind, n, h⟩ | ⟨n, h⟩
    · rw [h]
      obtain ⟨text, hmatch, rfl⟩ := longestMatch_string hstring h
      exact hmatch.fits
    · rw [h]
      trivial
  rename_i hstring
  split
  · rename_i hword
    exact (longestMatch_word hword hstring).fits
  rename_i hword
  split
  · rename_i hmark
    exact (longestMatch_mark hnumber hstring hword hmark).fits
  · trivial

theorem flatMap_lexemes : (lexemes cs).flatMap Prod.snd = cs := by
  fun_induction lexemes cs with
  | case1 => rfl
  | case2 c cs lexeme length hscan ih => simp [ih]

theorem fits_lexemes : ∀ l ∈ lexemes cs, l.1.Fits l.2 := by
  fun_induction lexemes cs with
  | case1 => nofun
  | case2 c cs lexeme length hscan ih =>
    refine forall_mem_cons.2 ⟨?_, ih⟩
    have hfits := fits_scan c cs
    rwa [hscan] at hfits

/-- A token takes the longest text that spells one. -/
theorem longestMatch_lexemes {cs ls more} (h : lexemes cs = ls ++ (.token kind, text) :: more) :
    LongestMatch (text ++ more.flatMap Prod.snd) kind text := by
  fun_induction lexemes cs generalizing ls with
  | case1 => simp at h
  | case2 c cs lexeme length hscan ih =>
    cases ls with
    | cons l ls => exact ih (List.cons.inj h).2
    | nil =>
      obtain ⟨hl, rfl⟩ := List.cons.inj h
      obtain ⟨rfl, htext⟩ := Prod.mk.inj hl
      obtain ⟨found, hmatch, hlength⟩ := longestMatch_scan hscan
      have hfound := hmatch.eq_take
      rw [hlength, htext] at hfound
      have hwhole : text ++ cs.drop (length - 1) = c :: cs := by
        rw [← htext, cons_append, take_append_drop]
      rw [flatMap_lexemes, hwhole, hfound]
      exact hmatch

end TypeInfer.Token
