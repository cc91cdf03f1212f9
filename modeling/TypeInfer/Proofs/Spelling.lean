/-
How tokens are spelled: `Spells` gives the spellings of each kind of token. A number is read part by
part, each as far as it goes (`Greedy`); it is the longest since no part can go on with a character
that starts one of those after it.
-/
import TypeInfer.Token.Scan

namespace TypeInfer.Token

open List

variable {c : Char} {p isDigit : Char → Bool} {y a fraction : List Char}

/-! ### Spellings -/

def IsWord (text : List Char) : Prop := ∃ c cs, text = c :: cs ∧ isWordStart c ∧ ∀ d ∈ cs, isWordChar d

/-- A digit, then digits and bars. -/
def IsDigits (text : List Char) : Prop := ∃ d ds, text = d :: ds ∧ d.isDigit ∧ ∀ c ∈ ds, isDigitOrBar c

/-- A number with a base other than ten. -/
def IsBased (text : List Char) : Prop :=
  ∃ letter isDigit digits, text = '0' :: letter :: digits ∧ baseDigit? letter = some isDigit ∧ digits ≠ [] ∧
    ∀ c ∈ digits, isDigit c

/-- No fraction, or a point and what follows it. -/
def IsFraction (text : List Char) : Prop := text = [] ∨ ∃ cs, text = '.' :: cs ∧ ∀ c ∈ cs, isDigitOrBar c

/-- Digits with or without a fraction, or a fraction with a digit. -/
def IsMantissa (whole fraction : List Char) : Prop :=
  IsDigits whole ∧ IsFraction fraction ∨ whole = [] ∧ ∃ cs, fraction = '.' :: cs ∧ IsDigits cs

/-- No exponent, or a letter, a sign if there is one, and digits. -/
def IsExponent (text : List Char) : Prop :=
  text = [] ∨ ∃ letter sign digits, text = letter :: (sign ++ digits) ∧ (letter = 'e' ∨ letter = 'E') ∧
    (sign = [] ∨ sign = ['+'] ∨ sign = ['-']) ∧ digits ≠ [] ∧ ∀ c ∈ digits, c.isDigit

/-- The letter of an imaginary number. -/
def isUnit (c : Char) : Bool := c == 'j' || c == 'J'

/-- The marks before a string. -/
def IsMarks (marks : List Char) : Prop := marks.length ≤ 2 ∧ ∀ c ∈ marks, isMarkLetter c

/-- What may stand between the quotes of a string on one line. -/
inductive IsLineBody (quote : Char) : List Char → Prop where
  | nil : IsLineBody quote []
  | plain {c cs} (hquote : c ≠ quote) (hslash : c ≠ '\\') (hline : isLineEnd c = false) (h : IsLineBody quote cs) :
    IsLineBody quote (c :: cs)
  | escaped {c cs} (hreturn : c ≠ '\r') (h : IsLineBody quote cs) : IsLineBody quote ('\\' :: c :: cs)
  | escapedLine {cs} (h : IsLineBody quote cs) : IsLineBody quote ('\\' :: '\r' :: '\n' :: cs)

/-- What may stand before the three closing quotes. -/
inductive IsBlockBody (quote : Char) : List Char → Prop where
  | nil : IsBlockBody quote []
  | plain {c cs} (hslash : c ≠ '\\') (hopen : ¬ [quote, quote, quote] <+: c :: cs ++ [quote, quote, quote])
    (h : IsBlockBody quote cs) : IsBlockBody quote (c :: cs)
  | escaped {c cs} (h : IsBlockBody quote cs) : IsBlockBody quote ('\\' :: c :: cs)

/-- A body with the quotes around it. -/
inductive IsQuoted (quote : Char) : (body text : List Char) → Prop where
  | line {body} (h : IsLineBody quote body) : IsQuoted quote body (quote :: body ++ [quote])
  | block {body} (h : IsBlockBody quote body) :
    IsQuoted quote body (quote :: quote :: quote :: body ++ [quote, quote, quote])

/-- The spellings of each kind of token. -/
inductive Spells : TokenKind → List Char → Prop where
  | keyword (word : Keyword) : Spells (.keyword word) word.text.toList
  | ident {text} (h : IsWord text) (hword : Keyword.ofText? (String.ofList text) = none) :
    Spells (.ident (String.ofList text)) text
  | based {text} (h : IsBased text) : Spells (.int (String.ofList text)) text
  | int {text} (h : IsDigits text) : Spells (.int (String.ofList text)) text
  | float {whole fraction exponent} (hmantissa : IsMantissa whole fraction) (hexponent : IsExponent exponent)
    (hreal : fraction ≠ [] ∨ exponent ≠ []) :
    Spells (.float (String.ofList (whole ++ fraction ++ exponent))) (whole ++ fraction ++ exponent)
  | imaginary {whole fraction exponent c} (hmantissa : IsMantissa whole fraction) (hexponent : IsExponent exponent)
    (hunit : isUnit c) :
    Spells (.imaginary (String.ofList (whole ++ fraction ++ exponent ++ [c]))) (whole ++ fraction ++ exponent ++ [c])
  | str {marks quote body text} (hmarks : IsMarks marks) (hquote : isQuote quote) (h : IsQuoted quote body text) :
    Spells (.str (String.ofList body) (marks.any fun c => c == 'b' || c == 'B')) (marks ++ text)
  | symbol (mark : Symbol) : Spells (.symbol mark) mark.text.toList
  | augAssign (op : Operator) : Spells (.augAssign op) (op.symbol.toList ++ ['='])

theorem Spells.not_isLayout {kind text} (h : Spells kind text) : kind.isLayout = false := by
  cases h <;> rfl

/-- `text` spells a token at the start of `cs`, and no longer text does. -/
structure LongestMatch (cs : List Char) (kind : TokenKind) (text : List Char) : Prop where
  spells : Spells kind text
  starts : text <+: cs
  longest : ∀ other text', Spells other text' → text' <+: cs → text'.length ≤ text.length

/-! ### Greedy parts -/

variable {letter : Char} {x cs text whole : List Char}

theorem head?_eq_of_starts (h : c :: x <+: cs) : cs.head? = some c := by
  obtain ⟨rest, rfl⟩ := h
  rfl

theorem length_le_takeWhile (hy : ∀ c ∈ y, p c) (h : y <+: cs) :
    y.length ≤ (cs.takeWhile p).length := by
  obtain ⟨rest, rfl⟩ := h
  rw [takeWhile_append_of_pos hy, length_append]
  omega

theorem takeWhile_eq_of_starts (hy : ∀ c ∈ y, p c) (hc : p c = false) (h : y ++ c :: x <+: cs) :
    cs.takeWhile p = y := by
  obtain ⟨rest, rfl⟩ := h
  rw [append_assoc, takeWhile_append_of_pos hy, cons_append,
    takeWhile_cons_of_neg (by simp [hc]), append_nil]

/-- `part` takes as much as any text of the class `P` can, and all of such a text before a character that
`follow` allows. -/
structure Greedy (P : List Char → Prop) (follow : Char → Bool) (part : List Char → List Char) : Prop where
  length_le : ∀ {y cs}, P y → y <+: cs → y.length ≤ (part cs).length
  eq_part : ∀ {y c x cs}, P y → follow c → y ++ c :: x <+: cs → y = part cs

theorem prefix_drop_of_append (h : a ++ x <+: cs) : x <+: cs.drop a.length := by
  obtain ⟨rest, rfl⟩ := h
  exact ⟨rest, by simp⟩

/-- Two parts after one another, when what the second starts with may follow the first. -/
theorem Greedy.append {P Q follow follow' part part'} (h : Greedy P follow part)
    (h' : Greedy Q follow' part') (hhead : ∀ c y, Q (c :: y) → follow c)
    (hfollow : ∀ c, follow' c → follow c) :
    Greedy (fun y => ∃ a b, y = a ++ b ∧ P a ∧ Q b) follow'
      (fun cs => part cs ++ part' (cs.drop (part cs).length)) := by
  constructor
  · rintro y cs ⟨a, b, rfl, ha, hb⟩ hy
    rw [length_append, length_append]
    cases b with
    | nil =>
      have hle := h.length_le ha ((prefix_append a []).trans hy)
      simp only [length_nil]
      omega
    | cons c b =>
      obtain rfl := h.eq_part ha (hhead c b hb) hy
      have hle := h'.length_le hb (prefix_drop_of_append hy)
      omega
  · rintro y c x cs ⟨a, b, rfl, ha, hb⟩ hc hy
    rw [append_assoc] at hy
    obtain rfl : a = part cs := by
      cases b with
      | nil => exact h.eq_part ha (hfollow c hc) hy
      | cons d b => exact h.eq_part ha (hhead d b hb) hy
    rw [← h'.eq_part hb hc (prefix_drop_of_append hy)]

theorem greedy_takeWhile (p : Char → Bool) : Greedy (fun y => ∀ c ∈ y, p c) (fun c => !p c) (·.takeWhile p) where
  length_le hy h := length_le_takeWhile hy h
  eq_part hy hc h := (takeWhile_eq_of_starts hy (by simpa using hc) h).symm

/-! ### Numbers -/

theorem greedy_fractionPart : Greedy IsFraction (fun c => !isDigitOrBar c && c != '.') fractionPart where
  length_le := by
    rintro y cs (rfl | ⟨ds, rfl, hds⟩) hy
    · exact Nat.zero_le _
    · obtain ⟨rest, rfl⟩ := hy
      simpa [fractionPart] using length_le_takeWhile hds (prefix_append ds rest)
  eq_part := by
    rintro y c x cs (rfl | ⟨ds, rfl, hds⟩) hc hy
    · obtain ⟨rest, rfl⟩ := hy
      obtain ⟨-, hpoint⟩ : isDigitOrBar c = false ∧ c ≠ '.' := by simpa using hc
      simp only [nil_append, cons_append]
      rw [fractionPart]
      rintro cs' hcs'
      exact hpoint (List.cons.inj hcs').1
    · obtain ⟨rest, rfl⟩ := hy
      have hdigit : isDigitOrBar c = false := by simp only [Bool.and_eq_true, Bool.not_eq_true'] at hc; exact hc.1
      simp only [cons_append, fractionPart]
      rw [takeWhile_eq_of_starts hds hdigit (prefix_append _ rest)]

theorem signPart_append {sign digits rest} (hsign : sign = [] ∨ sign = ['+'] ∨ sign = ['-'])
    (hne : digits ≠ []) (hdigits : ∀ c ∈ digits, c.isDigit) :
    signPart (sign ++ digits ++ rest) = sign := by
  rcases hsign with rfl | rfl | rfl
  · cases digits with
    | nil => contradiction
    | cons d digits =>
      have hd := hdigits d (mem_cons_self ..)
      simp only [nil_append, cons_append, signPart]
      rw [if_neg]
      rintro h
      rcases Bool.or_eq_true_iff.1 h with h | h <;> (rw [eq_of_beq h] at hd; contradiction)
  · rfl
  · rfl

theorem exponentPart_append {sign digits rest} (hletter : letter = 'e' ∨ letter = 'E')
    (hsign : sign = [] ∨ sign = ['+'] ∨ sign = ['-']) (hne : digits ≠ [])
    (hdigits : ∀ c ∈ digits, c.isDigit) :
    exponentPart (letter :: (sign ++ digits ++ rest)) = letter :: (sign ++ (digits ++ rest.takeWhile Char.isDigit)) := by
  have htake : (digits ++ rest).takeWhile Char.isDigit = digits ++ rest.takeWhile Char.isDigit :=
    takeWhile_append_of_pos hdigits
  have hletter : (letter == 'e' || letter == 'E') = true := by simpa using hletter
  simp only [exponentPart, hletter, if_true, signPart_append hsign hne hdigits]
  rw [append_assoc, drop_left, htake, if_neg (by simp [hne]), cons_append]

theorem eq_of_isUnit (h : isUnit c) : c = 'j' ∨ c = 'J' := by
  simpa [isUnit] using h

theorem greedy_exponentPart : Greedy IsExponent isUnit exponentPart where
  length_le := by
    rintro y cs (rfl | ⟨letter, sign, digits, rfl, hletter, hsign, hne, hdigits⟩) hy
    · exact Nat.zero_le _
    · obtain ⟨rest, rfl⟩ := hy
      rw [cons_append, exponentPart_append hletter hsign hne hdigits]
      simp only [length_cons, length_append]
      omega
  eq_part := by
    rintro y c x cs (rfl | ⟨letter, sign, digits, rfl, hletter, hsign, hne, hdigits⟩) hc ⟨rest, rfl⟩
    · rcases eq_of_isUnit hc with rfl | rfl <;> rfl
    · have happend : letter :: (sign ++ digits) ++ c :: x ++ rest = letter :: (sign ++ digits ++ (c :: x ++ rest)) := by
        simp
      rw [happend, exponentPart_append hletter hsign hne hdigits]
      rcases eq_of_isUnit hc with rfl | rfl <;> simp

theorem greedy_imaginaryPart : Greedy (fun y => y = [] ∨ ∃ c, y = [c] ∧ isUnit c) (fun _ => false) imaginaryPart where
  length_le := by
    rintro y cs (rfl | ⟨c, rfl, hc⟩) hy
    · exact Nat.zero_le _
    · obtain ⟨rest, rfl⟩ := hy
      rcases eq_of_isUnit hc with rfl | rfl <;> simp [imaginaryPart]
  eq_part := by
    rintro y c x cs hy hc
    contradiction

/-- A decimal number of any kind. -/
def IsDecimal (text : List Char) : Prop :=
  ∃ whole fraction exponent unit, text = whole ++ fraction ++ exponent ++ unit ∧ IsMantissa whole fraction ∧
    IsExponent exponent ∧ (unit = [] ∨ ∃ c, unit = [c] ∧ isUnit c)

theorem IsDigits.all (h : IsDigits text) : ∀ c ∈ text, isDigitOrBar c := by
  obtain ⟨d, ds, rfl, hd, hds⟩ := h
  exact forall_mem_cons.2 ⟨by simp [isDigitOrBar, hd], hds⟩

theorem IsMantissa.all (h : IsMantissa whole fraction) : ∀ c ∈ whole, isDigitOrBar c := by
  rcases h with ⟨h, -⟩ | ⟨rfl, -⟩
  · exact h.all
  · nofun

theorem IsMantissa.isFraction (h : IsMantissa whole fraction) : IsFraction fraction := by
  rcases h with ⟨-, h⟩ | ⟨-, cs, rfl, h⟩
  · exact h
  · exact .inr ⟨cs, rfl, h.all⟩

theorem length_le_decimalNumber (h : IsDecimal text) (hstart : text <+: cs) :
    text.length ≤ (decimalNumber cs).1.length := by
  obtain ⟨whole, fraction, exponent, unit, rfl, hparts, hexponent, hunit⟩ := h
  have hmantissa := (greedy_takeWhile isDigitOrBar).append greedy_fractionPart
    (by
      rintro c y (hc | ⟨ds, hc, -⟩)
      · contradiction
      · obtain ⟨rfl, -⟩ := List.cons.inj hc
        rfl)
    (by
      intro c hc
      simp only [Bool.and_eq_true] at hc
      exact hc.1)
  have hreal := hmantissa.append greedy_exponentPart
    (by
      rintro c y (hc | ⟨letter, sign, digits, hc, hletter, -⟩)
      · contradiction
      · obtain ⟨rfl, -⟩ := List.cons.inj hc
        rcases hletter with rfl | rfl <;> rfl)
    (by
      intro c hc
      rcases eq_of_isUnit hc with rfl | rfl <;> rfl)
  have hnumber := hreal.append greedy_imaginaryPart
    (by
      rintro c y (hc | ⟨d, hc, hd⟩)
      · contradiction
      · obtain ⟨rfl, -⟩ := List.cons.inj hc
        exact hd)
    nofun
  exact hnumber.length_le
    ⟨_, _, rfl, ⟨_, _, rfl, ⟨_, _, rfl, hparts.all, hparts.isFraction⟩, hexponent⟩, hunit⟩ hstart

theorem isFraction_fractionPart (cs : List Char) : IsFraction (fractionPart cs) := by
  unfold fractionPart
  split
  · exact .inr ⟨_, rfl, fun c hc => all_eq_true.1 all_takeWhile c hc⟩
  · exact .inl rfl

theorem isExponent_exponentPart (cs : List Char) : IsExponent (exponentPart cs) := by
  unfold exponentPart
  split
  · rename_i letter cs
    split
    · rename_i hletter
      simp only
      split
      · exact .inl rfl
      · rename_i hne
        refine .inr ⟨letter, signPart cs, _, rfl, by simpa using hletter, ?_, by simpa using hne,
          fun c hc => all_eq_true.1 all_takeWhile c hc⟩
        unfold signPart
        split
        · split <;> simp_all
        · exact .inl rfl
    · exact .inl rfl
  · exact .inl rfl

theorem imaginaryPart_cases (cs : List Char) : imaginaryPart cs = [] ∨ ∃ c, imaginaryPart cs = [c] ∧ isUnit c := by
  unfold imaginaryPart
  split
  · split
    · exact .inr ⟨_, rfl, by assumption⟩
    · exact .inl rfl
  · exact .inl rfl

/-- What a number starts with: a digit, or a point and a digit. -/
def startsNumber (cs : List Char) : Bool :=
  cs.head?.any Char.isDigit || (cs.head? == some '.' && cs.tail.head?.any Char.isDigit)

theorem isMantissa_parts (h : startsNumber cs) :
    IsMantissa (cs.takeWhile isDigitOrBar) (fractionPart (cs.drop (cs.takeWhile isDigitOrBar).length)) := by
  rcases Bool.or_eq_true_iff.1 h with h | h
  · obtain ⟨d, ds, rfl, hd⟩ : ∃ d ds, cs = d :: ds ∧ d.isDigit := by
      cases cs with
      | nil => contradiction
      | cons d ds => exact ⟨d, ds, rfl, h⟩
    refine .inl ⟨?_, isFraction_fractionPart _⟩
    rw [takeWhile_cons_of_pos (by simp [isDigitOrBar, hd])]
    exact ⟨d, _, rfl, hd, fun c hc => all_eq_true.1 all_takeWhile c hc⟩
  · obtain ⟨d, ds, rfl, hd⟩ : ∃ d ds, cs = '.' :: d :: ds ∧ d.isDigit := by
      obtain ⟨hpoint, hd⟩ := Bool.and_eq_true_iff.1 h
      match cs with
      | [] => contradiction
      | [c] => contradiction
      | c :: d :: ds => exact ⟨d, ds, by simpa using hpoint, hd⟩
    refine .inr ⟨rfl, _, rfl, ?_⟩
    rw [takeWhile_cons_of_pos (by simp [isDigitOrBar, hd])]
    exact ⟨d, _, rfl, hd, fun c hc => all_eq_true.1 all_takeWhile c hc⟩

theorem isDigits_of_isMantissa (h : IsMantissa whole []) : IsDigits whole := by
  rcases h with ⟨h, -⟩ | ⟨-, cs, h, -⟩
  · exact h
  · contradiction

theorem spells_decimalNumber (h : startsNumber cs) : Spells (decimalNumber cs).2 (decimalNumber cs).1 := by
  have hmantissa := isMantissa_parts h
  simp only [decimalNumber]
  generalize cs.takeWhile isDigitOrBar = whole at hmantissa ⊢
  generalize fractionPart _ = fraction at hmantissa ⊢
  have hexponent := isExponent_exponentPart (cs.drop (whole ++ fraction).length)
  generalize exponentPart _ = exponent at hexponent ⊢
  rcases imaginaryPart_cases (cs.drop (whole ++ fraction ++ exponent).length) with hunit | ⟨c, hunit, hc⟩
  · rw [hunit, append_nil]
    by_cases hint : (fraction.isEmpty && exponent.isEmpty) = true
    · obtain ⟨rfl, rfl⟩ : fraction = [] ∧ exponent = [] := by simpa using hint
      simpa using Spells.int (isDigits_of_isMantissa hmantissa)
    · rw [if_neg hint]
      exact .float hmantissa hexponent (by simpa [Decidable.imp_iff_not_or] using hint)
  · rw [hunit]
    exact .imaginary hmantissa hexponent hc

/-! ### Numbers with a base -/

theorem eq_of_baseDigit? (h : baseDigit? letter = some isDigit) :
    letter = 'x' ∨ letter = 'X' ∨ letter = 'o' ∨ letter = 'O' ∨ letter = 'b' ∨ letter = 'B' := by
  unfold baseDigit? at h
  grind

theorem isBased_basedNumber? (h : basedNumber? cs = some text) : IsBased text ∧ text <+: cs := by
  unfold basedNumber? at h
  split at h
  · rename_i letter cs
    obtain ⟨isDigit, hletter, h⟩ := Option.bind_eq_some_iff.1 h
    simp only at h
    split at h
    · contradiction
    · rename_i hne
      obtain rfl := Option.some.inj h
      refine ⟨⟨letter, isDigit, _, rfl, hletter, by simpa using hne, fun c hc =>
        all_eq_true.1 all_takeWhile c hc⟩, ?_⟩
      exact (prefix_cons_inj _).2 ((prefix_cons_inj _).2 ( takeWhile_prefix _))
  · contradiction

/-- A number with a base is found, and the longest one. -/
theorem basedNumber?_of_isBased (h : IsBased text) (hstart : text <+: cs) :
    ∃ found, basedNumber? cs = some found ∧ text.length ≤ found.length := by
  obtain ⟨letter, isDigit, digits, rfl, hletter, hne, hdigits⟩ := h
  obtain ⟨rest, rfl⟩ := hstart
  have hle := length_le_takeWhile hdigits (prefix_append digits rest)
  refine ⟨'0' :: letter :: (digits ++ rest).takeWhile isDigit, ?_, by simpa using hle⟩
  simp only [cons_append, basedNumber?, hletter]
  have hfound : (digits ++ rest).takeWhile isDigit ≠ [] := by
    rw [← length_pos_iff] at hne ⊢
    omega
  exact if_neg fun h => hfound (List.isEmpty_iff.1 h)

theorem length_decimalNumber_of_base (h : baseDigit? letter = some isDigit) :
    (decimalNumber ('0' :: letter :: cs)).1.length = 1 := by
  rcases eq_of_baseDigit? h with rfl | rfl | rfl | rfl | rfl | rfl <;> rfl

def IsNumber (text : List Char) : Prop := IsBased text ∨ IsDecimal text

theorem length_le_number (h : IsNumber text) (hstart : text <+: cs) : text.length ≤ (number cs).1.length := by
  unfold number
  split
  · rename_i found hfound
    rcases h with h | h
    · obtain ⟨found', hfound', hle⟩ := basedNumber?_of_isBased h hstart
      obtain rfl : found' = found := Option.some.inj (hfound'.symm.trans hfound)
      exact hle
    · obtain ⟨⟨letter, isDigit, digits, rfl, hletter, -⟩, rest, rfl⟩ := isBased_basedNumber? hfound
      have hle := length_le_decimalNumber h hstart
      rw [cons_append, cons_append, length_decimalNumber_of_base hletter] at hle
      simp only [length_cons]
      omega
  · rename_i hnone
    rcases h with h | h
    · obtain ⟨found, hfound, -⟩ := basedNumber?_of_isBased h hstart
      rw [hnone] at hfound
      contradiction
    · exact length_le_decimalNumber h hstart

theorem spells_number (h : startsNumber cs) : Spells (number cs).2 (number cs).1 := by
  unfold number
  split
  · rename_i hfound
    exact .based (isBased_basedNumber? hfound).1
  · exact spells_decimalNumber h

theorem prefix_append_of_drop (ha : a <+: cs) (hx : x <+: cs.drop a.length) : a ++ x <+: cs := by
  obtain ⟨rest, rfl⟩ := ha
  obtain ⟨rest', hrest⟩ := hx
  rw [drop_left] at hrest
  exact ⟨rest', by rw [append_assoc, hrest]⟩

theorem fractionPart_starts (cs : List Char) : fractionPart cs <+: cs := by
  unfold fractionPart
  split
  · exact (prefix_cons_inj _).2 ( takeWhile_prefix _)
  · exact nil_prefix

theorem signPart_starts (cs : List Char) : signPart cs <+: cs := by
  unfold signPart
  split
  · split
    · exact (prefix_cons_inj _).2 nil_prefix
    · exact nil_prefix
  · exact nil_prefix

theorem exponentPart_starts (cs : List Char) : exponentPart cs <+: cs := by
  unfold exponentPart
  split
  · split
    · simp only
      split
      · exact nil_prefix
      · exact (prefix_cons_inj _).2 (prefix_append_of_drop (signPart_starts _) ( takeWhile_prefix _))
    · exact nil_prefix
  · exact nil_prefix

theorem imaginaryPart_starts (cs : List Char) : imaginaryPart cs <+: cs := by
  unfold imaginaryPart
  split
  · split
    · exact (prefix_cons_inj _).2 nil_prefix
    · exact nil_prefix
  · exact nil_prefix

theorem number_starts (cs : List Char) : (number cs).1 <+: cs := by
  unfold number
  split
  · rename_i hfound
    exact (isBased_basedNumber? hfound).2
  · exact prefix_append_of_drop (prefix_append_of_drop (prefix_append_of_drop ( takeWhile_prefix _)
      (fractionPart_starts _)) (exponentPart_starts _)) (imaginaryPart_starts _)

theorem startsNumber_of_isDigits (h : IsDigits text) (rest : List Char) : startsNumber (text ++ rest) := by
  obtain ⟨d, ds, rfl, hd, -⟩ := h
  simp [startsNumber, hd]

theorem startsNumber_of_isNumber (h : IsNumber text) (hstart : text <+: cs) : startsNumber cs := by
  obtain ⟨rest, rfl⟩ := hstart
  rcases h with ⟨letter, isDigit, digits, rfl, -⟩ | ⟨whole, fraction, exponent, unit, rfl, hparts, -⟩
  · rfl
  · rcases hparts with ⟨hwhole, -⟩ | ⟨rfl, cs, rfl, d, ds, rfl, hd, -⟩
    · simpa using startsNumber_of_isDigits hwhole _
    · simp [startsNumber, hd]

end TypeInfer.Token
