/-
Reading JSON text gives back the value that was written, whatever follows it. Two
kinds of values are never written by the stored forms and are left out (`Plain`);
a number of 64 bits or more is read as a text of digits (`reread`).
-/
import TypeInfer.Json.Reader

namespace TypeInfer.Json

open List

variable {c : Char} {rest more : List Char} {fuel code : Nat} (n : Nat) (cs : List Char)
  (parts : List TextPart) {j item value : Json} (key : String) {members : List (String × Json)}

/-! ### Texts -/

/-- The characters of a text as they are written, between the quotes. -/
def escaped (cs : List Char) : List Char := cs.flatMap fun c => (escapeChar c).toList

theorem toList_renderText (s : String) : (renderText s).toList = '"' :: (escaped s.toList ++ ['"']) := by
  simp [renderText, escaped, flatMap_map]

theorem toList_hex4 : ∀ n < 0x20,
    ∃ a b c d, (hex4 n).toList = [a, b, c, d] ∧ unit? a b c d = some n := by
  have h : ∀ n < 0x20, ∃ a b c d, List.replicate (4 - (Nat.toDigits 16 n).length) '0' ++ Nat.toDigits 16 n =
      [a, b, c, d] ∧ unit? a b c d = some n := by
    intro n hn
    refine ⟨'0', '0', Nat.digitChar (n / 16), Nat.digitChar (n % 16), ?_⟩
    revert n
    decide
  intro n hn
  obtain ⟨a, b, c, d, hd, hu⟩ := h n hn
  exact ⟨a, b, c, d, by simpa [hex4, Text.hex] using hd, hu⟩

/-- The part that a character is read as; some controls are written by their numbers. -/
def partOf (c : Char) : TextPart :=
  if c.toNat < 0x20 ∧ c ≠ '\n' ∧ c ≠ '\r' ∧ c ≠ '\t' ∧ c.toNat ≠ 0x08 ∧ c.toNat ≠ 0x0c then
    .unit c.toNat
  else .char c

theorem eq_ofNat_of_toNat {n} (h : c.toNat = n) : c = Char.ofNat n := by
  rw [← h, Char.ofNat_toNat]

section

-- The equations of the reader are made here, once for the lemmas that open it.
attribute [local simp] textParts?

theorem textParts?_short {d} (h : shortEscape? d = some c) (hu : d ≠ 'u') (rest : List Char) :
    textParts? ('\\' :: d :: rest) = (textParts? rest).map fun p => (.char c :: p.1, p.2) := by
  simp only [textParts?, h, hu, Option.bind_eq_bind, Option.bind_some, false_imp_iff, implies_true]
  cases textParts? rest <;> rfl

theorem textParts?_unit {a b d} (h : unit? a b c d = some code) (rest : List Char) :
    textParts? ('\\' :: 'u' :: a :: b :: c :: d :: rest) =
      (textParts? rest).map fun p => (.unit code :: p.1, p.2) := by
  simp only [textParts?, h, Option.bind_eq_bind, Option.bind_some]
  cases textParts? rest <;> rfl

theorem textParts?_char (hq : c ≠ '"') (hb : c ≠ '\\') (hc : ¬ c.toNat < 0x20) (rest : List Char) :
    textParts? (c :: rest) = (textParts? rest).map fun p => (.char c :: p.1, p.2) := by
  simp only [textParts?, hb, hc, or_self, if_false, false_imp_iff, implies_true]
  cases textParts? rest <;> rfl

end

theorem textParts?_escapeChar (c : Char) (rest : List Char) :
    textParts? ((escapeChar c).toList ++ rest) =
      (textParts? rest).map fun p => (partOf c :: p.1, p.2) := by
  rw [escapeChar, partOf]
  iterate 5
    split
    · subst_vars
      exact textParts?_short rfl (by decide) rest
  iterate 2
    split
    · rename_i h
      rw [eq_ofNat_of_toNat h]
      exact textParts?_short rfl (by decide) rest
  split
  · rename_i hlt
    obtain ⟨a, b, c', d, hd, hu⟩ := toList_hex4 c.toNat hlt
    rw [if_pos ⟨hlt, by assumption, by assumption, by assumption, by assumption, by assumption⟩,
      String.toList_append, hd]
    exact textParts?_unit hu rest
  · rename_i hge
    rw [if_neg (fun h => hge h.1), String.toList_singleton]
    exact textParts?_char (by assumption) (by assumption) hge rest

theorem textParts?_escaped (rest : List Char) :
    textParts? (escaped cs ++ '"' :: rest) = some (cs.map partOf, rest) := by
  induction cs with
  | nil => rfl
  | cons c cs ih =>
    rw [escaped, flatMap_cons, append_assoc, textParts?_escapeChar, ← escaped, ih]
    rfl

theorem charsOf?_unit (h : code < 0xD800) (parts : List TextPart) :
    charsOf? (.unit code :: parts) = (charsOf? parts).map (Char.ofNat code :: ·) := by
  have hhigh : isHighUnit code = false := by simp [isHighUnit]; omega
  have hlow : isLowUnit code = false := by simp [isLowUnit]; omega
  cases parts with
  | nil => simp [charsOf?, hhigh, hlow]
  | cons part parts => cases part <;> simp [charsOf?, hhigh, hlow]

theorem charsOf?_partOf (c : Char) (parts : List TextPart) :
    charsOf? (partOf c :: parts) = (charsOf? parts).map (c :: ·) := by
  rw [partOf]
  split
  · rename_i h
    rw [charsOf?_unit (by omega), Char.ofNat_toNat]
  · rfl

theorem charsOf?_map_partOf : charsOf? (cs.map partOf) = some cs := by
  induction cs with
  | nil => rfl
  | cons c cs ih => rw [map_cons, charsOf?_partOf, ih, Option.map_some]

theorem text?_escaped (rest : List Char) :
    text? (escaped cs ++ '"' :: rest) = some (some cs, rest) := by
  simp only [text?, textParts?_escaped, Option.map_some, charsOf?_map_partOf]

/-! ### Numbers -/

/-- What may follow a number: nothing that would go on with it. -/
def Ends (rest : List Char) : Prop :=
  ∀ c ∈ rest.head?, c.isDigit = false ∧ c ≠ '.' ∧ c ≠ 'e' ∧ c ≠ 'E'

theorem Ends.nil : Ends [] := by simp [Ends]

theorem Ends.comma : Ends (',' :: rest) := by simp [Ends]

theorem Ends.bracket : Ends (']' :: rest) := by simp [Ends]

theorem Ends.brace : Ends ('\x7d' :: rest) := by simp [Ends]

theorem digitsValue_toDigits : digitsValue (Nat.toDigits 10 n) = n := by
  rw [digitsValue, ← Nat.ofDigitChars_eq_foldl, Nat.ofDigitChars_ten_toDigits]

theorem head?_toDigits_append (rest : List Char) :
    (Nat.toDigits 10 n ++ rest).head? = (Nat.toDigits 10 n).head? := by
  cases h : Nat.toDigits 10 n with
  | nil => exact absurd h Nat.toDigits_ne_nil
  | cons c cs => rfl

/-- Only zero is written with a leading zero. -/
theorem head_toDigits_ne {n} (h : 0 < n) : (Nat.toDigits 10 n).head? ≠ some '0' := by
  induction n using Nat.strongRecOn with
  | ind n ih =>
    by_cases hn : n < 10
    · rw [Nat.toDigits_of_lt_base hn]
      have hd : ∀ d < 10, 0 < d → some (Nat.digitChar d) ≠ some '0' := by decide
      exact hd n hn h
    · have hdiv : 0 < n / 10 := Nat.div_pos (by omega) (by decide)
      rw [Nat.toDigits_of_base_le (by decide) (by omega), head?_toDigits_append]
      exact ih _ (Nat.div_lt_self h (by decide)) hdiv

theorem takeWhile_digits {ds} (h : ∀ c ∈ ds, c.isDigit) (hr : Ends rest) :
    (ds ++ rest).takeWhile Char.isDigit = ds ∧ (ds ++ rest).dropWhile Char.isDigit = rest := by
  rw [takeWhile_append_of_pos h, dropWhile_append_of_pos h]
  cases rest with
  | nil => simp
  | cons c rest => simp [(hr c rfl).1]

theorem wholePart?_toDigits (n : Nat) (hr : Ends rest) :
    wholePart? (Nat.toDigits 10 n ++ rest) = some (Nat.toDigits 10 n, rest) := by
  rcases Nat.eq_zero_or_pos n with rfl | hn
  · rw [Nat.toDigits_zero, singleton_append, wholePart?.eq_def]
    cases rest with
    | nil => rfl
    | cons c rest => simp [(hr c rfl).1]
  · have hdigits : ∀ c ∈ Nat.toDigits 10 n, c.isDigit := fun c hc =>
      Nat.isDigit_of_mem_toDigits (by decide) (by decide) hc
    obtain ⟨htake, hdrop⟩ := takeWhile_digits hdigits hr
    rw [wholePart?.eq_def]
    split
    · rename_i rest' heq
      have := head_toDigits_ne hn
      rw [← head?_toDigits_append n rest, heq] at this
      simp at this
    · simp [htake, hdrop, Nat.toDigits_ne_nil]

theorem fraction?_of_ends (h : Ends rest) : fraction? rest = some ([], rest) := by
  rw [fraction?.eq_def]
  split
  · exact absurd rfl (h '.' rfl).2.1
  · rfl

theorem exponent?_of_ends (h : Ends rest) : exponent? rest = some ([], rest) := by
  cases rest with
  | nil => rfl
  | cons c rest => simp [exponent?, (h c rfl).2.2]

/-- The number that is read back: beyond 64 bits it is kept as it was written. -/
def rereadNum (n : Nat) : Json := if n < UInt64.size then .num n else .real (toString n)

theorem number?_toDigits (n : Nat) (hr : Ends rest) :
    number? (Nat.toDigits 10 n ++ rest) = some (rereadNum n, rest) := by
  have hsign : (Nat.toDigits 10 n ++ rest).head? ≠ some '-' := by
    rw [head?_toDigits_append]
    intro h
    have := Nat.isDigit_of_mem_toDigits (by decide) (by decide) (mem_of_head? h)
    simp at this
  simp only [number?, if_neg hsign, wholePart?_toDigits n hr, fraction?_of_ends hr,
    exponent?_of_ends hr, digitsValue_toDigits, rereadNum, Option.bind_eq_bind, Option.bind_some,
    isEmpty_nil, Bool.true_and, decide_eq_true_eq, nil_append, append_nil]
  by_cases hn : n < UInt64.size
  · rw [if_pos hn, if_pos hn]
    rfl
  · rw [if_neg hn, if_neg hn, Nat.toString_eq_ofList_toDigits]
    rfl

/-! ### Values -/

mutual

/-- The value that is read back from the text of a value. -/
def reread : Json → Json
  | .num n => rereadNum n
  | .arr items => .arr (rereadItems items)
  | .obj members => .obj (rereadMembers members)
  | .null => .null
  | .bool b => .bool b
  | .real text => .real text
  | .str s => .str s
  | .unpaired text => .unpaired text

def rereadItems : List Json → List Json
  | [] => []
  | item :: items => reread item :: rereadItems items

def rereadMembers : List (String × Json) → List (String × Json)
  | [] => []
  | (key, value) :: members => (key, reread value) :: rereadMembers members

end

mutual

/-- All numbers in the value are natural numbers and all texts are characters. -/
def Plain : Json → Prop
  | .null | .bool _ | .num _ | .str _ => True
  | .arr items => PlainItems items
  | .obj members => PlainMembers members
  | .real _ | .unpaired _ => False

def PlainItems : List Json → Prop
  | [] => True
  | item :: items => Plain item ∧ PlainItems items

def PlainMembers : List (String × Json) → Prop
  | [] => True
  | (_, value) :: members => Plain value ∧ PlainMembers members

end

theorem skipBlank_cons (h : isBlank c = false) (cs : List Char) : skipBlank (c :: cs) = c :: cs := by
  simp [skipBlank, h]

theorem isBlank_of_isDigit (h : c.isDigit) : isBlank c = false := by
  cases hb : isBlank c with
  | false => rfl
  | true =>
    simp only [isBlank, Bool.or_eq_true, beq_iff_eq] at hb
    rcases hb with ((rfl | rfl) | rfl) | rfl <;> simp at h

theorem value?_toDigits (n fuel : Nat) (hr : Ends rest) :
    value? (fuel + 1) (Nat.toDigits 10 n ++ rest) = some (rereadNum n, rest) := by
  rw [← number?_toDigits n hr]
  cases h : Nat.toDigits 10 n with
  | nil => exact absurd h Nat.toDigits_ne_nil
  | cons c cs =>
    have hmem : c ∈ Nat.toDigits 10 n := by simp [h]
    have hc : c.isDigit := Nat.isDigit_of_mem_toDigits (by decide) (by decide) hmem
    rw [cons_append, value?.eq_def]
    simp only [skipBlank_cons (isBlank_of_isDigit hc)]
    split <;> simp_all

/-- How a value starts. -/
theorem toList_render_head (h : j.Plain) :
    ∃ c cs, j.render.toList = c :: cs ∧ isBlank c = false ∧ c ≠ ']' := by
  cases j with
  | null => exact ⟨'n', _, rfl, rfl, by decide⟩
  | bool b =>
    cases b with
    | true => exact ⟨'t', _, rfl, rfl, by decide⟩
    | false => exact ⟨'f', _, rfl, rfl, by decide⟩
  | num n =>
    cases hd : Nat.toDigits 10 n with
    | nil => exact absurd hd Nat.toDigits_ne_nil
    | cons c cs =>
      have hmem : c ∈ Nat.toDigits 10 n := by simp [hd]
      have hc : c.isDigit := Nat.isDigit_of_mem_toDigits (by decide) (by decide) hmem
      refine ⟨c, cs, by simp [render, hd], isBlank_of_isDigit hc, ?_⟩
      rintro rfl
      simp at hc
  | str s => exact ⟨'"', _, by rw [render, toList_renderText], rfl, by decide⟩
  | arr items =>
    cases items with
    | nil => exact ⟨'[', _, rfl, rfl, by decide⟩
    | cons item items => exact ⟨'[', _, by simp [render]; rfl, rfl, by decide⟩
  | obj members =>
    cases members with
    | nil => exact ⟨'\x7b', _, rfl, rfl, by decide⟩
    | cons member members => exact ⟨'\x7b', _, by simp [render]; rfl, rfl, by decide⟩
  | real text => exact h.elim
  | unpaired text => exact h.elim

/-- The value is read back, whatever follows it that is no part of a number. -/
def ReadsBack (j : Json) : Prop :=
  ∀ (fuel : Nat) (rest : List Char), 2 * j.render.toList.length ≤ fuel → Ends rest →
    value? fuel (j.render.toList ++ rest) = some (j.reread, rest)

theorem readsBack_of_succ (hj : j.Plain)
    (h : ∀ (fuel : Nat) (rest : List Char), 2 * j.render.toList.length ≤ fuel + 1 → Ends rest → value? (fuel + 1) (j.render.toList ++ rest) = some (j.reread, rest)) :
    ReadsBack j := by
  intro fuel rest hf hr
  cases fuel with
  | zero =>
    obtain ⟨c, cs, hc, -⟩ := toList_render_head hj
    simp [hc] at hf
  | succ fuel => exact h fuel rest hf hr

theorem readsBack_num : ReadsBack (.num n) := by
  refine readsBack_of_succ (by simp [Plain]) fun fuel rest _ hr => ?_
  rw [render, Nat.toString_eq_repr, Nat.toList_repr, reread]
  exact value?_toDigits n fuel hr

section

attribute [local simp] value? items? members?

theorem items?_last (h : ReadsBack item) (rest : List Char)
    (hf : 2 * item.render.toList.length ≤ fuel) :
    items? (fuel + 1) (item.render.toList ++ ']' :: rest) = some ([item.reread], rest) := by
  rw [items?, h fuel _ hf .bracket]
  simp [skipBlank, isBlank]

theorem items?_more (h : ReadsBack item) {items} (hf : 2 * item.render.toList.length ≤ fuel)
    (hmore : items? fuel more = some (items, rest)) :
    items? (fuel + 1) (item.render.toList ++ ',' :: more) = some (item.reread :: items, rest) := by
  rw [items?, h fuel _ hf .comma]
  simp [skipBlank, isBlank, hmore]

theorem members?_last (h : ReadsBack value) (key : String) (rest : List Char)
    (hf : 2 * value.render.toList.length ≤ fuel) :
    members? (fuel + 1) ((renderText key).toList ++ ':' :: (value.render.toList ++ '\x7d' :: rest)) =
      some (some [(key, value.reread)], rest) := by
  rw [members?, toList_renderText]
  simp [skipBlank, isBlank, text?_escaped, h fuel _ hf .brace]

theorem members?_more (h : ReadsBack value) (key : String)
    (hf : 2 * value.render.toList.length ≤ fuel)
    (hmore : members? fuel more = some (some members, rest)) :
    members? (fuel + 1) ((renderText key).toList ++ ':' :: (value.render.toList ++ ',' :: more)) =
      some (some ((key, value.reread) :: members), rest) := by
  rw [members?, toList_renderText]
  simp [skipBlank, isBlank, text?_escaped, h fuel _ hf .comma, hmore]

theorem value?_bracket {cs : List Char} {items : List Json} (hblank : isBlank c = false) (hc : c ≠ ']')
    (h : items? fuel (c :: cs) = some (items, rest)) :
    value? (fuel + 1) ('[' :: c :: cs) = some (.arr items, rest) := by
  simp [skipBlank_cons hblank, skipBlank_cons (c := '[') rfl, hc, h]

theorem value?_brace {cs} (h : members? fuel ('"' :: cs) = some (some members, rest)) :
    value? (fuel + 1) ('\x7b' :: '"' :: cs) = some (.obj members, rest) := by
  simp [skipBlank, isBlank, h]

mutual

theorem readsBack : ∀ {j : Json}, j.Plain → ReadsBack j
  | .null, _ => readsBack_of_succ (by simp [Plain]) fun fuel rest _ _ => by
    simp [render, skipBlank, isBlank, reread]
  | .bool b, _ => readsBack_of_succ (by simp [Plain]) fun fuel rest _ _ => by
    cases b <;> simp [render, skipBlank, isBlank, reread]
  | .num n, _ => readsBack_num n
  | .str s, _ => readsBack_of_succ (by simp [Plain]) fun fuel rest _ _ => by
    simp [render, toList_renderText, skipBlank, isBlank, text?_escaped, reread]
  | .arr [], _ => readsBack_of_succ (by simp [Plain, PlainItems]) fun fuel rest _ _ => by
    simp [render, skipBlank, isBlank, reread, rereadItems]
  | .arr (item :: items), hp => readsBack_of_succ hp fun fuel rest hf _ => by
    obtain ⟨hitem, hitems⟩ : item.Plain ∧ PlainItems items := by simpa [Plain, PlainItems] using hp
    obtain ⟨fuel, rfl⟩ : ∃ f, fuel = f + 1 := ⟨fuel - 1, by simp [render] at hf; omega⟩
    have hread := items?_render items fuel rest hitems (readsBack hitem)
      (by simp [render] at hf ⊢; omega)
    obtain ⟨c, cs, hc, hblank, hend⟩ := toList_render_head hitem
    rw [hc, cons_append] at hread
    simpa [render, reread, rereadItems, hc] using value?_bracket hblank hend hread
  | .obj [], _ => readsBack_of_succ (by simp [Plain, PlainMembers]) fun fuel rest _ _ => by
    simp [render, skipBlank, isBlank, reread, rereadMembers]
  | .obj ((key, value) :: members), hp => readsBack_of_succ hp fun fuel rest hf _ => by
    obtain ⟨hvalue, hmembers⟩ : value.Plain ∧ PlainMembers members := by
      simpa [Plain, PlainMembers] using hp
    obtain ⟨fuel, rfl⟩ : ∃ f, fuel = f + 1 := ⟨fuel - 1, by simp [render] at hf; omega⟩
    have hread := members?_render members key fuel rest hmembers (readsBack hvalue)
      (by simp [render] at hf ⊢; omega)
    rw [toList_renderText, cons_append] at hread
    simpa [render, reread, rereadMembers, toList_renderText] using value?_brace hread
  | .real _, hp => hp.elim
  | .unpaired _, hp => hp.elim

theorem items?_render : ∀ (items : List Json) {item : Json} (fuel : Nat) (rest : List Char), PlainItems items →
    ReadsBack item → 2 * (item.render.toList ++ (renderItems items).toList).length ≤ fuel →
    items? (fuel + 1) (item.render.toList ++ ((renderItems items).toList ++ ']' :: rest)) =
      some (item.reread :: rereadItems items, rest)
  | [], item, fuel, rest, _, h, hf => items?_last h rest (by simpa [renderItems] using hf)
  | next :: items, item, fuel, rest, hp, h, hf => by
    obtain ⟨fuel, rfl⟩ : ∃ f, fuel = f + 1 := ⟨fuel - 1, by simp [renderItems] at hf; omega⟩
    have hnext := items?_render items fuel rest hp.2 (readsBack hp.1)
      (by simp [renderItems] at hf ⊢; omega)
    simpa [renderItems, rereadItems] using items?_more h (by simp [renderItems] at hf; omega) hnext

theorem members?_render : ∀ (members : List (String × Json)) (key : String) {value : Json} (fuel : Nat)
    (rest : List Char), PlainMembers members → ReadsBack value →
    2 * (value.render.toList ++ (renderMembers members).toList).length ≤ fuel →
    members? (fuel + 1) ((renderText key).toList ++
      ':' :: (value.render.toList ++ ((renderMembers members).toList ++ '\x7d' :: rest))) =
      some (some ((key, value.reread) :: rereadMembers members), rest)
  | [], key, value, fuel, rest, _, h, hf => members?_last h key rest (by simpa [renderMembers] using hf)
  | (key', next) :: members, key, value, fuel, rest, hp, h, hf => by
    obtain ⟨fuel, rfl⟩ : ∃ f, fuel = f + 1 := ⟨fuel - 1, by simp [renderMembers] at hf; omega⟩
    have hnext := members?_render members key' fuel rest hp.2 (readsBack hp.1)
      (by simp [renderMembers] at hf ⊢; omega)
    simpa [renderMembers, rereadMembers] using
      members?_more h key (by simp [renderMembers] at hf; omega) hnext

end

end

/-- Reading the text of a value gives the value back. -/
theorem parse?_render (h : j.Plain) : parse? j.render = some j.reread := by
  have hread := readsBack h (2 * j.render.toList.length + 2) [] (by omega) .nil
  rw [append_nil] at hread
  simp [parse?, hread, skipBlank]

end TypeInfer.Json
