/-
Lines and columns, counted on the bytes of a text. One byte on, the position is the start of the
next line after a line feed and the next column after any other byte (`Source.position_succ`).
-/
import TypeInfer.Proofs.Positions

namespace TypeInfer.Source

open List

variable {line start i n : Nat} {starts : List Nat} {c : Char} {cs : List Char}

/-- The byte that a line feed is written as. -/
def feed : UInt8 := 10

/-- The bytes of characters. -/
def bytesOf (cs : List Char) : List UInt8 := cs.flatMap String.utf8EncodeChar

/-- The bytes of the text. -/
def bytes (source : Source) : List UInt8 := source.text.toByteArray.data.toList

theorem bytes_eq (source : Source) : source.bytes = bytesOf source.text.toList := by
  rw [bytes, ← String.utf8Encode_toList]
  simp [List.utf8Encode, bytesOf]

/-- Only a line feed is written with the byte of one. -/
theorem feed_notMem_encode (hc : c ≠ '\n') : feed ∉ String.utf8EncodeChar c := by
  have hval : c.val.toNat ≠ 10 := fun h => hc (Char.ext (UInt32.toNat_inj.1 h))
  have hbyte : ∀ k, feed = UInt8.ofNat k → k % 256 = 10 := fun k h => by
    simpa [feed] using (congrArg UInt8.toNat h).symm
  intro hmem
  simp only [String.utf8EncodeChar] at hmem
  split at hmem
  · have := hbyte _ (mem_singleton.1 hmem)
    omega
  · split at hmem
    · simp only [mem_cons, not_mem_nil, or_false] at hmem
      rcases hmem with h | h <;> have := hbyte _ h <;> omega
    · split at hmem <;> simp only [mem_cons, not_mem_nil, or_false] at hmem
      · rcases hmem with h | h | h <;> have := hbyte _ h <;> omega
      · rcases hmem with h | h | h | h <;> have := hbyte _ h <;> omega

/-! ### The table of line starts -/

theorem lt_of_mem_lineStartsFrom {k s} (h : s ∈ lineStartsFrom k cs) : k < s := by
  induction cs generalizing k with
  | nil => contradiction
  | cons c cs ih =>
    have hpos := c.utf8Size_pos
    rw [lineStartsFrom] at h
    split at h
    · rcases mem_cons.1 h with rfl | h
      · omega
      · have := ih h
        omega
    · have := ih h
      omega

theorem pairwise_lineStartsFrom (k : Nat) (cs : List Char) : (lineStartsFrom k cs).Pairwise (· < ·) := by
  induction cs generalizing k with
  | nil => exact .nil
  | cons c cs ih =>
    rw [lineStartsFrom]
    split
    · exact pairwise_cons.2 ⟨fun s hs => lt_of_mem_lineStartsFrom hs, ih _⟩
    · exact ih _

/-- A line starts right after each line feed. -/
theorem mem_lineStartsFrom_iff {k} (hk : k ≤ i) : i + 1 ∈ lineStartsFrom k cs ↔ (bytesOf cs)[i - k]? = some feed := by
  induction cs generalizing k with
  | nil => simp [lineStartsFrom, bytesOf]
  | cons c cs ih =>
    have hsize := String.length_utf8EncodeChar c
    have hbytes : bytesOf (c :: cs) = String.utf8EncodeChar c ++ bytesOf cs := flatMap_cons
    rw [lineStartsFrom, hbytes]
    by_cases hin : i - k < c.utf8Size
    · rw [getElem?_append_left (by omega)]
      have hlater : i + 1 ∉ lineStartsFrom (k + c.utf8Size) cs := fun h => by
        have := lt_of_mem_lineStartsFrom h
        omega
      by_cases hc : c = '\n'
      · subst hc
        have hone : i = k := by simp only [show '\n'.utf8Size = 1 from rfl] at hin; omega
        subst hone
        rw [if_pos rfl, Nat.sub_self]
        exact ⟨fun _ => rfl, fun _ => mem_cons_self⟩
      · rw [if_neg hc]
        exact ⟨fun h => absurd h hlater, fun h => absurd (mem_of_getElem? h) (feed_notMem_encode hc)⟩
    · rw [getElem?_append_right (by omega), hsize, show i - k - c.utf8Size = i - (k + c.utf8Size) by omega,
        ← ih (by omega)]
      split
      · rw [mem_cons, or_iff_right (by omega)]
      · rfl

theorem positionFrom_of_lt (h : ∀ s ∈ starts, i < s) : positionFrom i line start starts = (line, i - start + 1) := by
  cases starts with
  | nil => rfl
  | cons next more => rw [positionFrom, if_neg (Nat.not_le.2 (h next mem_cons_self))]

/-- One byte on. -/
theorem positionFrom_succ (hstarts : starts.Pairwise (· < ·)) (hi : start ≤ i) :
    positionFrom (i + 1) line start starts =
      if i + 1 ∈ starts then ((positionFrom i line start starts).1 + 1, 1)
      else ((positionFrom i line start starts).1, (positionFrom i line start starts).2 + 1) := by
  induction starts generalizing line start with
  | nil =>
    rw [if_neg not_mem_nil, positionFrom, positionFrom]
    exact congrArg (line, ·) (by omega)
  | cons next more ih =>
    obtain ⟨hnext, hmore⟩ := pairwise_cons.1 hstarts
    rcases Nat.lt_trichotomy next (i + 1) with hlt | rfl | hgt
    · have hle := Nat.le_of_lt_succ hlt
      rw [positionFrom, positionFrom, if_pos (Nat.le_succ_of_le hle), if_pos hle, ih hmore hle]
      simp only [mem_cons, Nat.ne_of_gt hlt, false_or]
    · rw [if_pos mem_cons_self, positionFrom, positionFrom, if_pos (Nat.le_refl _), if_neg (by omega),
        positionFrom_of_lt hnext, Nat.sub_self]
    · have hlater : ∀ s ∈ next :: more, i + 1 < s := forall_mem_cons.2 ⟨hgt, fun s hs => Nat.lt_trans hgt (hnext s hs)⟩
      rw [if_neg fun h => Nat.lt_irrefl _ (hlater _ h), positionFrom_of_lt hlater,
        positionFrom_of_lt fun s hs => Nat.lt_of_succ_lt (hlater s hs)]
      exact congrArg (line, ·) (by omega)

/-- The column counts from the start of the line. -/
theorem exists_start (line : Nat) (starts : List Nat) (hi : start ≤ i) :
    ∃ s, (start :: starts)[(positionFrom i line start starts).1 - line]? = some s ∧
    s + (positionFrom i line start starts).2 = i + 1 := by
  induction starts generalizing line start with
  | nil => exact ⟨start, by simp [positionFrom], by simp only [positionFrom]; omega⟩
  | cons next more ih =>
    rw [positionFrom]
    by_cases hnext : next ≤ i
    · rw [if_pos hnext]
      obtain ⟨s, hs, hcol⟩ := ih (line + 1) hnext
      have hline := le_line_positionFrom i (line + 1) next more
      refine ⟨s, ?_, hcol⟩
      rw [show (positionFrom i (line + 1) next more).1 - line = (positionFrom i (line + 1) next more).1 - (line + 1) + 1 by
        omega, getElem?_cons_succ, hs]
    · rw [if_neg hnext]
      exact ⟨start, by simp, by dsimp only; omega⟩

variable (source : Source)

theorem lineStarts_tail : source.lineStarts.tail = lineStartsFrom 0 source.text.toList := by
  rw [source.lineStarts_eq]
  rfl

theorem position_succ : source.position (i + 1) =
    if source.bytes[i]? = some feed then ((source.position i).1 + 1, 1)
    else ((source.position i).1, (source.position i).2 + 1) := by
  simp only [position, lineStarts_tail, positionFrom_succ (pairwise_lineStartsFrom 0 _) (Nat.zero_le i),
    mem_lineStartsFrom_iff (Nat.zero_le i), ← bytes_eq, Nat.sub_zero]

theorem exists_lines (hi : i ≤ source.bytes.length) : ∃ before piece, source.bytes.take i = before ++ piece ∧
    (∀ b ∈ before.getLast?, b = feed) ∧ feed ∉ piece ∧
    source.position i = (1 + before.count feed, piece.length + 1) := by
  induction i with
  | zero =>
    refine ⟨[], [], rfl, by simp, not_mem_nil, ?_⟩
    rw [position, lineStarts_tail, positionFrom_of_lt fun s hs => lt_of_mem_lineStartsFrom hs]
    rfl
  | succ i ih =>
    obtain ⟨before, piece, htake, hlast, hpiece, hposition⟩ := ih (Nat.le_of_succ_le hi)
    rw [take_succ_eq_append_getElem hi, htake, position_succ, hposition, getElem?_eq_getElem hi]
    by_cases hfeed : source.bytes[i] = feed
    · rw [hfeed, if_pos rfl]
      refine ⟨before ++ piece ++ [feed], [], by simp, by simp, not_mem_nil, ?_⟩
      simp [count_eq_zero.2 hpiece, Nat.add_assoc]
    · rw [if_neg (by simpa using hfeed)]
      refine ⟨before, piece ++ [source.bytes[i]], by simp, hlast, ?_, by simp⟩
      simp [hpiece, Ne.symm hfeed]

theorem count_bytesOf (cs : List Char) : (bytesOf cs).count feed = cs.count '\n' := by
  induction cs with
  | nil => rfl
  | cons c cs ih =>
    rw [bytesOf, flatMap_cons, count_append, ← bytesOf, ih, count_cons, Nat.add_comm]
    by_cases hc : c = '\n'
    · subst hc
      rfl
    · simp [hc, count_eq_zero.2 (feed_notMem_encode hc)]

theorem length_splitOn (sep : Char) (cs : List Char) : (Text.splitOn sep cs).length = cs.count sep + 1 := by
  induction cs with
  | nil => rfl
  | cons c cs ih =>
    rw [Text.splitOn, count_cons]
    cases h : Text.splitOn sep cs with
    | nil => exact absurd h (Text.splitOn_ne_nil sep cs)
    | cons piece pieces =>
      rw [h, length_cons] at ih
      by_cases hc : c = sep <;> simp [hc] <;> omega

theorem line?_isSome_iff : (source.line? n).isSome ↔ 1 ≤ n ∧ n ≤ source.bytes.count feed + 1 := by
  rw [line?, bytes_eq, count_bytesOf, ← length_splitOn]
  split <;> simp <;> omega

end TypeInfer.Source
