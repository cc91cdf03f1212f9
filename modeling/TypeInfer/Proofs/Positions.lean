/-
Lines and columns of offsets. A later offset stands further on in its line, or on a later line
(`Source.position_cases`). So the merge of two spans of a text is known from their offsets
(`Source.merge_span`).
-/
import TypeInfer.Source

namespace TypeInfer.Source

variable (source : Source)

theorem le_line_positionFrom (offset line start : Nat) (starts : List Nat) :
    line ≤ (positionFrom offset line start starts).1 := by
  induction starts generalizing line start with
  | nil => exact Nat.le_refl _
  | cons next more ih =>
    rw [positionFrom]
    by_cases hnext : next ≤ offset
    · rw [if_pos hnext]
      exact Nat.le_of_succ_le (ih (line + 1) next)
    · exact Nat.le_of_eq (by rw [if_neg hnext])

theorem positionFrom_cases {i j line start starts} (hij : i ≤ j) (hi : start ≤ i) :
    ((positionFrom i line start starts).1 = (positionFrom j line start starts).1 ∧
      (positionFrom j line start starts).2 = (positionFrom i line start starts).2 + (j - i)) ∨
    (positionFrom i line start starts).1 < (positionFrom j line start starts).1 := by
  have hsame : j - start + 1 = i - start + 1 + (j - i) := by omega
  induction starts generalizing line start with
  | nil => exact .inl ⟨rfl, hsame⟩
  | cons next more ih =>
    rw [positionFrom, positionFrom]
    by_cases hnext : next ≤ i
    · rw [if_pos hnext, if_pos (Nat.le_trans hnext hij)]
      exact ih hnext (by omega)
    · rw [if_neg hnext]
      by_cases hnext' : next ≤ j
      · rw [if_pos hnext']
        exact .inr (le_line_positionFrom j (line + 1) next more)
      · rw [if_neg hnext']
        exact .inl ⟨rfl, hsame⟩

/-- A later offset stands further on in the same line, or on a later line. -/
theorem position_cases {i j} (hij : i ≤ j) :
    ((source.position i).1 = (source.position j).1 ∧ (source.position j).2 = (source.position i).2 + (j - i)) ∨
    (source.position i).1 < (source.position j).1 :=
  positionFrom_cases hij (Nat.zero_le i)

theorem line_le_line {i j} (hij : i ≤ j) : (source.position i).1 ≤ (source.position j).1 := by
  rcases source.position_cases hij with ⟨hline, -⟩ | hline <;> omega

theorem merge_span {a b c d} (hstart : a ≤ c) (hstop : b ≤ d) :
    (source.span a b).merge (source.span c d) =
      { source.span a d with
        endCol := if (source.position b).1 = (source.position d).1 then (source.position b).2
          else (source.position d).2 } := by
  have hstarts := source.line_le_line hstart
  have hstops := source.line_le_line hstop
  have htie : (source.position d).1 ≤ (source.position b).1 ↔ (source.position b).1 = (source.position d).1 := by omega
  show Span.mk source.path (min a c) (max b d) (min (source.position a).1 (source.position c).1)
    (if (source.position a).1 ≤ (source.position c).1 then (source.position a).2 else (source.position c).2)
    (max (source.position b).1 (source.position d).1)
    (if (source.position d).1 ≤ (source.position b).1 then (source.position b).2 else (source.position d).2) = _
  rw [Nat.min_eq_left hstart, Nat.max_eq_right hstop, Nat.min_eq_left hstarts, Nat.max_eq_right hstops, if_pos hstarts]
  simp only [htie]
  rfl

/-- It goes from the first start to the last end, unless both end on one line and apart. -/
theorem merge_span_eq_iff {a b c d} (hstart : a ≤ c) (hstop : b ≤ d) :
    (source.span a b).merge (source.span c d) = source.span a d ↔
      b = d ∨ (source.position b).1 < (source.position d).1 := by
  rw [source.merge_span hstart hstop]
  rcases source.position_cases hstop with ⟨hline, hcol⟩ | hline
  · rw [if_pos hline]
    constructor
    · intro h
      have hend : (source.position b).2 = (source.position d).2 := congrArg Span.endCol h
      exact .inl (by omega)
    · rintro (rfl | hlt)
      · rfl
      · exact absurd hline (Nat.ne_of_lt hlt)
  · rw [if_neg (Nat.ne_of_lt hline)]
    exact ⟨fun _ => .inr hline, fun _ => rfl⟩

end TypeInfer.Source
